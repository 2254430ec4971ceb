import Mathlib.Data.List.DropRight
import Mathlib.Tactic

/-! # Lines and blanks

A text is a list of letters. It is trimmed of the letters a predicate calls blank, and
it is cut into lines at a fixed letter, either keeping that letter at the end of each
line or dropping it. Texts are joined with a separator between them.
-/

namespace TruenasRos.Lines

open List

variable {α : Type*}

section Trim

variable {p : α → Bool} {c : α} {s t : List α}

def trimEnd (p : α → Bool) (s : List α) : List α := s.rdropWhile p

def trim (p : α → Bool) (s : List α) : List α := trimEnd p (s.dropWhile p)

theorem trimEnd_cons : trimEnd p (c :: s) =
    if trimEnd p s = [] ∧ p c then [] else c :: trimEnd p s := by
  simp only [trimEnd, rdropWhile, reverse_cons, dropWhile_append,
    List.reverse_eq_nil_iff, List.isEmpty_iff]
  by_cases hs : s.reverse.dropWhile p = []
  · cases hc : p c <;> simp [hs, hc]
  · simp [hs]

theorem trimEnd_append_cons (hc : p c = false) :
    trimEnd p (s ++ c :: t) = s ++ c :: trimEnd p t := by
  induction s with
  | nil => simp [trimEnd_cons, hc]
  | cons d s ih => simp [trimEnd_cons, ih]

theorem trimEnd_concat (hc : p c = true) : trimEnd p (s ++ [c]) = trimEnd p s :=
  rdropWhile_concat_pos p s c hc

theorem trimEnd_concat_not (hc : p c = false) : trimEnd p (s ++ [c]) = s ++ [c] := by
  rw [trimEnd_append_cons hc]
  rfl

theorem trimEnd_trimEnd : trimEnd p (trimEnd p s) = trimEnd p s :=
  rdropWhile_idempotent p s

theorem dropWhile_trimEnd : (trimEnd p s).dropWhile p = trimEnd p (s.dropWhile p) := by
  induction s with
  | nil => rfl
  | cons c s ih =>
    cases hc : p c with
    | false => simp [trimEnd_cons, hc]
    | true =>
      by_cases hs : trimEnd p s = []
      · rw [trimEnd_cons, if_pos ⟨hs, hc⟩, dropWhile_cons_of_pos hc, ← ih, hs]
      · rw [trimEnd_cons, if_neg fun h => hs h.1, dropWhile_cons_of_pos hc,
          dropWhile_cons_of_pos hc, ih]

theorem trim_trimEnd : trim p (trimEnd p s) = trim p s := by
  rw [trim, dropWhile_trimEnd, trimEnd_trimEnd, trim]

theorem trim_cons (hc : p c = true) : trim p (c :: s) = trim p s := by
  rw [trim, dropWhile_cons_of_pos hc, trim]

theorem trim_cons_not (hc : p c = false) : trim p (c :: s) = c :: trimEnd p s := by
  rw [trim, dropWhile_cons_of_neg (by simp [hc]), trimEnd_cons, if_neg (by simp [hc])]

theorem trim_concat (hc : p c = true) : trim p (s ++ [c]) = trim p s := by
  rw [← trim_trimEnd, trimEnd_concat hc, trim_trimEnd]

end Trim

section Split

variable [DecidableEq α] {nl : α} {s t : List α}

/-- The lines of a text, each with the letter that ended it. -/
def splitInclusive (nl : α) : List α → List (List α)
  | [] => []
  | c :: s =>
    if c = nl then [c] :: splitInclusive nl s
    else
      match splitInclusive nl s with
      | [] => [[c]]
      | l :: ls => (c :: l) :: ls

theorem splitInclusive_line (h : nl ∉ s) :
    splitInclusive nl (s ++ nl :: t) = (s ++ [nl]) :: splitInclusive nl t := by
  induction s with
  | nil => simp [splitInclusive]
  | cons c s ih =>
    rw [mem_cons, not_or] at h
    rw [cons_append, splitInclusive, if_neg fun hc => h.1 hc.symm, ih h.2]
    rfl

theorem splitInclusive_flatten {ls : List (List α)} (h : ∀ l ∈ ls, nl ∉ l) :
    splitInclusive nl (ls.flatMap fun l => l ++ [nl]) = ls.map fun l => l ++ [nl] := by
  induction ls with
  | nil => rfl
  | cons l ls ih =>
    rw [forall_mem_cons] at h
    rw [flatMap_cons, append_assoc, singleton_append, splitInclusive_line h.1, ih h.2, map_cons]

theorem notMem_of_mem_splitOn {l : List α} (h : l ∈ s.splitOn nl) : nl ∉ l := by
  induction s generalizing l with
  | nil =>
    rw [splitOn_nil, mem_singleton] at h
    simp [h]
  | cons c s ih =>
    rw [splitOn, splitOnP_cons_eq_if_modifyHead] at h
    split_ifs at h with hc
    · rcases mem_cons.1 h with rfl | h
      · exact not_mem_nil
      · exact ih h
    · rw [splitOn] at ih
      cases hs : s.splitOnP (· == nl) with
      | nil => exact absurd hs (splitOnP_ne_nil _ _)
      | cons m ms =>
        rw [hs] at h ih
        rcases mem_cons.1 h with rfl | h
        · rw [mem_cons, not_or]
          exact ⟨fun hn => hc (by simp [hn]), ih mem_cons_self⟩
        · exact ih (mem_cons_of_mem m h)

/-- Every `cr`, with a line break right after it or without, becomes one line break. -/
def unify (cr nl : α) : List α → List α
  | [] => []
  | [c] => [if c = cr then nl else c]
  | c :: d :: s =>
    if c = cr then nl :: (if d = nl then unify cr nl s else unify cr nl (d :: s))
    else c :: unify cr nl (d :: s)

section Unify

variable {cr c d : α}

theorem unify_cons (hc : c ≠ cr) : unify cr nl (c :: s) = c :: unify cr nl s := by
  cases s <;> simp [unify, hc]

theorem unify_pair : unify cr nl (cr :: nl :: s) = nl :: unify cr nl s := by
  simp [unify]

theorem unify_lone (hd : d ≠ nl) : unify cr nl (cr :: d :: s) = nl :: unify cr nl (d :: s) := by
  simp [unify, hd]

theorem unify_append (h : cr ∉ s) : unify cr nl (s ++ t) = s ++ unify cr nl t := by
  induction s with
  | nil => rfl
  | cons c s ih =>
    rw [mem_cons, not_or] at h
    rw [cons_append, unify_cons fun hc => h.1 hc.symm, ih h.2]
    rfl

theorem unify_of_notMem (h : cr ∉ s) : unify cr nl s = s := by
  have hs : unify cr nl (s ++ []) = s ++ unify cr nl [] := unify_append h
  rwa [append_nil, unify, append_nil] at hs

theorem unify_break (hne : nl ≠ cr) :
    unify cr nl (s ++ nl :: t) = unify cr nl (s ++ [nl]) ++ unify cr nl t := by
  induction hs : s.length using Nat.strong_induction_on generalizing s with
  | _ n ih =>
    rcases s with - | ⟨c, - | ⟨d, s⟩⟩
    · simp [unify_cons hne, unify]
    · by_cases hc : c = cr
      · subst hc
        simp [unify]
      · simp [unify_cons hc, unify_cons hne, unify]
    · simp only [length_cons] at hs
      by_cases hc : c = cr
      · subst hc
        by_cases hd : d = nl
        · subst hd
          simp only [cons_append, unify_pair]
          rw [ih s.length (by omega) rfl]
        · simp only [cons_append, unify_lone hd]
          rw [← cons_append, ih (d :: s).length (by simp; omega) rfl]
          rfl
      · simp only [cons_append, unify_cons hc]
        rw [← cons_append, ih (d :: s).length (by simp; omega) rfl]
        rfl

theorem unify_flatMap {β : Type*} (hne : nl ≠ cr) {f : β → List α} {l : List β}
    (h : ∀ b ∈ l, ∃ s, f b = s ++ [nl]) (t : List α) :
    unify cr nl (l.flatMap f ++ t) = l.flatMap (fun b => unify cr nl (f b)) ++ unify cr nl t := by
  induction l with
  | nil => rfl
  | cons b l ih =>
    rw [forall_mem_cons] at h
    obtain ⟨s, hs⟩ := h.1
    rw [flatMap_cons, flatMap_cons, append_assoc, append_assoc, ← ih h.2, hs,
      append_assoc, singleton_append, unify_break hne]

end Unify

end Split

section Join

variable {sep t : List α} {ts : List (List α)} {c : α}

theorem intercalate_concat (sep : List α) (h : ts ≠ []) :
    sep.intercalate (ts ++ [t]) = sep.intercalate ts ++ sep ++ t := by
  induction ts with
  | nil => exact absurd rfl h
  | cons u ts ih =>
    cases ts with
    | nil => simp
    | cons v ts =>
      rw [cons_append, cons_append, intercalate_cons_cons, ← cons_append,
        ih (by simp), intercalate_cons_cons]
      simp

theorem exists_mem_of_mem_intercalate (hc : c ∈ sep.intercalate ts)
    (hs : c ∉ sep) : ∃ t ∈ ts, c ∈ t := by
  induction ts with
  | nil => simp at hc
  | cons u ts ih =>
    cases ts with
    | nil => exact ⟨u, by simp, by simpa using hc⟩
    | cons v ts =>
      rw [intercalate_cons_cons, mem_append, mem_append] at hc
      rcases hc with (hc | hc) | hc
      · exact ⟨u, by simp, hc⟩
      · exact absurd hc hs
      · obtain ⟨t, ht, hct⟩ := ih hc
        exact ⟨t, mem_cons_of_mem u ht, hct⟩

end Join

end TruenasRos.Lines
