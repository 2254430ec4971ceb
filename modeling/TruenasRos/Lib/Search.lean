import Mathlib.Tactic

/-! # The first occurrence of a pattern

Where an element, or a pattern, first stands in a text. More text behind does not move it, and
neither does cutting the text anywhere behind the occurrence.
-/

namespace TruenasRos.Search

open List

section

variable {α : Type*} {p : α → Bool} {l : List α} {k : ℕ}

theorem findIdx?_eq_some_iff_append : l.findIdx? p = some k ↔
    ∃ l₁ a l₂, l = l₁ ++ a :: l₂ ∧ l₁.length = k ∧ p a = true ∧ ∀ b ∈ l₁, p b = false := by
  constructor
  · intro h
    obtain ⟨hlt, ha, hb⟩ := findIdx?_eq_some_iff_getElem.1 h
    refine ⟨l.take k, l[k], l.drop (k + 1), ?_, length_take_of_le hlt.le, ha, fun b hb' => ?_⟩
    · rw [← drop_eq_getElem_cons hlt, take_append_drop]
    · obtain ⟨i, hi, rfl⟩ := mem_take_iff_getElem.1 hb'
      simpa using hb i (by omega)
  · rintro ⟨l₁, a, l₂, rfl, rfl, ha, hb⟩
    rw [findIdx?_append, findIdx?_eq_none_iff.2 hb, findIdx?_cons, ha]
    simp

end

variable {α : Type*} [DecidableEq α] {pat w : List α} {k m : ℕ}

def position (pat : List α) : List α → Option ℕ
  | [] => none
  | a :: w => if pat <+: a :: w then some 0 else (position pat w).map (· + 1)

theorem position_eq_none_iff (hp : pat ≠ []) : position pat w = none ↔ ¬pat <:+: w := by
  induction w with
  | nil => simp [position, hp]
  | cons a w ih =>
    rw [position, infix_cons_iff, not_or, ← ih]
    split <;> simp_all

section

variable (h : position pat w = some k)
include h

theorem exists_of_position : ∃ l : List α, l.length = k ∧ l ++ pat <+: w := by
  induction w generalizing k with
  | nil => exact nomatch h
  | cons a w ih =>
    rw [position] at h
    split at h
    · rename_i hp
      cases h
      exact ⟨[], rfl, hp⟩
    · obtain ⟨j, hj, rfl⟩ := Option.map_eq_some_iff.1 h
      obtain ⟨l, rfl, hl⟩ := ih hj
      exact ⟨a :: l, rfl, cons_prefix_cons.2 ⟨rfl, hl⟩⟩

theorem add_le_of_position : k + pat.length ≤ w.length := by
  obtain ⟨l, rfl, hl⟩ := exists_of_position h
  simpa using hl.length_le

theorem position_append (x : List α) : position pat (w ++ x) = some k := by
  induction w generalizing k with
  | nil => exact nomatch h
  | cons a w ih =>
    have hc : a :: w <+: a :: (w ++ x) := prefix_append (a :: w) x
    rw [position] at h
    rw [cons_append, position]
    split at h
    · rename_i hp
      rw [if_pos (hp.trans hc), h]
    · rename_i hn
      obtain ⟨j, hj, rfl⟩ := Option.map_eq_some_iff.1 h
      have hl : pat.length ≤ (a :: w).length :=
        ((Nat.le_add_left _ j).trans (add_le_of_position hj)).trans (Nat.le_succ _)
      rw [if_neg fun hp => hn (prefix_of_prefix_length_le hp hc hl), ih hj]
      rfl

theorem infix_take_of_position (hm : k + pat.length ≤ m) : pat <:+: w.take m := by
  obtain ⟨l, rfl, hl⟩ := exists_of_position h
  have ht : l ++ pat <+: w.take m := prefix_take_iff.2 ⟨hl, by simpa using hm⟩
  exact (suffix_append l pat).isInfix.trans ht.isInfix

theorem position_take (hp : pat ≠ []) (hm : k + pat.length ≤ m) :
    position pat (w.take m) = some k := by
  cases ht : position pat (w.take m) with
  | none => exact absurd (infix_take_of_position h hm) ((position_eq_none_iff hp).1 ht)
  | some j =>
    have ha := position_append ht (w.drop m)
    rwa [take_append_drop, h, eq_comm] at ha

end

end TruenasRos.Search
