import TruenasRos.Lib.Lines

/-! # The shape of a path

Why a name cannot be a single directory entry, and why a path cannot be a relative one that a
walk takes apart component by component.
-/

namespace TruenasRos.Path

open List

abbrev Name := List UInt8

inductive Defect
  | Empty
  | Absolute
  | EmptyComponent
  | Dot
  | DotDot
  | Nul
  | Separator
  deriving DecidableEq

def slash : UInt8 := 47

def dot : UInt8 := 46

/-- An empty path has one empty component. -/
def components (path : Name) : List Name := path.splitOn slash

def componentDefect (name : Name) : Option Defect :=
  if name = [] then some .Empty
  else if name = [dot] then some .Dot
  else if name = [dot, dot] then some .DotDot
  else if slash ∈ name then some .Separator
  else if 0 ∈ name then some .Nul
  else none

def relativeDefect (path : Name) : Option Defect :=
  if path = [] then some .Empty
  else if path.head? = some slash then some .Absolute
  else
    (components path).findSome? fun c =>
      match componentDefect c with
      | some .Empty => some .EmptyComponent
      | other => other

variable {name path : Name} {names : List Name}

/-- A name that a directory entry can have and that leads nowhere else. -/
structure Plain (name : Name) : Prop where
  ne_nil : name ≠ []
  ne_dot : name ≠ [dot]
  ne_dotDot : name ≠ [dot, dot]
  slash_notMem : slash ∉ name
  nul_notMem : 0 ∉ name

theorem componentDefect_eq_none_iff : componentDefect name = none ↔ Plain name := by
  unfold componentDefect
  constructor
  · intro h
    split_ifs at h with he hd hdd hs hn
    exact ⟨he, hd, hdd, hs, hn⟩
  · rintro ⟨he, hd, hdd, hs, hn⟩
    simp [he, hd, hdd, hs, hn]

/-- What is wrong with a component of a path. -/
inductive Offends : Name → Defect → Prop
  | empty : Offends [] .EmptyComponent
  | dot : Offends [dot] .Dot
  | dotDot : Offends [dot, dot] .DotDot
  | nul {name : Name} (h : 0 ∈ name) : Offends name .Nul

def reported (c : Name) : Option Defect :=
  match componentDefect c with
  | some .Empty => some .EmptyComponent
  | other => other

theorem reported_eq_none_iff : reported name = none ↔ Plain name := by
  rw [← componentDefect_eq_none_iff, reported]
  split
  · simp_all
  · rfl

theorem reported_eq_some_iff {d : Defect} (hs : slash ∉ name) :
    reported name = some d ↔ Offends name d := by
  constructor
  · intro h
    unfold reported componentDefect at h
    split_ifs at h with he hd hdd hn
    · cases he
      cases h
      exact .empty
    · cases hd
      cases h
      exact .dot
    · cases hdd
      cases h
      exact .dotDot
    · cases h
      exact .nul hn
  · rintro (- | - | - | h)
    · rfl
    · rfl
    · rfl
    · have hp : ∀ n : Name, 0 ∉ n → name ≠ n := fun n hn he => hn (he ▸ h)
      simp [reported, componentDefect, hs, h, hp [] (by decide), hp [dot] (by decide),
        hp [dot, dot] (by decide)]

theorem relativeDefect_of_ne (hne : path ≠ []) (ha : path.head? ≠ some slash) :
    relativeDefect path = (components path).findSome? reported := by
  rw [relativeDefect, if_neg hne, if_neg ha]
  rfl

theorem relativeDefect_eq_none : relativeDefect path = none ↔
    path ≠ [] ∧ path.head? ≠ some slash ∧ ∀ name ∈ components path, Plain name := by
  by_cases hne : path = []
  · simp [relativeDefect, hne]
  by_cases ha : path.head? = some slash
  · simp [relativeDefect, hne, ha]
  · simp [relativeDefect_of_ne hne ha, reported_eq_none_iff, hne, ha]

theorem components_join (hne : names ≠ []) (h : ∀ n ∈ names, Plain n) :
    components ([slash].intercalate names) = names :=
  splitOn_intercalate slash (fun n hn => (h n hn).slash_notMem) hne

theorem head?_join (hne : names ≠ []) (h : ∀ n ∈ names, Plain n) :
    ∃ b, b ≠ slash ∧ ([slash].intercalate names).head? = some b := by
  obtain ⟨n, names, rfl⟩ := exists_cons_of_ne_nil hne
  have hn := h n mem_cons_self
  obtain ⟨b, n, rfl⟩ := exists_cons_of_ne_nil hn.ne_nil
  refine ⟨b, fun hb => hn.slash_notMem (by simp [hb]), ?_⟩
  cases names with
  | nil => simp
  | cons m names => simp

/-- A path passes just when it joins plain names, which its components then are. Of a path that
does not pass, the leftmost component that is not plain is reported, unless the whole path is empty
or absolute. -/
theorem relativeDefect_grammar (path : Name) : (relativeDefect path = none ↔
      ∃ names, names ≠ [] ∧ (∀ n ∈ names, Plain n) ∧ path = [slash].intercalate names) ∧
    (∀ names, names ≠ [] → (∀ n ∈ names, Plain n) → path = [slash].intercalate names →
      components path = names) ∧
    ∀ d, relativeDefect path = some d ↔
      path = [] ∧ d = .Empty ∨ path.head? = some slash ∧ d = .Absolute ∨
      path ≠ [] ∧ path.head? ≠ some slash ∧ ∃ before name after,
        components path = before ++ name :: after ∧ (∀ n ∈ before, Plain n) ∧ Offends name d := by
  refine ⟨?_, ?_, fun d => ?_⟩
  · rw [relativeDefect_eq_none]
    constructor
    · rintro ⟨-, -, h⟩
      exact ⟨components path, splitOn_ne_nil _ _, h, (intercalate_splitOn slash).symm⟩
    · rintro ⟨names, hne, h, rfl⟩
      obtain ⟨b, hb, hh⟩ := head?_join hne h
      rw [hh, components_join hne h]
      exact ⟨fun he => by simp [he] at hh, by simpa using hb, h⟩
  · rintro names hne h rfl
    exact components_join hne h
  · by_cases hne : path = []
    · simp [relativeDefect, hne, eq_comm]
    by_cases ha : path.head? = some slash
    · simp [relativeDefect, hne, ha, eq_comm]
    simp only [relativeDefect_of_ne hne ha, findSome?_eq_some_iff, reported_eq_none_iff, hne, ha,
      false_and, false_or, ne_eq, not_false_eq_true, true_and]
    constructor
    · rintro ⟨before, name, after, hc, hr, hb⟩
      have hm : name ∈ components path := by simp [hc]
      have hs : slash ∉ name := Lines.notMem_of_mem_splitOn hm
      exact ⟨before, name, after, hc, hb, (reported_eq_some_iff hs).1 hr⟩
    · rintro ⟨before, name, after, hc, hb, ho⟩
      have hm : name ∈ components path := by simp [hc]
      have hs : slash ∉ name := Lines.notMem_of_mem_splitOn hm
      exact ⟨before, name, after, hc, (reported_eq_some_iff hs).2 ho, hb⟩

theorem relativeDefect_of_component (h : componentDefect name = none) :
    relativeDefect name = none := by
  have hd := h
  unfold componentDefect at h
  split_ifs at h with he hdot hdo hs hn
  have ho : components name = [name] := splitOn_eq_singleton hs
  have hh : name.head? ≠ some slash := fun hh => hs (mem_of_mem_head? hh)
  simp [relativeDefect, he, hh, ho, hd]

end TruenasRos.Path
