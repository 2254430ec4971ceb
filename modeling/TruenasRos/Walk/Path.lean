import TruenasRos.Walk.QueryTree

/-! # Paths and components

A walk writes the chain of components that leads to a directory as one path, and
a cursor takes it apart again. The two agree for components that are not empty
and have no slash.
-/

namespace TruenasRos.Walk

open List

/-- A name a path can be taken apart at. -/
def Component (c : Name) : Prop := c ≠ [] ∧ SLASH ∉ c

def pathOf : Anchor → Bytes
  | [] => []
  | c :: a => if pathOf a = [] then c else pathOf a ++ SLASH :: c

variable {a : Anchor} {c : Name}

theorem pathOf_eq_nil_iff (h : ∀ c ∈ a, Component c) : pathOf a = [] ↔ a = [] := by
  cases a with
  | nil => exact ⟨fun _ => rfl, fun _ => rfl⟩
  | cons c a =>
    have hc := (h c mem_cons_self).1
    unfold pathOf
    split_ifs <;> simp [hc]

theorem pathOf_cons (h : ∀ c ∈ a, Component c) (hne : a ≠ []) :
    pathOf (c :: a) = pathOf a ++ SLASH :: c := by
  rw [pathOf, if_neg (mt (pathOf_eq_nil_iff h).1 hne)]

theorem leafName_pathOf (hc : Component c) : leafName (pathOf (c :: a)) = c := by
  have hall : ∀ b ∈ c.reverse, (b != SLASH) = true := by
    intro b hb
    rw [bne_iff_ne]
    rintro rfl
    exact hc.2 (mem_reverse.1 hb)
  unfold leafName pathOf
  split_ifs
  · rw [← append_nil c.reverse, takeWhile_append_of_pos hall]
    simp
  · rw [reverse_append, reverse_cons, append_assoc, takeWhile_append_of_pos hall]
    simp

theorem slash_not_mem_of_mem_splitOn {key s : Bytes} (hs : s ∈ key.splitOn SLASH) : SLASH ∉ s := by
  induction key generalizing s with
  | nil =>
    rw [splitOn_nil, mem_singleton] at hs
    exact hs ▸ not_mem_nil
  | cons b key ih =>
    obtain ⟨l, ls, hl⟩ := exists_cons_of_ne_nil (splitOn_ne_nil SLASH key)
    rw [splitOn_cons_eq_if_modifyHead, hl] at hs
    rw [hl] at ih
    split at hs
    · rcases mem_cons.1 hs with rfl | hs
      · exact not_mem_nil
      · exact ih hs
    · rename_i hb
      rcases mem_cons.1 hs with rfl | hs
      · rw [mem_cons, not_or]
        exact ⟨fun h => hb (by rw [h, beq_self_eq_true]), ih mem_cons_self⟩
      · exact ih (mem_cons_of_mem l hs)

theorem component_of_mem_components {c : TreeCursor} {s : Name} (h : s ∈ c.components) :
    Component s := by
  obtain ⟨hs, hne⟩ := mem_filter.1 h
  exact ⟨by simpa using hne, slash_not_mem_of_mem_splitOn hs⟩

theorem filter_splitOn_pathOf (h : ∀ c ∈ a, Component c) :
    ((pathOf a).splitOn SLASH).filter (· ≠ []) = a.reverse := by
  induction a with
  | nil => rfl
  | cons c a ih =>
    have hc := h c mem_cons_self
    have ih := ih fun c' hc' => h c' (mem_cons_of_mem c hc')
    have hs : c.splitOn SLASH = [c] := splitOn_eq_singleton hc.2
    unfold pathOf
    split_ifs with hnil
    · rw [hnil, splitOn_nil] at ih
      rw [hs, reverse_cons, ← ih]
      simp [hc.1]
    · rw [splitOn_append_cons_self, filter_append, ih, hs, reverse_cons]
      simp [hc.1]

theorem components_pathOf (h : ∀ c ∈ a, Component c) (is_dir skip : Bool) :
    TreeCursor.components ⟨if is_dir then pathOf a ++ [SLASH] else pathOf a, skip⟩ =
      a.reverse := by
  unfold TreeCursor.components
  cases is_dir with
  | false => exact filter_splitOn_pathOf h
  | true =>
    simp only [if_true]
    rw [splitOn_append_cons_self, filter_append, filter_splitOn_pathOf h]
    simp

theorem getLast?_pathOf_ne (hc : Component c) : (pathOf (c :: a)).getLast? ≠ some SLASH := by
  have hl : c.getLast? ≠ some SLASH := fun h => hc.2 (mem_of_getLast? h)
  unfold pathOf
  split_ifs
  · exact hl
  · rw [getLast?_append, getLast?_cons_of_ne_nil hc.1]
    cases h : c.getLast? with
    | none => exact absurd (getLast?_eq_none_iff.1 h) hc.1
    | some b => rwa [h] at hl

end TruenasRos.Walk
