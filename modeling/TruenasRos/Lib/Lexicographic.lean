import Mathlib.Tactic

/-! # Lexicographic order of lists

Facts about the lexicographic order that concern prefixes: a list comes before
its proper extensions, and two lists that differ before either ends stay in
order whatever is appended to them.
-/

namespace TruenasRos.Lexicographic

open List

variable {α : Type*}

section LT

variable [LT α]

theorem lt_append_cons (l : List α) (a : α) (m : List α) : l < l ++ a :: m := by
  induction l with
  | nil => simp
  | cons b l ih => exact cons_lt_cons_iff.2 (.inr ⟨rfl, ih⟩)

theorem append_lt_append {l m : List α} (hlt : l < m) (hs : ¬l <+: m) (x y : List α) :
    l ++ x < m ++ y := by
  induction l generalizing m with
  | nil => exact absurd m.nil_prefix hs
  | cons a l ih =>
    cases m with
    | nil => exact absurd hlt (not_lt_nil _)
    | cons b m =>
      rw [cons_append, cons_append, cons_lt_cons_iff]
      rcases cons_lt_cons_iff.1 hlt with ha | ⟨rfl, hl⟩
      · exact .inl ha
      · exact .inr ⟨rfl, ih hl fun hp => hs ((prefix_cons_inj a).2 hp)⟩

end LT

section Compare

variable [Ord α] [LT α] [LE α] [Std.LawfulOrderOrd α] [Std.LawfulOrderLT α] [Std.LawfulEqOrd α]

theorem compare_eq_lt_iff (l m : List α) : compare l m = .lt ↔ l < m := by
  induction l generalizing m with
  | nil => cases m <;> simp
  | cons a l ih =>
    cases m with
    | nil => simp
    | cons b m =>
      rw [List.compare_cons_cons, Ordering.then_eq_lt, Std.compare_eq_lt,
        Std.LawfulEqOrd.compare_eq_iff_eq, ih, List.cons_lt_cons_iff]

end Compare

end TruenasRos.Lexicographic
