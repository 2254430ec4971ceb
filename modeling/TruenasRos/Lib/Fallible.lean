import Mathlib.Tactic

/-! # Steps that may fail

What a chain of such steps comes to, and a loop over a list.
-/

namespace TruenasRos

open List

variable {α β ε : Type} {l : List α} {f : α → Except ε β} {b : β}

theorem bind_eq_ok_iff {x : Except ε α} : x >>= f = .ok b ↔ ∃ a, x = .ok a ∧ f a = .ok b := by
  cases x with
  | error e | ok a => simp [bind, Except.bind]

theorem bind_unit_eq_ok_iff {x : Except ε Unit} {f : Unit → Except ε β} :
    x >>= f = .ok b ↔ x = .ok () ∧ f () = .ok b := by
  rw [bind_eq_ok_iff]
  exact ⟨fun ⟨_, hx, hf⟩ => ⟨hx, hf⟩, fun ⟨hx, hf⟩ => ⟨(), hx, hf⟩⟩

theorem mapM_eq_ok_iff {m : List β} :
    l.mapM f = .ok m ↔ List.Forall₂ (fun a b => f a = .ok b) l m := by
  induction l generalizing m with
  | nil => simp [pure, Except.pure]
  | cons a l ih =>
    simp only [mapM_cons, bind_eq_ok_iff, ih, pure, Except.pure, Except.ok.injEq,
      forall₂_cons_left_iff]
    grind

theorem mapM_eq_ok_map {g : α → β} (h : ∀ a ∈ l, f a = .ok (g a)) : l.mapM f = .ok (l.map g) := by
  rw [mapM_eq_ok_iff, forall₂_map_right_iff, forall₂_same]
  exact h

/-- A loop does not stop at a failure that none of its rounds has. -/
theorem mapM_ne_error {e : ε} (h : ∀ a ∈ l, f a ≠ .error e) : l.mapM f ≠ .error e := by
  induction l with
  | nil => simp [pure, Except.pure]
  | cons a l ih =>
    rw [forall_mem_cons] at h
    have hr := ih h.2
    rw [mapM_cons]
    cases hf : f a with
    | error e' =>
      intro heq
      exact h.1 (hf.trans (congrArg Except.error (Except.error.inj heq)))
    | ok b =>
      cases hl : l.mapM f with
      | error e' => simpa [hl, bind, Except.bind] using hr
      | ok bs => simp [bind, Except.bind, pure, Except.pure]

end TruenasRos
