import Mathlib.Tactic

/-! # Logs with a last word

Once an entry that closes a log is in it, only entries that are allowed after a close follow.
-/

namespace TruenasRos.Finality

open List

variable {α : Type*} {closes allowed : α → Bool} {log new : List α}

/-- Only allowed entries stand behind one that closes the log. -/
def Final (closes allowed : α → Bool) (log : List α) : Prop :=
  log.Pairwise fun a b => closes a = true → allowed b = true

/-- Whether an entry has closed the log. -/
def Closed (closes : α → Bool) (log : List α) : Prop := ∃ a ∈ log, closes a = true

theorem closed_append : Closed closes (log ++ new) ↔ Closed closes log ∨ Closed closes new := by
  simp only [Closed, mem_append]
  constructor
  · rintro ⟨a, ha | ha, hc⟩
    · exact .inl ⟨a, ha, hc⟩
    · exact .inr ⟨a, ha, hc⟩
  · rintro (⟨a, ha, hc⟩ | ⟨a, ha, hc⟩)
    · exact ⟨a, .inl ha, hc⟩
    · exact ⟨a, .inr ha, hc⟩

theorem not_closed_nil : ¬ Closed closes ([] : List α) := by
  rintro ⟨a, ha, -⟩
  cases ha

theorem final_append (hl : Final closes allowed log) (hn : Final closes allowed new)
    (haf : Closed closes log → ∀ b ∈ new, allowed b = true) : Final closes allowed (log ++ new) :=
  pairwise_append.2 ⟨hl, hn, fun a ha b hb hc => haf ⟨a, ha, hc⟩ b hb⟩

/-- Entries of which none closes the log are in any order. -/
theorem final_of_not_closed (h : ¬ Closed closes log) : Final closes allowed log :=
  pairwise_of_forall_mem_list fun a ha _ _ hc => absurd ⟨a, ha, hc⟩ h

theorem countP_le_one (h : Final closes allowed log)
    (hn : ∀ a, allowed a = true → closes a = false) : log.countP closes ≤ 1 := by
  induction log with
  | nil => exact Nat.zero_le _
  | cons a log ih =>
    obtain ⟨ha, hl⟩ := pairwise_cons.1 h
    cases hc : closes a with
    | false =>
      rw [countP_cons_of_neg (by simp [hc])]
      exact ih hl
    | true =>
      have hz : log.countP closes = 0 := by
        refine countP_eq_zero.2 fun b hb => ?_
        simp [hn b (ha b hb hc)]
      rw [countP_cons_of_pos hc, hz]

end TruenasRos.Finality
