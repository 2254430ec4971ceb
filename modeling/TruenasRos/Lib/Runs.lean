import Mathlib.Tactic

/-! # Runs of a system

A system takes an event in a state and gives the next state, or `none` where it cannot go
on. A run takes a list of events; an invariant of the events that are allowed holds after
every allowed run, and every allowed run goes on to its end.
-/

namespace TruenasRos.Runs

open Option

variable {σ ε : Type*} {step : σ → ε → Option σ} {ok : σ → ε → Prop} {I : σ → Prop}
variable {s s' : σ} {e : ε} {es fs : List ε}

def run (step : σ → ε → Option σ) : σ → List ε → Option σ
  | s, [] => some s
  | s, e :: es => (step s e).bind fun s' => run step s' es

/-- Each event of the run is allowed in the state it comes in. -/
def Allowed (step : σ → ε → Option σ) (ok : σ → ε → Prop) : σ → List ε → Prop
  | _, [] => True
  | s, e :: es => ok s e ∧ ∀ s', step s e = some s' → Allowed step ok s' es

theorem allowed_of_forall (h : ∀ s e, ok s e) (s : σ) (es : List ε) : Allowed step ok s es := by
  induction es generalizing s with
  | nil => trivial
  | cons e es ih => exact ⟨h s e, fun s' _ => ih s'⟩

theorem run_append (s : σ) (es fs : List ε) :
    run step s (es ++ fs) = (run step s es).bind fun s' => run step s' fs := by
  induction es generalizing s with
  | nil => rfl
  | cons e es ih =>
    simp only [List.cons_append, run, bind_assoc]
    exact bind_congr fun s' _ => ih s'

/-- An invariant under which every allowed event can be taken. -/
theorem run_invariant (hst : ∀ s e, I s → ok s e → ∃ s', step s e = some s' ∧ I s')
    (hs : I s) (ho : Allowed step ok s es) : ∃ s', run step s es = some s' ∧ I s' := by
  induction es generalizing s with
  | nil => exact ⟨s, rfl, hs⟩
  | cons e es ih =>
    obtain ⟨s₁, hs₁, hI⟩ := hst s e hs ho.1
    obtain ⟨s₂, hs₂, hI₂⟩ := ih hI (ho.2 s₁ hs₁)
    exact ⟨s₂, by rw [run, hs₁]; exact hs₂, hI₂⟩

/-- An invariant that each step keeps, where a run may end early. -/
theorem invariant_of_run (hst : ∀ s e s', I s → step s e = some s' → I s') (hs : I s)
    (hr : run step s es = some s') : I s' := by
  induction es generalizing s with
  | nil => exact some.inj hr ▸ hs
  | cons e es ih =>
    obtain ⟨s₁, hs₁, hre⟩ := bind_eq_some_iff.1 hr
    exact ih (hst s e s₁ hs hs₁) hre

theorem run_append_eq_some :
    run step s (es ++ fs) = some s' ↔ ∃ t, run step s es = some t ∧ run step t fs = some s' := by
  rw [run_append, bind_eq_some_iff]

/-- What holds at the end of a run and not at its start was brought about by a step of it. -/
theorem exists_cause {Q : σ → Prop} {R : σ → ε → Prop}
    (hinv : ∀ s e s', I s → step s e = some s' → I s')
    (hc : ∀ s e s', I s → step s e = some s' → Q s' → Q s ∨ R s e) (hs : I s) (h0 : ¬ Q s)
    (hr : run step s es = some s') (hQ : Q s') :
    ∃ es₁ e es₂ t, es = es₁ ++ e :: es₂ ∧ run step s es₁ = some t ∧ I t ∧ R t e := by
  induction es generalizing s with
  | nil => exact absurd (some.inj hr ▸ hQ) h0
  | cons e es ih =>
    obtain ⟨s₁, hs₁, hre⟩ := bind_eq_some_iff.1 hr
    by_cases hQ₁ : Q s₁
    · exact ⟨[], e, es, s, rfl, rfl, hs, (hc s e s₁ hs hs₁ hQ₁).resolve_left h0⟩
    · obtain ⟨es₁, e', es₂, t, rfl, ht, hI, hR⟩ := ih (hinv s e s₁ hs hs₁) hQ₁ hre
      exact ⟨e :: es₁, e', es₂, t, rfl, by rw [run, hs₁]; exact ht, hI, hR⟩

end TruenasRos.Runs
