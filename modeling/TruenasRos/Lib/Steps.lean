import Mathlib.Tactic

/-! # Runs of a machine that always goes on

A machine takes an event in a state and gives the next state. A run takes a list of events. An
invariant of the steps holds after every run; and where a property is lost in a step exactly if
the event is bad, it holds all along a run exactly if no event of the run was bad.
-/

namespace TruenasRos.Steps

open List

variable {σ ε : Type*} {step : σ → ε → σ} {I Q : σ → Prop} {bad : σ → ε → Prop}
variable {s : σ} {e : ε} {es : List ε}

def run (step : σ → ε → σ) (s : σ) (es : List ε) : σ := es.foldl step s

theorem run_concat (step : σ → ε → σ) (s : σ) (es : List ε) (e : ε) :
    run step s (es ++ [e]) = step (run step s es) e := by
  simp [run]

theorem run_append (step : σ → ε → σ) (s : σ) (es fs : List ε) :
    run step s (es ++ fs) = run step (run step s es) fs :=
  foldl_append

theorem invariant (hs : I s) (hst : ∀ s e, I s → I (step s e)) (es : List ε) :
    I (run step s es) := by
  induction es using reverseRecOn with
  | nil => exact hs
  | append_singleton es e ih =>
    rw [run_concat]
    exact hst _ e ih

/-- The property holds after every part of the run. -/
def Throughout (step : σ → ε → σ) (Q : σ → Prop) (s : σ) (es : List ε) : Prop :=
  ∀ es', es' <+: es → Q (run step s es')

/-- No event of the run is bad in the state it comes in. -/
def Free (step : σ → ε → σ) (bad : σ → ε → Prop) (s : σ) (es : List ε) : Prop :=
  ∀ es' e, es' ++ [e] <+: es → ¬ bad (run step s es') e

theorem throughout_nil : Throughout step Q s [] ↔ Q s := by
  simp [Throughout, run]

theorem prefix_concat_iff {es' : List ε} : es' <+: es ++ [e] ↔ es' <+: es ∨ es' = es ++ [e] := by
  rw [List.prefix_concat_iff, or_comm]

theorem throughout_concat :
    Throughout step Q s (es ++ [e]) ↔ Throughout step Q s es ∧ Q (step (run step s es) e) := by
  simp [Throughout, prefix_concat_iff, or_imp, forall_and, run_concat]

theorem free_concat :
    Free step bad s (es ++ [e]) ↔ Free step bad s es ∧ ¬ bad (run step s es) e := by
  simp only [Free, prefix_concat_iff, append_singleton_inj, or_imp, forall_and]
  constructor
  · rintro ⟨ho, hn⟩
    exact ⟨ho, hn es e ⟨rfl, rfl⟩⟩
  · rintro ⟨ho, hn⟩
    refine ⟨ho, ?_⟩
    rintro _ _ ⟨rfl, rfl⟩
    exact hn

section

variable (hI : ∀ s e, I s → Q s → ¬bad s e → I (step s e))
  (hQ : ∀ s e, I s → Q s → (Q (step s e) ↔ ¬bad s e)) (hs : I s)
include hI hQ hs

theorem invariant_of_throughout (h : Throughout step Q s es) : I (run step s es) := by
  induction es using reverseRecOn with
  | nil => exact hs
  | append_singleton es e ih =>
    obtain ⟨hall, hl⟩ := throughout_concat.1 h
    have hb := hall es (prefix_refl es)
    rw [run_concat]
    exact hI _ e (ih hall) hb ((hQ _ e (ih hall) hb).1 hl)

theorem throughout_iff_free (hs' : Q s) (es : List ε) :
    Throughout step Q s es ↔ Free step bad s es := by
  induction es using reverseRecOn with
  | nil =>
    rw [throughout_nil]
    exact ⟨fun _ es' e h => absurd (prefix_nil.1 h) (by simp), fun _ => hs'⟩
  | append_singleton es e ih =>
    rw [throughout_concat, free_concat, ← ih]
    refine and_congr_right fun hall => hQ _ e ?_ (hall es (prefix_refl es))
    exact invariant_of_throughout hI hQ hs hall

end

end TruenasRos.Steps
