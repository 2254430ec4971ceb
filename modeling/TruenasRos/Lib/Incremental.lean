import Mathlib.Tactic

/-! # Incremental consumers

A consumer is shown longer and longer prefixes of one input until it answers. When
an unanswered prefix leaves no trace, the answer can depend on how the input was
cut up only if some prefix is answered differently from the whole.
-/

namespace TruenasRos.Incremental

open List

variable {α β σ : Type*}

/-- `ps` are growing prefixes, the last of which is `w`. -/
structure GrowsTo (w : List α) (ps : List (List α)) : Prop where
  grows : ps.Pairwise (· <+: ·)
  last : ps.getLast? = some w

/-- The first answer to a sequence of prefixes. -/
def feed (step : σ → List α → Option β × σ) : σ → List (List α) → Option β
  | _, [] => none
  | s, p :: ps =>
    match step s p with
    | (some b, _) => some b
    | (none, s') => feed step s' ps

/-- After a prefix it does not answer, the consumer takes longer ones as if it had
not seen it. -/
def Resumable (step : σ → List α → Option β × σ) (s : σ) : Prop :=
  ∀ p q, p <+: q → (step s p).1 = none → step (step s p).2 q = step s q

variable {step : σ → List α → Option β × σ} {s : σ} {w p : List α}

theorem feed_cons_of_some {b : β} (h : (step s p).1 = some b) (ps : List (List α)) :
    feed step s (p :: ps) = some b := by
  rw [feed]
  cases hs : step s p with
  | mk b' s' =>
    rw [hs] at h
    cases h
    rfl

variable {ps : List (List α)}

theorem feed_congr {s' : σ} (h : ∀ p ∈ ps, step s' p = step s p) :
    feed step s' ps = feed step s ps := by
  cases ps with
  | nil => rfl
  | cons p ps => rw [feed, feed, h p mem_cons_self]

theorem feed_eq_findSome? (h : Resumable step s) (hps : ps.Pairwise (· <+: ·)) :
    feed step s ps = ps.findSome? fun p => (step s p).1 := by
  induction ps with
  | nil => rfl
  | cons p ps ih =>
    obtain ⟨hp, hps⟩ := pairwise_cons.1 hps
    rw [feed, findSome?_cons, ← ih hps]
    cases hs : step s p with
    | mk b s' =>
      cases b with
      | some b => rfl
      | none =>
        refine feed_congr fun q hq => ?_
        have := h p q (hp q hq) (by rw [hs])
        rwa [hs] at this

theorem GrowsTo.isPrefix (h : GrowsTo w ps) : ∀ p ∈ ps, p <+: w := by
  obtain ⟨qs, rfl⟩ := getLast?_eq_some_iff.1 h.last
  intro p hp
  rcases mem_append.1 hp with hp | hp
  · exact (pairwise_append.1 h.grows).2.2 p hp w (mem_singleton_self w)
  · rw [mem_singleton.1 hp]

theorem growsTo_singleton (w : List α) : GrowsTo w [w] := ⟨pairwise_singleton _ _, rfl⟩

theorem growsTo_pair (h : p <+: w) : GrowsTo w [p, w] :=
  ⟨pairwise_pair.2 h, rfl⟩

theorem feed_eq_of_forall (h : Resumable step s)
    (hw : ∀ p, p <+: w → ∀ b, (step s p).1 = some b → (step s w).1 = some b) (hps : GrowsTo w ps) :
    feed step s ps = (step s w).1 := by
  rw [feed_eq_findSome? h hps.grows]
  cases hf : ps.findSome? fun p => (step s p).1 with
  | none =>
    have hmem : w ∈ ps := mem_of_getLast? hps.last
    exact (findSome?_eq_none_iff.1 hf w hmem).symm
  | some b =>
    obtain ⟨p, hp, hb⟩ := exists_of_findSome?_eq_some hf
    exact (hw p (hps.isPrefix p hp) b hb).symm

/-- The answer does not depend on the cuts iff every answered prefix is answered as
the whole input is. -/
theorem feed_independent_iff (h : Resumable step s) :
    (∀ ps qs, GrowsTo w ps → GrowsTo w qs → feed step s ps = feed step s qs) ↔
      ∀ p, p <+: w → ∀ b, (step s p).1 = some b → (step s w).1 = some b := by
  constructor
  · intro hind p hp b hb
    have := hind [p, w] [w] (growsTo_pair hp) (growsTo_singleton w)
    rw [feed_eq_findSome? h (growsTo_pair hp).grows,
      feed_eq_findSome? h (growsTo_singleton w).grows] at this
    simpa [hb] using this.symm
  · intro hw ps qs hps hq
    rw [feed_eq_of_forall h hw hps, feed_eq_of_forall h hw hq]

end TruenasRos.Incremental
