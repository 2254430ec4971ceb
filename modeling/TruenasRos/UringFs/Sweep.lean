import TruenasRos.UringFs.WallClocks

/-! # The sweep of closed connections

The scan ends on a count of the ops in flight and still meets all of them, since no free slot is
counted. What it leaves on record is that the connections are gone.
-/

namespace TruenasRos.UringFs

open List FsCore Slots Uring

variable {κ : Type}

variable (owners : List Conn)

/-- The token of the op in a slot, if it is in flight for one of the owners. -/
def sweptToken (p : FsSlot κ × ℕ) : Option ℕ :=
  match p.1.state.state with
  | .Free => none
  | .InFlight tag =>
    if ∃ o ∈ owners, sweepOwner p.1.state.waiter = some o then
      some (packRaw tag.code p.2 (p.1.generation % 2 ^ 32))
    else none

def cancelSqe (target_ud : ℕ) : Sqe κ := ⟨packRaw Tag.CANCEL.code 0 0, some target_ud, none⟩

theorem sweepTargets_eq (ops : List (FsSlot κ)) (n i : ℕ)
    (h : ops.countP (fun x => x.state.state ≠ .Free) ≤ n) :
    sweepTargets owners n i ops = (ops.zipIdx i).filterMap (sweptToken owners) := by
  induction ops generalizing n i with
  | nil => cases n <;> rfl
  | cons x ops ih =>
    rw [zipIdx_cons, filterMap_cons, sweptToken]
    cases hx : x.state.state with
    | Free =>
      rw [countP_cons_of_neg (by simp [hx])] at h
      cases n with
      | zero => exact (ih 0 (i + 1) h).symm ▸ by cases ops <;> rfl
      | succ n => simp [sweepTargets, hx, ih (n + 1) (i + 1) h]
    | InFlight tag =>
      rw [countP_cons_of_pos (by simp [hx])] at h
      cases n with
      | zero => cases h
      | succ n =>
        simp only [sweepTargets, hx, ih n (i + 1) (Nat.le_of_succ_le_succ h)]
        have : (sweepOwner x.state.waiter).any (· ∈ owners) = true ↔
            ∃ o ∈ owners, sweepOwner x.state.waiter = some o := by
          simp [Option.any_eq_true, and_comm]
        split_ifs <;> simp_all

theorem ownerIsGone_foldl_recordClosed (closed : ℕ → Option ℕ) (o : Conn) :
    (owners.foldl recordClosed closed o.1).any (o.2 ≤ ·) = true ↔
      (closed o.1).any (o.2 ≤ ·) = true ∨ ∃ g, (o.1, g) ∈ owners ∧ o.2 ≤ g := by
  induction owners generalizing closed with
  | nil => simp
  | cons w owners ih =>
    have hw : (recordClosed closed w o.1).any (o.2 ≤ ·) = true ↔
        (closed o.1).any (o.2 ≤ ·) = true ∨ w.1 = o.1 ∧ o.2 ≤ w.2 := by
      by_cases h : w.1 = o.1
      · rw [recordClosed, h, Function.update_self]
        cases closed o.1 <;> simp
      · simp [recordClosed, h, Function.update_of_ne (Ne.symm h)]
    rw [foldl_cons, ih, hw, or_assoc]
    refine or_congr_right ⟨?_, ?_⟩
    · rintro (⟨h, hg⟩ | ⟨g, hm, hg⟩)
      · exact ⟨w.2, h ▸ mem_cons_self, hg⟩
      · exact ⟨g, mem_cons_of_mem _ hm, hg⟩
    · rintro ⟨g, hm, hg⟩
      rcases mem_cons.1 hm with rfl | hm
      · exact .inl ⟨rfl, hg⟩
      · exact .inr ⟨g, hm, hg⟩

theorem inflight_foldl_submitCancel (targets : List ℕ) (core : FsCore κ)
    (h : core.eng.verdicts = []) : (targets.foldl submitCancel core).eng.inflight =
      core.eng.inflight ++ targets.map cancelSqe := by
  induction targets generalizing core with
  | nil => exact (append_nil _).symm
  | cons ud targets ih =>
    have hs : (core.submitCancel ud).eng =
        { core.eng with inflight := core.eng.inflight ++ [cancelSqe ud] } := by
      simp [submitCancel, stage, h, cancelSqe]
    rw [foldl_cons, ih _ (hs ▸ h), hs, append_assoc]
    rfl

theorem closed_owners_foldl_submitCancel (targets : List ℕ) (core : FsCore κ) :
    (targets.foldl submitCancel core).closed_owners = core.closed_owners := by
  induction targets generalizing core with
  | nil => rfl
  | cons ud targets ih =>
    rw [foldl_cons, ih, submitCancel, stage]
    split <;> rfl

theorem cancelOwnedBy_eq {cap : Option ℕ} {core : FsCore κ} (hs : Sound cap core.view)
    (owners : List Conn) :
    core.cancelOwnedBy owners = (core.ops.zipIdx.filterMap (sweptToken owners)).foldl submitCancel
      { core with closed_owners := owners.foldl recordClosed core.closed_owners } := by
  have hc := census_le hs
  have ht := sweepTargets_eq owners core.ops _ 0 hc
  simp only [cancelOwnedBy, debugAssert, decide_eq_true hc, if_true, ht]
  split_ifs with h0
  · rw [h0] at ht
    have : core.ops.zipIdx.filterMap (sweptToken owners) = [] := by
      rw [← ht]
      cases core.ops <;> rfl
    rw [this]
    rfl
  · rfl

/-- A sweep asks the ring to cancel the ops of the swept owners and no others. An owner is gone
after it if it was before, or if it or a later tenant of its slot was swept. -/
theorem sweep_cancels_exactly (op_slots : UInt32) (core_id page_size : ℕ) (cap : Option ℕ)
    (turns : List (Turn κ)) (owners : List Conn) :
    let core := (opened op_slots core_id page_size cap).run turns
    let targets := core.ops.zipIdx.filterMap (sweptToken owners)
    core.cancelOwnedBy owners = targets.foldl submitCancel
        { core with closed_owners := owners.foldl recordClosed core.closed_owners } ∧
      ((core.withVerdicts []).cancelOwnedBy owners).eng.inflight =
        core.eng.inflight ++ targets.map cancelSqe ∧
      ∀ o, (core.cancelOwnedBy owners).ownerIsGone (some o) = true ↔
        core.ownerIsGone (some o) = true ∨ ∃ g, (o.1, g) ∈ owners ∧ o.2 ≤ g := by
  intro core targets
  obtain ⟨ho, hcap, -⟩ := opened_sound op_slots core_id page_size cap
  have hs : Sound cap core.view := (run_sound turns _ hcap ho).1
  refine ⟨cancelOwnedBy_eq hs owners, ?_, fun o => ?_⟩
  · rw [cancelOwnedBy_eq (show Sound cap (core.withVerdicts []).view from hs)]
    exact inflight_foldl_submitCancel _ _ rfl
  · rw [cancelOwnedBy_eq hs, ownerIsGone, closed_owners_foldl_submitCancel]
    exact ownerIsGone_foldl_recordClosed owners _ o

/-- The table takes a timer of an owner that was not swept, but none after a later tenant of its
slot was. -/
theorem sweep_refuses_an_earlier_tenant : ((opened 2 0 4096 none : FsCore Bool).run
      [⟨[], .Submit .Timeout (.Embedded (some (0, 3)) true none)⟩]).refusals = [] ∧
    ((opened 2 0 4096 none : FsCore Bool).run [⟨[], .CancelOwnedBy [(0, 5)]⟩,
        ⟨[], .Submit .Timeout (.Embedded (some (0, 3)) true none)⟩]).refusals =
      [(some (0, 3), true, ⟨.error ECANCELED, false, [], none⟩)] := by
  constructor <;> rfl

end TruenasRos.UringFs
