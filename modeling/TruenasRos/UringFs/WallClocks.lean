import TruenasRos.UringFs.Reaping

/-! # The counts of wall-clock holds

Over every run of calls, with any answers of the ring and any completions, the counts of an
owner are what it holds in the table.
-/

namespace TruenasRos.UringFs

open List FsCore Slots Uring WallClock

variable {κ : Type} {core : FsCore κ}

/-- A call, and what the ring answers to its submissions. -/
structure Turn (κ : Type) where
  verdicts : List (Option ℕ)
  call : Call κ

namespace FsCore

def turn (core : FsCore κ) (t : Turn κ) : FsCore κ := (core.withVerdicts t.verdicts).call t.call

def run (core : FsCore κ) (turns : List (Turn κ)) : FsCore κ := turns.foldl turn core

def opened (op_slots : UInt32) (core_id page_size : ℕ) (cap : Option ℕ) : FsCore κ :=
  match cap with
  | none => new op_slots core_id page_size
  | some per_owner => (new op_slots core_id page_size).setTimerCap per_owner

end FsCore

theorem tally_replicate (n : ℕ) (o : Conn) :
    tally (replicate n (⟨0, .new⟩ : FsSlot κ)) o = ⟨0, 0⟩ := by
  simp [tally, FsOpEntry.isTimer, FsOpEntry.isGuardedOpen, FsOpEntry.isParkedGuard, FsOpEntry.new]

theorem sound_new (os : UInt32) (cid ps : ℕ) (cap : Option ℕ) :
    Sound cap (new os cid ps : FsCore κ).view := by
  have hn : ∀ {i : ℕ} {x : FsSlot κ},
      (new os cid ps : FsCore κ).ops[i]? = some x → x.state = .new :=
    fun hx => congrArg _ (eq_of_mem_replicate (mem_of_getElem? hx))
  refine ⟨⟨nodup_range, fun i => ?_⟩, fun i x hx _ => hn hx, by simpa [view, new] using os.toNat_lt,
    fun i x gs gg hx hg => ?_, fun i x tag hx hs => ?_, fun o => ?_, fun o c _ => ?_⟩
  · simp only [view, new, mem_range, getElem?_replicate]
    split_ifs with h <;> simp [h, FsOpEntry.new]
  · rw [hn hx] at hg
    cases hg
  · rw [hn hx] at hs
    cases hs
  · simp only [view, new, tally_replicate]
    rfl
  · simp [view, new, tally_replicate]

theorem call_sound (hs : Sound core.timer_cap core.view) (c : Call κ) :
    Sound core.timer_cap (core.call c).view ∧ (core.call c).timer_cap = core.timer_cap ∧
      (core.call c).faults = core.faults := by
  have hosts : ∀ {cbs core₁}, Hosts (fun _ _ => True) core cbs core₁ →
      Sound core.timer_cap core₁.view ∧ core₁.timer_cap = core.timer_cap ∧
        core₁.faults = core.faults := fun h =>
    ⟨h.cap ▸ h.sound hs, h.cap, h.faults⟩
  have reaps : ∀ {slot e core₁}, Reaps (fun _ _ => True) core slot e core₁ →
      Sound core.timer_cap core₁.view ∧ core₁.timer_cap = core.timer_cap ∧
        core₁.faults = core.faults := fun h =>
    ⟨h.cap ▸ (h.sound hs).1, h.cap, (h.sound hs).2⟩
  cases c with
  | Submit request waiter => exact hosts (hosts_submit hs request waiter fun _ _ => trivial)
  | PumpRead file dest want owner => exact hosts (hosts_submitPumpRead hs file dest want owner)
  | RetractTimeout core_id slot generation =>
    exact hosts (hosts_retractTimeout hs core_id slot generation)
  | CancelOwnedBy owners => exact hosts (.of_same (same_cancelOwnedBy hs owners))
  | Cqe tag slot gen32 res =>
    obtain ⟨heq, -⟩ | ⟨g, e, -, hr, -⟩ := onCqe_cases hs tag slot gen32 res
    · rw [call, heq]
      exact ⟨hs, rfl, rfl⟩
    · exact reaps hr
  | DrainCqe user_data res =>
    obtain heq | ⟨slot, e, hr⟩ := onDrainCqe_cases hs user_data res
    · rw [call, heq]
      exact ⟨hs, rfl, rfl⟩
    · exact reaps hr
  | TakeRefusal =>
    rw [call, takeRefusal]
    split
    · exact ⟨hs, rfl, rfl⟩
    · exact ⟨hs.of_table rfl rfl rfl, rfl, rfl⟩

theorem run_sound {cap : Option ℕ} (turns : List (Turn κ)) (core : FsCore κ)
    (hc : core.timer_cap = cap) (hs : Sound cap core.view) :
    Sound cap (core.run turns).view ∧ (core.run turns).faults = core.faults := by
  induction turns generalizing core with
  | nil => exact ⟨hs, rfl⟩
  | cons t turns ih =>
    subst hc
    obtain ⟨hsn, hc, hf⟩ :=
      @call_sound _ (core.withVerdicts t.verdicts) hs t.call
    obtain ⟨hr, hre⟩ := ih (core.turn t) hc hsn
    exact ⟨hr, hre.trans hf⟩

theorem opened_sound (os : UInt32) (cid ps : ℕ) (cap : Option ℕ) :
    Sound cap (opened os cid ps cap : FsCore κ).view ∧
      (opened os cid ps cap : FsCore κ).timer_cap = cap ∧
      (opened os cid ps cap : FsCore κ).faults = [] := by
  cases cap with
  | none => exact ⟨sound_new os cid ps none, rfl, rfl⟩
  | some c =>
    have hs : Sound (some c) (new os cid ps : FsCore κ).view :=
      sound_new os cid ps (some c)
    exact ⟨hs, rfl, rfl⟩

/-- The counts of an owner are its timers and guarded opens in flight, they stay within the
cap, and no assertion fails: a count is positive wherever it is taken back. -/
theorem counts_are_the_holds (op_slots : UInt32) (core_id page_size : ℕ) (cap : Option ℕ)
    (turns : List (Turn κ)) (o : Conn) :
    let core := (opened op_slots core_id page_size cap).run turns
    let t := (core.armed_timers o).getD {}
    t.armed = core.ops.countP (·.state.isTimer o false) +
        core.ops.countP (·.state.isGuardedOpen o) ∧
      t.retiring = core.ops.countP (·.state.isTimer o true) +
        core.ops.countP (·.state.isParkedGuard o) ∧
      (∀ c, cap = some c → t.armed ≤ c ∧ t.armed + t.retiring ≤ 2 * c) ∧
      core.faults = [] ∧
      ((core.armed_timers o).isSome ↔ 0 < t.armed ∨ 0 < t.retiring) := by
  intro core t
  obtain ⟨ho, hcap, hf⟩ := opened_sound op_slots core_id page_size cap
  obtain ⟨hs, hr⟩ := run_sound turns _ hcap ho
  have hcl : core.armed_timers o = (tally core.ops o).keep := hs.accounts.clocks o
  have ht : t = tally core.ops o := (congrArg (·.getD {}) hcl).trans (getD_keep _)
  refine ⟨congrArg armed ht, congrArg retiring ht, fun c hc => ?_, hr.trans hf, ?_⟩
  · rw [ht]
    exact hs.accounts.capped o c hc
  · rw [hcl, ht, ← Option.ne_none_iff_isSome, ne_eq, keep_eq_none_iff]
    omega

end TruenasRos.UringFs
