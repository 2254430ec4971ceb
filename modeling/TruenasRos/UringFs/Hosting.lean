import TruenasRos.UringFs.Submit
import TruenasRos.UringFs.Tenancy

/-! # Submissions as moves of the table

Every submission, retraction and sweep is a run of moves, and takes in the callback of its
waiter. No expectation or assertion about the table fails on the way.
-/

namespace TruenasRos.UringFs

open List FsCore Slots Uring WallClock FsOpEntry

variable {κ : Type} {core core₁ core₂ core₃ : FsCore κ} {cbs cbs' : List κ} {slot g : ℕ}
variable {e : FsOpEntry κ} {tag : Tag} {sqe : Sqe κ} {err : ℕ} {wt : FsWaiter κ} {cap : Option ℕ}
variable {P : κ → FsOpEntry κ → Prop}

/-- A change that moves nothing of the table. -/
structure Same (core core₁ : FsCore κ) : Prop where
  view : core₁.view = core.view
  cap : core₁.timer_cap = core.timer_cap
  faults : core₁.faults = core.faults

structure Hosts (P : κ → FsOpEntry κ → Prop) (core : FsCore κ) (cbs : List κ)
    (core₁ : FsCore κ) : Prop where
  moves : Moves P core.timer_cap core.view cbs core₁.view
  cap : core₁.timer_cap = core.timer_cap
  faults : core₁.faults = core.faults

theorem Same.trans (h : Same core core₁) (h' : Same core₁ core₂) : Same core core₂ :=
  ⟨h'.view.trans h.view, h'.cap.trans h.cap, h'.faults.trans h.faults⟩

theorem Moves.trans {v v₁ v₂ : View κ} (h : Moves P cap v cbs v₁)
    (h' : Moves P cap v₁ cbs' v₂) : Moves P cap v (cbs ++ cbs') v₂ := by
  induction h with
  | refl => exact h'
  | head hm _ ih => rw [append_assoc]; exact .head hm (ih h')

namespace Hosts

theorem of_same (h : Same core core₁) : Hosts P core [] core₁ :=
  ⟨h.view ▸ .refl _, h.cap, h.faults⟩

theorem of_move {v : View κ} (h : Move P core.timer_cap core.view cbs v) (hv : core₁.view = v)
    (hc : core₁.timer_cap = core.timer_cap) (hf : core₁.faults = core.faults) :
    Hosts P core cbs core₁ :=
  ⟨hv ▸ by simpa using Moves.head h (.refl v), hc, hf⟩

section

variable (h : Hosts P core cbs core₁)
include h

theorem trans (h' : Hosts P core₁ cbs' core₂) : Hosts P core (cbs ++ cbs') core₂ :=
  ⟨h.moves.trans (h.cap ▸ h'.moves), h'.cap.trans h.cap, h'.faults.trans h.faults⟩

theorem trans_nil (h' : Hosts P core₁ [] core₂) : Hosts P core cbs core₂ := by
  simpa using h.trans h'

theorem sound (hs : Sound core.timer_cap core.view) : Sound core₁.timer_cap core₁.view :=
  h.cap ▸ h.moves.sound hs

end

end Hosts

theorem stage_some (h : core.stage sqe = (some err, core₁)) : Same core core₁ := by
  unfold stage at h
  split at h
  · cases h
    exact ⟨rfl, rfl, rfl⟩
  · cases h

theorem stage_none (h : core.stage sqe = (none, core₁)) : core₁ = { core with
      eng := { core.eng with
        verdicts := core.eng.verdicts.tail, inflight := core.eng.inflight ++ [sqe] } } := by
  unfold stage at h
  split at h
  · cases h
  · cases h
    rfl

theorem same_submitCancel (core : FsCore κ) (ud : ℕ) : Same core (core.submitCancel ud) := by
  rw [submitCancel]
  cases hs : core.stage ⟨packRaw Tag.CANCEL.code 0 0, some ud, none⟩ with
  | mk res core₁ =>
    cases res with
    | some err => exact stage_some hs
    | none =>
      rw [stage_none hs]
      exact ⟨by simp [view], rfl, rfl⟩

theorem hosts_refuse {err : ℕ} {marked : Bool} {bufs : List Bytes}
    {file : Option ℕ} : Hosts P core wt.callback.toList (core.refuse wt err marked bufs file) := by
  cases wt with
  | Channel reply | Pump owner => exact .of_same ⟨rfl, rfl, rfl⟩
  | Embedded owner cb on_fail =>
    refine .of_move (.refuse cb) ?_ rfl rfl
    simp only [view, refuse, map_append, map_cons, map_nil]
    split_ifs <;> rfl

theorem park_view (core : FsCore κ) (h : core.ops[slot]? = some ⟨g, e⟩)
    (f : FsOpEntry κ → FsOpEntry κ) :
    (core.park slot f).view = { core.view with ops := core.ops.set slot ⟨g, f e⟩ } := by
  simp [view, FsCore.park, modify_eq_set h]

theorem generation_eq (h : core.ops[slot]? = some ⟨g, e⟩) : core.generation slot = g := by
  simp [generation, h]

/-- A slot was popped and an op parked in it. -/
structure Parked (core : FsCore κ) (slot g : ℕ) (rest : List ℕ) (e : FsOpEntry κ)
    (core₁ : FsCore κ) : Prop where
  free : core.op_free = slot :: rest
  blank : core.ops[slot]? = some ⟨g, .new⟩
  view : core₁.view = { core.view with ops := core.ops.set slot ⟨g, e⟩, op_free := rest }
  cap : core₁.timer_cap = core.timer_cap
  faults : core₁.faults = core.faults

variable {rest : List ℕ}

theorem popOp_cases (hs : Sound core.timer_cap core.view) : core.op_free = [] ∧ core.popOp = none ∨
      ∃ slot rest g, core.popOp = some (slot, { core with op_free := rest }) ∧
        generation { core with op_free := rest } slot = g ∧
        ∀ f, Parked core slot g rest (f .new) (park { core with op_free := rest } slot f) := by
  rw [popOp]
  cases hf : core.op_free with
  | nil => exact .inl ⟨rfl, rfl⟩
  | cons slot rest =>
    have he : Exact (fun e : FsOpEntry κ => e.state = .Free) core.ops core.op_free := hs.exact
    rw [hf] at he
    obtain ⟨⟨g, e⟩, hslo, hsta⟩ := he.head
    obtain rfl : e = .new := hs.blank slot _ hslo hsta
    refine .inr ⟨slot, rest, g, rfl, generation_eq hslo, fun f => ⟨hf, hslo, ?_, rfl, rfl⟩⟩
    exact park_view { core with op_free := rest } hslo f

namespace Parked

section

variable (h : Parked core slot g rest e core₁)
include h

theorem ops : core₁.ops = core.ops.set slot ⟨g, e⟩ :=
  congrArg View.ops h.view

theorem at_slot : core₁.ops[slot]? = some ⟨g, e⟩ := by
  rw [h.ops]
  exact getElem?_set_of_some h.blank

theorem same (h' : Same core₁ core₂) : Parked core slot g rest e core₂ :=
  ⟨h.free, h.blank, h'.view.trans h.view, h'.cap.trans h.cap, h'.faults.trans h.faults⟩

theorem park (f : FsOpEntry κ → FsOpEntry κ) :
    Parked core slot g rest (f e) (core₁.park slot f) where
  free := h.free
  blank := h.blank
  view := by rw [park_view core₁ h.at_slot, h.view, h.ops, set_set]
  cap := h.cap
  faults := h.faults

theorem vacate : Hosts P core [] (core₁.vacate slot) := by
  refine .of_move (.bounce h.free h.blank) ?_ h.cap h.faults
  have ho : (core₁.vacate slot).ops = core.ops.set slot ⟨g + 1, .new⟩ := by
    rw [FsCore.vacate, modify_eq_set h.at_slot, h.ops, set_set]
    rfl
  have hf : slot :: core₁.op_free = core.op_free := by
    rw [h.free]
    exact congrArg (slot :: ·) (congrArg View.op_free h.view)
  have hv := h.view
  simp only [FsCore.view, View.mk.injEq] at hv ⊢
  exact ⟨ho, hf, hv.2.2⟩

theorem fail (err : ℕ) : Hosts P core e.callback.toList (core₁.failOp slot err) := by
  rw [failOp, h.at_slot, callback]
  cases hw : e.waiter with
  | none => simpa [hw] using h.vacate
  | some w => simpa [hw] using h.vacate.trans (@hosts_refuse _ _ w _ err true e.bufs e.file)

theorem host (tag : Tag) (he : e.Fresh tag)
    (ht : tag.Hosted)
    (hr : ∀ o, e.armOwner = some o → core.view.clocks.Room core.timer_cap o)
    (hv : core₂.view = { core₁.view with
      clocks := core₁.view.clocks.adjust e.armOwner arm
      ring := core₁.view.ring ++ [opSqe tag slot g e.callback] })
    (hc : core₂.timer_cap = core₁.timer_cap) (hf : core₂.faults = core₁.faults) (hp : e.Tells P) :
    Hosts P core e.callback.toList core₂ :=
  .of_move (.host h.free h.blank he ht hr hp) (by rw [hv, h.view]; rfl) (hc.trans h.cap)
    (hf.trans h.faults)

end

end Parked

theorem Parked.host_plain (h : Parked core slot g rest e core₁) (tag : Tag) (he : e.Fresh tag)
    (ht : tag.Hosted) (hne : tag ≠ .TIMEOUT) (hp : e.Tells P)
    (hs : core₁.stage (FsCore.opSqe tag slot g e.callback) = (none, core₂)) :
    Hosts P core e.callback.toList core₂ := by
  have ha : e.armOwner = none :=
    if_neg fun h => hne (FsOpState.InFlight.inj (he.state.symm.trans h))
  obtain rfl := stage_none hs
  refine h.host tag he ht (fun o ho => ?_) ?_ rfl rfl hp
  · rw [ha] at ho
    cases ho
  · rw [ha]
    simp [FsCore.view, Clocks.adjust, FsCore.opSqe]

/-- The entry of an op as every submission parks it, before what `fill` adds. -/
def FsOpEntry.parked (tag : Tag) (waiter : FsWaiter κ) : FsOpEntry κ :=
  { (new : FsOpEntry κ) with state := .InFlight tag, waiter := some waiter }

/-- What a submission parks, if it parks anything. -/
def Request.entry (waiter : FsWaiter κ) : Request → FsOpEntry κ
  | Open _ how guarded _ => { parked .OPEN waiter with how := some how, strip_nonblock := guarded }
  | Rw write file bufs =>
    { parked (if write then .WRITEV else .READV) waiter with bufs := bufs, file := some file }
  | Leased file windows =>
    { parked .WRITEV waiter with
      recv_leases := windows.map (·.bid), file := some file
      lease_want := (windows.map (·.len)).sum % 2 ^ 32 }
  | Fsync file => { parked .FSYNC waiter with file := some file }
  | Timeout => parked .TIMEOUT waiter
  | FdMeta tag _ file value => { parked tag waiter with file := some file, bufs := [value] }
  | FgetxattrAsRoot file value through_proc =>
    { parked (if through_proc then .GETXATTR_PROC else .FGETXATTR) waiter with
      file := some file, bufs := [value] }
  | ReopenProc _ file how guarded | ReopenProcAsRoot file how guarded =>
    { parked .OPEN waiter with file := some file, how := some how, strip_nonblock := guarded }
  | PathOp tag _ => parked tag waiter
  | LinkatFile _ file => { parked .LINKAT waiter with file := some file }

theorem Request.callback_entry (request : Request) : (request.entry wt).callback = wt.callback := by
  cases request <;> rfl

theorem hosted_of_mem : ∀ tag ∈ fdMetaTags ++ pathOpTags, tag.Hosted ∧ tag ≠ .TIMEOUT := by decide

section

variable (hs : Sound core.timer_cap core.view)
include hs

theorem hosts_hostOp {fill : FsOpEntry κ → FsOpEntry κ}
    (tag : Tag) (ht : tag.Hosted) (hne : tag ≠ .TIMEOUT) (hf : (fill (.parked tag wt)).Fresh tag)
    (hw : (fill (.parked tag wt)).waiter = some wt) (hp : (fill (.parked tag wt)).Tells P)
    (bufs : List Bytes) (file : Option ℕ) :
    Hosts P core wt.callback.toList (core.hostOp tag wt fill bufs file) := by
  have hc : (fill (.parked tag wt)).callback = wt.callback := by
    rw [callback, hw]
    rfl
  rw [hostOp]
  obtain ⟨-, hpop⟩ | ⟨slot, rest, g, hpop, hg, hpa⟩ := popOp_cases hs
  · rw [hpop]
    exact hosts_refuse
  · have hpk := hpa fun e => fill { e with state := .InFlight tag, waiter := some wt }
    simp only [hpop, hg]
    rw [← hc]
    split
    · next err core₁ hst => exact (hpk.same (stage_some hst)).fail err
    · next core₁ hst => exact hpk.host_plain tag hf ht hne hp hst

theorem hosts_stageReopenProc (file how : ℕ) (guarded : Bool) (wt : FsWaiter κ)
    (hp : ((Request.ReopenProcAsRoot file how guarded).entry wt).Tells P) :
    Hosts P core wt.callback.toList (core.stageReopenProc file how guarded wt) :=
  hosts_hostOp hs .OPEN (by decide) nofun ⟨rfl, rfl, rfl, rfl⟩ rfl hp _ _

theorem hosts_stageFdMeta (tag : Tag) (file : ℕ) (value : Bytes) (wt : FsWaiter κ)
    (hp : ((Request.FdMeta tag 0 file value).entry wt).Tells P) :
    Hosts P core wt.callback.toList (core.stageFdMeta tag file value wt) := by
  rw [stageFdMeta]
  split_ifs with ht
  · exact hosts_refuse
  · obtain ⟨ho, hne⟩ := hosted_of_mem tag (mem_append_left _ ht)
    exact hosts_hostOp hs tag ho hne ⟨rfl, rfl, rfl, rfl⟩ rfl hp _ _
  · exact hosts_refuse

theorem hosts_submitPathOp (tag : Tag) (pers : ℕ) (wt : FsWaiter κ) (hp : (parked tag wt).Tells P) :
    Hosts P core wt.callback.toList (core.submitPathOp tag pers wt) := by
  rw [submitPathOp]
  split_ifs with hpe ht
  · exact hosts_refuse
  · obtain ⟨ho, hne⟩ := hosted_of_mem tag (mem_append_right _ ht)
    exact hosts_hostOp hs tag ho hne ⟨rfl, rfl, rfl, rfl⟩ rfl hp _ _
  · exact hosts_refuse

theorem hosts_submitPwritev2Gathered {file : ℕ}
    {windows : List LeasedWindow} {ok : Bool}
    (hp : ((Request.Leased file windows).entry wt).Tells P)
    (h : core.submitPwritev2Gathered file windows wt = (ok, core₁)) :
    Hosts P core (if ok then wt.callback.toList else []) core₁ := by
  rw [submitPwritev2Gathered] at h
  split at h
  · cases h
    exact .of_same ⟨rfl, rfl, rfl⟩
  obtain ⟨-, hpop⟩ | ⟨slot, rest, g, hpop, hg, hpa⟩ := popOp_cases hs
  · rw [hpop] at h
    cases h
    exact .of_same ⟨rfl, rfl, rfl⟩
  · have hpk := hpa fun e => { e with
      state := .InFlight .WRITEV, recv_leases := windows.map (·.bid), file := some file
      lease_want := (windows.map (·.len)).sum % 2 ^ 32 }
    simp only [hpop, hg] at h
    split at h
    · rename_i core₂ hst
      cases h
      -- the waiter is parked after the staging, in the entry the ring has taken
      obtain rfl := stage_none hst
      refine (hpk.park ({ · with waiter := some wt })).host .WRITEV
        ⟨rfl, rfl, rfl, rfl⟩ (by decide) nofun ?_ rfl rfl hp
      simp [FsCore.view, FsCore.park, Clocks.adjust, armOwner, FsCore.opSqe, callback]
    · rename_i core₂ hst
      cases h
      exact (hpk.same (stage_some hst)).vacate

theorem hosts_submitLeasedOrRefuse (file : ℕ) (windows : List LeasedWindow) (wt : FsWaiter κ)
    (hp : ((Request.Leased file windows).entry wt).Tells P) :
    Hosts P core wt.callback.toList (core.submitLeasedOrRefuse file windows wt) := by
  rw [submitLeasedOrRefuse]
  split
  · next core₁ h => exact hosts_submitPwritev2Gathered hs hp h
  · next core₁ h => exact (hosts_submitPwritev2Gathered hs hp h).trans hosts_refuse

theorem hosts_submitPumpRead (file : ℕ) (dest : PumpDest)
    (want : ℕ) (owner : Conn) : Hosts P core [] (core.submitPumpRead file dest want owner).2 := by
  rw [submitPumpRead]
  split
  · exact .of_same ⟨rfl, rfl, rfl⟩
  obtain ⟨-, hpop⟩ | ⟨slot, rest, g, hpop, hg, hpa⟩ := popOp_cases hs
  · rw [hpop]
    exact .of_same ⟨rfl, rfl, rfl⟩
  · have hp := hpa fun e => { e with
      state := .InFlight .READV, waiter := some (.Pump owner), bufs := dest.bufs,
        file := some file }
    simp only [hpop, hg]
    split
    · next err core₁ hst => exact (hp.same (stage_some hst)).fail err
    · rename_i core₁ hst
      exact (hp.host_plain .READV ⟨rfl, rfl, rfl, rfl⟩ (by decide) nofun
        (tells_of_silent rfl) hst).trans_nil (.of_same ⟨rfl, rfl, rfl⟩)

end

theorem room_of_screen {o : Conn} (h : core.refuseWallClockHold wt = none)
    (ho : wt.timerOwner = some o) : core.view.clocks.Room core.timer_cap o := by
  intro c hc
  cases wt with
  | Channel reply => cases ho
  | Pump owner => cases ho
  | Embedded owner cb on_fail =>
    obtain rfl : owner = some o := ho
    simp only [refuseWallClockHold, hc] at h
    split_ifs at h with h₁ h₂
    simp only [view, saturatingMul, saturatingAdd] at h₂ ⊢
    omega

theorem keep_arm (t : WallClock) : t.arm.keep = some t.arm :=
  keep_of_pos (.inl (by simp only [arm, saturatingAdd]; omega))

theorem armFor_view (core : FsCore κ) (o : Owner) :
    (core.armFor o).view = { core.view with clocks := core.view.clocks.adjust o arm } := by
  cases o with
  | none => rfl
  | some o => simp [view, armFor, armClock, Clocks.adjust, keep_arm]

theorem armFor_cap (core : FsCore κ) (o : Owner) :
    (core.armFor o).timer_cap = core.timer_cap ∧ (core.armFor o).faults = core.faults := by
  cases o <;> exact ⟨rfl, rfl⟩

theorem hosts_submitTimeout (hs : Sound core.timer_cap core.view) (wt : FsWaiter κ)
    (hsa : (parked .TIMEOUT wt).Tells P) :
    Hosts P core wt.callback.toList (core.submitTimeout wt).2 := by
  rw [submitTimeout]
  split
  · exact hosts_refuse
  rename_i hsc
  obtain ⟨-, hpop⟩ | ⟨slot, rest, g, hpop, hg, hpa⟩ := popOp_cases hs
  · rw [hpop]
    exact hosts_refuse
  · have hp := hpa ({ · with state := .InFlight .TIMEOUT, waiter := some wt })
    simp only [hpop, hg]
    split
    · next err core₁ hst => exact (hp.same (stage_some hst)).fail err
    · rename_i core₁ hst
      obtain rfl := stage_none hst
      obtain ⟨hc, hf⟩ := armFor_cap _ wt.timerOwner
      refine hp.host .TIMEOUT ⟨rfl, rfl, rfl, rfl⟩ (by decide)
        (fun o ho => room_of_screen hsc ho) ?_ hc hf hsa
      rw [armFor_view]
      simp [view, opSqe, armOwner, owner, callback]

theorem retractOp_cases (core : FsCore κ) (tag : Tag) (slot generation : ℕ) :
    core.retractOp tag slot generation = (false, core) ∨
      ∃ e core₁, core.ops[slot]? = some ⟨generation, e⟩ ∧ e.state = .InFlight tag ∧
        e.retracted = false ∧ core.retractOp tag slot generation = (true, core₁) ∧
        Same (core.park slot ({ · with retracted := true })) core₁ ∧
        core₁.view = { core.view with
          ops := core.ops.set slot ⟨generation, { e with retracted := true }⟩ } := by
  rw [retractOp]
  cases hslo : core.ops[slot]? with
  | none => exact .inl rfl
  | some x =>
    obtain ⟨g, e⟩ := x
    dsimp only
    split_ifs with hs hm
    · exact .inl rfl
    · exact .inl rfl
    · rw [not_or, not_not, not_not] at hs
      obtain ⟨rfl, hsta⟩ := hs
      have hsa := same_submitCancel (core.park slot ({ · with retracted := true }))
        (packRaw tag.code slot (g % 2 ^ 32))
      refine .inr ⟨e, _, rfl, hsta, by simpa using hm, rfl, hsa, ?_⟩
      rw [hsa.view, park_view core hslo]

theorem hosts_retractOp (core : FsCore κ) (tag : Tag) (ht : tag ≠ .TIMEOUT) (slot g : ℕ) :
    Hosts P core [] (core.retractOp tag slot g).2 := by
  obtain h | ⟨e, core₁, hslo, hsta, -, h, hs, hv⟩ :=
    retractOp_cases core tag slot g
  · rw [h]
    exact .of_same ⟨rfl, rfl, rfl⟩
  · rw [h]
    exact .of_move (.mark hslo hsta ht) hv hs.cap hs.faults

section

variable (hs : Sound core.timer_cap core.view)
include hs

theorem hosts_stageGuard {owner : Owner}
    (hslo : core.ops[slot]? = some ⟨g, e⟩) (he : e.Fresh .OPEN) (ho : e.owner = owner)
    (hf : core.op_free ≠ []) (hr : ∀ o, owner = some o → core.view.clocks.Room core.timer_cap o) :
    Hosts P core [] (core.stageGuard slot g owner) := by
  subst ho
  rw [stageGuard]
  obtain ⟨hnil, -⟩ | ⟨gslot, rest, gg, hpop, hg, hpa⟩ := popOp_cases hs
  · exact absurd hnil hf
  have hp := hpa ({ · with state := .InFlight .OPEN_DEADLINE, cancels := some (slot, g) })
  simp only [hpop, hg]
  split
  · rename_i core₁ hst
    have hne : gslot ≠ slot := fun heq => he.inFlight (by
      have hb := hp.blank
      rw [heq, hslo, Option.some.injEq, SlotEntry.mk.injEq] at hb
      rw [hb.2]
      rfl)
    have hst' := stage_none hst
    have ha : core₁.ops[gslot]? = some ⟨gg, .guarding slot g⟩ := by rw [hst']; exact hp.at_slot
    have hon : core₁.ops[slot]? = some ⟨g, e⟩ := by
      rw [hst']
      refine Eq.trans (congrArg (·[slot]?) hp.ops) ?_
      rwa [getElem?_set_ne hne]
    obtain ⟨hc, hf⟩ := armFor_cap (core₁.park slot
      ({ · with guard := some (gslot, core₁.generation gslot) })) e.owner
    refine .of_move (.guard hslo he hp.free hp.blank hr) ?_ (hc.trans (by rw [hst']; exact hp.cap))
      (hf.trans (by rw [hst']; exact hp.faults))
    rw [armFor_view, park_view core₁ hon, generation_eq ha, hst']
    have hv := hp.view
    simp only [view, View.mk.injEq] at hv ⊢
    obtain ⟨h₁, h₂, h₃, h₄, h₅⟩ := hv
    refine ⟨?_, h₂, ?_, ?_, h₅⟩
    · rw [h₁]
      rfl
    · rw [h₃]
    · rw [filter_append, h₄]
      rfl
  · rename_i err core₁ hst
    exact ((hp.same (stage_some hst)).fail ECANCELED).trans_nil
      (hosts_retractOp _ .OPEN nofun _ _)

theorem hosts_submitOpen (pers how : ℕ) (guarded : Bool) (deadline : Option ℕ) (wt : FsWaiter κ)
    (hsa : ((Request.Open pers how guarded deadline).entry wt).Tells P) :
    Hosts P core wt.callback.toList (core.submitOpen pers how guarded deadline wt) := by
  rw [submitOpen]
  split
  · exact hosts_refuse
  split
  · exact hosts_refuse
  rename_i hsc
  split
  · exact hosts_refuse
  rename_i hsl
  obtain ⟨-, hpop⟩ | ⟨slot, rest, g, hpop, hg, hpa⟩ := popOp_cases hs
  · rw [hpop]
    exact hosts_refuse
  have hp := hpa ({ · with
    state := .InFlight .OPEN, waiter := some wt, how := some how, strip_nonblock := guarded })
  simp only [hpop, hg]
  split
  · next err core₁ hst => exact (hp.same (stage_some hst)).fail err
  rename_i core₁ hst
  have hh := hp.host_plain .OPEN ⟨rfl, rfl, rfl, rfl⟩ (by decide) nofun hsa hst
  obtain rfl := stage_none hst
  split_ifs with hd
  · -- the second slot was counted before the first was taken, and the open is not charged yet
    rw [if_pos hd] at hsc
    refine hh.trans_nil (hosts_stageGuard (hh.sound hs) hp.at_slot ⟨rfl, rfl, rfl, rfl⟩ rfl
      (fun hnil => ?_) fun o ho => ?_)
    · have hr : rest = [] := (congrArg View.op_free hp.view).symm.trans hnil
      rw [hp.free, hr] at hsl
      exact hsl ⟨hd, by simp⟩
    · rw [hh.cap]
      exact room_of_screen hsc ho
  · exact hh

theorem hosts_submit (request : Request) (wt : FsWaiter κ) (hp : (request.entry wt).Tells P) :
    Hosts P core wt.callback.toList (core.submit request wt) := by
  cases request with
  | Open pers how guarded deadline => exact hosts_submitOpen hs pers how guarded deadline wt hp
  | Rw write file bufs =>
    rw [submit, submitRw]
    cases write with
    | true => exact hosts_hostOp hs .WRITEV (by decide) nofun ⟨rfl, rfl, rfl, rfl⟩ rfl hp _ _
    | false => exact hosts_hostOp hs .READV (by decide) nofun ⟨rfl, rfl, rfl, rfl⟩ rfl hp _ _
  | Leased file windows => exact hosts_submitLeasedOrRefuse hs file windows wt hp
  | Fsync file =>
    rw [submit, submitFsync]
    exact hosts_hostOp hs .FSYNC (by decide) nofun ⟨rfl, rfl, rfl, rfl⟩ rfl hp _ _
  | Timeout => exact hosts_submitTimeout hs wt hp
  | FdMeta tag pers file value =>
    rw [submit, submitFdMeta]
    split_ifs
    · exact hosts_refuse
    · exact hosts_stageFdMeta hs tag file value wt hp
  | FgetxattrAsRoot file value through_proc => exact hosts_stageFdMeta hs _ file value wt hp
  | ReopenProc pers file how guarded =>
    rw [submit, submitReopenProc]
    split_ifs
    · exact hosts_refuse
    · exact hosts_stageReopenProc hs file how guarded wt hp
  | ReopenProcAsRoot file how guarded => exact hosts_stageReopenProc hs file how guarded wt hp
  | PathOp tag pers => exact hosts_submitPathOp hs tag pers wt hp
  | LinkatFile pers file =>
    rw [submit, submitLinkatFile]
    split_ifs
    · exact hosts_refuse
    · exact hosts_hostOp hs .LINKAT (by decide) nofun ⟨rfl, rfl, rfl, rfl⟩ rfl hp _ _

theorem hosts_retractTimeout (cid slot g : ℕ) :
    Hosts P core [] (core.retractTimeout cid slot g) := by
  rw [retractTimeout]
  split_ifs with hco
  · exact .of_same ⟨rfl, rfl, rfl⟩
  obtain h | ⟨e, core₁, hslo, hsta, hma, h, hsa, hv⟩ :=
    retractOp_cases core .TIMEOUT slot g
  · rw [h]
    exact .of_same ⟨rfl, rfl, rfl⟩
  rw [h]
  have hm : Move P core.timer_cap core.view [] _ := .retract hslo hsta hma
  have hat : core₁.ops[slot]? = some ⟨g, { e with retracted := true }⟩ := by
    refine Eq.trans (congrArg (·.ops[slot]?) hv) ?_
    exact getElem?_set_of_some hslo
  have hc : core₁.armed_timers = core.armed_timers := congrArg View.clocks hv
  have hor : (core₁.ops[slot]?.bind (·.state.waiter)).bind (·.timerOwner) = e.owner := by
    rw [hat]
    rfl
  simp only [hor]
  cases ho : e.owner with
  | none =>
    simp only [ho] at hm
    exact .of_move hm hv hsa.cap hsa.faults
  | some o =>
    -- the timer itself is counted, so its owner has an entry
    have hle := weight_le_tally hslo o
    rw [weight_timer hsta, if_pos ho, hma] at hle
    have ha : 0 < (tally core.ops o).armed := hle.1
    have hk : core.armed_timers o = some (tally core.ops o) :=
      (hs.accounts.clocks o).trans (keep_of_pos (.inl ha))
    have hr : (tally core.ops o).retract.keep = some (tally core.ops o).retract :=
      keep_of_pos (.inr (by simp only [WallClock.retract, saturatingAdd]; omega))
    simp only [hc, hk, debugAssert, decide_eq_true ha, if_true]
    refine .of_move hm ?_ hsa.cap hsa.faults
    simp only [view, View.mk.injEq] at hv ⊢
    refine ⟨hv.1, hv.2.1, ?_, hv.2.2.2⟩
    simp [Clocks.adjust, ho, hk, hr]

end

theorem same_foldl_submitCancel (targets : List ℕ) (core : FsCore κ) :
    Same core (targets.foldl FsCore.submitCancel core) := by
  induction targets generalizing core with
  | nil => exact ⟨rfl, rfl, rfl⟩
  | cons ud targets ih => exact (same_submitCancel core ud).trans (ih _)

theorem census_le (hs : Sound cap core.view) : core.ops.countP (fun x => x.state.state ≠ .Free) ≤
      core.ops.length - core.op_free.length := by
  have hlen := hs.exact.length_add_countP
  have he : core.op_free.length + core.ops.countP (fun x => x.state.state ≠ .Free) =
      core.ops.length := hlen
  omega

theorem same_cancelOwnedBy (hs : Sound core.timer_cap core.view) (owners : List Conn) :
    Same core (core.cancelOwnedBy owners) := by
  rw [cancelOwnedBy]
  simp only [debugAssert, decide_eq_true (census_le hs), if_true]
  split_ifs
  · exact ⟨rfl, rfl, rfl⟩
  · have hcs : Same core { core with
        closed_owners := owners.foldl recordClosed core.closed_owners } := ⟨rfl, rfl, rfl⟩
    exact hcs.trans (same_foldl_submitCancel _ _)

end TruenasRos.UringFs
