import TruenasRos.UringFs.Staged
import TruenasRos.UringFs.WallClocks

/-! # Answers to the callbacks

Every submission gets a ticket of its own, and a session keeps what became of the callbacks: a
completion fired it, or its refusal was taken off the queue. Over every run a callback is in
exactly one place, and a completion fires the callback of the op it completes, with what it means
for that submission.
-/

namespace TruenasRos.UringFs

open FsCore List Slots Uring Option

/-- A size of the op table. The standalone host and the server both refuse one over `SLOT_MASK`. -/
structure OpSlots where
  count : UInt32
  fits : count.toNat ≤ SLOT_MASK

/-- A callback is known by its number and by what was submitted with it. -/
structure Ticket where
  id : ℕ
  request : Request
  waiter : FsWaiter Unit
  deriving DecidableEq

def FsWaiter.named (cb : Ticket) : FsWaiter Unit → FsWaiter Ticket
  | Channel _ => .Channel cb
  | Embedded owner _ on_fail => .Embedded owner cb (on_fail.map fun _ => cb)
  | Pump owner => .Pump owner

/-- What the submission parks, but for what marks and guards do to it. -/
def Ticket.Fits (cb : Ticket) (e : FsOpEntry Ticket) : Prop :=
  e = { cb.request.entry (cb.waiter.named cb) with
    retracted := e.retracted, guard := e.guard, wall_clock := e.wall_clock }

theorem Ticket.Fits.marked (cb : Ticket) (e : FsOpEntry Ticket) (retracted : Bool)
    (guard : Option (ℕ × ℕ)) (wall_clock : Option Conn) (h : cb.Fits e) :
    cb.Fits { e with retracted, guard, wall_clock } := by
  rw [Ticket.Fits, h]

theorem FsWaiter.eq_of_callback_named {cb cb' : Ticket} {waiter : FsWaiter Unit}
    (h : (waiter.named cb).callback = some cb') : cb' = cb := by
  cases waiter <;> cases h
  rfl

/-- A callback that was fired: the op on the ring and the entry of the table that completed, with
the result, and the outcome the callback was handed. -/
structure Fired where
  sqe : Option (Sqe Ticket)
  entry : Option (FsOpEntry Ticket)
  res : ℤ
  cb : Ticket
  done : FsDone

/-- The core with the tickets of the submissions and what became of their callbacks. -/
structure Session where
  core : FsCore Ticket
  next : ℕ
  accepted : List Ticket
  fired : List Fired
  refused : List (Ticket × FsDone)

inductive Event
  | Submit (request : Request) (waiter : FsWaiter Unit)
  | PumpRead (file : ℕ) (dest : PumpDest) (want : ℕ) (owner : Conn)
  | RetractTimeout (core_id slot generation : ℕ)
  | CancelOwnedBy (owners : List Conn)
  | Cqe (user_data : UInt64) (res : ℤ)
  | TakeRefusal

def Sqe.isOp (user_data : ℕ) (sqe : Sqe Ticket) : Bool :=
  sqe.target.isNone && sqe.user_data = user_data

def FsCore.without (core : FsCore Ticket) (user_data : ℕ) : FsCore Ticket :=
  { core with eng := { core.eng with inflight := core.eng.inflight.eraseP (·.isOp user_data) } }

def ReapedFs.toFired (reaped : ReapedFs Ticket) (sqe : Option (Sqe Ticket))
    (entry : Option (FsOpEntry Ticket)) (res : ℤ) : List Fired :=
  match reaped with
  | .Embedded cb done _ => [⟨sqe, entry, res, cb, done⟩]
  | _ => []

theorem toFired_cb (reaped : ReapedFs Ticket) (sqe : Option (Sqe Ticket))
    (entry : Option (FsOpEntry Ticket)) (res : ℤ) :
    (reaped.toFired sqe entry res).map (·.cb) = reaped.callback.toList := by
  cases reaped <;> rfl

namespace Session

def opened (slots : OpSlots) (core_id page_size : ℕ) (cap : Option ℕ) : Session where
  core := .opened slots.count core_id page_size cap
  next := 0
  accepted := []
  fired := []
  refused := []

section

variable (s : Session)

/-- A completion, as a host's loop routes it; the op it completes leaves the ring. -/
def reap (user_data : ℕ) (res : ℤ) : Session :=
  let sqe := s.core.eng.inflight.find? (·.isOp user_data)
  let core := s.core.without user_data
  let (byte, slot, gen32) := unpackRaw user_data
  match Tag.ofCode byte with
  | none | some .WAKE => { s with core := core }
  | some tag =>
    let (reaped, core) := core.onCqe tag slot gen32 res
    { s with
      core := core
      fired := s.fired ++ reaped.toFired sqe (s.core.ops[slot]?.map (·.state)) res }

def takeRefusal : Session :=
  match s.core.takeRefusal with
  | (some (_, cb, done), core) => { s with core := core, refused := s.refused ++ [(cb, done)] }
  | (none, core) => { s with core := core }

def handle : Event → Session
  | .Submit request waiter =>
    let waiter := waiter.named ⟨s.next, request, waiter⟩
    { s with
      core := s.core.submit request waiter, next := s.next + 1
      accepted := s.accepted ++ waiter.callback.toList }
  | .PumpRead file dest want owner =>
    { s with core := (s.core.submitPumpRead file dest want owner).2 }
  | .RetractTimeout core_id slot generation =>
    { s with core := s.core.retractTimeout core_id slot generation }
  | .CancelOwnedBy owners => { s with core := s.core.cancelOwnedBy owners }
  | .Cqe user_data res => s.reap user_data.toNat res
  | .TakeRefusal => s.takeRefusal

/-- An event, with what the ring answers to the submissions made in it. -/
def step (ev : List (Option ℕ) × Event) : Session :=
  { s with core := s.core.withVerdicts ev.1 }.handle ev.2

def run (evs : List (List (Option ℕ) × Event)) : Session := evs.foldl step s

def pending : List Ticket := s.core.view.pending

def refusals : List Ticket := s.core.view.queue ++ s.refused.map (·.1)

end

end Session

/-- The completion is the one of the op staged for the callback, the entry that completed is what
its submission parked, and the outcome is what the completion means for that entry. -/
def Fired.Own (a : Fired) : Prop :=
  ∃ (tag : Tag) (slot g : ℕ) (e : FsOpEntry Ticket),
    a.sqe = some (FsCore.opSqe tag slot g (some a.cb)) ∧ a.entry = some e ∧
      e.state = .InFlight tag ∧ a.cb.Fits e ∧ a.done = (Completed.of e).done tag a.res

variable {cap : Option ℕ} {s : Session} {core₁ core : FsCore Ticket} {cbs : List Ticket}
  {ud slot g : ℕ} {e : FsOpEntry Ticket} {sqe : Sqe Ticket} {tag : Tag}

structure Session.Inv (cap : Option ℕ) (s : Session) : Prop where
  sound : Sound cap s.core.view
  cap : s.core.timer_cap = cap
  staged : Staged s.core.view
  tells : Tells Ticket.Fits s.core.ops
  slots : s.core.ops.length ≤ SLOT_MASK
  ledger : ∀ id, s.pending.count id + s.refusals.count id + (s.fired.map (·.cb)).count id =
    s.accepted.count id
  nodup : s.accepted.Nodup
  below : ∀ cb ∈ s.accepted, cb.id < s.next
  own : ∀ a ∈ s.fired, a.Own

namespace Session.Inv

theorem opened (slots : OpSlots) (cid ps : ℕ) (cap : Option ℕ) :
    Inv cap (.opened slots cid ps cap) := by
  obtain ⟨hsn, hc, -⟩ := opened_sound (κ := Ticket) slots.count cid ps cap
  have hv : (FsCore.opened (κ := Ticket) slots.count cid ps cap).view =
      (new (κ := Ticket) slots.count cid ps).view := by
    cases cap <;> rfl
  have hn : ∀ {i : ℕ} {x : SlotEntry (FsOpEntry Ticket)},
      (new (κ := Ticket) slots.count cid ps).view.ops[i]? = some x → x = ⟨0, .new⟩ :=
    fun hx => eq_of_mem_replicate (mem_of_getElem? hx)
  -- no slot has a tenant
  have he : roster token (new (κ := Ticket) slots.count cid ps).view.ops = [] := by
    refine eq_nil_iff_forall_not_mem.2 fun sqe hs => ?_
    obtain ⟨i, x, hx, ht⟩ := mem_roster.1 hs
    rw [hn hx] at ht
    cases ht
  refine ⟨hsn, hc, ?_, fun i x hx => ?_, ?_, fun id => ?_, nodup_nil, by simp [Session.opened],
    by simp [Session.opened]⟩
  · rw [Session.opened, hv, Staged, he]
    exact .refl _
  · obtain rfl := hn ((congrArg (·.ops[i]?) hv).symm.trans hx)
    exact tells_of_silent rfl
  · change (FsCore.opened (κ := Ticket) slots.count cid ps cap).view.ops.length ≤ SLOT_MASK
    rw [hv]
    simpa [view, new] using slots.fits
  · rw [pending, refusals, Session.opened, hv]
    rfl

section

variable (h : Inv cap s)
include h

theorem hosts {next : ℕ} (hh : Hosts Ticket.Fits s.core cbs core₁) (hn : s.next ≤ next)
    (hno : cbs.Nodup) (hc : ∀ cb ∈ cbs, s.next ≤ cb.id ∧ cb.id < next) :
    Inv cap { s with core := core₁, next := next, accepted := s.accepted ++ cbs } where
  cap := hh.cap.trans h.cap
  sound := hh.cap.trans h.cap ▸ hh.sound (h.cap ▸ h.sound)
  staged := hh.moves.staged h.staged
  tells := hh.moves.tells Ticket.Fits.marked h.tells
  slots := hh.moves.later.length.trans_le h.slots
  ledger := fun id => by
    have ho := h.ledger id
    have hm := hh.moves.ledger.count_eq id
    simp only [pending, refusals, count_append] at ho hm ⊢
    omega
  nodup := nodup_append.2 ⟨h.nodup, hno, fun a ha b hb hab => by
    have := h.below a ha
    have := (hc b hb).1
    subst hab
    omega⟩
  below := fun cb hcb => by
    rcases mem_append.1 hcb with hcb | hcb
    · exact (h.below cb hcb).trans_le hn
    · exact (hc cb hcb).2
  own := h.own

theorem hosts_nil (hh : Hosts Ticket.Fits s.core [] core₁) : Inv cap { s with core := core₁ } := by
  have hinv := h.hosts hh le_rfl nodup_nil nofun
  rwa [append_nil] at hinv

theorem hosts_submit (request : Request) (waiter : FsWaiter Unit) :
    let waiter := waiter.named ⟨s.next, request, waiter⟩
    Hosts Ticket.Fits s.core waiter.callback.toList (s.core.submit request waiter) := by
  refine UringFs.hosts_submit (h.cap ▸ h.sound) request _ fun cb hcb => ?_
  rw [Request.callback_entry] at hcb
  rw [FsWaiter.eq_of_callback_named hcb]
  rfl

theorem submit (request : Request) (waiter : FsWaiter Unit) :
    Inv cap (s.handle (.Submit request waiter)) := by
  refine h.hosts (h.hosts_submit request waiter) (Nat.le_succ _)
    (by cases waiter <;> simp [FsWaiter.named, FsWaiter.callback]) fun cb hcb => ?_
  rw [FsWaiter.eq_of_callback_named (mem_toList.1 hcb)]
  exact ⟨le_rfl, Nat.lt_succ_self _⟩

theorem takeRefusal : Inv cap s.takeRefusal ∧ Onward s.core.ops s.takeRefusal.core.ops := by
  rw [Session.takeRefusal, FsCore.takeRefusal]
  rcases hq : s.core.refusals with - | ⟨⟨owner, cb, done⟩, rest⟩
  · exact ⟨h, Later.refl .refl _⟩
  · refine ⟨{ h with
    sound := h.sound.of_table rfl rfl rfl, ledger := fun id => ?_ }, Later.refl .refl _⟩
    have ho := h.ledger id
    simp only [pending, refusals, View.pending, view, hq, map_cons, map_append,
      count_append, count_cons, map_nil, count_nil] at ho ⊢
    omega

end

end Session.Inv

theorem eraseP_perm_of_find? {α : Type*} {p : α → Bool} {l : List α} {a : α}
    (h : l.find? p = some a) : l.Perm (a :: l.eraseP p) := by
  induction l with
  | nil => cases h
  | cons b l ih =>
    by_cases hb : p b
    · rw [find?_cons_of_pos hb, some.injEq] at h
      rw [eraseP_cons_of_pos hb, h]
    · rw [find?_cons_of_neg hb] at h
      rw [eraseP_cons_of_neg hb]
      exact ((ih h).cons b).trans (.swap a b _)

theorem Session.reap_eq {gen32 : ℕ} (s : Session) (res : ℤ)
    (hu : unpackRaw ud = (tag.code, slot, gen32)) (hw : tag ≠ .WAKE) :
    s.reap ud res = { s with
      core := ((s.core.without ud).onCqe tag slot gen32 res).2
      fired := s.fired ++ ((s.core.without ud).onCqe tag slot gen32 res).1.toFired
        (s.core.eng.inflight.find? (·.isOp ud)) (s.core.ops[slot]?.map (·.state)) res } := by
  rw [reap, hu]
  dsimp only
  rw [Tag.ofCode_code]
  split
  · contradiction
  · exact absurd (some.inj ‹_›) hw
  · rename_i heq
    cases heq
    rfl

theorem toFired_own {reaped : ReapedFs Ticket} {res : ℤ}
    (ho : reaped.Own e tag res) (hs : e.state = .InFlight tag) (ht : e.Tells Ticket.Fits) :
    ∀ a ∈ reaped.toFired (some (FsCore.opSqe tag slot g e.callback)) (some e) res, a.Own := by
  intro a ha
  cases reaped with
  | None => cases ha
  | Embedded cb done owner =>
    obtain ⟨hc, hd⟩ := ho cb done owner rfl
    rw [mem_singleton.1 ha]
    exact ⟨tag, slot, g, e, by rw [hc], rfl, hs, ht cb hc, hd⟩
  | Pump done owner => cases ha

namespace Session.Inv

theorem reap_stray (h : Inv cap s) (hu : ud < 2 ^ 64) (res : ℤ)
    (hno : s.core.eng.inflight.find? (·.isOp ud) = none) : s.reap ud res = s := by
  have hc : s.core.without ud = s.core := by
    rw [without, eraseP_of_forall_not (find?_eq_none.1 hno)]
  rw [reap, hno, hc]
  rcases hun : unpackRaw ud with ⟨byte, slot, gen32⟩
  dsimp only
  split
  · rfl
  · rfl
  · rename_i tag _ ht
    obtain ⟨heq, -⟩ | ⟨g, e, hn, -⟩ :=
      onCqe_cases (P := Ticket.Fits) (h.cap ▸ h.sound) tag slot gen32 res
    · rw [heq]
      simp [ReapedFs.toFired]
    · -- a tenant's token is on the ring
      have hmem : opSqe tag slot g e.callback ∈ s.core.view.ring :=
        h.staged.mem_iff.2 (mem_roster.2 ⟨slot, _, hn.slot, token_of_state hn.state⟩)
      have ho := find?_eq_none.1 hno _ (mem_of_mem_filter hmem)
      have hto : packRaw tag.code slot (g % 2 ^ 32) = ud := by
        have hco : tag.code = byte := by simpa using find?_some ht
        rw [hco, hn.gen]
        exact packRaw_unpackRaw hu hun
      rw [Sqe.isOp, opSqe, hto] at ho
      simp at ho

theorem reap_op (h : Inv cap s) (res : ℤ) (hs : s.core.eng.inflight.find? (·.isOp ud) = some sqe) :
    Inv cap (s.reap ud res) ∧ Onward s.core.ops (s.reap ud res).core.ops := by
  have ho := find?_some hs
  simp only [Sqe.isOp, Bool.and_eq_true, decide_eq_true_eq] at ho
  have hpe := (eraseP_perm_of_find? hs).filter (·.target.isNone)
  rw [filter_cons, if_pos ho.1] at hpe
  have hmem : sqe ∈ s.core.view.ring := hpe.mem_iff.2 mem_cons_self
  obtain ⟨slot, ⟨g, e⟩, hslo, ht⟩ := mem_roster.1 (h.staged.mem_iff.1 hmem)
  obtain ⟨tag, hsta⟩ : ∃ tag, e.state = .InFlight tag := by
    cases hsta : e.state with
    | Free => simp [token, hsta] at ht
    | InFlight tag => exact ⟨tag, rfl⟩
  have hna : Names s.core tag slot (g % 2 ^ 32) g e := ⟨hslo, rfl, hsta⟩
  obtain rfl : opSqe tag slot g e.callback = sqe := by
    rwa [token_of_state hsta, some.injEq] at ht
  have hlt : slot < 2 ^ 24 := by
    have hlen := (List.getElem?_eq_some_iff.1 hslo).1.trans_le h.slots
    rw [SLOT_MASK] at hlen
    omega
  have hu : unpackRaw ud = (tag.code, slot, g % 2 ^ 32) :=
    ho.2 ▸ unpackRaw_packRaw tag.code_lt hlt (Nat.mod_lt _ (by positivity))
  obtain ⟨hw, hca⟩ : tag ≠ .WAKE ∧ tag ≠ .CANCEL := by
    obtain ho | ⟨rfl, -⟩ := h.sound.routed slot _ tag hslo hsta
    · exact ⟨ho.2.2, ho.2.1⟩
    · exact ⟨by simp, by simp⟩
  rw [s.reap_eq res hu hw, hs, hna.slot]
  set core := s.core.without ud
  have hsn : Sound core.timer_cap core.view := h.cap ▸ h.sound.of_table rfl rfl rfl
  have hna' : Names core tag slot (g % 2 ^ 32) g e := { hna with }
  obtain ⟨-, hc | hn⟩ | ⟨g', e', hn, hr, hcb, hown⟩ :=
    onCqe_cases (P := Ticket.Fits) hsn tag slot (g % 2 ^ 32) res
  · exact absurd hc hca
  · exact absurd hna' (hn g e)
  obtain ⟨rfl, rfl⟩ : g = g' ∧ e = e' := by
    simpa using hna'.slot.symm.trans hn.slot
  obtain ⟨core₂, hre, -, -, hh⟩ := hr.reap
  have hon : Onward s.core.ops (core.onCqe tag slot (g % 2 ^ 32) res).2.ops :=
    hre.later.trans hh.moves.later
  refine ⟨⟨?_, hr.cap.trans h.cap, ?_, ?_, ?_, fun id => ?_, h.nodup, h.below, ?_⟩, hon⟩
  · exact hr.cap.trans h.cap ▸ (hr.sound hsn).1
  · exact hh.moves.staged (hre.staged hslo ht (hpe.symm.trans h.staged))
  · exact hh.moves.tells Ticket.Fits.marked (hre.tells Ticket.Fits.marked h.tells)
  · exact hon.length.trans_le h.slots
  · have hold := h.ledger id
    have hl : s.pending.count id = e.callback.toList.count id + core.view.pending.count id := by
      rw [← count_append]
      refine ((hpe.filterMap (·.tenant)).trans ?_).count_eq id
      cases e.callback <;> exact .refl _
    have hm := hh.moves.ledger.count_eq id
    simp only [pending, refusals, View.pending, hre.ring_queue, count_append,
      map_append, toFired_cb, hcb, append_nil] at hold hl hm ⊢
    have hq : core.view.queue = s.core.view.queue := rfl
    rw [hq] at hm
    omega
  · exact forall_mem_append.2 ⟨h.own, toFired_own hown hsta (h.tells slot _ hslo)⟩

theorem handle (h : Inv cap s) (ev : Event) :
    Inv cap (s.handle ev) ∧ Onward s.core.ops (s.handle ev).core.ops := by
  have hs := h.cap ▸ h.sound
  cases ev with
  | Submit request waiter =>
    exact ⟨h.submit request waiter, (h.hosts_submit request waiter).moves.later⟩
  | PumpRead file dest want owner =>
    have hh := hosts_submitPumpRead (P := Ticket.Fits) hs file dest want owner
    exact ⟨h.hosts_nil hh, hh.moves.later⟩
  | RetractTimeout core_id slot generation =>
    have hh := hosts_retractTimeout (P := Ticket.Fits) hs core_id slot generation
    exact ⟨h.hosts_nil hh, hh.moves.later⟩
  | CancelOwnedBy owners =>
    have hh := Hosts.of_same (P := Ticket.Fits) (same_cancelOwnedBy hs owners)
    exact ⟨h.hosts_nil hh, hh.moves.later⟩
  | Cqe user_data res =>
    rw [Session.handle]
    rcases hf : s.core.eng.inflight.find? (·.isOp user_data.toNat) with - | sqe
    · rw [h.reap_stray user_data.toNat_lt res hf]
      exact ⟨h, Later.refl .refl _⟩
    · exact h.reap_op res hf
  | TakeRefusal => exact h.takeRefusal

theorem run (evs : List (List (Option ℕ) × Event)) (h : Inv cap s) :
    Inv cap (s.run evs) ∧ Onward s.core.ops (s.run evs).core.ops := by
  induction evs generalizing s with
  | nil => exact ⟨h, Later.refl .refl _⟩
  | cons ev evs ih =>
    obtain ⟨hs, ho⟩ := handle (s := { s with core := s.core.withVerdicts ev.1 }) { h with } ev.2
    obtain ⟨hr, hre⟩ := ih hs
    exact ⟨hr, ho.trans hre⟩

end Session.Inv

theorem retractTimeout_stale (cid : ℕ) (h : ∀ x, core.ops[slot]? = some x → x.generation ≠ g) :
    core.retractTimeout cid slot g = core := by
  have hr : core.retractOp .TIMEOUT slot g = (false, core) := by
    rw [retractOp]
    split
    · rfl
    · rename_i x hx
      rw [if_pos (.inl (h x hx))]
  rw [retractTimeout, hr]
  exact ite_self _

/-- A callback taken in waits for its completion, was fired by it, or was refused: exactly one
of them. A stale token changes nothing, the free list is exact, and a slot's generation grows
from one tenant to the next, and so does the 64-bit word that holds it until it wraps. -/
theorem answered_exactly_once (slots : OpSlots) (core_id page_size : ℕ) (cap : Option ℕ)
    (evs : List (List (Option ℕ) × Event)) :
    let s := (Session.opened slots core_id page_size cap).run evs
    (∀ id, s.pending.count id + s.refusals.count id + (s.fired.map (·.cb)).count id =
        if id ∈ s.accepted then 1 else 0) ∧
      (∀ a ∈ s.fired, a.Own) ∧
      (∀ tag slot gen32 res, (∀ x, s.core.ops[slot]? = some x → x.generation % 2 ^ 32 ≠ gen32) →
          s.core.onCqe tag slot gen32 res = (.None, s.core)) ∧
      (∀ core_id slot generation, (∀ x, s.core.ops[slot]? = some x → x.generation ≠ generation) →
        s.core.retractTimeout core_id slot generation = s.core) ∧
      s.core.op_free.Nodup ∧
      (∀ i, i ∈ s.core.op_free ↔ ∃ x, s.core.ops[i]? = some x ∧ x.state.state = .Free) ∧
      ∀ more (i : ℕ) (x y : SlotEntry (FsOpEntry Ticket)),
        s.core.ops[i]? = some x → (s.run more).core.ops[i]? = some y →
        x.generation ≤ y.generation ∧ (x.state.state ≠ .Free →
            (y.state.state ≠ x.state.state ∨ y.state.waiter ≠ x.state.waiter) →
              x.generation < y.generation ∧ (y.generation < 2 ^ 64 →
                UInt64.ofNat x.generation < UInt64.ofNat y.generation)) := by
  intro s
  obtain ⟨h, -⟩ := (Session.Inv.opened slots core_id page_size cap).run evs
  refine ⟨fun id => (h.ledger id).trans h.nodup.count, h.own, fun tag slot gen32 res hst => ?_,
    fun core_id slot generation => retractTimeout_stale core_id, h.sound.exact.nodup,
    h.sound.exact.mem_iff, fun more i x y hx hy => ?_⟩
  · have hs : Sound s.core.timer_cap s.core.view := by rw [h.cap]; exact h.sound
    obtain ⟨heq, -⟩ | ⟨g, e, hn, -⟩ := onCqe_cases (P := Ticket.Fits) hs tag slot gen32 res
    · exact heq
    · exact absurd hn.gen (hst _ hn.slot)
  · rcases (h.run more).2.entry i x y hx hy with hlt | ⟨heq, hsy⟩
    · refine ⟨hlt.le, fun _ _ => ⟨hlt, fun hw => UInt64.lt_iff_toNat_lt.2 ?_⟩⟩
      rwa [UInt64.toNat_ofNat_of_lt' (hlt.trans hw), UInt64.toNat_ofNat_of_lt' hw]
    · refine ⟨heq.le, fun ho hc => ?_⟩
      obtain ⟨hsta, hw⟩ := hsy ho
      exact (hc.elim (· hsta) (· hw)).elim

/-- The ring has the ops of the taken slots, each once under its slot and generation, so the free
list and the ring share the table; a free slot keeps nothing of its last tenant, and the guard of an
open cancels that open and no later tenant of its slot. -/
theorem ring_and_free_list_share_table (slots : OpSlots) (core_id page_size : ℕ) (cap : Option ℕ)
    (evs : List (List (Option ℕ) × Event)) :
    let s := (Session.opened slots core_id page_size cap).run evs
    s.core.view.ring.Perm (roster token s.core.ops) ∧
      s.core.op_free.length + s.core.view.ring.length = s.core.ops.length ∧
      (∀ (i : ℕ) (x : SlotEntry (FsOpEntry Ticket)), s.core.ops[i]? = some x →
        x.state.state = .Free → x.state = .new) ∧
      Paired s.core.ops := by
  intro s
  obtain ⟨h, -⟩ := (Session.Inv.opened slots core_id page_size cap).run evs
  refine ⟨h.staged, ?_, h.sound.blank, h.sound.paired⟩
  have hl := h.staged.length_eq.trans (length_roster (p := (¬ ·.state.state = .Free)) fun i x => by
    cases hs : x.state.state <;> simp [token, hs])
  rw [hl]
  exact h.sound.exact.length_add_countP

end TruenasRos.UringFs
