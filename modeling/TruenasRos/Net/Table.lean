import TruenasRos.Net.Regular

/-! # The table of connections

A slot is given out by the kernel, waits for what is to be known of its peer, holds a connection,
and is given back when its socket has been closed. Everything that can happen in the server is an
event of a slot, or the begin of a drain, or a stop.
-/

namespace TruenasRos.Net

open List

/-- What a slot holds. A connection that is detached is one too. -/
inductive SlotState
  | Empty
  | PeerFetch
  | TlsInstalling
  | TlsParked
  | Serving (r : Reactor)

/-- The ring operations on a socket for which no connection has been installed. -/
inductive PreOp
  | Handoff
  | PeerFetch
  | FdInstall
  | Shutdown
  | Close
  deriving DecidableEq

/-- What a slot holds while the operation is in flight. -/
def PreOp.state : PreOp → SlotState
  | .PeerFetch => .PeerFetch
  | .FdInstall => .TlsInstalling
  | .Handoff | .Shutdown | .Close => .Empty

structure Slot where
  state : SlotState := .Empty
  /-- Whether the kernel has given the index out, and its close has not completed. -/
  held : Bool := false
  inflight : List PreOp := []
  /-- The connections that have been freed. -/
  past : List Reactor := []
  /-- How often a socket arrived or a connection was installed in a slot that was not empty. -/
  clashes : ℕ := 0

/-- What a listener's connections need before they are installed. -/
inductive Listener
  | tls
  | fetched
  | plain
  deriving DecidableEq

/-- What decides on a socket that arrives. -/
structure Arrival where
  in_range : Bool
  /-- Whether another ring is to have it. -/
  moves : Bool
  listener : Listener
  /-- What the accept handler would say. -/
  admits : Bool
  deriving DecidableEq

inductive SlotEvent
  | accept (a : Arrival)
  | handoff (sent : Bool) (a : Arrival)
  | peerFetch (known admits : Bool)
  | fdInstall (furnished : Bool)
  | handshake (ready : Bool)
  | handshakeTimeout
  | shutdown
  | closed
  | conn (e : Event)
  /-- The connection is closed from elsewhere. -/
  | closeConn (reason : CloseReason)

namespace Slot

variable (cfg : CoreConfig) (draining : Bool)

variable (s : Slot)

def isEmpty : Bool :=
  match s.state with
  | .Empty => true
  | _ => false

/-- Note whether the slot is one that may be filled. -/
def fill : Slot := { s with clashes := s.clashes + if s.isEmpty then 0 else 1 }

def withState (state : SlotState) : Slot := { s with state }

def stage (op : PreOp) : Slot := { s with inflight := s.inflight ++ [op] }

/-- Tear a socket down. A connection counts it among its operations. -/
def submitTeardown (shutdown_first : Bool) : Slot :=
  match s.state with
  | .Serving r => s.withState (.Serving (r.submitTeardown shutdown_first))
  | _ => s.stage (if shutdown_first then .Shutdown else .Close)

def install (ktls : Bool) : Slot := s.fill.withState (.Serving (Reactor.start cfg ktls))

def finishAccept (admits : Bool) : Slot :=
  if admits then s.install cfg false else s.submitTeardown true

def keep (a : Arrival) : Slot :=
  match a.listener with
  | .tls => (s.withState .TlsInstalling).stage .FdInstall
  | .fetched => (s.withState .PeerFetch).stage .PeerFetch
  | .plain => s.finishAccept cfg a.admits

def acceptConnection (a : Arrival) (may_move : Bool) : Slot :=
  let s := s.fill
  if !a.in_range || draining then s.submitTeardown true
  else if may_move && a.moves then s.stage .Handoff
  else s.keep cfg a

def onHandoff (sent : Bool) (a : Arrival) : Slot :=
  if sent then s.submitTeardown false else s.acceptConnection cfg draining a false

def onPeerFetch (known admits : Bool) : Slot :=
  match s.state with
  | .PeerFetch =>
    if known && !draining then (s.withState .Empty).finishAccept cfg admits
    else (s.withState .Empty).submitTeardown true
  | _ => s

def onFdInstall (furnished : Bool) : Slot :=
  match s.state with
  | .TlsInstalling =>
    if furnished && !draining then s.withState .TlsParked
    else (s.withState .Empty).submitTeardown true
  | _ => s

def onHandshake (ready : Bool) : Slot :=
  match s.state with
  | .TlsParked =>
    if ready && !draining then (s.withState .Empty).install cfg true
    else (s.withState .Empty).submitTeardown true
  | _ => s

def onHandshakeTimeout : Slot :=
  match s.state with
  | .TlsParked => (s.withState .Empty).submitTeardown true
  | _ => s

def settle (r : Reactor) : Slot :=
  if r.place = .Freed then { s with state := .Empty, past := s.past ++ [r] }
  else s.withState (.Serving r)

def yield : Slot := { s with held := false }

def onClosed : Slot :=
  match s.state with
  | .Serving r => s.settle r.onClosed
  | _ => s.withState .Empty

def closes (r : Reactor) : Event → Bool
  | .closed => r.enabled cfg .closed
  | _ => false

def onConn (e : Event) : Slot :=
  match s.state with
  | .Serving r =>
    let s := s.settle (r.step cfg e)
    if closes cfg r e then s.yield else s
  | _ => s

def onCloseConn (reason : CloseReason) : Slot :=
  match s.state with
  | .Serving r =>
    if r.place = .Serving ∧ !r.task.isDeliver ∧ !r.task.isRespond then
      s.withState (.Serving (r.closeConn reason))
    else s
  | _ => s

def reap (op : PreOp) : Slot := { s with inflight := s.inflight.erase op }

def handle : SlotEvent → Slot
  | .accept a => { s with held := true }.acceptConnection cfg draining a true
  | .handoff sent a => (s.reap .Handoff).onHandoff cfg draining sent a
  | .peerFetch known admits => (s.reap .PeerFetch).onPeerFetch cfg draining known admits
  | .fdInstall furnished => (s.reap .FdInstall).onFdInstall draining furnished
  | .handshake ready => s.onHandshake cfg draining ready
  | .handshakeTimeout => s.onHandshakeTimeout
  | .shutdown => (s.reap .Shutdown).stage .Close
  | .closed => (s.reap .Close).onClosed.yield
  | .conn e => s.onConn cfg e
  | .closeConn reason => s.onCloseConn reason

/-- Whether the event can come. The kernel gives an index out that it does not hold, and reports
an operation that is in flight. A drain and a stop concern the server as a whole. -/
def enabled : SlotEvent → Bool
  | .accept _ => !s.held
  | .handoff _ _ => decide (.Handoff ∈ s.inflight)
  | .peerFetch _ _ => decide (.PeerFetch ∈ s.inflight)
  | .fdInstall _ => decide (.FdInstall ∈ s.inflight)
  | .handshake _ | .handshakeTimeout => true
  | .shutdown => decide (.Shutdown ∈ s.inflight)
  | .closed => decide (.Close ∈ s.inflight)
  | .conn .beginDrain | .conn .stop => false
  | .conn _ | .closeConn _ => true

def step (e : SlotEvent) : Slot := if s.enabled e then s.handle cfg draining e else s

/-- `accept_connection` keeps what arrives. A connection handed in is an accept that stays. -/
def keeps : SlotEvent → Bool
  | .accept a => a.in_range && !draining && !a.moves
  | .handoff sent a => !sent && a.in_range && !draining
  | _ => false

/-- The event is the slot's release. -/
def frees : SlotEvent → Bool
  | .closed => true
  | .conn e =>
    match s.state with
    | .Serving r => closes cfg r e
    | _ => false
  | _ => false

/-- The sweep of a drain: what waits for its handshake is closed, connections drain. -/
def beginDrain : Slot :=
  match s.state with
  | .TlsParked => (s.withState .Empty).submitTeardown true
  | .Serving r => s.settle (r.step cfg .beginDrain)
  | _ => s

def stop : Slot :=
  match s.state with
  | .Serving r => s.settle (r.step cfg .stop)
  | _ => s

def rests : Bool :=
  match s.state with
  | .Serving r => r.task.isIdle
  | _ => true

end Slot

inductive TableEvent
  | slot (i : ℕ) (e : SlotEvent)
  | beginDrain
  | stop

structure Table where
  slots : List Slot
  draining : Bool := false

namespace Table

variable (cfg : CoreConfig)

def step (t : Table) : TableEvent → Table
  | .slot i e => { t with slots := t.slots.modify i fun s => s.step cfg t.draining e }
  | .beginDrain =>
    if t.draining || !t.slots.all Slot.rests then t
    else { slots := t.slots.map (Slot.beginDrain cfg), draining := true }
  | .stop => { t with slots := t.slots.map (Slot.stop cfg) }

def run (t : Table) (es : List TableEvent) : Table := Steps.run (step cfg) t es

def new (pool_size : ℕ) : Table := { slots := replicate pool_size {} }

end Table

namespace Slot

variable {cfg : CoreConfig} {draining : Bool} {s : Slot} {k : Prop}

/-- Where the kernel and the table agree that a slot is, and whether its connection was kept. -/
inductive Phase (kept : Prop) : SlotState → Bool → List PreOp → Prop
  | free (hkept : ¬kept) : Phase kept .Empty false []
  | arriving (hkept : ¬kept) : Phase kept .Empty true [.Handoff]
  | shutting : Phase kept .Empty true [.Shutdown]
  | closing : Phase kept .Empty true [.Close]
  | fetching (hkept : kept) : Phase kept .PeerFetch true [.PeerFetch]
  | installing (hkept : kept) : Phase kept .TlsInstalling true [.FdInstall]
  | parked (hkept : kept) : Phase kept .TlsParked true []
  | serving {r : Reactor} (hkept : kept) (hregular : r.Regular) (hplace : r.place ≠ .Freed) :
      Phase kept (.Serving r) true []

/-- The connections that a slot has held were freed in order, and it was never filled twice. -/
structure Clean (s : Slot) : Prop where
  clashes : s.clashes = 0
  past : ∀ r ∈ s.past, r.Regular ∧ r.place = .Freed

structure Sound (kept : Prop) (s : Slot) : Prop extends Clean s where
  phase : Phase kept s.state s.held s.inflight

/-- A slot that was given out and in which nothing is going on. -/
structure Vacant (s : Slot) : Prop extends Clean s where
  state : s.state = .Empty
  held : s.held = true
  inflight : s.inflight = []

section

variable (h : s.Vacant)
include h

theorem Vacant.submitTeardown (shutdown_first : Bool) :
    (s.submitTeardown shutdown_first).Sound k := by
  unfold Slot.submitTeardown
  rw [h.state]
  refine ⟨⟨h.clashes, h.past⟩, ?_⟩
  simp only [stage, h.state, h.held, h.inflight]
  cases shutdown_first with
  | true => exact .shutting
  | false => exact .closing

theorem Vacant.fill : s.fill = s := by
  have he : s.isEmpty = true := by rw [isEmpty, h.state]
  rw [Slot.fill, he]
  rfl

theorem Vacant.install (hk : k) (ktls : Bool) : (s.install cfg ktls).Sound k := by
  unfold Slot.install
  rw [h.fill]
  refine ⟨⟨h.clashes, h.past⟩, ?_⟩
  simp only [withState, h.held, h.inflight]
  exact .serving hk (Reactor.regular_start cfg ktls) nofun

theorem Vacant.finishAccept (hk : k) (admits : Bool) : (s.finishAccept cfg admits).Sound k := by
  unfold Slot.finishAccept
  split
  · exact h.install hk false
  · exact h.submitTeardown true

theorem Vacant.keep (hk : k) (a : Arrival) : (s.keep cfg a).Sound k := by
  unfold Slot.keep
  split
  · refine ⟨⟨h.clashes, h.past⟩, ?_⟩
    simp only [stage, withState, h.held, h.inflight]
    exact .installing hk
  · refine ⟨⟨h.clashes, h.past⟩, ?_⟩
    simp only [stage, withState, h.held, h.inflight]
    exact .fetching hk
  · exact h.finishAccept hk a.admits

theorem Vacant.acceptConnection (a : Arrival) (may_move : Bool) :
    (s.acceptConnection cfg draining a may_move).Sound
      ((a.in_range && !draining && !(may_move && a.moves)) = true) := by
  unfold Slot.acceptConnection
  rw [h.fill]
  split_ifs with hr hm
  · exact h.submitTeardown true
  · refine ⟨⟨h.clashes, h.past⟩, ?_⟩
    simp only [stage, h.state, h.held, h.inflight]
    exact .arriving (by simp [hm])
  · exact h.keep (by simp_all [-Bool.not_and]) a

end

section

variable (h : s.Sound k) {r : Reactor}
include h

theorem Sound.congr {k' : Prop} (hk : k' ↔ k) : s.Sound k' := propext hk ▸ h

theorem Sound.vacant {op : PreOp} (hmem : op ∈ s.inflight) :
    ((s.reap op).withState .Empty).Vacant ∧ s.state = op.state := by
  obtain ⟨hc, hph⟩ := h
  have hv : s.held = true → s.inflight = [op] → ((s.reap op).withState .Empty).Vacant :=
    fun hh hin => ⟨⟨hc.clashes, hc.past⟩, rfl, hh, by
      simp [reap, withState, hin]⟩
  generalize hs : s.state = state at hph ⊢
  generalize hh : s.held = held at hph hv
  generalize hin : s.inflight = inflight at hph hv hmem
  cases hph with
  | free | parked | serving => cases hmem
  | arriving | shutting | closing | fetching | installing =>
    obtain rfl := mem_singleton.1 hmem
    exact ⟨hv rfl rfl, rfl⟩

theorem Sound.filled (hs : s.isEmpty = false) : k := by
  have hph := h.phase
  unfold isEmpty at hs
  generalize s.state = state, s.held = held, s.inflight = inflight at hph hs
  cases hph with
  | free | arriving | shutting | closing => cases hs
  | fetching hk | installing hk | parked hk | serving hk => exact hk

theorem Sound.held (hk : k) : s.held = true ∧ .Handoff ∉ s.inflight := by
  have hph := h.phase
  generalize s.state = state, s.held = held, s.inflight = inflight at hph ⊢
  cases hph with
  | free hn | arriving hn => exact (hn hk).elim
  | shutting | closing | fetching | installing | parked | serving => exact ⟨rfl, by decide⟩

theorem Sound.free (hh : s.held = false) : s.state = .Empty ∧ s.inflight = [] := by
  have hph := h.phase
  rw [hh] at hph
  generalize s.state = state at hph ⊢
  generalize s.inflight = inflight at hph ⊢
  cases hph
  exact ⟨rfl, rfl⟩

theorem Sound.serving (hs : s.state = .Serving r) : r.Regular ∧ r.place ≠ .Freed := by
  have hph := h.phase
  rw [hs] at hph
  generalize s.held = held at hph
  generalize s.inflight = inflight at hph
  cases hph with
  | serving _ hr hpl => exact ⟨hr, hpl⟩

theorem Sound.parked (hs : s.state = .TlsParked) : (s.withState .Empty).Vacant ∧ k := by
  obtain ⟨hc, hph⟩ := h
  rw [hs] at hph
  generalize hh : s.held = held at hph
  generalize hin : s.inflight = inflight at hph
  cases hph with
  | parked hk => exact ⟨⟨⟨hc.clashes, hc.past⟩, rfl, hh, hin⟩, hk⟩

theorem Sound.onConn (e : Event) : (s.onConn cfg e).Sound (k ∧ s.frees cfg (.conn e) = false) := by
  obtain ⟨hc, hph⟩ := h
  unfold Slot.onConn
  split
  · rename_i r hsta
    rw [hsta] at hph
    generalize hh : s.held = held at hph
    generalize hin : s.inflight = inflight at hph
    cases hph with
    | serving hk hr hpl =>
      have hs : (r.step cfg e).Regular := hr.step e
      have hfr : (r.step cfg e).place = .Freed ↔ closes cfg r e = true := by
        unfold Reactor.step
        by_cases he : r.enabled cfg e = true
        · rw [if_pos ⟨hpl, he⟩, Reactor.place_handle_eq_freed_iff hr hpl he]
          cases e <;> simp [closes]
          exact he
        · cases e <;> simp_all [closes]
      by_cases hf : (r.step cfg e).place = .Freed
      · rw [if_pos (hfr.1 hf), settle, if_pos hf]
        refine ⟨⟨hc.clashes, ?_⟩, ?_⟩
        · refine forall_mem_append.2 ⟨hc.past, forall_mem_singleton.2 ?_⟩
          exact ⟨hs, hf⟩
        · simp only [yield, hin]
          exact .free (by simp [frees, hsta, hfr.1 hf])
      · have hcl : closes cfg r e = false := by simpa using fun h => hf (hfr.2 h)
        rw [if_neg (by simp [hcl]), settle, if_neg hf]
        refine ⟨⟨hc.clashes, hc.past⟩, ?_⟩
        simp only [withState, hh, hin]
        exact .serving (by simp [frees, hsta, hcl, hk]) hs hf
  · refine Sound.congr ⟨hc, hph⟩ (and_iff_left ?_)
    simp only [frees]

theorem Sound.onCloseConn (rs : CloseReason) : (s.onCloseConn rs).Sound k := by
  obtain ⟨hc, hph⟩ := h
  unfold Slot.onCloseConn
  split
  · rename_i r hs
    split
    · rename_i hca
      simp only [Bool.not_eq_true'] at hca
      refine ⟨⟨hc.clashes, hc.past⟩, ?_⟩
      rw [hs] at hph
      simp only [withState]
      generalize s.held = held at hph ⊢
      generalize s.inflight = inflight at hph ⊢
      cases hph with
      | serving hk hr hpl =>
        refine .serving hk (hr.closeConn hca.1 hca.2 rs) ?_
        rw [Reactor.place_closeConn]
        exact hpl
    · exact ⟨hc, hph⟩
  · exact ⟨hc, hph⟩

theorem Sound.not_kept {e : SlotEvent} (he : s.enabled e = true) (ht : keeps draining e = true) :
    ¬k := by
  intro hk
  obtain ⟨hh, hn⟩ := h.held hk
  cases e <;> simp_all [enabled, keeps]

theorem Sound.handle {e : SlotEvent} (he : s.enabled e = true) :
    (s.handle cfg draining e).Sound
      (keeps draining e = true ∨ k ∧ s.frees cfg e = false) := by
  -- An event that neither brings a connection nor releases the slot.
  have stay {s' : Slot} (hke : keeps draining e = false) (hfr : s.frees cfg e = false)
      (hs : s'.Sound k) : s'.Sound (keeps draining e = true ∨ k ∧ s.frees cfg e = false) :=
    hs.congr (by simp [hke, hfr])
  cases e with
  | accept a =>
    have hh : s.held = false := by simpa [Slot.enabled] using he
    obtain ⟨hs, hin⟩ := h.free hh
    have hk : ¬k := fun hk => nomatch (h.held hk).1.symm.trans hh
    refine (Vacant.acceptConnection (s := { s with held := true })
      ⟨⟨h.clashes, h.past⟩, hs, rfl, hin⟩ a true).congr ?_
    simp [keeps, hk]
  | handoff sent a =>
    have hmem : .Handoff ∈ s.inflight := of_decide_eq_true he
    have hk : ¬k := fun hk => (h.held hk).2 hmem
    obtain ⟨hv, hs⟩ := h.vacant hmem
    have hsa : (s.reap .Handoff).withState .Empty = s.reap .Handoff := by
      rw [withState, reap, hs]
      rfl
    rw [hsa] at hv
    cases sent with
    | true => exact hv.submitTeardown false
    | false => exact (hv.acceptConnection a false).congr (by simp [keeps, hk])
  | peerFetch known admits =>
    obtain ⟨hv, hs⟩ := h.vacant (of_decide_eq_true he)
    have hk : k := h.filled (by rw [isEmpty, hs]; rfl)
    refine stay rfl rfl ?_
    simp only [Slot.handle, onPeerFetch, reap, hs, PreOp.state]
    split
    · exact hv.finishAccept hk admits
    · exact hv.submitTeardown true
  | fdInstall furnished =>
    obtain ⟨hv, hs⟩ := h.vacant (of_decide_eq_true he)
    have hk : k := h.filled (by rw [isEmpty, hs]; rfl)
    refine stay rfl rfl ?_
    simp only [Slot.handle, onFdInstall, reap, hs, PreOp.state]
    split
    · refine ⟨⟨hv.clashes, hv.past⟩, ?_⟩
      have hh : s.held = true := hv.held
      have hin : s.inflight.erase .FdInstall = [] := hv.inflight
      simp only [withState, hh, hin]
      exact .parked hk
    · exact hv.submitTeardown true
  | handshake ready =>
    refine stay rfl rfl ?_
    simp only [Slot.handle, onHandshake]
    split
    · rename_i hs
      obtain ⟨hv, hk⟩ := h.parked hs
      split
      · exact hv.install hk true
      · exact hv.submitTeardown true
    · exact h
  | handshakeTimeout =>
    refine stay rfl rfl ?_
    simp only [Slot.handle, onHandshakeTimeout]
    split
    · next hs => exact (h.parked hs).1.submitTeardown true
    · exact h
  | shutdown =>
    obtain ⟨hv, hs⟩ := h.vacant (of_decide_eq_true he)
    refine ⟨⟨hv.clashes, hv.past⟩, ?_⟩
    have hh : s.held = true := hv.held
    have hin : s.inflight.erase .Shutdown = [] := hv.inflight
    simp only [Slot.handle, stage, reap, hs, PreOp.state, hh, hin]
    exact .closing
  | closed =>
    obtain ⟨hv, hs⟩ := h.vacant (of_decide_eq_true he)
    simp only [Slot.handle, onClosed, reap, hs, PreOp.state]
    refine ⟨⟨hv.clashes, hv.past⟩, ?_⟩
    have hin : s.inflight.erase .Close = [] := hv.inflight
    simp only [yield, withState, hin]
    exact .free (by simp [keeps, frees])
  | conn e => exact (h.onConn e).congr (by simp [keeps])
  | closeConn reason => exact stay rfl rfl (h.onCloseConn reason)

theorem Sound.settle {e : Event} (hs : s.state = .Serving r)
    (he : e ≠ .closed) : (s.settle (r.step cfg e)).Sound k := by
  have hcs : closes cfg r e = false := by cases e <;> simp [closes] at he ⊢
  have hc : (s.onConn cfg e).Sound k := (h.onConn e).congr (by simp [frees, hs, hcs])
  simp only [Slot.onConn, hs, hcs] at hc
  exact hc

theorem Sound.beginDrain : (s.beginDrain cfg).Sound k := by
  unfold Slot.beginDrain
  split
  · next hs => exact (h.parked hs).1.submitTeardown true
  · next r hs => exact h.settle hs nofun
  · exact h

theorem Sound.stop : (s.stop cfg).Sound k := by
  unfold Slot.stop
  split
  · next r hs => exact h.settle hs nofun
  · exact h

end

end Slot

namespace Reactor

variable {r : Reactor}

/-- The teardown of a connection is its last operation. -/
structure ClosesLast (r : Reactor) : Prop where
  /-- The counter is the number of transfers in flight, and of the teardown. -/
  ops : r.place ≠ .Freed → r.conn.ops = r.conn.recving.toNat + r.conn.sending.toNat +
    r.conn.splicing.toNat + r.conn.splice_polling.toNat +
      if .Shutdown ∈ r.inflight ∨ .Close ∈ r.inflight then 1 else 0
  /-- The teardown is staged when nothing is in flight. -/
  alone : ∀ x ∈ r.log.staged, x.op = .Shutdown ∨ x.op = .Close → x.busy = false
  shutdown_once : r.log.staged.countP (fun x => x.op == .Shutdown) ≤ 1
  close_once : r.log.staged.countP (fun x => x.op == .Close) ≤ 1
  /-- Nothing is received, sent, spliced or polled once the connection closes. -/
  silent : ∀ x ∈ r.log.staged, x.op ≠ .Shutdown → x.op ≠ .Close → x.op ≠ .DetachInstall →
    x.closing = false
  underflows : r.log.underflows = 0
  /-- The slot is freed as often as a close has completed. -/
  freed : r.log.freed + r.inflight.count .Close =
    r.log.staged.countP fun x => x.op == .Close
  gone : r.log.freed = if r.place = .Freed then 1 else 0
  /-- The close hook is called when the connection begins to close. -/
  hook : r.log.closed.length = r.conn.closing.toNat

theorem Accounted.teardowns (h : r.Accounted) : r.inflight.countP Op.isTeardown =
      if .Shutdown ∈ r.inflight ∨ .Close ∈ r.inflight then 1 else 0 := by
  have hmem : ∀ op, op ∈ r.inflight ↔ 0 < r.accounts.inflight.count op := fun op =>
    count_pos_iff.symm
  have hsum : r.inflight.countP Op.isTeardown =
      r.accounts.inflight.count .Shutdown + r.accounts.inflight.count .Close :=
    Accounts.countP_isTeardown r.inflight
  simp only [hmem, hsum]
  cases h.life with
  | opened _ _ _ _ ht | waiting _ _ _ _ ht | shutting _ _ _ _ ht | shut _ _ _ _ ht =>
    simp [ht.shutdown, ht.close]
  | freed _ _ _ hin => simp [hin]

theorem Accounted.closesLast (h : r.Accounted) : r.ClosesLast where
  ops _ := by
    rw [← h.teardowns]
    exact h.ops
  alone x hx ho := by
    refine (h.log x hx).1 ?_
    rcases ho with ho | ho <;> rw [ho] <;> rfl
  shutdown_once := by
    cases h.life with
    | opened _ _ _ _ ht | waiting _ _ _ _ ht => exact ht.shutdowns.trans_le (Nat.zero_le 1)
    | shutting _ _ _ _ ht => exact ht.shutdowns.le
    | shut _ _ _ _ ht hn => exact ht.shutdowns.trans_le hn
    | freed _ _ _ _ hs => exact hs
  close_once := by
    cases h.life with
    | opened _ _ _ _ ht | waiting _ _ _ _ ht | shutting _ _ _ _ ht =>
      exact ht.closes.trans_le (Nat.zero_le 1)
    | shut _ _ _ _ ht => exact ht.closes.le
    | freed _ _ _ _ _ hc => exact hc.le
  silent x hx hsh hclo hd := by
    refine (h.log x hx).2 ?_
    cases ho : x.op <;> simp_all [Op.flag]
  underflows := h.underflows
  freed := by
    have hf := h.freed
    change r.accounts.freed + r.accounts.inflight.count .Close = r.accounts.stagings .Close
    cases h.life with
    | opened _ _ _ hpl ht | waiting _ _ _ hpl ht | shutting _ _ _ hpl ht | shut _ _ _ hpl ht =>
      simp [hf, hpl, ht.close, ht.closes]
    | freed _ _ hpl hin _ hcs => simp [hf, hpl, hin, hcs]
  gone := h.freed
  hook := by
    change r.accounts.hooks = r.accounts.closing.toNat
    cases h.life with
    | opened hcl _ hh | waiting hcl _ hh | shutting hcl _ hh | shut hcl _ hh | freed hcl hh =>
      simp [hcl, hh]

end Reactor

namespace Table

variable {cfg : CoreConfig} {t : Table}

def Sound (t : Table) : Prop := ∀ s ∈ t.slots, ∃ k, s.Sound k

theorem Sound.step (h : t.Sound) (e : TableEvent) : (t.step cfg e).Sound := by
  cases e with
  | slot i e =>
    intro s hs
    obtain ⟨j, hj, rfl⟩ := getElem_of_mem hs
    simp only [Table.step, getElem_modify]
    split
    · obtain ⟨k, hk⟩ := h _ (getElem_mem _)
      unfold Slot.step
      split_ifs with he
      · exact ⟨_, hk.handle he⟩
      · exact ⟨k, hk⟩
    · exact h _ (getElem_mem _)
  | beginDrain =>
    simp only [Table.step]
    split
    · exact h
    · intro s' hs'
      obtain ⟨s, hs, rfl⟩ := mem_map.1 hs'
      exact (h s hs).imp fun _ h => h.beginDrain
  | stop =>
    intro s' hs'
    obtain ⟨s, hs, rfl⟩ := mem_map.1 hs'
    exact (h s hs).imp fun _ h => h.stop

theorem sound_run (cfg : CoreConfig) (pool_size : ℕ) (es : List TableEvent) :
    ((new pool_size).run cfg es).Sound := by
  refine Steps.invariant ?_ (fun _ e h => h.step e) es
  intro s hs
  rw [eq_of_mem_replicate hs]
  exact ⟨False, ⟨rfl, by simp⟩, .free id⟩

/-- In every slot the close is a connection's last operation, and no slot is filled twice. -/
def ClosesLast (t : Table) : Prop :=
  ∀ s ∈ t.slots, s.clashes = 0 ∧
    (∀ r, s.state = .Serving r → r.ClosesLast ∧ r.place ≠ .Freed) ∧
    ∀ r ∈ s.past, r.ClosesLast ∧ r.log.freed = 1 ∧ r.log.closed.length = 1

theorem closesLast_run (cfg : CoreConfig) (pool_size : ℕ) (es : List TableEvent) :
    ((new pool_size).run cfg es).ClosesLast := by
  intro s hs
  obtain ⟨k, hsn⟩ := sound_run cfg pool_size es s hs
  refine ⟨hsn.clashes, ?_, ?_⟩
  · intro r hsta
    obtain ⟨hre, hpl⟩ := hsn.serving hsta
    exact ⟨hre.accounted.closesLast, hpl⟩
  · intro r hr
    obtain ⟨hre, hpl⟩ := hsn.past r hr
    have hl := hre.accounted.closesLast
    refine ⟨hl, ?_, ?_⟩
    · rw [hl.gone, if_pos hpl]
    · rw [hl.hook, show r.conn.closing = true from hre.accounted.closing_of_freed hpl]
      rfl

end Table

end TruenasRos.Net
