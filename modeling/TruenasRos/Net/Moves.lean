import Mathlib.Logic.Relation
import TruenasRos.Net.Accounts
import TruenasRos.Net.Server

/-! # What an event can do

Every event is a sequence of moves. The moves are listed here once, each with what is known when
it is made, so that an invariant has to be checked against this list only.
-/

namespace TruenasRos.Net

/-- Whether the reason is one for which a connection must not be closed while it owes work. -/
def CloseReason.judged : CloseReason → Bool
  | .PeerClosed | .IdleTimeout | .ShuttingDown => true
  | _ => false

namespace Reactor

def accounts (r : Reactor) : Accounts where
  place := r.place
  flag := r.conn.flag
  closing := r.conn.closing
  teardown_deferred := r.conn.teardown_deferred
  ops := r.conn.ops
  inflight := r.inflight
  staged := r.log.staged
  hooks := r.log.closed.length
  freed := r.log.freed
  underflows := r.log.underflows

def Accounted (r : Reactor) : Prop := r.accounts.Sound

/-- The connection is served, and nothing has begun to close it. -/
structure Open (r : Reactor) : Prop where
  place : r.place = .Serving
  closing : r.conn.closing = false
  flush : r.conn.close_on_flush = none

/-- The receive side is not in use. -/
structure Still (r : Reactor) : Prop where
  recving : r.conn.recving = false
  splicing : r.conn.splicing = false
  splice_polling : r.conn.splice_polling = false
  stash : r.conn.recv_close_stash = none

theorem Still.not_recving {r : Reactor} (h : r.Still) : ¬r.conn.recving = true := by
  rw [h.recving]
  exact Bool.false_ne_true

/-- The receive side can be used. -/
structure Quiet (r : Reactor) : Prop extends r.Still where
  peer : r.conn.peer_closed = none

/-- What some moves are subject to. -/
structure Rules where
  /-- The closes that may be made for the reasons that are judged. -/
  good : Closing → Prop := fun _ => True
  /-- Whether an answer may be taken up. -/
  accepts : Prop := True
  /-- Whether work that is owed may be done with, or a close asked for once it is. -/
  settles : Prop := True

/-- A close for this reason is good at this point. -/
def Allows (R : Rules) (r : Reactor) (reason : CloseReason) : Prop :=
  reason.judged = true → r.conn.closing = false → R.good (r.closingFor reason)

section

variable (r : Reactor)

def live (f : Flag) : Reactor := (r.withConn (r.conn.lower f)).opsDown

def installed (o : Outbox) (next : PendingFile) : Outbox :=
  (o.enqueueReplyHead next.head).installFileTail next.file next.offset next.len

def armIf (close : Bool) : Reactor :=
  if close then r.armFlush .HandlerClosed else r

def started (next : PendingFile) : Reactor :=
  (r.charge.accept (.file next.head next.file next.offset next.len)
    (installed r.conn.outbox next)).armIf next.close

/-- What the end of a file body does to what waits behind it. -/
def handedOver : Reactor :=
  if r.conn.close_on_flush.isSome then
    (r.uncharge r.conn.outbox.droppedCharge).withOutbox r.conn.outbox.dropQueuedFileReply
  else
    match r.conn.outbox.next_file with
    | none => r.withOutbox r.conn.outbox.takeQueuedFileReply.2
    | some next =>
      (r.withOutbox (installed r.conn.outbox.takeQueuedFileReply.2 next)).armIf next.close

def taken (req_id : ℕ) : Reactor :=
  { r with conn.open_req_ids := r.conn.open_req_ids.erase req_id }

def chunked (tail : FileTail) (n : ℕ) : Reactor :=
  r.withOutbox (r.conn.outbox.advanceFileTail (tail.file.slice tail.next_offset n)).1

end

def reapSend (cfg : CoreConfig) (r : Reactor) (res : Res) : Reactor :=
  ((r.reap .Send).toWire cfg res).live .send

section

variable (cfg : CoreConfig) (R : Rules)

/-- The moves that leave the receive side as it is. -/
inductive Out : Reactor → Reactor → Prop
  | pump (r) : Out r (r.withTask .pump)
  | timers (r t) : Out r (r.withTimers t)
  | stop (r) : Out r { r with stopping := true }
  | drain (r) : Out r { r with draining := true }
  | evict (r b) : Out r { r with conn.evict_on_resume := b }
  | close (r reason) (hplace : r.place = .Serving) (hgood : r.Allows R reason) :
      Out r (r.closeConn reason)
  | closeFlushed (r reason) (hplace : r.place = .Serving)
      (hflush : r.conn.close_on_flush = some reason) (hdry : r.conn.dry = true) :
      Out r (r.closeFlushed reason)
  | closePeer (r reason) (hplace : r.place = .Serving) (hpeer : r.conn.peer_closed = some reason)
      (hflush : r.conn.close_on_flush = none) (hdry : r.conn.dry = true)
      (hnone : r.conn.outstanding = 0) :
      Out r ({ r with conn.peer_closed := none }.closeConn reason)
  | submitSend (r) (hplace : r.place = .Serving) (hopen : r.conn.closing = false)
      (hsending : r.conn.sending = false)
      (hpending : r.conn.outbox.hasPendingSend = true ∨ 0 < r.conn.outbox.armed_bytes) :
      Out r (r.submitSend cfg)
  | flush (r reason) (hopen : r.conn.closing = false) (hflush : r.conn.close_on_flush = none)
      (hreason : reason.judged = false) (hsettles : R.settles) :
      Out r (r.armFlush reason)
  | reply (r bytes) (hopen : r.Open) (hne : bytes ≠ []) (haccepts : R.accepts) :
      Out r (r.charge.accept (.reply bytes) (r.conn.outbox.enqueueReply bytes))
  | vectored (r segments) (hopen : r.Open) (hne : segments.all List.isEmpty = false)
      (haccepts : R.accepts) :
      Out r (r.charge.accept (.vectored segments)
        (r.conn.outbox.enqueueSegments segments))
  | push (r bytes) (hflush : r.conn.close_on_flush = none) (hne : bytes ≠ [])
      (haccepts : R.accepts) :
      Out r (r.accept (.push bytes) (r.conn.outbox.enqueuePush bytes))
  | answer (r req_id bytes) (hopen : r.Open) (hmem : req_id ∈ r.conn.open_req_ids)
      (hne : bytes ≠ []) (haccepts : R.accepts) :
      Out r
        ((r.taken req_id).accept (.reply bytes) (r.conn.outbox.enqueueReply bytes))
  | deferFile (r next) (hopen : r.Open) (htail : r.conn.outbox.tailActive = true)
      (hlen : next.len ≠ 0) (haccepts : R.accepts) : Out r (r.deferFileReply next)
  | startFile (r next) (hopen : r.Open) (htail : r.conn.outbox.tailActive = false)
      (hlen : next.len ≠ 0) (haccepts : R.accepts) : Out r (r.started next)
  | defer (r req_id) (hopen : r.Open) : Out r (r.charge.openDeferred req_id)
  | retire (r req_id) (hopen : r.Open) (hmem : req_id ∈ r.conn.open_req_ids)
      (hsettles : R.settles) :
      Out r ((r.taken req_id).uncharge 1)
  | workerClose (r req_id) (hopen : r.Open) (hmem : req_id ∈ r.conn.open_req_ids) :
      Out r ((r.taken req_id).closeConn .WorkerClosed)
  | chunk (r tail n) (hplace : r.place = .Serving) (hopen : r.conn.closing = false)
      (htail : r.conn.outbox.file_tail = some tail) (hpos : 0 < n) (hlt : n < tail.unread) :
      Out r (r.chunked tail n)
  | lastChunk (r tail) (hplace : r.place = .Serving) (hopen : r.conn.closing = false)
      (htail : r.conn.outbox.file_tail = some tail) (hpos : 0 < tail.unread) :
      Out r ((r.chunked tail tail.unread).kickSend cfg).handedOver
  | reads (r tail reading parked) (htail : r.conn.outbox.file_tail = some tail) :
      Out r (r.withTail { tail with reading, parked })
  | chunks (r n) : Out r (r.withOutbox { r.conn.outbox with chunk_out := n })
  | sent (r n) (hmem : .Send ∈ r.inflight) (hopen : r.conn.closing = false) (hpos : 0 < n)
      (hle : n ≤ r.conn.outbox.armed_bytes) (hsettles : R.settles) :
      Out r ((r.reapSend cfg (.ok n)).advanceSent n)
  | sendFailed (r res) (hmem : .Send ∈ r.inflight) (hopen : r.conn.closing = false)
      (hres : ∀ n, res = .ok n → n = 0) (hsettles : R.settles) : Out r (r.reapSend cfg res)
  | sendReaped (r res) (hmem : .Send ∈ r.inflight) (hclosing : r.conn.closing = true)
      (hres : ∀ n, res = .ok n → n ≤ r.conn.outbox.armed_bytes) :
      Out r (r.reapSend cfg res).reapClosing
  | shutdown (r) (hmem : .Shutdown ∈ r.inflight) : Out r (r.reap .Shutdown).onShutdown
  | detach (r) (hopen : r.Open) (hsettled : r.settled = true) (hsettles : R.settles) :
      Out r r.submitDetachInstall
  | leave (r place) (hmem : .DetachInstall ∈ r.inflight)
      (hplace : place = .Serving ∨ place = .Detached) (hsettles : R.settles) :
      Out r ((r.reap .DetachInstall).withPlace place)
  | back (r) (hplace : r.place = .Detached) (hsettles : R.settles) :
      Out r (r.withPlace .Serving)

/-- What holds of the receive side, once the move is made, as long as a read is in flight or waits
for its clock. -/
structure Keeps (r : Reactor) (inbox : Inbox) (recv_idle : Bool) (unread : Bytes) : Prop where
  idle : r.conn.recving = true → recv_idle = r.conn.recv_idle
  empty : r.conn.recving = true → r.conn.buffered = 0 → inbox.buffered = 0
  header : r.conn.splicing = true ∨ r.conn.splice_polling = true → 0 < r.conn.buffered →
    0 < inbox.buffered
  unread : r.conn.recv_close_stash.isSome = true → r.log.unread ≠ [] → unread ≠ []

theorem Keeps.same (r : Reactor) : Keeps r r.conn.inbox r.conn.recv_idle r.log.unread :=
  ⟨fun _ => rfl, fun _ he => he, fun _ hpos => hpos, fun _ hne => hne⟩

theorem Still.keeps {r : Reactor} (h : r.Still) (inbox : Inbox) (recv_idle : Bool)
    (unread : Bytes) : Keeps r inbox recv_idle unread := by
  constructor <;> simp [h.recving, h.splicing, h.splice_polling, h.stash]

/-- The moves of a connection. -/
inductive Move : Reactor → Reactor → Prop
  | out {r r'} (h : Out cfg R r r') : Move r r'
  | data (r) (inbox : Inbox) (timers : Timers) (splice_remaining : ℕ)
      (recv_idle served_since_idle_arm recv_clock_armed : Bool) (recv_clock_fired : Option Bool)
      (unread : Bytes) (verdict : Option Framing) (hkeeps : r.Keeps inbox recv_idle unread) :
      Move r
        { r with
          conn.inbox := inbox
          conn.timers := timers
          conn.splice_remaining := splice_remaining
          conn.recv_idle := recv_idle
          conn.served_since_idle_arm := served_since_idle_arm
          conn.recv_clock_armed := recv_clock_armed
          conn.recv_clock_fired := recv_clock_fired
          log.unread := unread
          log.verdict := verdict }
  | stash (r stash) (h : ∀ was_idle op, stash = some (was_idle, op) →
      r.Quiet ∧ op.flag = some .recv ∧ r.log.unread ≠ []) : Move r (r.withStash stash)
  | raise (r f op) (hplace : r.place = .Serving) (hopen : r.conn.closing = false)
      (hquiet : r.Quiet) (hf : f ≠ .send) (hop : op.flag = some f)
      (hidle : f = .recv → r.conn.recv_idle = true → r.conn.buffered = 0)
      (hheader : f ≠ .recv → 0 < r.conn.buffered) :
      Move r (r.raise f op)
  | reaped (r f op) (hf : f ≠ .send) (hop : op.flag = some f) (hmem : op ∈ r.inflight)
      (hopen : r.conn.closing = false) : Move r ((r.reap op).live f)
  | reapedClosing (r f op) (hf : f ≠ .send) (hop : op.flag = some f) (hmem : op ∈ r.inflight)
      (hclosing : r.conn.closing = true) : Move r ((r.reap op).live f).reapClosing
  | peerClosed (r) (hopen : r.Open) (hquiet : r.Quiet) (howes : r.conn.owesWork = true) :
      Move r { r with conn.peer_closed := some .PeerClosed }
  | idle (r) (hsettles : R.settles) : Move r (r.withTask .idle)

def Outs : Reactor → Reactor → Prop := Relation.ReflTransGen (Out cfg R)

def Moves : Reactor → Reactor → Prop := Relation.ReflTransGen (Move cfg R)

/-- An event makes some moves, and may then leave a message or an answer to be dealt with. -/
inductive Ended (r : Reactor) : Reactor → Prop
  | done {r' : Reactor} (h : Moves cfg R r r') : Ended r r'
  | deliver {r' : Reactor} (which : Delivery) (h : Moves cfg R r r') (hopen : r'.Open)
      (hstill : which = .FromWire → r'.Still) :
      Ended r (r'.withTask (.deliver which))
  | respond {r' : Reactor} (resp : Response) (h : Moves cfg R r r') (hopen : r'.Open) :
      Ended r (r'.callHandler resp)

end

variable {cfg : CoreConfig} {R : Rules} {r r' : Reactor} {op : Op} {f : Flag}
variable {rs : CloseReason} {rest : Reactor → Reactor} {fs : FsReady}

theorem Out.outs (h : Out cfg R r r') : Outs cfg R r r' := .single h

theorem Move.moves (h : Move cfg R r r') : Moves cfg R r r' := .single h

theorem Moves.ended {s : Reactor} (h : Moves cfg R r r') (he : Ended cfg R r' s) :
    Ended cfg R r s := by
  cases he with
  | done h' => exact .done (h.trans h')
  | deliver which h' ho hst => exact .deliver which (h.trans h') ho hst
  | respond resp h' ho => exact .respond resp (h.trans h') ho

theorem closing_live (r : Reactor) (f : Flag) : (r.live f).conn.closing = r.conn.closing := by
  cases f <;> rfl

theorem finish_of_open (h : r.conn.closing = false) (f : Flag) (rest : Reactor → Reactor) :
    r.finish f rest = rest (r.live f) := by
  have ho : (r.withConn (r.conn.lower f)).conn.closing = false := (closing_live r f).trans h
  rw [finish, opDone, ho]
  rfl

theorem finish_of_closing (h : r.conn.closing = true) (f : Flag) (rest : Reactor → Reactor) :
    r.finish f rest = (r.live f).reapClosing := by
  have hc : (r.withConn (r.conn.lower f)).conn.closing = true := (closing_live r f).trans h
  rw [finish, opDone, hc]
  rfl

theorem Allows.of_plain (h : rs.judged = false) : r.Allows R rs := by
  intro hj
  rw [h] at hj
  cases hj

section

variable {α : Type} (view : Reactor → α)

/-- What is seen of a connection and is not part of its teardown is the same after a close. -/
theorem view_closeConn (hd : view ((r.hook rs).deferTeardown rs.shutdownFirst) = view r)
    (hs : view ((r.hook rs).submitTeardown rs.shutdownFirst) = view r) :
    view (r.closeConn rs) = view r := by
  unfold closeConn
  split_ifs
  · rfl
  · exact hd
  · exact hs

theorem view_reapClosing (hs : view r.submitDeferredTeardown = view r)
    (hr : view r.reclaimSlot = view r) : view r.reapClosing = view r := by
  unfold reapClosing
  split_ifs
  · exact hs
  · exact hr
  · rfl

theorem view_kickSend (h : view (r.submitSend cfg) = view r) : view (r.kickSend cfg) = view r := by
  unfold kickSend
  split
  · exact h
  · rfl

theorem view_armIf {close : Bool} (h : view (r.armFlush .HandlerClosed) = view r) :
    view (r.armIf close) = view r := by
  cases close with
  | false => rfl
  | true => exact h

end

@[simp] theorem place_closeConn (r : Reactor) (rs : CloseReason) :
    (r.closeConn rs).place = r.place :=
  view_closeConn place rfl rfl

@[simp] theorem place_kickSend (r : Reactor) : (r.kickSend cfg).place = r.place :=
  view_kickSend place rfl

theorem Open.acceptReply (ho : r.Open) : (r.acceptReply bytes).Open := by
  unfold Reactor.acceptReply
  split
  · exact ho
  · exact { ho with }

theorem advanceFileTail_snd {o : Outbox} (ht : o.file_tail = some tail) (buf : Bytes) :
    (o.advanceFileTail buf).2 = (tail.unread - buf.length == 0) := by
  unfold Outbox.advanceFileTail
  rw [ht]

theorem length_slice (file : File) (offset len : ℕ) : (file.slice offset len).length = len := by
  simp [File.slice]

theorem open_of_not_owned (h : r.conn.teardownOwnsSlot = false) :
    r.conn.closing = false ∧ r.conn.close_on_flush = none := by
  simpa [Connection.teardownOwnsSlot] using h

theorem onOutcome_cases (r : Reactor) (id : ℕ) (act : Reactor → Reactor) : r.onOutcome id act = r ∨
      r.Open ∧ id ∈ r.conn.open_req_ids ∧ r.onOutcome id act = act (r.taken id) := by
  unfold Reactor.onOutcome takeDeferred
  split_ifs with hg hmem
  · exact .inl rfl
  · simp only [Bool.or_eq_true, decide_eq_true_eq, not_or, not_not, Bool.not_eq_true] at hg
    obtain ⟨ho, hf⟩ := open_of_not_owned hg.2
    exact .inr ⟨⟨hg.1, ho, hf⟩, hmem, rfl⟩
  · exact .inl rfl

variable {tail : FileTail} {bytes : Bytes} {res : Res} {id : ℕ}

namespace Outs

theorem moves (h : Outs cfg R r r') : Moves cfg R r r' :=
  Relation.ReflTransGen.mono (fun _ _ => Move.out) _ _ h

section

variable (hpl : r.place = .Serving)
include hpl

theorem close_plain (h : rs.judged = false) : Outs cfg R r (r.closeConn rs) :=
  Out.outs (.close _ _ hpl (Allows.of_plain h))

theorem kickSend : Outs cfg R r (r.kickSend cfg) := by
  unfold Reactor.kickSend
  split
  · rename_i hid
    simp only [Bool.and_eq_true, Bool.not_eq_true'] at hid
    exact Out.outs (.submitSend _ hpl hid.1.2 hid.1.1 (.inl hid.2))
  · exact .refl

theorem driveFlushClose : Outs cfg R r (r.driveFlushClose cfg) := by
  unfold Reactor.driveFlushClose
  split
  · exact .refl
  · rename_i rs hf
    split
    · next hd => exact Out.outs (.closeFlushed _ _ hpl hf hd)
    · exact kickSend hpl

theorem flushClose (ho : r.conn.closing = false)
    (hf : r.conn.close_on_flush = none) (hr : rs.judged = false)
    (hs : R.settles) : Outs cfg R r (r.flushClose cfg rs) :=
  (Out.outs (.flush _ _ ho hf hr hs)).trans (driveFlushClose hpl)

theorem readChunk (ht : r.conn.outbox.file_tail = some tail) :
    Outs cfg R r (r.readChunk tail fs) := by
  have hc : ∀ outbox, r.conn.outbox.tailClaimChunk = some outbox →
      outbox = { r.conn.outbox with chunk_out := r.conn.outbox.chunk_out + 1 } := by
    intro outbox h
    unfold Outbox.tailClaimChunk at h
    split at h
    · cases h
    · exact (Option.some.inj h).symm
  unfold Reactor.readChunk
  split
  · exact Out.outs (.reads _ tail tail.reading true ht)
  · exact .refl
  · exact .refl
  · rename_i outbox h
    obtain rfl := hc outbox h
    exact (Out.outs (.chunks _ _)).trans (Out.outs (.reads _ tail true tail.parked ht))
  · rename_i e outbox h
    obtain rfl := hc outbox h
    exact (Out.outs (.chunks _ _)).trans (close_plain hpl rfl)

end

theorem driveFileTail (r : Reactor) : Outs cfg R r (r.driveFileTail fs) := by
  unfold Reactor.driveFileTail
  split
  · exact .refl
  · rename_i tail ht
    split
    · exact .refl
    · rename_i h
      simp only [Bool.or_eq_true, decide_eq_true_eq, not_or, not_not] at h
      exact readChunk h.1.1.1 ht

theorem redriveParkedTail (r : Reactor) : Outs cfg R r (r.redriveParkedTail fs) := by
  unfold Reactor.redriveParkedTail
  split
  · exact .refl
  · next tail ht => exact (Out.outs (.reads _ tail tail.reading false ht)).trans (driveFileTail _)

theorem driveInstalled (hpl : r.place = .Serving) (close : Bool) :
    Outs cfg R (r.armIf close) (r.driveInstalled cfg close fs) := by
  unfold armIf Reactor.driveInstalled
  split
  · exact (driveFlushClose (r := r.armFlush .HandlerClosed) hpl).trans
      (driveFileTail _)
  · exact (kickSend hpl).trans (driveFileTail _)

variable {next : PendingFile} {expired : Bool}

theorem startFileReply (ho : r.Open)
    (ht : r.conn.outbox.tailActive = false) (hlen : next.len ≠ 0) (ha : R.accepts) :
    Outs cfg R r (r.startFileReply cfg next fs) := by
  refine (Out.outs (.startFile _ next ho ht hlen ha)).trans ?_
  unfold Reactor.startFileReply Reactor.installFileReply started installed
  apply driveInstalled
  exact ho.place

theorem acceptReply (ho : r.Open) (ha : R.accepts) : Outs cfg R r (r.acceptReply bytes) := by
  unfold Reactor.acceptReply
  split
  · exact .refl
  · next hne => exact Out.outs (.reply _ _ ho (by simpa using hne) ha)

theorem flushClose_of_open (ho : r.Open) (hr : rs.judged = false)
    (hs : R.settles) : Outs cfg R r (r.flushClose cfg rs) :=
  flushClose ho.place ho.closing ho.flush hr hs

theorem beginFileReply (ho : r.Open) (ha : R.accepts)
    (hs : R.settles) : Outs cfg R r (r.beginFileReply cfg next fs) := by
  have ho' : (r.acceptReply next.head).Open := ho.acceptReply
  unfold Reactor.beginFileReply
  split
  · exact close_plain ho.place rfl
  · split
    · have hap : Outs cfg R r (r.acceptReply next.head) := acceptReply ho ha
      apply hap.trans
      split
      · exact flushClose_of_open ho' rfl hs
      · split
        · exact .refl
        · exact kickSend ho'.place
    · rename_i hlen
      split
      · exact close_plain ho.place rfl
      · split
        · next ht => exact Out.outs (.deferFile _ _ ho ht hlen ha)
        · next ht => exact startFileReply ho (eq_false_of_ne_true ht) hlen ha

section

variable (hpl : r.place = .Serving)
include hpl

theorem onTailEnd : Outs cfg R r.handedOver (r.onTailEnd cfg fs) := by
  unfold handedOver Reactor.onTailEnd
  split
  · exact .refl
  · unfold Outbox.takeQueuedFileReply
    cases r.conn.outbox.next_file with
    | none => exact .refl
    | some next =>
      apply driveInstalled
      exact hpl

theorem onChunk {n : ℕ} (ho : r.conn.closing = false)
    (ht : r.conn.outbox.file_tail = some tail) (hpos : 0 < n) (hle : n ≤ tail.unread) :
    Outs cfg R r (r.onChunk cfg (tail.file.slice tail.next_offset n) fs) := by
  have hs := advanceFileTail_snd ht (tail.file.slice tail.next_offset n)
  rw [length_slice] at hs
  unfold Reactor.onChunk
  rcases hlt : r.conn.outbox.advanceFileTail (tail.file.slice tail.next_offset n) with
    ⟨outbox, last⟩
  rw [hlt] at hs
  have hou : r.chunked tail n = r.withOutbox outbox := by rw [chunked, hlt]
  cases last with
  | false =>
    have hm : n < tail.unread := by
      have hne := beq_eq_false_iff_ne.1 hs.symm
      omega
    have hc : Out cfg R r (r.chunked tail n) := .chunk r tail n hpl ho ht hpos hm
    rw [hou] at hc
    exact hc.outs.trans
      ((kickSend (r := r.withOutbox outbox) hpl).trans (driveFileTail _))
  | true =>
    obtain rfl : n = tail.unread := by
      have hz := beq_iff_eq.1 hs.symm
      omega
    have hc : Out cfg R r ((r.chunked tail tail.unread).kickSend cfg).handedOver :=
      .lastChunk r tail hpl ho ht hpos
    rw [hou] at hc
    exact hc.outs.trans (onTailEnd ((place_kickSend _).trans hpl))

theorem onPumpRead (ho : r.conn.closing = false)
    (hf : ∀ tail n, r.conn.outbox.file_tail = some tail → res = .ok n → n ≤ tail.unread) :
    Outs cfg R r (r.onPumpRead cfg res fs) := by
  unfold Reactor.onPumpRead
  split
  · exact .refl
  · rename_i tail ht
    refine (Out.outs (.reads _ tail false tail.parked ht)).trans ?_
    split
    · split
      · exact (Out.outs (.chunks _ _)).trans (driveFileTail _)
      · exact close_plain hpl rfl
    · exact close_plain hpl rfl
    · rename_i n hne
      have hle := hf tail n ht rfl
      -- The chunk comes from where the read was asked for, which a done read leaves alone.
      generalize hid : { tail with reading := false } = idle
      obtain ⟨hfl, hof, hu⟩ : tail.file = idle.file ∧
          tail.next_offset = idle.next_offset ∧ tail.unread = idle.unread := by
        subst hid
        exact ⟨rfl, rfl, rfl⟩
      rw [hfl, hof]
      apply onChunk
      · exact hpl
      · exact ho
      · rfl
      · exact pos_of_ne_zero hne
      · exact hu ▸ hle

theorem closeSent : Outs cfg R r r.closeSent := by
  unfold Reactor.closeSent
  split
  · rename_i rs _ hf
    split
    · next hd => exact Out.outs (.closeFlushed _ _ hpl hf hd)
    · exact Out.outs (.pump _)
  · rename_i rs hf hpe
    split
    · next hd => exact Out.outs (.closePeer _ _ hpl hpe hf hd.1 hd.2)
    · exact Out.outs (.pump _)
  · exact Out.outs (.pump _)

theorem onSend (hmem : .Send ∈ r.inflight)
    (hr : ∀ n, res = .ok n → n ≤ r.conn.outbox.armed_bytes) (hg : (∀ n, res = .ok n → n = 0) →
      (r.reapSend cfg res).Allows R ((r.reapSend cfg res).sendCloseReason cfg res))
    (hs : R.settles) : Outs cfg R r ((r.reap .Send).onSend cfg res fs) := by
  refine Relation.ReflTransGen.trans ?_ (driveFileTail _)
  unfold Reactor.onSendComplete
  have hl : ((r.reap .Send).toWire cfg res).conn = r.conn := by
    unfold toWire
    split <;> rfl
  have hpl' : (r.reapSend cfg res).place = .Serving := by
    refine Eq.trans ?_ hpl
    unfold reapSend toWire
    split <;> rfl
  cases hc : r.conn.closing with
  | true =>
    rw [finish_of_closing (by rw [hl, hc])]
    exact Out.outs (.sendReaped r res hmem hc hr)
  | false =>
    rw [finish_of_open (by rw [hl, hc])]
    have hf : (∀ n, res = .ok n → n = 0) → Outs cfg R r
        ((r.reapSend cfg res).closeConn ((r.reapSend cfg res).sendCloseReason cfg res)) :=
      fun hz => (Out.outs (.sendFailed r res hmem hc hz hs)).trans
        (Out.outs (.close _ _ hpl' (hg hz)))
    rcases res with e | _ | n
    · exact hf (by simp)
    · exact hf (by simp)
    · refine (Out.outs (.sent r (n + 1) hmem hc n.succ_pos (hr _ rfl) hs)).trans ?_
      unfold Reactor.onSent
      dsimp only
      split
      · next ha => exact Out.outs (.submitSend _ hpl' hc rfl (.inr ha))
      · exact (kickSend (r := (r.reapSend cfg (.ok (n + 1))).advanceSent (n + 1)) hpl').trans
          (closeSent ((place_kickSend _).trans hpl'))

end

theorem replyVectored {segs : List Bytes} (ho : r.Open) (close : Bool)
    (ha : R.accepts) (hs : R.settles) : Outs cfg R r (r.replyVectored cfg segs close) := by
  unfold Reactor.replyVectored Outbox.enqueueReplySegments
  cases hall : segs.all List.isEmpty with
  | true =>
    simp only [if_true]
    split
    · exact flushClose_of_open ho rfl hs
    · exact .refl
  | false =>
    simp only [Bool.false_eq_true, if_false]
    refine (Out.outs (.vectored _ _ ho hall ha)).trans ?_
    split
    · exact flushClose ho.place ho.closing ho.flush rfl hs
    · exact kickSend ho.place

theorem respondTo {resp : Response} (ho : r.Open) (ha : R.accepts) (hs : R.settles) :
    Outs cfg R r (r.respondTo cfg resp id fs) := by
  have hc : Outs cfg R r (r.closeConn .HandlerClosed) :=
    close_plain ho.place rfl
  unfold Reactor.respondTo
  split
  · exact hc
  · split
    · exact Out.outs (.defer _ _ ho)
    · exact hc
  · split
    · next hown => exact Out.outs (.detach _ ho (Bool.and_eq_true _ _ ▸ hown).2 hs)
    · exact hc
  · split
    · exact .refl
    · exact (acceptReply ho ha).trans (kickSend ho.acceptReply.place)
  · exact (acceptReply ho ha).trans
      (flushClose_of_open ho.acceptReply rfl hs)
  · exact replyVectored ho _ ha hs
  · exact beginFileReply ho ha hs

theorem onPush (hne : bytes ≠ []) (ha : R.accepts) : Outs cfg R r (r.onPush cfg bytes) := by
  unfold Reactor.onPush
  split
  · exact .refl
  · rename_i hf
    simp only [Bool.or_eq_true, not_or, Bool.not_eq_true, Option.isSome_eq_false_iff,
      Option.isNone_iff_eq_none] at hf
    split
    · split
      · next hpl => exact close_plain hpl rfl
      · exact Out.outs (.evict _ _)
    · refine (Out.outs (.push _ _ hf.2 hne ha)).trans ?_
      dsimp only
      split
      · next hpl => exact kickSend hpl
      · exact .refl

theorem onPushClose (hs : R.settles) : Outs cfg R r (r.onPushClose cfg) := by
  unfold Reactor.onPushClose
  split
  · exact .refl
  · rename_i hod
    obtain ⟨ho, hf⟩ := open_of_not_owned (eq_false_of_ne_true hod)
    split
    · next hpl => exact flushClose hpl ho hf rfl hs
    · exact Out.outs (.flush _ _ ho hf rfl hs)

theorem onDetachResume (hpl : r.place = .Detached) (hs : R.settles) :
    Outs cfg R r (r.onDetachResume cfg) := by
  unfold Reactor.onDetachResume
  split
  · exact ((Out.outs (.evict _ false)).trans (Out.outs (.back _ hpl hs))).trans
      (close_plain rfl rfl)
  · refine (Out.outs (.back _ hpl hs)).trans ?_
    split
    · exact driveFlushClose rfl
    · exact (kickSend rfl).trans (Out.outs (.pump _))

theorem onDetachClose (hpl : r.place = .Detached) (hs : R.settles) : Outs cfg R r r.onDetachClose :=
  (Out.outs (.back _ hpl hs)).trans (close_plain rfl rfl)

theorem onDetachInstall (hmem : .DetachInstall ∈ r.inflight) (handler : Bool)
    (hg : ∀ n, res = .ok n → r.draining = true →
      Allows R ((r.reap .DetachInstall).withPlace .Serving) .ShuttingDown) (hs : R.settles) :
    Outs cfg R r ((r.reap .DetachInstall).onDetachInstall res handler) := by
  have hb : Outs cfg R r ((r.reap .DetachInstall).withPlace .Serving) :=
    Out.outs (.leave _ _ hmem (.inl rfl) hs)
  unfold Reactor.onDetachInstall
  split
  · exact hb.trans (close_plain rfl rfl)
  · split
    · next hd => exact hb.trans (Out.outs (.close _ _ rfl (hg _ rfl hd)))
    · split
      · exact Out.outs (.leave _ _ hmem (.inr rfl) hs)
      · exact hb.trans (close_plain rfl rfl)

theorem onOutcome {act : Reactor → Reactor}
    (ha : r.Open → id ∈ r.conn.open_req_ids → Outs cfg R r (act (r.taken id))) :
    Outs cfg R r (r.onOutcome id act) := by
  obtain hs | ⟨ho, hmem, ha'⟩ := onOutcome_cases r id act
  · rw [hs]
    exact .refl
  · rw [ha']
    exact ha ho hmem

theorem onReply (hne : bytes ≠ []) (ha : R.accepts) : Outs cfg R r (r.onReply cfg id bytes) := by
  refine onOutcome fun ho hmem => ?_
  refine (Out.outs (.answer _ id bytes ho hmem hne ha)).trans ?_
  apply kickSend
  exact ho.place

theorem onReplyClose (ha : R.accepts) (hs : R.settles) :
    Outs cfg R r (r.onReplyClose cfg id bytes) := by
  refine onOutcome fun ho hmem => ?_
  split
  · refine (Out.outs (.retire _ id ho hmem hs)).trans ?_
    exact flushClose_of_open { ho with } rfl hs
  · rename_i hne
    refine (Out.outs (.answer _ id bytes ho hmem (by simpa using hne) ha)).trans ?_
    exact flushClose_of_open { ho with } rfl hs

theorem onDone (hs : R.settles) : Outs cfg R r (r.onDone id) :=
  onOutcome fun ho hmem =>
    (Out.outs (.retire _ id ho hmem hs)).trans (Out.outs (.pump _))

theorem onWorkerClose : Outs cfg R r (r.onWorkerClose id) :=
  onOutcome fun ho hmem => Out.outs (.workerClose _ id ho hmem)

theorem onRecvRetry : Outs cfg R r r.onRecvRetry := by
  refine (Out.outs (.timers _ { r.conn.timers with recv_retry_armed := false })).trans ?_
  unfold Reactor.onRecvRetry
  dsimp only
  split
  · exact .refl
  · exact Out.outs (.pump _)

theorem beginDrain
    (hg : r.quiesced = true → Allows R { r with draining := true } .ShuttingDown) :
    Outs cfg R r r.beginDrain := by
  refine (Out.outs (.drain _)).trans ?_
  unfold Reactor.beginDrain
  split
  · rename_i hq
    have hpl : r.place = .Serving := by
      simp only [quiesced, Bool.and_eq_true, decide_eq_true_eq] at hq
      exact hq.1.1.1.1
    exact Out.outs (.close _ _ hpl (hg hq))
  · exact .refl

theorem onSpliceDeadline : Outs cfg R r (r.onSpliceDeadline cfg expired) := by
  unfold Reactor.onSpliceDeadline
  dsimp only
  split_ifs
  · exact Out.outs (.timers _ _)
  · exact .refl
  · exact Out.outs (.timers _ _)
  · exact Out.outs (.timers _ _)

theorem onReceiptDeadline : Outs cfg R r (r.onReceiptDeadline cfg expired) := by
  unfold Reactor.onReceiptDeadline
  dsimp only
  split
  · exact Out.outs (.timers _ _)
  · split
    · exact .refl
    · split
      · exact Out.outs (.timers _ _)
      · rename_i hpl
        split
        · exact Out.outs (.timers _ _)
        · exact (Out.outs (.timers _ _)).trans
            (close_plain (not_not.1 hpl) rfl)

end Outs

theorem Ended.onRedeliver (hs : R.settles) : Ended cfg R r (r.onRedeliver id) := by
  unfold Reactor.onRedeliver
  obtain hsa | ⟨ho, hmem, ha⟩ := onOutcome_cases r id
    fun r => (r.uncharge 1).withTask (.deliver .Redelivery)
  · rw [hsa]
    exact .done .refl
  · rw [ha]
    exact .deliver _ (Out.outs (.retire _ id ho hmem hs)).moves { ho with } nofun

end Reactor

end TruenasRos.Net
