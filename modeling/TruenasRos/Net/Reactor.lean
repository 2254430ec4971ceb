import TruenasRos.Net.Inbox
import TruenasRos.Net.Outbox

/-! # A connection and the ring operations on it

The reactor as far as one connection is concerned: the operations it stages, the flags by which
it knows what is in flight, and how it tears the connection down. Beside that state stands a log
of what has been done so far, which no function reads.
-/

namespace TruenasRos.Net

inductive Op
  | RecvHeader
  | RecvBody
  | Send
  | SpliceRecv
  | SplicePoll
  | Shutdown
  | Close
  | DetachInstall
  deriving DecidableEq

structure Timers where
  splice_deadline_armed : Bool := false
  splice_deadline_owed : ℕ := 0
  splice_watermark : ℕ := 0
  receipt_window_mark : ℕ := 0
  receipt_deadline_armed : Bool := false
  receipt_deadline_owed : ℕ := 0
  recv_retry_armed : Bool := false
  deriving DecidableEq

structure Connection where
  ktls : Bool := false
  inbox : Inbox := {}
  outbox : Outbox := {}
  recving : Bool := false
  sending : Bool := false
  splicing : Bool := false
  splice_polling : Bool := false
  splice_remaining : ℕ := 0
  timers : Timers := {}
  recv_idle : Bool := false
  served_since_idle_arm : Bool := false
  recv_clock_armed : Bool := false
  recv_clock_fired : Option Bool := none
  recv_close_stash : Option (Bool × Op) := none
  evict_on_resume : Bool := false
  close_on_flush : Option CloseReason := none
  peer_closed : Option CloseReason := none
  closing : Bool := false
  teardown_deferred : Bool := false
  teardown_shutdown_first : Bool := false
  outstanding : ℕ := 0
  ops : ℕ := 0
  next_req_id : ℕ := 0
  open_req_ids : List ℕ := []

namespace Timers

def cancelSpliceDeadline (t : Timers) : Timers :=
  if t.splice_deadline_armed then
    { t with splice_deadline_armed := false, splice_deadline_owed := t.splice_deadline_owed + 1 }
  else t

def cancelReceiptDeadline (t : Timers) : Timers :=
  if t.receipt_deadline_armed then
    { t with receipt_deadline_armed := false
             receipt_deadline_owed := t.receipt_deadline_owed + 1 }
  else t

def cancelRecvRetry (t : Timers) : Timers := { t with recv_retry_armed := false }

def armReceiptDeadline (cfg : CoreConfig) (t : Timers) : Timers :=
  { t with receipt_deadline_armed := t.receipt_deadline_armed || cfg.max_receipt_time }

def armSpliceDeadline (cfg : CoreConfig) (t : Timers) (splice_remaining : ℕ) : Timers :=
  if !cfg.request_timeout || t.splice_deadline_armed then t
  else { t with splice_deadline_armed := true, splice_watermark := splice_remaining }

end Timers

/-- The kinds of transfer, of each of which at most one is in flight. -/
inductive Flag
  | recv
  | send
  | splice
  | poll
  deriving DecidableEq

namespace Connection

def new (cfg : CoreConfig) (ktls : Bool) : Connection :=
  { ktls, inbox := { recv_buf := { pooled := cfg.recv_pool.isSome } } }

variable (c : Connection)

def teardownOwnsSlot : Bool := c.closing || c.close_on_flush.isSome

def flag : Flag → Bool
  | .recv => c.recving
  | .send => c.sending
  | .splice => c.splicing
  | .poll => c.splice_polling

def busy : Bool := c.recving || c.sending || c.splicing || c.splice_polling

def dry : Bool :=
  !c.sending && !c.outbox.hasPendingSend && !c.outbox.tailActive

/-- Whether a request is unanswered or an answer is unsent. -/
def owesWork : Bool :=
  decide (0 < c.outstanding) || c.sending || c.outbox.hasPendingSend || c.outbox.tailActive

def buffered : ℕ := c.inbox.buffered

def raise (f : Flag) : Connection :=
  match f with
  | .recv => { c with recving := true, ops := c.ops + 1 }
  | .send => { c with sending := true, ops := c.ops + 1 }
  | .splice => { c with splicing := true, ops := c.ops + 1 }
  | .poll => { c with splice_polling := true, ops := c.ops + 1 }

def lower (f : Flag) : Connection :=
  match f with
  | .recv => { c with recving := false }
  | .send => { c with sending := false }
  | .splice => { c with splicing := false }
  | .poll => { c with splice_polling := false }

def beginClose : Connection :=
  { c with
    closing := true
    timers := c.timers.cancelSpliceDeadline.cancelReceiptDeadline.cancelRecvRetry }

end Connection

/-- Where the table keeps the connection. -/
inductive Place
  | Serving
  | Detaching
  | Detached
  | Freed
  deriving DecidableEq

inductive Delivery
  | FromWire
  | Redelivery
  deriving DecidableEq

inductive Response
  | Reply (bytes : Bytes)
  | ReplyClose (bytes : Bytes)
  | ReplyVectored (segments : List Bytes) (close : Bool)
  | ReplyFile (head : Bytes) (file : File) (offset len : ℕ) (close : Bool)
  | Defer (own : Bool)
  | Detach (own : Bool)
  | Close

/-- What the reactor goes on with before it takes the next completion. -/
inductive Task
  | idle
  | pump
  | deliver (which : Delivery)
  | respond (resp : Response) (req_id : ℕ)

inductive Answer
  | reply (bytes : Bytes)
  | vectored (segments : List Bytes)
  | push (bytes : Bytes)
  | file (head : Bytes) (contents : File) (offset len : ℕ)

namespace Answer

def bytes : Answer → Bytes
  | .reply bytes => bytes
  | .vectored segments => segments.flatten
  | .push bytes => bytes
  | .file head contents offset len => head ++ contents.slice offset len

def isReply : Answer → Bool
  | .push _ => false
  | _ => true

end Answer

/-- A staged operation, with the flags as they stood. -/
structure Staged where
  op : Op
  busy : Bool
  closing : Bool
  deriving DecidableEq

/-- A call of the close hook, with the connection as it stood. -/
structure Closing where
  reason : CloseReason
  conn : Connection
  unread : Bytes
  verdict : Option Framing

/-- What has been done on a connection so far. -/
structure Log where
  staged : List Staged := []
  /-- The calls of the close hook. -/
  closed : List Closing := []
  freed : ℕ := 0
  underflows : ℕ := 0
  /-- The bytes taken off the socket for messages that are still to be taken off the stream. -/
  unread : Bytes := []
  /-- What the framer says of the message at hand, or would say where it is not asked. -/
  verdict : Option Framing := none
  accepted : List Answer := []
  /-- The bytes put on the socket. -/
  socket : Bytes := []
  /-- The replies that completed sends reported. -/
  counted : ℕ := 0

structure Reactor where
  conn : Connection
  place : Place := .Serving
  draining : Bool := false
  stopping : Bool := false
  task : Task := .idle
  /-- The operations whose completion is still to come. -/
  inflight : List Op := []
  log : Log := {}

def CloseReason.shutdownFirst : CloseReason → Bool
  | .PeerClosed | .RecvError _ | .SendError _ => false
  | _ => true

def isError (res : Res) (e : Errno) : Bool :=
  match res with
  | .error e' => decide (e' = e)
  | .ok _ => false

namespace Reactor

variable (cfg : CoreConfig) (r : Reactor)

def withConn (c : Connection) : Reactor := { r with conn := c }

def withTask (t : Task) : Reactor := { r with task := t }

def withInbox (i : Inbox) : Reactor := { r with conn.inbox := i }

def withOutbox (o : Outbox) : Reactor := { r with conn.outbox := o }

def withTimers (t : Timers) : Reactor := { r with conn.timers := t }

def stage (op : Op) : Reactor :=
  { r with
    inflight := r.inflight ++ [op]
    log.staged := r.log.staged ++ [⟨op, r.conn.busy, r.conn.closing⟩] }

def raise (r : Reactor) (f : Flag) (op : Op) : Reactor := (r.withConn (r.conn.raise f)).stage op

def submitTeardown (shutdown_first : Bool) : Reactor :=
  { r with conn.ops := r.conn.ops + 1 }.stage (if shutdown_first then .Shutdown else .Close)

def closingFor (reason : CloseReason) : Closing where
  reason := reason
  conn := r.conn
  unread := r.log.unread
  verdict := r.log.verdict

def hook (reason : CloseReason) : Reactor :=
  { r with conn := r.conn.beginClose, log.closed := r.log.closed ++ [r.closingFor reason] }

/-- Leave the teardown to the last of the transfers in flight to be reaped. -/
def deferTeardown (shutdown_first : Bool) : Reactor :=
  { r with conn.teardown_deferred := true, conn.teardown_shutdown_first := shutdown_first }

def closeConn (reason : CloseReason) : Reactor :=
  if r.conn.closing then r
  else if r.conn.busy then (r.hook reason).deferTeardown reason.shutdownFirst
  else (r.hook reason).submitTeardown reason.shutdownFirst

def submitDeferredTeardown : Reactor :=
  { r with conn.teardown_deferred := false }.submitTeardown r.conn.teardown_shutdown_first

/-- Count an operation down. The counter is a machine word, so the log notes a wrap. -/
def opsDown : Reactor :=
  { r with
    conn.ops := r.conn.ops - 1
    log.underflows := r.log.underflows + if r.conn.ops = 0 then 1 else 0 }

def reclaimSlot : Reactor :=
  { r with place := .Freed, log.freed := r.log.freed + 1 }

def onShutdown : Reactor := r.stage .Close

def onClosed : Reactor :=
  if r.opsDown.conn.ops = 0 then r.opsDown.reclaimSlot else r.opsDown

/-- What becomes of a connection that closes once an operation is counted down. -/
def reapClosing : Reactor :=
  if r.conn.teardown_deferred && !r.conn.busy then r.submitDeferredTeardown
  else if r.conn.ops = 0 then r.reclaimSlot
  else r

/-- Account for a reaped operation, and say whether the connection is still to be served. -/
def opDone : Reactor × Bool :=
  if r.conn.closing then (r.opsDown.reapClosing, false) else (r.opsDown, true)

/-- A transfer is over. What is left to do is done if the connection is still to be served. -/
def finish (f : Flag) (rest : Reactor → Reactor) : Reactor :=
  match (r.withConn (r.conn.lower f)).opDone with
  | (r, true) => rest r
  | (r, false) => r

variable (res : Res)

def recvCloseReason (was_idle : Bool) : CloseReason :=
  match res with
  | .ok 0 => if was_idle then .PeerClosed else .TruncatedMessage
  | .ok _ => .TruncatedMessage
  | .error e =>
    if e = ECANCELED then
      if r.draining || r.stopping then .ShuttingDown
      else if was_idle && cfg.idle_timeout then .IdleTimeout
      else if !was_idle && cfg.request_timeout then .RequestTimeout
      else .RecvError e
    else .RecvError e

def sendCloseReason : CloseReason :=
  match res with
  | .ok _ => .SendError EIO
  | .error e =>
    if e = ECANCELED then
      if r.draining || r.stopping then .ShuttingDown
      else if cfg.send_timeout then .SendTimeout
      else .SendError e
    else .SendError e

def submitSend : Reactor :=
  (r.withOutbox (r.conn.outbox.armSend cfg.max_send_coalesce)).raise .send .Send

def kickSend : Reactor :=
  if !r.conn.sending && !r.conn.closing && r.conn.outbox.hasPendingSend then r.submitSend cfg
  else r

def closeFlushed (reason : CloseReason) : Reactor :=
  { r with conn.close_on_flush := none }.closeConn reason

/-- Close a connection that has said its last word, or go on sending it. -/
def driveFlushClose : Reactor :=
  match r.conn.close_on_flush with
  | none => r
  | some reason => if r.conn.dry then r.closeFlushed reason else r.kickSend cfg

def clocked (idle armed : Bool) : Reactor :=
  { r with
    conn.recv_idle := idle
    conn.recv_clock_armed := armed
    conn.recv_clock_fired := none
    conn.served_since_idle_arm := r.conn.served_since_idle_arm && !idle }

/-- Arm the rest of an exact read with a fresh request clock. -/
def resubmitRecv (op : Op) : Reactor :=
  if r.conn.inbox.recvArmedWithin then (r.clocked false cfg.request_timeout).raise .recv op
  else r.closeConn (.RecvError EIO)

def resubmitKtlsRecv (op : Op) : Reactor := r.resubmitRecv cfg op

def resubmitExactRecv (op : Op) : Reactor := r.resubmitRecv cfg op

def spliceTimers (c : Connection) (len : ℕ) (first : Bool) : Timers :=
  let t := if c.ktls then c.timers.armSpliceDeadline cfg len else c.timers
  let t := if first then { t with receipt_window_mark := len } else t
  t.armReceiptDeadline cfg

def submitSpliceRecv (len : ℕ) (first : Bool) : Reactor :=
  { r with
    conn.splice_remaining := len
    conn.timers := spliceTimers cfg r.conn len first }.raise .splice .SpliceRecv

def submitSplicePoll : Reactor := r.raise .poll .SplicePoll

/-- Choose the memory for a read that is not into a body of its own: a pool buffer the kernel
picks, or the own vector where there is none large enough. -/
def chooseRecvBuf (b : RecvBuf) (want : ℕ) (exact : Bool) : RecvBuf :=
  let b :=
    if b.needsBuffer then
      match cfg.recv_pool with
      | some len => if exact && decide (len < want) then b.setOwned else b
      | none => b.setOwned
    else b
  b.promoteFor b.filled want

def armInbox (i : Inbox) (want : ℕ) (exact place_body : Bool) : Inbox :=
  if place_body then i.armBodyRecv
  else { i with recv_buf := chooseRecvBuf cfg i.recv_buf want exact }.armRecv want exact

def submitRecv (op : Op) (want : ℕ) (exact place_body in_message : Bool) : Reactor :=
  let idle := decide (op = .RecvHeader) && !in_message && r.conn.buffered == 0
  let armed := armInbox cfg r.conn.inbox want exact place_body
  let r := (r.withInbox armed).withTimers
    (if idle then r.conn.timers else r.conn.timers.armReceiptDeadline cfg)
  if !place_body && exact && decide (armed.recv_want < want) then r.closeConn .TooLarge
  else (r.clocked idle (if idle then cfg.idle_timeout else cfg.request_timeout)).raise .recv op

/-- Why a short exact read ends the connection. -/
def shortRecvReason (fired was_idle : Bool) : CloseReason :=
  if r.draining || r.stopping then .ShuttingDown
  else if fired then r.recvCloseReason cfg (.error ECANCELED) was_idle
  else .TruncatedMessage

def exactPartialContinues (fired was_idle : Bool) : Bool :=
  fired && !was_idle && !r.draining && !r.stopping && !r.conn.ktls

/-- Go on with a short exact read whose clock has reported, or close. -/
def settleShortRecv (op : Op) (fired was_idle : Bool) : Reactor :=
  if r.exactPartialContinues fired was_idle then r.resubmitExactRecv cfg op
  else r.closeConn (r.shortRecvReason cfg fired was_idle)

def withStash (stash : Option (Bool × Op)) : Reactor :=
  { r with conn.recv_close_stash := stash }

def onRecvClock (fired : Bool) : Reactor :=
  if r.conn.teardownOwnsSlot then r.withStash none
  else
    match r.conn.recv_close_stash with
    | some (was_idle, op) => (r.withStash none).settleShortRecv cfg op fired was_idle
    | none => if fired then { r with conn.recv_clock_fired := some true } else r

/-- The pool had no buffer for a read: read again where it grew, wait, or use the own vector. -/
def recvBufferShortage (grew : Bool) : Reactor :=
  if cfg.recv_pool.isSome && grew then r.withTask .pump
  else if cfg.recv_pool.isSome && cfg.recv_shortage_retry then
    r.withTimers { r.conn.timers with recv_retry_armed := true }
  else (r.withInbox { r.conn.inbox with recv_buf := r.conn.inbox.recv_buf.setOwned }).withTask .pump

def finishFailedRecv (reason : CloseReason) : Reactor :=
  if r.conn.buffered = 0 ∧ r.draining ∧ reason = .ShuttingDown then r.withTask .pump
  else if r.conn.buffered = 0 ∧ reason = .IdleTimeout ∧
      (0 < r.conn.outstanding ∨ r.conn.sending ∨ r.conn.outbox.hasPendingSend ∨
        r.conn.served_since_idle_arm) then
    r.withTask .pump
  else if r.conn.buffered = 0 ∧ reason = .PeerClosed ∧ r.conn.owesWork then
    { r with conn.peer_closed := some reason }
  else r.closeConn reason

def shortRecv (op : Op) (n : ℕ) (was_idle : Bool) : Reactor :=
  let r := r.withInbox (r.conn.inbox.advanceExactPartial n)
  if !r.conn.recv_clock_armed then r.settleShortRecv cfg op false was_idle
  else
    match r.conn.recv_clock_fired with
    | some fired => r.settleShortRecv cfg op fired was_idle
    | none => r.withStash (some (was_idle, op))

def onRecvOutcome (outcome : RecvOutcome) (op : Op) (res : Res)
    (control was_idle : Bool) : Reactor :=
  match outcome, res with
  | .Failed, .ok (n + 1) =>
    if control then r.closeConn .TlsControl else r.shortRecv cfg op (n + 1) was_idle
  | .Failed, res => r.finishFailedRecv (r.recvCloseReason cfg res was_idle)
  | .Again, _ => r.resubmitKtlsRecv cfg op
  | .Complete, _ =>
    if control then r.closeConn .TlsControl
    else if op = .RecvBody then r.withTask (.deliver .FromWire)
    else r.withTask .pump

/-- Act on the result of a read of a connection that is still served. -/
def onRecvResult (op : Op) (res : Res) (data_record grew was_idle : Bool) : Reactor :=
  if r.conn.close_on_flush.isSome || r.conn.peer_closed.isSome then r
  else if isError res ENOBUFS then r.recvBufferShortage cfg grew
  else
    let result := r.conn.inbox.recvResult res (r.conn.ktls && data_record)
    (r.withInbox result.1).onRecvOutcome cfg result.2 op res (r.conn.ktls && !data_record) was_idle

def onRecvComplete (op : Op) (res : Res) (data_record grew : Bool) : Reactor :=
  let was_idle := decide (op = .RecvHeader) && r.conn.recv_idle
  r.finish .recv fun r => r.onRecvResult cfg op res data_record grew was_idle

/-- Which pool buffer a completed read says it was given. -/
inductive Picked
  | none
  | buffer (mem : Bytes)
  | unknown

def landed (i : Inbox) (picked : Picked) (data : Bytes) : Inbox :=
  match picked with
  | .buffer mem => { i with recv_buf := i.recv_buf.install mem }.land data
  | _ => i.land data

def onRecv (op : Op) (res : Res) (data : Bytes)
    (picked : Picked) (data_record grew : Bool) : Reactor :=
  let r := { r with log.unread := r.log.unread ++ data }
  match picked with
  | .unknown => r.finish .recv fun r => r.closeConn (.RecvError EIO)
  | picked =>
    (r.withInbox (landed r.conn.inbox picked data)).onRecvComplete cfg op res data_record grew

def onSplicePoll : Reactor :=
  r.finish .poll fun r =>
    match res with
    | .error _ => r.closeConn (r.recvCloseReason cfg res false)
    | .ok _ => r.submitSpliceRecv cfg r.conn.splice_remaining false

def spliceCloseReason (e : Errno) : CloseReason :=
  if e = .EINVAL ∧ r.conn.ktls then .TlsControl
  else if r.conn.ktls ∧ cfg.request_timeout ∧ (e = ECANCELED ∨ e = EINTR ∨ e = ERESTARTSYS) then
    .RequestTimeout
  else r.recvCloseReason cfg (.error e) false

/-- The header waits until its body has been spliced, and both are done with at once. -/
def finishSplice : Reactor :=
  { r with
    conn.timers := r.conn.timers.cancelSpliceDeadline.cancelReceiptDeadline
    conn.inbox := r.conn.inbox.consume
    conn.splice_remaining := 0
    log.unread := r.log.unread.drop r.conn.inbox.frameLen }.withTask .pump

def advanceSplice (n : ℕ) : Reactor :=
  let remaining := r.conn.splice_remaining - n
  if remaining = 0 then r.finishSplice
  else r.submitSpliceRecv cfg remaining false

/-- Act on the result of a splice of a connection that is still served. -/
def onSpliced : Reactor :=
  match res with
  | .error e => if e = EAGAIN then r.submitSplicePoll else r.closeConn (r.spliceCloseReason cfg e)
  | .ok 0 => r.closeConn (r.recvCloseReason cfg (.ok 0) false)
  | .ok (n + 1) => r.advanceSplice cfg (n + 1)

def onSpliceRecv (data : Bytes) : Reactor :=
  let r := { r with log.unread := r.log.unread ++ data }
  r.finish .splice fun r => r.onSpliced cfg res

/-- The timer of a splice: it is renewed while bytes move, and cancels the splice otherwise. -/
def onSpliceDeadline (expired : Bool) : Reactor :=
  let t := r.conn.timers
  if 0 < t.splice_deadline_owed then
    r.withTimers { t with splice_deadline_owed := t.splice_deadline_owed - 1 }
  else if !expired || (decide (r.place = .Serving) && !t.splice_deadline_armed) then r
  else
    let t := { t with splice_deadline_armed := false }
    if r.place = .Serving ∧ (r.conn.splicing ∨ r.conn.splice_polling) ∧
        r.conn.splice_remaining < t.splice_watermark then
      r.withTimers (t.armSpliceDeadline cfg r.conn.splice_remaining)
    else r.withTimers t

/-- The limit on a message's receipt, renewed for a splice that moved enough. -/
def onReceiptDeadline (expired : Bool) : Reactor :=
  let t := r.conn.timers
  if 0 < t.receipt_deadline_owed then
    r.withTimers { t with receipt_deadline_owed := t.receipt_deadline_owed - 1 }
  else if !expired || (decide (r.place = .Serving) && !t.receipt_deadline_armed) then r
  else
    let t := { t with receipt_deadline_armed := false }
    if r.place ≠ .Serving then r.withTimers t
    else if (r.conn.splicing ∨ r.conn.splice_polling) ∧
        cfg.receipt_window_bytes ≤ t.receipt_window_mark - r.conn.splice_remaining then
      r.withTimers
        (Timers.armReceiptDeadline cfg { t with receipt_window_mark := r.conn.splice_remaining })
    else (r.withTimers t).closeConn .ReceiptTimeout

def advanceSent (n : ℕ) : Reactor :=
  let progress := (r.conn.outbox.advanceSent n).2
  { r with
    conn.outbox := (r.conn.outbox.advanceSent n).1
    conn.outstanding := r.conn.outstanding - progress.replies
    conn.served_since_idle_arm := true
    log.counted := r.log.counted + progress.replies }

def closeSent : Reactor :=
  match r.conn.close_on_flush, r.conn.peer_closed with
  | some reason, _ => if r.conn.dry then r.closeFlushed reason else r.withTask .pump
  | none, some reason =>
    if r.conn.dry ∧ r.conn.outstanding = 0 then
      { r with conn.peer_closed := none }.closeConn reason
    else r.withTask .pump
  | none, none => r.withTask .pump

def onSent : Reactor :=
  match res with
  | .ok (n + 1) =>
    let r := r.advanceSent (n + 1)
    if 0 < r.conn.outbox.armed_bytes then r.submitSend cfg else (r.kickSend cfg).closeSent
  | res => r.closeConn (r.sendCloseReason cfg res)

/-- What the kernel took is on the wire, whatever becomes of the connection. -/
def toWire : Reactor :=
  match res with
  | .ok n =>
    { r with
      log.socket := r.log.socket ++ (r.conn.outbox.gather cfg.max_send_coalesce).take n }
  | .error _ => r

def onSendComplete : Reactor :=
  (r.toWire cfg res).finish .send fun r => r.onSent cfg res

inductive Gate
  | Proceed
  | Stop
  deriving DecidableEq

/-- Whether the receive side is to stay as it is. -/
def recvStays : Bool :=
  let c := r.conn
  decide (r.place ≠ .Serving) || c.recving || c.splicing || c.splice_polling || c.closing ||
    c.recv_close_stash.isSome || c.close_on_flush.isSome || c.outbox.deferred_close ||
    decide (cfg.max_in_flight_requests ≤ c.outstanding)

def pumpGate : Reactor × Gate :=
  if r.recvStays cfg then (r, .Stop)
  else if r.draining && r.conn.buffered == 0 then
    if r.conn.outstanding = 0 ∧ !r.conn.sending ∧ !r.conn.outbox.hasPendingSend then
      (r.closeConn .ShuttingDown, .Stop)
    else (r, .Stop)
  else
    match r.conn.peer_closed with
    | some reason =>
      if r.conn.outstanding = 0 ∧ r.conn.dry then
        ({ r with conn.peer_closed := none }.closeConn reason, .Stop)
      else (r, .Stop)
    | none =>
      if cfg.max_request_bytes < r.conn.buffered then (r.closeConn .TooLarge, .Stop)
      else (r, .Proceed)

/-- What the descriptor of a splice turns out to be. -/
inductive SpliceFd
  | usable
  | bad
  | inUse
  deriving DecidableEq

/-- Whether a body that may be placed goes to a vector of its own. -/
def placesBody (b : RecvBuf) (total : ℕ) (place : Bool) : Bool :=
  place && !b.covers total &&
    !(b.needsBuffer && cfg.recv_pool.any fun len => decide (total ≤ len))

def setFrame (header_len body_len : ℕ) : Reactor :=
  r.withInbox (r.conn.inbox.setFrame header_len body_len)

def spliceBody (header_len body_len : ℕ) (fd : SpliceFd) : Reactor :=
  match fd with
  | .bad => r.closeConn .SpliceBadFd
  | .inUse => r.closeConn .SpliceFdInUse
  | .usable =>
    if r.conn.ktls && !cfg.request_timeout then r.closeConn .SpliceUnbounded
    else (r.setFrame header_len body_len).submitSpliceRecv cfg body_len true

def enactFrameStep (verdict : Framing) (fd : SpliceFd) : Reactor :=
  match frameStep verdict r.conn.buffered cfg.max_request_bytes cfg.body_placement_threshold with
  | .Close reason => r.closeConn reason
  | .ReadHeader want exact in_message => r.submitRecv cfg .RecvHeader want exact false in_message
  | .ReadBody want header_len body_len place =>
    (r.setFrame header_len body_len).submitRecv cfg .RecvBody want true
      (placesBody cfg r.conn.inbox.recv_buf (header_len + body_len) place) true
  | .Deliver header_len body_len =>
    (r.setFrame header_len body_len).withTask (.deliver .FromWire)
  | .SpliceBody header_len body_len => r.spliceBody cfg header_len body_len fd

end Reactor

end TruenasRos.Net
