import TruenasRos.Lib.Steps
import TruenasRos.Net.Reactor

/-! # Serving a connection

The server's part: it pumps the connection's framer, hands messages to the handler, enacts what
the handler and its workers answer, and streams file bodies. Everything that can happen to a
connection is an event, and a run is a list of events.
-/

namespace TruenasRos.Net

/-- What the file pool says to a read of the next chunk. -/
inductive FsReady
  | busy
  | ready
  | failed (e : Errno)

inductive Event
  /-- The loop of the pump takes a turn: the framer's verdict, and the descriptor it may name. -/
  | pump (verdict : Framing) (fd : Reactor.SpliceFd)
  /-- The handler is called. -/
  | deliver (lease : Bool) (resp : Response)
  /-- What it answered is enacted. -/
  | respond (fs : FsReady)
  | recv (op : Op) (res : Res) (data : Bytes) (picked : Reactor.Picked) (data_record grew : Bool)
  | recvClock (fired : Bool)
  | recvRetry
  | receiptDeadline (expired : Bool)
  | spliceDeadline (expired : Bool)
  | splicePoll (res : Res)
  | spliceRecv (res : Res) (data : Bytes)
  | send (res : Res) (fs : FsReady)
  | shutdown
  | closed
  | detachInstall (res : Res) (handler : Bool)
  | fileRead (res : Res) (fs : FsReady)
  | redriveTail (fs : FsReady)
  | push (bytes : Bytes)
  | pushClose
  | detachResume
  | detachClose
  | reply (req_id : ℕ) (bytes : Bytes)
  | replyClose (req_id : ℕ) (bytes : Bytes)
  | done (req_id : ℕ)
  | workerClose (req_id : ℕ)
  | redeliver (req_id : ℕ)
  | beginDrain
  | stop

namespace Task

def isIdle : Task → Bool
  | .idle => true
  | _ => false

def isPump : Task → Bool
  | .pump => true
  | _ => false

def isDeliver : Task → Bool
  | .deliver _ => true
  | _ => false

def isRespond : Task → Bool
  | .respond _ _ => true
  | _ => false

end Task

namespace Reactor

variable (cfg : CoreConfig)

variable (r : Reactor)

def accept (a : Answer) (outbox : Outbox) : Reactor :=
  { r with conn.outbox := outbox, log.accepted := r.log.accepted ++ [a] }

def charge : Reactor := { r with conn.outstanding := r.conn.outstanding + 1 }

def uncharge (n : ℕ) : Reactor :=
  { r with conn.outstanding := r.conn.outstanding - n }

def acceptReply (bytes : Bytes) : Reactor :=
  if bytes.isEmpty then r
  else r.charge.accept (.reply bytes) (r.conn.outbox.enqueueReply bytes)

def armFlush (reason : CloseReason) : Reactor :=
  { r with conn.close_on_flush := some reason }

/-- Ask for a close once everything is sent, and close if nothing is to be sent. -/
def flushClose (reason : CloseReason) : Reactor :=
  (r.armFlush reason).driveFlushClose cfg

def withTail (tail : FileTail) : Reactor :=
  r.withOutbox { r.conn.outbox with file_tail := some tail }

def readChunk (tail : FileTail) (fs : FsReady) : Reactor :=
  match fs, r.conn.outbox.tailClaimChunk with
  | .busy, _ => r.withTail { tail with parked := true }
  | .ready, none | .failed _, none => r
  | .ready, some outbox => (r.withOutbox outbox).withTail { tail with reading := true }
  | .failed e, some outbox => (r.withOutbox outbox.tailReleaseChunk).closeConn (.FileBody e)

def driveFileTail (fs : FsReady) : Reactor :=
  match r.conn.outbox.file_tail with
  | none => r
  | some tail =>
    if decide (r.place ≠ .Serving) || r.conn.closing || tail.reading || tail.unread == 0 then r
    else r.readChunk tail fs

def redriveParkedTail (fs : FsReady) : Reactor :=
  match r.conn.outbox.file_tail with
  | none => r
  | some tail => (r.withTail { tail with parked := false }).driveFileTail fs

def driveInstalled (close : Bool) (fs : FsReady) : Reactor :=
  if close then ((r.armFlush .HandlerClosed).driveFlushClose cfg).driveFileTail fs
  else (r.kickSend cfg).driveFileTail fs

def installFileReply (next : PendingFile) (fs : FsReady) : Reactor :=
  (r.withOutbox ((r.conn.outbox.enqueueReplyHead next.head).installFileTail next.file
    next.offset next.len)).driveInstalled cfg next.close fs

def deferFileReply (next : PendingFile) : Reactor :=
  r.charge.accept (.file next.head next.file next.offset next.len)
    (r.conn.outbox.deferFileReply next)

def startFileReply (next : PendingFile) (fs : FsReady) : Reactor :=
  (r.charge.accept (.file next.head next.file next.offset next.len) r.conn.outbox).installFileReply
    cfg next fs

def beginFileReply (next : PendingFile) (fs : FsReady) : Reactor :=
  if !cfg.fs_pool then r.closeConn (.FileBody EOPNOTSUPP)
  else if next.len = 0 then
    let r := r.acceptReply next.head
    if next.close then r.flushClose cfg .HandlerClosed
    else if next.head.isEmpty then r
    else r.kickSend cfg
  else if 2 ^ 63 ≤ next.offset + next.len then r.closeConn (.FileBody .EINVAL)
  else if r.conn.outbox.tailActive then r.deferFileReply next
  else r.startFileReply cfg next fs

/-- The body that streamed has been read to its end: what waits behind it is next, unless the
connection is to close. -/
def onTailEnd (fs : FsReady) : Reactor :=
  if r.conn.close_on_flush.isSome then
    (r.uncharge r.conn.outbox.droppedCharge).withOutbox r.conn.outbox.dropQueuedFileReply
  else
    match r.conn.outbox.takeQueuedFileReply with
    | (none, outbox) => r.withOutbox outbox
    | (some next, outbox) => (r.withOutbox outbox).installFileReply cfg next fs

def onChunk (chunk : Bytes) (fs : FsReady) : Reactor :=
  match r.conn.outbox.advanceFileTail chunk with
  | (outbox, false) => ((r.withOutbox outbox).kickSend cfg).driveFileTail fs
  | (outbox, true) => ((r.withOutbox outbox).kickSend cfg).onTailEnd cfg fs

def onPumpRead (res : Res) (fs : FsReady) : Reactor :=
  match r.conn.outbox.file_tail with
  | none => r
  | some tail =>
    let r := r.withTail { tail with reading := false }
    match res with
    | .error e =>
      if e = ENOBUFS then (r.withOutbox r.conn.outbox.tailReleaseChunk).driveFileTail fs
      else r.closeConn (.FileBody e)
    | .ok 0 => r.closeConn .FileBodyTruncated
    | .ok n => r.onChunk cfg (tail.file.slice tail.next_offset n) fs

def onSend (res : Res) (fs : FsReady) : Reactor :=
  (r.onSendComplete cfg res).driveFileTail fs

def pump (verdict : Framing) (fd : SpliceFd) : Reactor :=
  match pumpGate cfg { r with task := .idle, log.verdict := some verdict } with
  | (r, .Stop) => r
  | (r, .Proceed) => r.enactFrameStep cfg verdict fd

/-- What the receive side is left with once the handler has seen a message. -/
def delivered (i : Inbox) (recving : Bool) : Inbox :=
  let i := i.consume
  if recving then i else { i with recv_buf := i.recv_buf.release }

def callHandler (resp : Response) : Reactor :=
  { r with
    conn.next_req_id := r.conn.next_req_id + 1
    task := .respond resp r.conn.next_req_id }

def deliverFromWire (lease : Bool) (resp : Response) : Reactor :=
  let (_, _, inbox) := r.conn.inbox.deliverPartsLeased cfg.body_placement_threshold lease
  { r with
    conn.timers := r.conn.timers.cancelReceiptDeadline
    conn.inbox := delivered inbox r.conn.recving
    log.unread := r.log.unread.drop r.conn.inbox.frameLen }.callHandler resp

/-- Give the handler a parked request once more. The message at hand stays as it is. -/
def redeliver (lease : Bool) (resp : Response) : Reactor :=
  let (header_len, body_len) := r.conn.inbox.frame
  let (_, _, inbox) :=
    (r.conn.inbox.setFrame 0 0).deliverPartsLeased cfg.body_placement_threshold lease
  (r.withInbox ((delivered inbox r.conn.recving).setFrame header_len body_len)).callHandler resp

def deliverOne (which : Delivery) (lease : Bool) (resp : Response) : Reactor :=
  match which with
  | .FromWire => r.deliverFromWire cfg lease resp
  | .Redelivery => r.redeliver cfg lease resp

def settled : Bool :=
  let c := r.conn
  !c.closing && c.ops == 0 && !c.busy && c.outstanding == 0 && c.buffered == 0 &&
    !c.outbox.hasPendingSend

def openDeferred (req_id : ℕ) : Reactor :=
  { r with conn.open_req_ids := r.conn.open_req_ids ++ [req_id] }

def submitDetachInstall : Reactor :=
  { r.stage .DetachInstall with place := .Detaching }

def replyVectored (segments : List Bytes) (close : Bool) : Reactor :=
  match r.conn.outbox.enqueueReplySegments segments with
  | (outbox, true) =>
    let r := r.charge.accept (.vectored segments) outbox
    if close then r.flushClose cfg .HandlerClosed else r.kickSend cfg
  | (_, false) => if close then r.flushClose cfg .HandlerClosed else r

def respondTo (resp : Response) (req_id : ℕ) (fs : FsReady) : Reactor :=
  match resp with
  | .Close => r.closeConn .HandlerClosed
  | .Defer own => if own then r.charge.openDeferred req_id else r.closeConn .HandlerClosed
  | .Detach own => if own && r.settled then r.submitDetachInstall else r.closeConn .HandlerClosed
  | .Reply bytes => if bytes.isEmpty then r else (r.acceptReply bytes).kickSend cfg
  | .ReplyClose bytes => (r.acceptReply bytes).flushClose cfg .HandlerClosed
  | .ReplyVectored segments close => r.replyVectored cfg segments close
  | .ReplyFile head file offset len close =>
    r.beginFileReply cfg { head, file, offset, len, close } fs

def withPlace (place : Place) : Reactor := { r with place }

/-- The descriptor of a connection that leaves the ring has been made, or not. -/
def onDetachInstall (res : Res) (handler : Bool) : Reactor :=
  match res with
  | .error e => (r.withPlace .Serving).closeConn (.RecvError e)
  | .ok _ =>
    if r.draining then (r.withPlace .Serving).closeConn .ShuttingDown
    else if handler then r.withPlace .Detached
    else (r.withPlace .Serving).closeConn .HandlerClosed

/-- Bytes pushed to the connection, which is closed where its backlog is too long. -/
def onPush (bytes : Bytes) : Reactor :=
  if r.draining || r.conn.close_on_flush.isSome then r
  else if cfg.max_send_backlog < r.conn.outbox.queued_bytes + bytes.length then
    if r.place = .Serving then r.closeConn .SendBacklog
    else { r with conn.evict_on_resume := true }
  else
    let r := r.accept (.push bytes) (r.conn.outbox.enqueuePush bytes)
    if r.place = .Serving then r.kickSend cfg else r

def onPushClose : Reactor :=
  if r.conn.teardownOwnsSlot then r
  else if r.place = .Serving then r.flushClose cfg .PushClosed
  else r.armFlush .PushClosed

def onDetachResume : Reactor :=
  if r.conn.evict_on_resume then
    ({ r with conn.evict_on_resume := false }.withPlace .Serving).closeConn .SendBacklog
  else if r.conn.close_on_flush.isSome then (r.withPlace .Serving).driveFlushClose cfg
  else ((r.withPlace .Serving).kickSend cfg).withTask .pump

def onDetachClose : Reactor := (r.withPlace .Serving).closeConn .WorkerClosed

def takeDeferred (req_id : ℕ) : Option Reactor :=
  if decide (r.place ≠ .Serving) || r.conn.teardownOwnsSlot then none
  else if req_id ∈ r.conn.open_req_ids then
    some { r with conn.open_req_ids := r.conn.open_req_ids.erase req_id }
  else none

def onOutcome (req_id : ℕ) (act : Reactor → Reactor) : Reactor :=
  match r.takeDeferred req_id with
  | none => r
  | some r => act r

def onReply (req_id : ℕ) (bytes : Bytes) : Reactor :=
  r.onOutcome req_id fun r =>
    (r.accept (.reply bytes) (r.conn.outbox.enqueueReply bytes)).kickSend cfg

def onReplyClose (req_id : ℕ) (bytes : Bytes) : Reactor :=
  r.onOutcome req_id fun r =>
    if bytes.isEmpty then (r.uncharge 1).flushClose cfg .WorkerClosed
    else (r.accept (.reply bytes) (r.conn.outbox.enqueueReply bytes)).flushClose cfg .WorkerClosed

def onDone (req_id : ℕ) : Reactor :=
  r.onOutcome req_id fun r => (r.uncharge 1).withTask .pump

def onWorkerClose (req_id : ℕ) : Reactor :=
  r.onOutcome req_id fun r => r.closeConn .WorkerClosed

def onRedeliver (req_id : ℕ) : Reactor :=
  r.onOutcome req_id fun r => (r.uncharge 1).withTask (.deliver .Redelivery)

def onRecvRetry : Reactor :=
  let r := r.withTimers { r.conn.timers with recv_retry_armed := false }
  if r.place ≠ .Serving ∨ r.stopping then r else r.withTask .pump

/-- Whether the sweep of a drain finds nothing in flight and nothing owed. -/
def quiesced : Bool :=
  decide (r.place = .Serving) && !r.conn.closing && !r.conn.busy && r.conn.outstanding == 0 &&
    !r.conn.outbox.hasPendingSend

/-- The server drains. A connection with an idle read has that read cancelled, which completes
later; one on which nothing is in flight or owed is closed. -/
def beginDrain : Reactor :=
  if r.quiesced then { r with draining := true }.closeConn .ShuttingDown
  else { r with draining := true }

def reap (op : Op) : Reactor := { r with inflight := r.inflight.erase op }

def handle : Event → Reactor
  | .pump verdict fd => r.pump cfg verdict fd
  | .deliver lease resp =>
    match r.task with
    | .deliver which => r.deliverOne cfg which lease resp
    | _ => r
  | .respond fs =>
    match r.task with
    | .respond resp req_id => (r.withTask .pump).respondTo cfg resp req_id fs
    | _ => r
  | .recv op res data picked data_record grew =>
    (r.reap op).onRecv cfg op res data picked data_record grew
  | .recvClock fired => if r.place = .Serving then r.onRecvClock cfg fired else r
  | .recvRetry => r.onRecvRetry
  | .receiptDeadline expired => r.onReceiptDeadline cfg expired
  | .spliceDeadline expired => r.onSpliceDeadline cfg expired
  | .splicePoll res => (r.reap .SplicePoll).onSplicePoll cfg res
  | .spliceRecv res data => (r.reap .SpliceRecv).onSpliceRecv cfg res data
  | .send res fs => (r.reap .Send).onSend cfg res fs
  | .shutdown => (r.reap .Shutdown).onShutdown
  | .closed => (r.reap .Close).onClosed
  | .detachInstall res handler => (r.reap .DetachInstall).onDetachInstall res handler
  | .fileRead res fs =>
    if r.place ≠ .Serving ∨ r.conn.closing then r else r.onPumpRead cfg res fs
  | .redriveTail fs => r.redriveParkedTail fs
  | .push bytes => r.onPush cfg bytes
  | .pushClose => r.onPushClose cfg
  | .detachResume => r.onDetachResume cfg
  | .detachClose => r.onDetachClose
  | .reply req_id bytes => r.onReply cfg req_id bytes
  | .replyClose req_id bytes => r.onReplyClose cfg req_id bytes
  | .done req_id => r.onDone req_id
  | .workerClose req_id => r.onWorkerClose req_id
  | .redeliver req_id => r.onRedeliver req_id
  | .beginDrain => r.beginDrain
  | .stop => { r with stopping := true }

def recvFits (res : Res) (data : Bytes) (picked : Picked) : Bool :=
  let i := r.conn.inbox
  let selects := i.recv_buf.needsBuffer && !i.recv_into_body
  let count := match res with
    | .ok n => n
    | .error _ => 0
  data.length == count && decide (count ≤ i.recv_want) &&
    match picked with
    | .none => !(selects && decide (0 < count))
    | .buffer mem => selects && cfg.recv_pool == some mem.length
    | .unknown => true

/-- Whether the event can come now. The kernel reports an operation that is in flight, and no more
bytes than it was asked for; the reactor takes up nothing new before it is done with the last. -/
def enabled : Event → Bool
  | .pump _ _ => r.task.isPump
  | .deliver _ _ => r.task.isDeliver
  | .respond _ => r.task.isRespond
  | .stop => true
  | .recv op res data picked _ _ =>
    r.task.isIdle && decide (op ∈ r.inflight) && decide (op = .RecvHeader ∨ op = .RecvBody) &&
      r.recvFits cfg res data picked
  | .recvClock _ | .recvRetry | .receiptDeadline _ | .spliceDeadline _ => r.task.isIdle
  | .splicePoll _ => r.task.isIdle && decide (.SplicePoll ∈ r.inflight)
  | .spliceRecv res data =>
    r.task.isIdle && decide (.SpliceRecv ∈ r.inflight) &&
      match res with
      | .ok n => data.length == n && decide (n ≤ r.conn.splice_remaining)
      | .error _ => data.isEmpty
  | .send res _ =>
    r.task.isIdle && decide (.Send ∈ r.inflight) &&
      match res with
      | .ok n => decide (n ≤ r.conn.outbox.armed_bytes)
      | .error _ => true
  | .shutdown => r.task.isIdle && decide (.Shutdown ∈ r.inflight)
  | .closed => r.task.isIdle && decide (.Close ∈ r.inflight)
  | .detachInstall _ _ => r.task.isIdle && decide (.DetachInstall ∈ r.inflight)
  | .fileRead res _ =>
    r.task.isIdle && r.conn.outbox.file_tail.any fun tail => tail.reading &&
      match res with
      | .ok n => decide (n ≤ min tail.unread cfg.fs_body_chunk)
      | .error _ => true
  | .redriveTail _ => r.task.isIdle && decide (r.place = .Serving)
  | .push bytes => r.task.isIdle && !r.stopping && !bytes.isEmpty
  | .reply _ bytes => r.task.isIdle && !r.stopping && !bytes.isEmpty
  | .detachResume | .detachClose => r.task.isIdle && !r.stopping && decide (r.place = .Detached)
  | .beginDrain => r.task.isIdle && !r.stopping && !r.draining
  | .pushClose | .replyClose _ _ | .done _ | .workerClose _ | .redeliver _ =>
    r.task.isIdle && !r.stopping

def step (e : Event) : Reactor :=
  if r.place ≠ .Freed ∧ r.enabled cfg e then r.handle cfg e else r

def run (es : List Event) : Reactor := Steps.run (step cfg) r es

def start (ktls : Bool) : Reactor := { conn := .new cfg ktls, task := .pump }

end Reactor

end TruenasRos.Net
