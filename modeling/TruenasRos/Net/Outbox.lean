import TruenasRos.Net.Protocol

/-! # The send side of a connection

Answers wait in a queue and leave it as the kernel reports bytes sent. The body of a file reply
is read and queued a chunk at a time; whatever is answered while it streams is held back behind
it, other file replies among it.
-/

namespace TruenasRos.Net

inductive SendKind
  /-- The last segment of a reply, which retires its request. -/
  | ReplyLast
  | ReplyPart
  | Push
  deriving DecidableEq

structure SendItem where
  bytes : Bytes
  kind : SendKind
  /-- Whether the item is a chunk of a file body. -/
  reclaim : Bool := false
  deriving DecidableEq

abbrev File := ℕ → UInt8

def File.slice (file : File) (offset len : ℕ) : Bytes :=
  (List.range len).map fun i => file (offset + i)

structure PendingFile where
  head : Bytes
  file : File
  offset : ℕ
  len : ℕ
  close : Bool

inductive PendingItem
  | Pdu (item : SendItem)
  | File (next : PendingFile)

/-- A file body that streams, with what waits behind it. -/
structure FileTail where
  file : File
  next_offset : ℕ
  unread : ℕ
  reading : Bool := false
  pending : List PendingItem := []
  parked : Bool := false

def FILE_TAIL_BUFS : ℕ := 2

structure Outbox where
  send_queue : List SendItem := []
  queued_bytes : ℕ := 0
  front_sent : ℕ := 0
  armed_bytes : ℕ := 0
  file_tail : Option FileTail := none
  next_file : Option PendingFile := none
  next_file_pending : List PendingItem := []
  chunk_out : ℕ := 0
  deferred_close : Bool := false

/-- What a completed send retired. -/
structure SendProgress where
  replies : ℕ
  pushes : ℕ
  armed_remaining : ℕ
  deriving DecidableEq

namespace PendingItem

def charge : PendingItem → ℕ
  | .File _ => 1
  | .Pdu pdu => if pdu.kind = .ReplyLast then 1 else 0

def queuedBytes : PendingItem → ℕ
  | .File _ => 0
  | .Pdu pdu => pdu.bytes.length

def closes : PendingItem → Bool
  | .File next => next.close
  | .Pdu _ => false

end PendingItem

namespace Outbox

variable (o : Outbox)

def tailActive : Bool := o.file_tail.isSome

def hasPendingSend : Bool := !o.send_queue.isEmpty

/-- Queue a segment, behind the file body that streams if one does. -/
def enqueue (bytes : Bytes) (kind : SendKind) : Outbox :=
  let item : SendItem := { bytes, kind }
  let o := { o with queued_bytes := o.queued_bytes + bytes.length }
  match o.file_tail with
  | some tail => { o with file_tail := some { tail with pending := tail.pending ++ [.Pdu item] } }
  | none => { o with send_queue := o.send_queue ++ [item] }

def enqueueReply (bytes : Bytes) : Outbox := o.enqueue bytes .ReplyLast

def enqueuePush (bytes : Bytes) : Outbox := o.enqueue bytes .Push

/-- Queue the segments that are not empty, the last of them as the end of the reply. -/
def enqueueSegments (o : Outbox) : List Bytes → Outbox
  | [] => o
  | seg :: segments =>
    if seg.isEmpty then o.enqueueSegments segments
    else if segments.all List.isEmpty then o.enqueue seg .ReplyLast
    else (o.enqueue seg .ReplyPart).enqueueSegments segments

def enqueueReplySegments (segments : List Bytes) : Outbox × Bool :=
  if segments.all List.isEmpty then (o, false) else (o.enqueueSegments segments, true)

def installFileTail (file : File) (offset len : ℕ) : Outbox :=
  { o with
    file_tail := some { file, next_offset := offset, unread := len, pending := o.next_file_pending }
    next_file_pending := [] }

/-- Take one of the chunk buffers that a body may have out. -/
def tailClaimChunk : Option Outbox :=
  if o.file_tail.isNone ∨ FILE_TAIL_BUFS ≤ o.chunk_out then none
  else some { o with chunk_out := o.chunk_out + 1 }

def tailReleaseChunk : Outbox := { o with chunk_out := o.chunk_out - 1 }

def enqueueReplyHead (bytes : Bytes) : Outbox :=
  if bytes.isEmpty then o else o.enqueue bytes .ReplyPart

def enqueueFileChunk (bytes : Bytes) (last : Bool) : Outbox :=
  { o with
    queued_bytes := o.queued_bytes + bytes.length
    send_queue := o.send_queue ++
      [{ bytes, kind := if last then .ReplyLast else .ReplyPart, reclaim := true }] }

/-- The segments before the first file reply, that reply, and what is behind it. -/
def splitPending : List PendingItem → List SendItem × Option PendingFile × List PendingItem
  | [] => ([], none, [])
  | .File next :: rest => ([], some next, rest)
  | .Pdu pdu :: rest =>
    let (pdus, next, behind) := splitPending rest
    (pdu :: pdus, next, behind)

/-- Retire the tail: what waited behind it is queued up to the next file reply. -/
def finishFileTail : Outbox :=
  match o.file_tail with
  | none => o
  | some tail =>
    let (pdus, next, behind) := splitPending tail.pending
    { o with
      file_tail := none
      send_queue := o.send_queue ++ pdus
      next_file := next
      next_file_pending := behind }

/-- Queue a chunk that was read, and say whether it was the last of its body. -/
def advanceFileTail (buf : Bytes) : Outbox × Bool :=
  match o.file_tail with
  | none => (o, false)
  | some tail =>
    let unread := tail.unread - buf.length
    let last := unread == 0
    let o := { o with
      file_tail := some { tail with next_offset := tail.next_offset + buf.length, unread } }
    let o := o.enqueueFileChunk buf last
    (if last then o.finishFileTail else o, last)

def deferFileReply (next : PendingFile) : Outbox :=
  { o with
    deferred_close := o.deferred_close || next.close
    file_tail := o.file_tail.map fun tail => { tail with pending := tail.pending ++ [.File next] } }

def takeQueuedFileReply : Option PendingFile × Outbox :=
  (o.next_file,
    { o with next_file := none, deferred_close := o.next_file_pending.any PendingItem.closes })

/-- The requests that the file reply held back and everything behind it answer. -/
def droppedCharge : ℕ :=
  (if o.next_file.isSome then 1 else 0) + (o.next_file_pending.map PendingItem.charge).sum

def dropQueuedFileReply : Outbox :=
  { o with
    next_file := none
    deferred_close := false
    next_file_pending := []
    queued_bytes := o.queued_bytes - (o.next_file_pending.map PendingItem.queuedBytes).sum }

/-- The bytes of the segments at the front of the queue that one send gathers. -/
def gather (max_send_coalesce : ℕ) : Bytes :=
  ((o.send_queue.take max_send_coalesce).flatMap SendItem.bytes).drop o.front_sent

def armSend (max_send_coalesce : ℕ) : Outbox :=
  { o with armed_bytes := (o.gather max_send_coalesce).length }

/-- Move the cursor over bytes that were sent. Gives the queue and the cursor that are left, and
the segments that were passed. -/
def advanceQueue : List SendItem → ℕ → ℕ → List SendItem × ℕ × List SendItem
  | queue, front_sent, 0 => (queue, front_sent, [])
  | [], front_sent, _ => ([], front_sent, [])
  | item :: queue, front_sent, n =>
    let front_remaining := item.bytes.length - front_sent
    if n < front_remaining then (item :: queue, front_sent + n, [])
    else
      let (queue, front_sent, popped) := advanceQueue queue 0 (n - front_remaining)
      (queue, front_sent, item :: popped)

def advanceSent (n : ℕ) : Outbox × SendProgress :=
  let n := min n o.armed_bytes
  let (send_queue, front_sent, popped) := advanceQueue o.send_queue o.front_sent n
  ({ o with
      send_queue
      front_sent
      armed_bytes := o.armed_bytes - n
      queued_bytes := o.queued_bytes - (popped.map (·.bytes.length)).sum
      chunk_out := o.chunk_out - popped.countP (·.reclaim) },
    { replies := popped.countP (·.kind = .ReplyLast)
      pushes := popped.countP (·.kind = .Push)
      armed_remaining := o.armed_bytes - n })

end Outbox

end TruenasRos.Net
