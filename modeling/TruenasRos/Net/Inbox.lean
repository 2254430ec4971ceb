import TruenasRos.Net.Protocol

/-! # The receive side of a connection

The bytes that wait on a connection live in its own vector, in a buffer borrowed from the pool,
or, for a large body, in a vector of that body. A read is armed at an offset of one of them, and
its completion moves the mark up to which the bytes count.
-/

namespace TruenasRos.Net

def overwrite (mem : Bytes) (pos : ℕ) (data : Bytes) : Bytes :=
  mem.take pos ++ data ++ mem.drop (pos + data.length)

def resize (xs : Bytes) (n : ℕ) : Bytes := xs.take n ++ List.replicate (n - xs.length) 0

structure RecvBuf where
  owned : Bytes := []
  /-- The memory of the pool buffer that is held, if one is. -/
  claim : Option Bytes := none
  pooled : Bool := false
  write_leased : Bool := false
  filled : ℕ := 0
  deriving DecidableEq

namespace RecvBuf

variable (b : RecvBuf)

def storage : Bytes := b.claim.getD b.owned

def bytes : Bytes := b.storage.take b.filled

def setOwned : RecvBuf := { b with pooled := false }

def needsBuffer : Bool :=
  b.pooled && b.claim.isNone && b.filled == 0 && b.owned.isEmpty

def install (mem : Bytes) : RecvBuf := { b with claim := some mem, filled := 0 }

def release : RecvBuf :=
  if 0 < b.filled then b
  else if b.write_leased then b
  else { b with owned := if b.pooled then [] else b.owned, claim := none }

def covers (total : ℕ) : Bool := b.claim.any fun mem => decide (total ≤ mem.length)

/-- Move to an own vector where the pool buffer is too small for the read. -/
def promoteFor (pos want : ℕ) : RecvBuf :=
  if b.write_leased then b
  else
    match b.claim with
    | none => b
    | some mem =>
      if pos + want ≤ mem.length then b
      else { b with owned := resize (mem.take b.filled) (pos + want), claim := none }

/-- Make room for a read. A pool buffer grants no more than it has left. -/
def reserveAt (pos want : ℕ) : RecvBuf × ℕ :=
  match b.claim with
  | some mem => (b, min want (mem.length - pos))
  | none =>
    if b.needsBuffer then (b, want)
    else
      let need := pos + want
      ({ b with owned := if b.owned.length < need then resize b.owned need else b.owned }, want)

def setFilled (filled : ℕ) : RecvBuf := { b with filled }

def armedWithin (pos want : ℕ) : Bool := decide (pos + want ≤ b.storage.length)

/-- Drop bytes from the front. A buffer that was leased for a write stays with its writer, and
what is left of it is copied out. -/
def drainFront (n : ℕ) : RecvBuf :=
  let n := min n b.filled
  let rest := b.filled - n
  if b.write_leased then
    match b.claim with
    | none => { b with write_leased := false }
    | some mem =>
      { b with owned := (mem.drop n).take rest, claim := none, filled := rest,
               write_leased := false }
  else if n = 0 then b
  else
    let kept := (b.storage.drop n).take rest
    match b.claim with
    | some mem => { b with claim := some (overwrite mem 0 kept), filled := rest }
    | none => { b with owned := overwrite b.owned 0 kept, filled := rest }

def truncate (n : ℕ) : RecvBuf := { b with filled := min b.filled n }

/-- Hand over the own vector as a whole. -/
def takeOwned : Option (Bytes × RecvBuf) :=
  if b.claim.isSome || b.pooled then none
  else some (b.owned.take b.filled, { b with owned := [], filled := 0 })

def write (pos : ℕ) (data : Bytes) : RecvBuf :=
  match b.claim with
  | some mem => { b with claim := some (overwrite mem pos data) }
  | none => { b with owned := overwrite b.owned pos data }

end RecvBuf

structure Inbox where
  recv_buf : RecvBuf := {}
  header_len : ℕ := 0
  body_len : ℕ := 0
  recv_at : ℕ := 0
  recv_want : ℕ := 0
  recv_exact : Bool := true
  recv_into_body : Bool := false
  body_buf : Option Bytes := none
  deriving DecidableEq

inductive RecvOutcome
  | Complete
  | Again
  | Failed
  deriving DecidableEq

namespace Inbox

variable (i : Inbox)

def frame : ℕ × ℕ := (i.header_len, i.body_len)

def setFrame (header_len body_len : ℕ) : Inbox := { i with header_len, body_len }

def frameLen : ℕ := i.header_len + i.body_len

def buffered : ℕ := i.recv_buf.filled

def consume : Inbox :=
  let drained := min i.frameLen i.recv_buf.filled
  { i with recv_buf := i.recv_buf.drainFront drained, header_len := 0, body_len := 0 }

def armRecv (want : ℕ) (exact : Bool) : Inbox :=
  let pos := i.recv_buf.filled
  let (recv_buf, granted) := i.recv_buf.reserveAt pos want
  { i with recv_buf, recv_at := pos, recv_want := granted, recv_exact := exact,
           recv_into_body := false }

/-- Arm a read into a vector of the body's own, which starts with what of the body waits. -/
def armBodyRecv : Inbox :=
  let already := i.recv_buf.filled - i.header_len
  { i with
    body_buf := some (i.recv_buf.bytes.drop i.header_len)
    recv_buf := i.recv_buf.truncate i.header_len
    recv_at := already
    recv_want := i.body_len - already
    recv_exact := true
    recv_into_body := true }

def land (data : Bytes) : Inbox :=
  if i.recv_into_body then
    match i.body_buf with
    | some body => { i with body_buf := some (overwrite body i.recv_at data) }
    | none => { i with recv_buf := i.recv_buf.write i.recv_at data }
  else { i with recv_buf := i.recv_buf.write i.recv_at data }

def finishBodyRecv : Inbox :=
  { i with recv_into_body := false, body_buf := i.body_buf.map (·.take i.body_len) }

def advanceExactPartial (n : ℕ) : Inbox :=
  let n := min n i.recv_want
  { i with recv_at := i.recv_at + n, recv_want := i.recv_want - n }

/-- Classify a completed read. A short exact read goes on where the count ends at a record of
data of a TLS connection. -/
def recvResult (res : Res) (data_record : Bool) : Inbox × RecvOutcome :=
  match res with
  | .error _ => (i, .Failed)
  | .ok n =>
    if i.recv_exact then
      if n = i.recv_want then
        (if i.recv_into_body then i.finishBodyRecv
          else { i with recv_buf := i.recv_buf.setFilled (i.recv_at + i.recv_want) }, .Complete)
      else if 0 < n ∧ n < i.recv_want ∧ data_record then
        ({ i with recv_at := i.recv_at + n, recv_want := i.recv_want - n }, .Again)
      else (i, .Failed)
    else if 0 < n then ({ i with recv_buf := i.recv_buf.setFilled (i.recv_at + n) }, .Complete)
    else (i, .Failed)

def recvArmedWithin : Bool :=
  if i.recv_into_body && i.body_buf.isSome then decide (i.recv_at + i.recv_want ≤ i.body_len)
  else i.recv_buf.armedWithin i.recv_at i.recv_want

/-- The header and body of the framed message. The body is the placed one, the whole vector where
the message is nothing else, or the bytes behind the header, which the handler may lease. -/
def deliverPartsLeased (handoff_threshold : Option ℕ) (lease : Bool) : Bytes × Bytes × Inbox :=
  let placed := if i.recv_into_body then none else i.body_buf
  let i := if i.recv_into_body then i else { i with body_buf := none }
  let handoff :=
    if placed.isNone && i.header_len == 0 && decide (0 < i.body_len) &&
        i.recv_buf.filled == i.body_len && handoff_threshold.any (fun t => decide (t ≤ i.body_len))
    then i.recv_buf.takeOwned
    else none
  match handoff with
  | some (buf, recv_buf) => ([], buf, { i with recv_buf })
  | none =>
    let leased := lease && i.recv_buf.claim.isSome && decide (0 < i.frameLen)
    (i.recv_buf.bytes.take i.header_len,
      placed.getD ((i.recv_buf.bytes.drop i.header_len).take i.body_len),
      { i with recv_buf := { i.recv_buf with write_leased := leased } })

end Inbox

end TruenasRos.Net
