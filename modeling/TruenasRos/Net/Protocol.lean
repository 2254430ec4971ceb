import TruenasRos.Error
import TruenasRos.Lib.Usize

/-! # Framing verdicts and what the pump makes of them

A framer looks at the bytes that wait and says what they are. From its verdict and the number of
bytes that wait follows the next step of the connection: close, read on, deliver or splice.
-/

namespace TruenasRos.Net

/-- The result of a ring operation: a count, or the error it failed with. -/
abbrev Res := Except Errno ℕ

def EINTR : Errno := .other 4
def EIO : Errno := .other 5
def EAGAIN : Errno := .other 11
def EOPNOTSUPP : Errno := .other 95
def ENOBUFS : Errno := .other 105
def ECANCELED : Errno := .other 125
def ERESTARTSYS : Errno := .other 512

inductive CloseReason
  | PeerClosed
  | TruncatedMessage
  | Malformed
  | TooLarge
  | HandlerClosed
  | WorkerClosed
  | PushClosed
  | IdleTimeout
  | RequestTimeout
  | ReceiptTimeout
  | SendTimeout
  | ShuttingDown
  | SendBacklog
  | RecvError (e : Errno)
  | SendError (e : Errno)
  | FileBody (e : Errno)
  | FileBodyTruncated
  | TlsControl
  | SpliceBadFd
  | SpliceFdInUse
  | SpliceUnbounded
  deriving DecidableEq

/-- A framer's verdict on the bytes of a message so far. -/
inductive Framing
  | Need (n : ℕ)
  | NeedInMessage (n : ℕ)
  | More
  | MoreInMessage
  | Complete (header_len body_len : ℕ)
  | SpliceBody (header_len body_len : ℕ)
  | Invalid
  deriving DecidableEq

def RECV_CHUNK : ℕ := 4096

/-- What the reactor reads of the server's configuration. A time limit is known by whether it is
set, the receive pool by the length of its buffers. -/
structure CoreConfig where
  max_request_bytes : ℕ
  body_placement_threshold : Option ℕ
  max_in_flight_requests : ℕ
  max_send_backlog : ℕ
  max_send_coalesce : ℕ
  idle_timeout : Bool
  request_timeout : Bool
  send_timeout : Bool
  max_receipt_time : Bool
  receipt_window_bytes : ℕ
  recv_pool : Option ℕ
  recv_shortage_retry : Bool
  fs_pool : Bool
  fs_body_chunk : ℕ
  in_flight_pos : 0 < max_in_flight_requests
  coalesce_pos : 0 < max_send_coalesce
  body_chunk_pos : 0 < fs_body_chunk
  pool_holds_chunk : ∀ len ∈ recv_pool, RECV_CHUNK ≤ len

/-- The next step of a connection whose framer has spoken. -/
inductive FrameStep
  | Close (reason : CloseReason)
  | ReadHeader (want : ℕ) (exact in_message : Bool)
  | ReadBody (want header_len body_len : ℕ) (place : Bool)
  | Deliver (header_len body_len : ℕ)
  | SpliceBody (header_len body_len : ℕ)
  deriving DecidableEq

def needStep (n buffered max_request_bytes : ℕ) (in_message : Bool) : FrameStep :=
  if n = 0 then .Close .Malformed
  else
    match Usize.checkedAdd buffered n with
    | some total =>
      if total ≤ max_request_bytes then .ReadHeader n true in_message else .Close .TooLarge
    | none => .Close .TooLarge

def frameStep (verdict : Framing) (buffered max_request_bytes : ℕ)
    (body_placement_threshold : Option ℕ) : FrameStep :=
  match verdict with
  | .Invalid => .Close .Malformed
  | .Need n => needStep n buffered max_request_bytes false
  | .NeedInMessage n => needStep n buffered max_request_bytes true
  | .More => .ReadHeader RECV_CHUNK false false
  | .MoreInMessage => .ReadHeader RECV_CHUNK false true
  | .Complete header_len body_len =>
    match Usize.checkedAdd header_len body_len with
    | none => .Close .TooLarge
    | some total =>
      if total = 0 then .Close .Malformed
      else if max_request_bytes < total then .Close .TooLarge
      else if total ≤ buffered then .Deliver header_len body_len
      else
        let place := decide (header_len ≤ buffered) &&
          body_placement_threshold.any fun t => decide (t ≤ body_len)
        .ReadBody (total - buffered) header_len body_len place
  | .SpliceBody header_len body_len =>
    if header_len = 0 ∨ body_len = 0 then .Close .Malformed
    else if max_request_bytes < header_len then .Close .TooLarge
    else if (Usize.checkedAdd header_len body_len).isNone then .Close .TooLarge
    else if buffered ≠ header_len then .Close .Malformed
    else .SpliceBody header_len body_len

/-- Whether the verdict says that the peer is in the middle of a message. -/
def Framing.inMessage : Framing → Bool
  | .NeedInMessage _ => true
  | .MoreInMessage => true
  | _ => false

end TruenasRos.Net
