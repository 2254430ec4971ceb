import TruenasRos.Http.Response

/-! # The framing state machine

A connection's phase and the step that maps the bytes buffered since the last
message onto a verdict. A message that cannot be served moves the connection to
`fail` and is delivered as it stands, so that a farewell can be sent.
-/

namespace TruenasRos.Http

def CHUNK_WIRE_OVERHEAD : ℕ := 16 * 1024

def STREAM_WINDOW : ℕ := 128 * 1024

structure HttpConfig where
  max_head : ℕ
  max_body : ℕ
  max_head_le : max_head ≤ Usize.MAX
  max_body_le : max_body ≤ Usize.MAX

namespace HttpConfig

instance : Inhabited HttpConfig where
  default :=
    { max_head := 16 * 1024
      max_body := 1024 * 1024 - 2 * 16 * 1024 - (TRAILER_LINE_MAX + 1)
      max_head_le := by decide
      max_body_le := by decide }

variable (cfg : HttpConfig)

def validate : Except Error Unit :=
  if cfg.max_head = 0 then .error (.validation "http max_head must be non-zero")
  else if cfg.max_body = 0 then .error (.validation "http max_body must be non-zero")
  else .ok ()

/-- The smallest cap of the reactor under which every message gets here. -/
def minRequestBytes : ℕ :=
  max
    (Usize.saturatingAdd
      (Usize.saturatingAdd (Usize.saturatingAdd cfg.max_head cfg.max_body) CHUNK_WIRE_OVERHEAD)
      (TRAILER_LINE_MAX + 1))
    (Usize.saturatingAdd (Usize.saturatingAdd cfg.max_head STREAM_WINDOW) (CHUNK_LINE_MAX + 4))

/-- The most wire bytes a buffered chunked body may take. -/
def wireCap : ℕ := Usize.saturatingAdd cfg.max_body CHUNK_WIRE_OVERHEAD

end HttpConfig

inductive Stage
  | whole
  | opening
  | window
  | fin
  deriving DecidableEq

inductive ParkAnswer
  | reply (resp : HttpResponse)
  | resume

/-- A retained request, with the cell its worker answers in. -/
structure ParkedRequest where
  head : Bytes
  stage : Stage
  body : Bytes
  trailers : List HeaderView
  answer : Option ParkAnswer

inductive StreamedBody
  | chunked
  | known (len : ℕ)
  deriving DecidableEq

/-- The phases a park taken mid-body can return to. -/
inductive ResumePhase
  | streamKnown (head : Bytes) (remaining : ℕ)
  | streamBody (head : Bytes) (chunk_left : ℕ) (after_payload : Bool) (decoded : ℕ)
  | streamDone (head : Bytes) (block_at : ℕ)
  deriving DecidableEq

/-- Only the end of the request is left. -/
def ResumePhase.isDone : ResumePhase → Bool
  | .streamDone _ _ => true
  | _ => false

structure StreamPark where
  next : ResumePhase
  expect_interim : Bool
  deriving DecidableEq

inductive Phase
  | head
  | expectHead (head : Bytes) (body : BodyKind)
  | expectBody (head : Bytes) (body : BodyKind)
  | chunkedBody (stash : Option Bytes) (head_len : ℕ) (scan : ChunkScan)
  | chunkedDone (stash : Option Bytes)
  | fail (status : Status) (head_only : Bool)
  | streamOpen (head : Bytes) (expect : Bool) (body : StreamedBody)
  | streamKnown (head : Bytes) (remaining : ℕ)
  | streamBody (head : Bytes) (chunk_left : ℕ) (after_payload : Bool) (decoded : ℕ)
  | streamDone (head : Bytes) (block_at : ℕ)
  | parked (req : ParkedRequest) (resume : Option StreamPark)

def ResumePhase.toPhase : ResumePhase → Phase
  | .streamKnown head remaining => .streamKnown head remaining
  | .streamBody head chunk_left after_payload decoded =>
    .streamBody head chunk_left after_payload decoded
  | .streamDone head block_at => .streamDone head block_at

/-- A connection of a consumer whose own state is a `U`. -/
structure HttpConn (U : Type*) where
  phase : Phase
  stream_cap : Option ℕ+
  index : HeadIndex
  state : U

namespace HttpConn

variable {U : Type*}

def new (state : U) : HttpConn U := ⟨.head, none, default, state⟩

def newStreaming (state : U) (max_body_bytes : ℕ+) : HttpConn U :=
  ⟨.head, some max_body_bytes, default, state⟩

end HttpConn

/-- The verdicts this codec gives. -/
inductive Framing
  | more
  | moreInMessage
  | complete (header_len body_len : ℕ)
  deriving DecidableEq

section

variable {U : Type*} (hp : Httparse) (cfg : HttpConfig) (buf : Bytes) (conn : HttpConn U)

def fail (buf_len : ℕ) (status : Status) (head_only : Bool) : Framing × HttpConn U :=
  (.complete buf_len 0, { conn with phase := .fail status head_only })

def knownStep : Framing × HttpConn U :=
  match conn.phase with
  | .streamKnown _ remaining =>
    if remaining = 0 then fail conn buf.length 500 false
    else if buf = [] then (.moreInMessage, conn)
    else (.complete 0 (min remaining STREAM_WINDOW), conn)
  | _ => fail conn buf.length 500 false

def streamStep : Framing × HttpConn U :=
  match conn.phase with
  | .streamBody head chunk_left after_payload decoded =>
    let head_only := methodIsHead head
    if 0 < chunk_left then (.complete 0 (min chunk_left STREAM_WINDOW), conn)
    else
      match step buf after_payload with
      | .more => (.moreInMessage, conn)
      | .bad status => fail conn buf.length status head_only
      | .chunk framing payload =>
        if conn.stream_cap.any fun (cap : ℕ+) =>
          (cap : ℕ) < Usize.saturatingAdd decoded payload then
          fail conn buf.length 413 head_only
        else (.complete framing (min payload STREAM_WINDOW), conn)
      | .last framing =>
        (.complete framing 0,
          { conn with phase := .streamDone head (if after_payload then 2 else 0) })
  | _ => fail conn buf.length 500 false

def scanStep : Framing × HttpConn U :=
  match conn.phase with
  | .chunkedBody stash head_len s =>
    let head_only := methodIsHead (stash.getD buf)
    match scan (buf.drop head_len) s with
    | (s, .error status) =>
      if cfg.max_body < s.decoded then fail conn buf.length 413 head_only
      else if cfg.wireCap < s.consumed then fail conn buf.length 400 head_only
      else fail conn buf.length status head_only
    | (s, .ok none) =>
      if cfg.max_body < s.decoded then fail conn buf.length 413 head_only
      else if cfg.wireCap < s.consumed then fail conn buf.length 400 head_only
      else (.moreInMessage, { conn with phase := .chunkedBody stash head_len s })
    | (s, .ok (some extent)) =>
      if cfg.max_body < s.decoded then fail conn buf.length 413 head_only
      else if cfg.wireCap < extent then fail conn buf.length 400 head_only
      else (.complete head_len extent, { conn with phase := .chunkedDone stash })
  | _ => fail conn buf.length 500 false

def factsStep (facts : FrameFacts) : Framing × HttpConn U :=
  let head_only := methodIsHead buf
  let alone (phase : Phase) : Framing × HttpConn U :=
    (.complete facts.len 0, { conn with phase := phase })
  if cfg.max_head < facts.len then fail conn buf.length 431 head_only
  else
    match facts.body with
    | .error status => fail conn buf.length status head_only
    | .ok (.known body_len) =>
      if conn.stream_cap.any fun (cap : ℕ+) => (cap : ℕ) < body_len then
        fail conn buf.length 413 head_only
      else if conn.stream_cap.isSome ∧ STREAM_WINDOW < body_len then
        alone (.streamOpen (buf.take facts.len) facts.expects_continue (.known body_len))
      else if cfg.max_body < body_len then fail conn buf.length 413 head_only
      else if facts.expects_continue ∧ 0 < body_len then
        alone (.expectHead (buf.take facts.len) (.known body_len))
      else (.complete facts.len body_len, conn)
    | .ok .chunked =>
      if conn.stream_cap.isSome then
        alone (.streamOpen (buf.take facts.len) facts.expects_continue .chunked)
      else if facts.expects_continue then
        alone (.expectHead (buf.take facts.len) .chunked)
      else
        scanStep cfg buf { conn with phase := .chunkedBody none facts.len default }

def noVerdict : Except Status (Option FrameFacts) → Bool
  | .ok none => true
  | _ => false

def headStep : Framing × HttpConn U :=
  let head_only := methodIsHead buf
  let found := frameFactsIndexed hp buf conn.index
  let conn := { conn with index := found.2 }
  match found.1 with
  | .error status =>
    -- a screen that fires only past the cap is not the verdict within it
    if cfg.max_head < buf.length ∧ noVerdict (frameFacts hp (buf.take cfg.max_head)) then
      fail conn buf.length 431 head_only
    else fail conn buf.length status head_only
  | .ok none =>
    if cfg.max_head < buf.length then fail conn buf.length 431 head_only else (.more, conn)
  | .ok (some facts) => factsStep cfg buf conn facts

def frame : Framing × HttpConn U :=
  match conn.phase with
  | .fail _ _ => (.complete buf.length 0, conn)
  | .parked _ _ => (.more, conn)
  | .chunkedDone _ => (.complete buf.length 0, conn)
  | .expectHead _ (.known n) => (.complete 0 n, conn)
  | .expectBody _ (.known n) => (.complete 0 n, conn)
  | .expectHead head .chunked =>
    scanStep cfg buf { conn with phase := .chunkedBody (some head) 0 default }
  | .expectBody head .chunked =>
    scanStep cfg buf { conn with phase := .chunkedBody (some head) 0 default }
  | .chunkedBody _ _ _ => scanStep cfg buf conn
  | .streamOpen _ _ _ => (.complete buf.length 0, conn)
  | .streamDone _ _ => (.complete buf.length 0, conn)
  | .streamBody _ _ _ _ => streamStep buf conn
  | .streamKnown _ _ => knownStep buf conn
  | .head => headStep hp cfg buf conn

end

end TruenasRos.Http
