import TruenasRos.Lib.Ordered
import TruenasRos.Ws.Close

/-! # The API client's session

One connection to the middleware, without its socket: frames go in and acts come out. A session
correlates answers with the calls it accepted, holds the calls beyond its concurrency budget in
a backlog, and pauses its sends after the server refused one for load.
-/

namespace TruenasRos.Api

open TruenasRos.Ws

abbrev CallId := ℕ
abbrev SubscriptionId := ℕ

/-- A point of the monotonic clock, in nanoseconds. -/
abbrev Instant := ℕ

def CALL_BUDGET : ℕ := 8
def MAX_CALL_RETRIES : ℕ := 4

def BACKOFF_BASE : ℕ := 100000000
def BACKOFF_CAP : ℕ := 5000000000

def TOO_MANY_CONCURRENT_CALLS : ℤ := -32000
def CALL_ERROR : ℤ := -32001
def INVALID_PARAMS : ℤ := -32602

def MIDDLEWARE_MSG_CAP : ℕ := 65536
def MIDDLEWARE_MSG_CAP_EXTENDED : ℕ := 2097152
def MSG_SIZE_EXTENDED_METHODS : List String :=
  ["filesystem.file_receive", "failover.datastore.sql"]

def outboundCap (ordinary : ℕ) (method : String) : ℕ :=
  if MIDDLEWARE_MSG_CAP ≤ ordinary ∧ method ∈ MSG_SIZE_EXTENDED_METHODS then
    MIDDLEWARE_MSG_CAP_EXTENDED
  else ordinary

inductive Id
  | Null
  | num (n : ℕ)
  | str (s : String)
  deriving DecidableEq

structure ErrorObject where
  code : ℤ
  message : String
  data : Option Bytes
  deriving DecidableEq

inductive ApiError
  | Call (e : ErrorObject)
  | InvalidParams (e : ErrorObject)
  | TooManyConcurrentCalls (message : String)
  | Rpc (code : ℤ) (message : String) (data : Option Bytes)
  | Protocol (what : String)
  | TooLarge (len cap : ℕ)
  | Timeout
  | Closed (reason : String)
  | Decode
  | QueueFull (queue : String) (cap : ℕ)
  | Build (e : String)
  deriving DecidableEq

def fromRpcError (e : ErrorObject) : ApiError :=
  if e.code = CALL_ERROR then .Call e
  else if e.code = INVALID_PARAMS then .InvalidParams e
  else if e.code = TOO_MANY_CONCURRENT_CALLS then .TooManyConcurrentCalls e.message
  else .Rpc e.code e.message e.data

inductive Outcome
  | Result (raw : Bytes)
  | Failure (e : ErrorObject)
  deriving DecidableEq

def Outcome.toExcept : Outcome → Except ApiError Bytes
  | .Result raw => .ok raw
  | .Failure e => .error (fromRpcError e)

/-- Whether the server refused the call at its concurrency limit. -/
def Outcome.refused : Outcome → Bool
  | .Result _ => false
  | .Failure e => e.code = TOO_MANY_CONCURRENT_CALLS

inductive Answer
  | Single (id : Id) (outcome : Outcome)
  | Batch
  | Invalid
  deriving DecidableEq

/-- A message that names a method, as the session reads it. -/
inductive Incoming
  | Notification (method : String) (params : Option Bytes)
  | Request
  | Malformed
  deriving DecidableEq

structure CollectionUpdate where
  msg : String
  collection : String
  id : Option Bytes
  fields : Option Bytes
  extra : Option Bytes
  deriving DecidableEq

/-- What the session takes from the libraries beside it: the handshake check, the encoder of
requests, and the decoders of the messages that come in. -/
structure Codec where
  validate_101 : Bytes → String → Except String Unit
  request : ℕ → String → Bytes → Except String Bytes
  /-- The id of the request that is built in its turn. -/
  mint : ℕ → Id
  mint_injective : Function.Injective mint
  mint_ne_null (n : ℕ) : mint n ≠ .Null
  /-- Whether a text is a JSON object, and then whether it names a method. -/
  probe : Bytes → Option Bool
  parse : Bytes → Incoming
  parse_answer : Bytes → Answer
  legacy_jobs_in_force : Bytes → Option Bool
  ident : Bytes → Option String
  collection_update : Bytes → Option CollectionUpdate
  notify_unsubscribed : Bytes → Option (String × Option Bytes)
  value : Bytes → Option Bytes
  /-- A text member of an error's data. -/
  member : Bytes → String → Option String
  /-- The last instant that the clock's type holds. -/
  last : Instant

inductive Kind
  | SetOptions
  | User
  | Subscribe (collection : String) (sub : SubscriptionId)
  | Unsubscribe (sub : SubscriptionId)
  deriving DecidableEq

structure Pending where
  sent : Bool
  call : CallId
  kind : Kind
  deadline : Option Instant
  abandoned : Bool
  retry_frame : Option Bytes
  retries : ℕ
  deriving DecidableEq

/-- Whether the call's caller is still to be told how it ended. -/
def Pending.live (p : Pending) : Bool := !p.abandoned && p.kind ≠ .SetOptions

inductive Phase
  | AwaitingHead
  | Setup
  | Open
  | Closing
  deriving DecidableEq

/-- A frame before it is masked; a request is known by its id. -/
inductive Wire
  | text (id : Id) (frame : Bytes)
  | close (body : Bytes)
  | pong (body : Bytes)
  deriving DecidableEq

inductive Act
  | Send (frame : Wire)
  | Ready
  | Failed (e : String)
  | SetupFailed (e : ApiError)
  | CallDone (call : CallId) (result : Except ApiError Bytes)
  | Subscribed (call : CallId) (sub : SubscriptionId)
  | Unsubscribed (call : CallId) (sub : SubscriptionId)
  | Update (update : CollectionUpdate)
  | SubscriptionEnded (collection : String) (error : Option Bytes)
  | Notification (method : String) (params : Option Bytes)
  | PeerClosing
  | Fault (what : String)
  | ServerError (e : ApiError)

structure SubEntry where
  collection : String
  ident : Option String
  deriving DecidableEq

/-- Requests that wait for budget, with the frames they go out in. -/
abbrev Backlog := List (Id × Bytes)

structure Session where
  phase : Phase
  key : String
  /-- The number of the next request. -/
  caller : ℕ
  pending : Ordered Id Pending
  frag : Option Bytes
  subs : Ordered SubscriptionId SubEntry
  budget : ℕ
  backlog : Backlog
  max_inbound : ℕ
  max_outbound : ℕ
  max_queued : ℕ
  max_queued_bytes : ℕ
  queued_bytes : ℕ
  legacy_jobs : Bool
  close_reason : Option String
  backoff_armed : Bool
  backoff_until : Option Instant
  backoff_step : ℕ

namespace Session

def new (key : String) (legacy_jobs : Bool)
    (max_outbound max_inbound max_queued max_queued_bytes : ℕ) : Session where
  phase := .AwaitingHead
  key := key
  caller := 0
  pending := .empty
  frag := none
  subs := .empty
  budget := CALL_BUDGET
  backlog := []
  max_inbound := max_inbound
  max_outbound := max_outbound
  max_queued := max_queued
  max_queued_bytes := max_queued_bytes
  queued_bytes := 0
  legacy_jobs := legacy_jobs
  close_reason := none
  backoff_armed := false
  backoff_until := none
  backoff_step := 0

variable (s : Session)

def backingOff : Bool := s.backoff_armed || s.backoff_until.isSome

def sending : Bool := 0 < s.budget && !s.backingOff

def entry (call : CallId) (kind : Kind) (deadline : Option Instant) (frame : Bytes) : Pending where
  sent := s.sending
  call := call
  kind := kind
  deadline := deadline
  abandoned := false
  retry_frame := if kind = .User ∧ frame.length ≤ s.max_outbound then some frame else none
  retries := 0

variable (c : Codec)

def submit (s : Session) (call : CallId) (kind : Kind) (method : String)
    (params : Bytes) (deadline : Option Instant) : Session × Except ApiError (List Act) :=
  match c.request s.caller method params with
  | .error e => (s, .error (.Build e))
  | .ok frame =>
    let id := c.mint s.caller
    -- The number is spent even when the call is then refused.
    let s := { s with caller := s.caller + 1 }
    let cap := outboundCap s.max_outbound method
    if cap < frame.length then (s, .error (.TooLarge frame.length cap))
    else if !s.sending && s.max_queued ≤ s.backlog.length then
      (s, .error (.QueueFull "this session's call backlog, in calls" s.max_queued))
    else if !s.sending && s.max_queued_bytes < s.queued_bytes + frame.length then
      (s, .error (.QueueFull "this session's call backlog, in bytes" s.max_queued_bytes))
    else
      let pending := s.pending.insert id (s.entry call kind deadline frame)
      if s.sending then
        ({ s with pending := pending, budget := s.budget - 1 }, .ok [.Send (.text id frame)])
      else
        ({ s with
            pending := pending
            queued_bytes := s.queued_bytes + frame.length
            backlog := s.backlog ++ [(id, frame)] },
          .ok [])

def setupParams : Bytes := "[\x7b\"legacy_jobs\":false\x7d]".toUTF8.toList

def onHead (s : Session) (head : Bytes) (next : CallId) : Session × List Act :=
  match c.validate_101 head s.key with
  | .error e => (s, [.Failed e])
  | .ok () =>
    if s.legacy_jobs then ({ s with phase := .Open }, [.Ready])
    else
      match submit c { s with phase := .Setup } next .SetOptions "core.set_options" setupParams
        none with
      | (s, .ok acts) => (s, acts)
      | (s, .error e) => (s, [.SetupFailed e])

def closeReason : Bytes → String
  | [] => "peer closed"
  | [_] => "peer closed (malformed close body)"
  | hi :: lo :: reason =>
    let code := toString (fromBeBytes hi lo)
    match fromUtf8 reason with
    | some "" => "peer closed (" ++ code ++ ")"
    | some text => "peer closed (" ++ code ++ ": " ++ text ++ ")"
    | none => "peer closed (" ++ code ++ ": invalid UTF-8 reason)"

def onCloseFrame (payload : Bytes) : Session × List Act :=
  if s.phase = .Closing then (s, [])
  else
    ({ s with phase := .Closing, close_reason := some (closeReason payload), frag := none },
      [.Send (.close (closeEcho payload)), .PeerClosing])

def startClose : Session × List Act :=
  if s.phase = .Closing then (s, [])
  else ({ s with phase := .Closing }, [.Send (.close (toBeBytes CLOSE_NORMAL))])

/-- Send what the budget admits from the front of `backlog`, which the session still holds. -/
def drain (s : Session) : Backlog → Session × List Act
  | [] => ({ s with backlog := [] }, [])
  | (id, frame) :: rest =>
    if s.budget = 0 then ({ s with backlog := (id, frame) :: rest }, [])
    else
      let s := { s with queued_bytes := s.queued_bytes - frame.length }
      match s.pending.get id with
      | none => drain s rest
      | some p =>
        if p.abandoned then drain { s with pending := s.pending.remove id } rest
        else
          let (s, acts) := drain
            { s with
              budget := s.budget - 1
              pending := s.pending.insert id { p with sent := true } } rest
          (s, .Send (.text id frame) :: acts)

def drainBacklog : Session × List Act :=
  if s.phase = .Closing then (s, [])
  else if s.backingOff then (s, [])
  else drain s s.backlog

def onNotification (s : Session) (text : Bytes) : Session × List Act :=
  match c.parse text with
  | .Malformed => (s, [.Fault "malformed notification"])
  | .Request => (s, [.Fault "server sent a request"])
  | .Notification method params =>
    if method = "collection_update" then
      match params with
      | none => (s, [.Fault "collection_update without params"])
      | some raw =>
        match c.collection_update raw with
        | some update => (s, [.Update update])
        | none => (s, [.Notification "collection_update" (c.value raw)])
    else if method = "notify_unsubscribed" then
      match params.bind c.notify_unsubscribed with
      | some (collection, error) =>
        ({ s with subs := s.subs.retain fun e => e.collection ≠ collection },
          [.SubscriptionEnded collection error])
      | none => (s, [.Notification "notify_unsubscribed" none])
    else (s, [.Notification method (params.bind c.value)])

/-- Tell every caller that its call is over and keep serving: what was sent keeps its entry. -/
def failOutstanding (why : String) : Session × List Act :=
  ({ s with
      pending := (s.pending.retain (·.sent)).mapValues fun p =>
        if p.live then { p with abandoned := true } else p
      backlog := []
      queued_bytes := 0 },
    s.pending.entries.filterMap fun e =>
      if e.2.live then some (.CallDone e.2.call (.error (.Protocol why))) else none)

def failAll (why : String) : Session × List Act :=
  ({ s with frag := none, pending := .empty, backlog := [], queued_bytes := 0 },
    s.pending.entries.filterMap fun e =>
      if e.2.live then some (.CallDone e.2.call (.error (.Closed why))) else none)

def report (c : Codec) (s : Session) (p : Pending) (outcome : Outcome) : Session × List Act :=
  match p.kind, outcome.toExcept with
  | .SetOptions, .ok raw =>
    match c.legacy_jobs_in_force raw with
    | some false => ({ s with phase := .Open }, [.Ready])
    | some true =>
      (s, [.SetupFailed (.Protocol ("core.set_options answered legacy_jobs: true " ++
        "after this session asked for modern job answering"))])
    | none =>
      (s, [.SetupFailed (.Protocol ("core.set_options did not report legacy_jobs, so " ++
        "this API version cannot honour it and the " ++
        "session would decode job ids as results"))])
  | .SetOptions, .error e => (s, [.SetupFailed e])
  | .User, result => (s, [.CallDone p.call result])
  | .Subscribe collection sub, .ok raw =>
    match c.ident raw with
    | some ident =>
      ({ s with subs := s.subs.insert sub ⟨collection, some ident⟩ }, [.Subscribed p.call sub])
    | none => (s, [.CallDone p.call (.error .Decode)])
  | .Subscribe _ _, .error e => (s, [.CallDone p.call (.error e)])
  | .Unsubscribe sub, .ok _ =>
    ({ s with subs := s.subs.remove sub }, [.Unsubscribed p.call sub])
  | .Unsubscribe _, .error e => (s, [.CallDone p.call (.error e)])

def reissue (id : Id) (p : Pending) (frame : Bytes) : Session :=
  { s with
    queued_bytes := s.queued_bytes + frame.length
    backlog := (id, frame) :: s.backlog
    pending := s.pending.insert id { p with sent := false, retries := p.retries + 1 } }

def retryFrame (p : Pending) : Option Bytes :=
  if !p.abandoned && p.retries < MAX_CALL_RETRIES then p.retry_frame else none

def credit (id : Id) (refused : Bool) : Session :=
  { s with
    pending := s.pending.remove id
    budget := s.budget + 1
    backoff_armed := refused || s.backoff_armed
    -- The step is a saturating `u32`.
    backoff_step := if refused then min (s.backoff_step + 1) (2 ^ 32 - 1) else 0 }

section

variable (s : Session)

/-- The answered call's slot goes to the backlog, and its caller is told unless it gave up. -/
def settle (p : Pending) (outcome : Outcome) : Session × List Act :=
  let (s, sends) := s.drainBacklog
  if p.abandoned then (s, sends)
  else
    let (s, told) := s.report c p outcome
    (s, sends ++ told)

def onReply (id : Id) (outcome : Outcome) : Session × List Act :=
  match s.pending.get id with
  | none => (s, [.Fault "response to no outstanding call"])
  | some p =>
    if !p.sent then
      ({ s with pending := s.pending.remove id }, [.Fault "answer for a call never sent"])
    else
      let s := s.credit id outcome.refused
      match outcome.refused, retryFrame p with
      | true, some frame => (s.reissue id p frame, [])
      | _, _ => s.settle c p outcome

def UNATTRIBUTED : String :=
  "the server reported an error it could not attribute to a request; " ++
    "every call in flight was failed with it"

def onAnswer (text : Bytes) : Session × List Act :=
  match c.parse_answer text with
  | .Batch => (s, [.Fault "batch answer"])
  | .Invalid => (s, [.Fault "unparseable response"])
  | .Single .Null outcome =>
    let error := match outcome with
      | .Failure e => fromRpcError e
      | .Result _ => .Protocol "a result Response with a null id names no call"
    let (s, acts) := s.failOutstanding UNATTRIBUTED
    (s, .ServerError error :: acts)
  | .Single id outcome => s.onReply c id outcome

def onMessage (text : Bytes) : Session × List Act :=
  match c.probe text with
  | none => (s, [.Fault "text frame is not a JSON object"])
  | some true => s.onNotification c text
  | some false => s.onAnswer c text

def onFrame (fin : Bool) (opcode : Opcode) (payload : Bytes) : Session × List Act :=
  match opcode with
  | .Ping => (s, [.Send (.pong payload)])
  | .Pong => (s, [])
  | .Close => s.onCloseFrame payload
  | .Binary => (s, [.Fault "binary frame"])
  | .Text =>
    if s.frag.isSome then (s, [.Fault "new data frame inside a fragmented message"])
    else if !fin then
      if s.max_inbound < payload.length then
        (s, [.Fault "fragmented message exceeds the inbound cap"])
      else ({ s with frag := some payload }, [])
    else if s.max_inbound < payload.length then (s, [.Fault "message exceeds the inbound cap"])
    else s.onMessage c payload
  | .Cont =>
    match s.frag with
    | none => (s, [.Fault "continuation with no message open"])
    | some buf =>
      let s := { s with frag := none }
      if s.max_inbound < buf.length + payload.length then
        (s, [.Fault "fragmented message exceeds the inbound cap"])
      else if fin then s.onMessage c (buf ++ payload)
      else ({ s with frag := some (buf ++ payload) }, [])

end

def expired (now : Instant) (p : Pending) : Bool :=
  !p.abandoned && p.deadline.any (· ≤ now)

/-- Whose caller is told that the call timed out: the setup call has none. -/
def dueAt (now : Instant) (p : Pending) : Bool := expired now p && p.kind ≠ .SetOptions

def timeOut (now : Instant) : Session × List Act :=
  ({ s with
      pending := s.pending.mapValues fun p =>
        if expired now p then { p with abandoned := true } else p },
    s.pending.entries.filterMap fun e =>
      if dueAt now e.2 then some (.CallDone e.2.call (.error .Timeout)) else none)

/-- How long the pause is: half the window, and `jitter` of the other half. -/
def backoffDelay (step jitter : ℕ) : ℕ :=
  let full := min (BACKOFF_BASE * 2 ^ min (step - 1) 16) BACKOFF_CAP
  full / 2 + min jitter (full / 2)

/-- The pause's clock: an armed pause is given its end, and one that has ended is retired. -/
def tick (s : Session) (now : Instant) (jitter : ℕ) : Session :=
  if s.backoff_armed then
    let ends := now + backoffDelay s.backoff_step jitter
    { s with
      backoff_until := if ends ≤ c.last then some ends else none
      backoff_armed := false }
  else if s.backoff_until.any (· ≤ now) then { s with backoff_until := none }
  else s

def expire (s : Session) (now : Instant) (jitter : ℕ) : Session × List Act :=
  let (s, told) := s.timeOut now
  let (s, sends) := (s.tick c now jitter).drainBacklog
  (s, told ++ sends)

end Session

end TruenasRos.Api
