import TruenasRos.Http.Framer

/-! # The glue between framer and handler

One step per delivered message. The phase says what the message is, the handler
says what becomes of it, and the phase after it says where the next one starts.
What the clock and the drain flag read is the step's environment.
-/

namespace TruenasRos.Http.Protocol

structure HttpRequest where
  method : Bytes
  target : Bytes
  version : Version
  headers : List HeaderView
  body : Bytes
  raw_head : Bytes
  trailers : List HeaderView
  stage : Stage
  deriving DecidableEq

/-- A handler's verdict. A deferral retains the request, body and trailers with it unless
they were handed out. -/
inductive HttpVerdict
  | respond (resp : HttpResponse)
  | defer
  | deferStream
  | proceed

/-- What the codec has the server do. -/
inductive Response
  | reply (bytes : Bytes)
  | replyClose (bytes : Bytes)
  | replyVectored (segments : List Bytes) (close : Bool)
  | replyFile (head : Bytes) (file offset len : ℕ) (close : Bool)
  | defer
  | close
  deriving DecidableEq

/-- A body with its storage: only an owned one is decoded in place. -/
structure Body where
  bytes : Bytes
  owned : Bool
  deriving DecidableEq

/-- What a step reads from outside: the date, and the drain flag on entry and after the
handler has seen a stage. -/
structure Env where
  date : Bytes
  draining : Bool
  drained : Stage → Bool

def forceFinal : Response → Response
  | .reply b => .replyClose b
  | .replyVectored segments _ => .replyVectored segments true
  | .replyFile head file offset len _ => .replyFile head file offset len true
  | other => other

def respond (head : Head) (resp : HttpResponse) (date : Bytes) (draining abandons_body : Bool) :
    Response :=
  let (keep_alive, cl_te_conflict) := head.responseDisposition
  let keep := keep_alive && !resp.close && !cl_te_conflict && !draining && !abandons_body
  let conn := match keep, head.version with
    | true, .http11 => ConnHeader.none
    | true, .http10 => .keepAlive
    | false, _ => .close
  match serializeReply resp (head.method == ascii "HEAD") date conn with
  | .split head body => .replyVectored [head, body] !keep
  | .fileTail head file offset len => .replyFile head file offset len !keep
  | .headOnly bytes => if keep then .reply bytes else .replyClose bytes

def farewell (env : Env) (status : Status) (head_only : Bool) : Response :=
  let resp := (HttpResponse.new status).withBody (ascii s!"error {status}\n")
  .replyClose (serialize resp head_only env.date .close)

def interim (expect : Bool) : Response := .reply (if expect then CONTINUE_LINE else [])

inductive Dispatched
  | done (resp : Response)
  | proceed
  | park (req : ParkedRequest)

section

variable {U : Type*}

abbrev Handler (U : Type*) := HttpRequest → U → HttpVerdict × U

variable (hp : Httparse) (handler : Handler U) (env : Env)

def headOrFarewell (head_bytes : Bytes) (index : HeadIndex) : Except Response Head :=
  match headView hp index head_bytes with
  | .ok (some h) => .ok h
  | _ => .error (farewell env 500 (methodIsHead head_bytes))

def request (h : Head) (head_bytes body : Bytes) (trailers : List HeaderView) (stage : Stage) :
    HttpRequest :=
  ⟨h.method, h.target, h.version, h.headers, body, head_bytes, trailers, stage⟩

/-- What becomes of a delivery under the handler's verdict. -/
def dispatched (h : Head) (req : HttpRequest) : HttpVerdict → Dispatched
  | .respond resp =>
    .done (respond h resp env.date (env.drained req.stage)
      (req.stage == .opening || req.stage == .window))
  | .defer => .park ⟨req.raw_head, req.stage, req.body, req.trailers, none⟩
  | .deferStream => .park ⟨req.raw_head, req.stage, [], [], none⟩
  | .proceed =>
    if req.stage = .whole ∨ req.stage = .fin then .done .close else .proceed

variable (conn : HttpConn U)

def dispatch (head_bytes body : Bytes) (trailers : List HeaderView) (stage : Stage) :
    Dispatched × HttpConn U :=
  match headOrFarewell hp env head_bytes conn.index with
  | .error resp => (.done resp, conn)
  | .ok h =>
    let req := request h head_bytes body trailers stage
    let (verdict, state) := handler req conn.state
    (dispatched env h req verdict, { conn with state := state })

def respondParked (head_bytes : Bytes) (index : HeadIndex)
    (resp : HttpResponse) (abandons_body : Bool) : Response :=
  match headOrFarewell hp env head_bytes index with
  | .ok h => respond h resp env.date env.draining abandons_body
  | .error resp => resp

def settle (d : Dispatched) (resume : Option StreamPark) : Response × HttpConn U :=
  match d with
  | .done resp => (resp, conn)
  | .park req => (.defer, { conn with phase := .parked req resume })
  | .proceed => (.close, conn)

def deliverLast
    (head body : Bytes) (trailers : List HeaderView) (stage : Stage) : Response × HttpConn U :=
  let (d, conn) := dispatch hp handler env conn head body trailers stage
  settle conn d none

def advance (r : StreamPark) : Response × HttpConn U :=
  (interim r.expect_interim, { conn with phase := r.next.toPhase })

def deliverMid (head body : Bytes) (stage : Stage) (r : StreamPark) : Response × HttpConn U :=
  match dispatch hp handler env conn head body [] stage with
  | (.proceed, conn) => advance conn r
  | (.done resp, conn) => (forceFinal resp, conn)
  | (.park req, conn) => settle conn (.park req) (some r)

def dechunk (body : Body) : Option (Bytes × List HeaderView) :=
  if body.owned then do
    let (c, wire) ← compact body.bytes
    let trailers ← c.trailers
    return (slice wire (c.start, c.start + c.len), trailers)
  else decode body.bytes

def owed (header : Bytes) (chunk_left : ℕ) (after_payload : Bool) (delivered : ℕ) : ℕ :=
  if 0 < chunk_left then chunk_left
  else
    match Http.step header after_payload with
    | .chunk _ payload => payload
    | _ => delivered

def firstPhase (head : Bytes) : StreamedBody → ResumePhase
  | .chunked => .streamBody head 0 false 0
  | .known len => .streamKnown head len

/-- A window of a body of known length; the one that exhausts it carries the end with it. -/
def knownWindow (head : Bytes) (remaining : ℕ) (body : Bytes) : Response × HttpConn U :=
  let left := remaining - body.length
  match dispatch hp handler env conn head body [] .window with
  | (.proceed, conn) =>
    if left = 0 then deliverLast hp handler env conn head [] [] .fin
    else (.reply [], { conn with phase := .streamKnown head left })
  | (.done resp, conn) => (forceFinal resp, conn)
  | (.park req, conn) =>
    settle conn (.park req)
      (some ⟨if left = 0 then .streamDone head 0 else .streamKnown head left, false⟩)

/-- Trailers of a terminal block; a block that does not decode has none. -/
def blockTrailers (block : Bytes) : List HeaderView :=
  match compact block with
  | some (c, _) => c.trailers.getD []
  | none => []

/-- A park is over: the body goes on at `r`, or the request ends if the body is all there. -/
def resumeAt (head : Bytes) (r : StreamPark) : Response × HttpConn U :=
  if r.next.isDone then deliverLast hp handler env conn head [] [] .fin else advance conn r

def redeliver (req : ParkedRequest) (resume : Option StreamPark) : Response × HttpConn U :=
  match req.answer with
  | some .resume =>
    match resume with
    | some r => resumeAt hp handler env conn req.head r
    | none => (.close, conn)
  | some (.reply resp) =>
    let out := respondParked hp env req.head conn.index resp resume.isSome
    (if resume.isSome then forceFinal out else out, conn)
  | none =>
    match dispatch hp handler env conn req.head req.body req.trailers req.stage, resume with
    | (.proceed, conn), some r => resumeAt hp handler env conn req.head r
    | (d, conn), resume => settle conn d resume

def step (header : Bytes) (body : Body) (conn : HttpConn U) : Response × HttpConn U :=
  let base := { conn with phase := .head }
  match conn.phase with
  | .fail status head_only => (farewell env status head_only, base)
  | .expectHead head kind =>
    if env.draining then (farewell env 503 (methodIsHead head), base)
    else (.reply CONTINUE_LINE, { base with phase := .expectBody head kind })
  | .expectBody stash _ => deliverLast hp handler env base stash body.bytes [] .whole
  | .chunkedDone stash =>
    match dechunk body with
    | some (entity, trailers) =>
      deliverLast hp handler env base (stash.getD header) entity trailers .whole
    | none => (farewell env 500 (methodIsHead (stash.getD header)), base)
  | .chunkedBody stash _ _ => (farewell env 500 (methodIsHead (stash.getD header)), base)
  | .head => deliverLast hp handler env base header body.bytes [] .whole
  | .streamOpen head expect kind =>
    if env.draining then (farewell env 503 (methodIsHead head), base)
    else deliverMid hp handler env base head [] .opening ⟨firstPhase head kind, expect⟩
  | .streamBody head chunk_left after_payload decoded =>
    let delivered := body.bytes.length
    let left := owed header chunk_left after_payload delivered - delivered
    deliverMid hp handler env base head body.bytes .window
      ⟨.streamBody head left (left == 0) (Usize.saturatingAdd decoded delivered), false⟩
  | .streamKnown head remaining => knownWindow hp handler env base head remaining body.bytes
  | .streamDone head block_at =>
    deliverLast hp handler env base head [] (blockTrailers (header.drop block_at)) .fin
  | .parked req resume => redeliver hp handler env base req resume

end

end TruenasRos.Http.Protocol
