import TruenasRos.Api.Session

/-! # Runs of a session

The driver hands a session what happens on its connection, performs the acts that come back, and
fails everything the session holds when it is over. Beside the session it is known by what was
put out and what was taken on so far.
-/

namespace TruenasRos.Api

open TruenasRos.Ws

/-- The text of a call's error: the server's reason where it sent one. -/
def callErrorText (c : Codec) (e : ErrorObject) : String :=
  let member := fun name => e.data.bind fun data => c.member data name
  let errname := match member "errname" with
    | some name => "[" ++ name ++ "] "
    | none => ""
  errname ++ (member "reason").getD e.message

def ApiError.text (c : Codec) : ApiError → String
  | .Call e => "call failed: " ++ callErrorText c e
  | .InvalidParams e => "invalid params: " ++ callErrorText c e
  | .TooManyConcurrentCalls message => "too many concurrent calls: " ++ message
  | .Rpc code message _ => "rpc error " ++ toString code ++ ": " ++ message
  | .Protocol what => "protocol violation: " ++ what
  | .TooLarge len cap =>
    "message of " ++ toString len ++ " bytes exceeds the " ++ toString cap ++
      "-byte outbound cap (middlewared closes the connection on oversize)"
  | .Timeout => "call timed out"
  | .Closed reason => "session closed: " ++ reason
  | .Decode => "decode"
  | .QueueFull queue cap => queue ++ " is at its bound of " ++ toString cap
  | .Build e => "building the call failed: " ++ e

namespace Act

def request : Act → Option Id
  | .Send (.text id _) => some id
  | _ => none

def told : Act → Option CallId
  | .CallDone call _ => some call
  | .Subscribed call _ => some call
  | .Unsubscribed call _ => some call
  | _ => none

def fatal (c : Codec) : Act → Option String
  | .Failed e => some e
  | .SetupFailed e => some (e.text c)
  | .Fault what => some ("protocol violation: " ++ what)
  | _ => none

end Act

def requests (acts : List Act) : List Id := acts.filterMap Act.request

def reported (acts : List Act) : List CallId := acts.filterMap Act.told

@[simp] theorem requests_nil : requests [] = [] := rfl

@[simp] theorem requests_append (as bs : List Act) :
    requests (as ++ bs) = requests as ++ requests bs :=
  List.filterMap_append

theorem requests_singleton {a : Act} (h : a.request = none) : requests [a] = [] := by
  simp [requests, h]

@[simp] theorem reported_nil : reported [] = [] := rfl

@[simp] theorem reported_append (as bs : List Act) :
    reported (as ++ bs) = reported as ++ reported bs :=
  List.filterMap_append

theorem reported_singleton {a : Act} (h : a.told = none) : reported [a] = [] := by
  simp [reported, h]

inductive Event
  | head (bytes : Bytes) (next : CallId)
  | submit (call : CallId) (kind : Kind) (method : String) (params : Bytes)
      (deadline : Option Instant)
  | frame (fin : Bool) (opcode : Opcode) (payload : Bytes)
  | expire (now : Instant) (jitter : ℕ)
  | startClose
  | closed (reason : String)
  deriving DecidableEq

structure Driver where
  sess : Session
  acts : List Act
  /-- The requests that the session took on, its own setup call among them. -/
  submitted : List Id
  /-- The calls whose submission was accepted. -/
  accepted : List CallId
  /-- Whether everything the session held was failed, and it was dropped. -/
  failed : Bool

namespace Driver

def new (s : Session) : Driver where
  sess := s
  acts := []
  submitted := []
  accepted := []
  failed := false

def failAll (r : Driver) (why : String) : Driver :=
  { r with
    sess := (r.sess.failAll why).1
    acts := r.acts ++ (r.sess.failAll why).2
    failed := true }

section

variable (c : Codec) (r : Driver)

def apply (out : Session × List Act) : Driver :=
  let r := { r with sess := out.1, acts := r.acts ++ out.2 }
  match out.2.findSome? (Act.fatal c) with
  | none => r
  | some why => r.failAll why

def submit (call : CallId) (kind : Kind) (method : String)
    (params : Bytes) (deadline : Option Instant) : Driver :=
  match r.sess.submit c call kind method params deadline with
  | (s, .error _) => { r with sess := s }
  | (s, .ok acts) =>
    { r with
      sess := s
      acts := r.acts ++ acts
      submitted := r.submitted ++ [c.mint r.sess.caller]
      accepted := r.accepted ++ [call] }

def handle : Event → Driver
  | .head bytes next =>
    if r.sess.phase = .AwaitingHead then
      let out := r.sess.onHead c bytes next
      -- A session that waits for its head holds no call, so what it holds now is new.
      { r with submitted := r.submitted ++ out.1.pending.keys }.apply c out
    else r
  | .submit call kind method params deadline =>
    if r.sess.phase = .Open ∧ kind ≠ .SetOptions then r.submit c call kind method params deadline
    else r
  | .frame fin opcode payload =>
    if r.sess.phase = .AwaitingHead then r else r.apply c (r.sess.onFrame c fin opcode payload)
  | .expire now jitter => r.apply c (r.sess.expire c now jitter)
  | .startClose => r.apply c r.sess.startClose
  | .closed reason => r.failAll (r.sess.close_reason.getD reason)

def step (e : Event) : Driver := if r.failed then r else r.handle c e

def run (es : List Event) : Driver := es.foldl (step c) r

def start (key : String) (legacy_jobs : Bool)
    (max_outbound max_inbound max_queued max_queued_bytes : ℕ) : Driver :=
  .new (.new key legacy_jobs max_outbound max_inbound max_queued max_queued_bytes)

theorem run_append (es es' : List Event) : run c r (es ++ es') = run c (run c r es) es' :=
  List.foldl_append

theorem run_concat (es : List Event) (e : Event) : run c r (es ++ [e]) = step c (run c r es) e :=
  run_append c r es [e]

end

variable {c : Codec} {r : Driver}

/-- What holds at first and is kept by every step holds throughout. -/
theorem run_induction {P : Driver → Prop} (hr : P r) (hs : ∀ r e, P r → P (step c r e))
    (es : List Event) : P (run c r es) := by
  induction es generalizing r with
  | nil => exact hr
  | cons e es ih => exact ih (hs r e hr)

theorem step_of_failed (h : r.failed = true) (e : Event) : step c r e = r :=
  if_pos h

theorem step_of_live (h : r.failed = false) (e : Event) : step c r e = r.handle c e := by
  rw [step, h]
  rfl

end Driver

namespace Session

def completes (s : Session) (fin : Bool) (opcode : Opcode) (payload : Bytes) : Option Bytes :=
  match opcode, s.frag with
  | .Text, none => if fin ∧ payload.length ≤ s.max_inbound then some payload else none
  | .Cont, some buf =>
    if fin ∧ buf.length + payload.length ≤ s.max_inbound then some (buf ++ payload) else none
  | _, _ => none

def answer (c : Codec) (s : Session) : Event → Option (Id × Outcome)
  | .frame fin opcode payload =>
    (s.completes fin opcode payload).bind fun text =>
      match c.probe text, c.parse_answer text with
      | some false, .Single id outcome => some (id, outcome)
      | _, _ => none
  | _ => none

end Session

/-- A codec for sessions that are run by hand: a request is its number, and an answer is the
number after a byte that says whether the call was refused. -/
def Codec.plain : Codec where
  validate_101 _ _ := .ok ()
  request n _ _ := .ok [UInt8.ofNat n]
  mint := .num
  mint_injective _ _ h := Id.num.inj h
  mint_ne_null _ := by simp
  probe _ := some false
  parse _ := .Malformed
  parse_answer
    | [0, n] => .Single (.num n.toNat) (.Result [])
    | [1, n] => .Single (.num n.toNat) (.Failure ⟨TOO_MANY_CONCURRENT_CALLS, "", none⟩)
    | _ => .Invalid
  legacy_jobs_in_force _ := some false
  ident _ := none
  collection_update _ := none
  notify_unsubscribed _ := none
  value _ := none
  member _ _ := none
  last := 2 ^ 63

end TruenasRos.Api
