import TruenasRos.Api.Session
import TruenasRos.Lib.Finality

/-! # The server role

A JSON-RPC session on the accepting side, without its socket. It ends by a close of its own, by
answering the peer's, or by refusing a message that is not text; whichever comes first, it puts
nothing on the wire behind it.
-/

namespace TruenasRos.Api

open List TruenasRos.Ws Finality

inductive HandshakeError
  | NotUpgradeRequest
  | other (text : String)
  deriving DecidableEq

inductive ServerStep
  | Accept (response : Bytes)
  | Reject (e : HandshakeError)
  deriving DecidableEq

/-- What the JSON-RPC parser makes of a text. -/
inductive Inbound
  | Valid (id : Option Id) (method : String) (params : Option Bytes)
  | InvalidCall (id : Id) (error : ErrorObject)
  | Batch
  | Invalid (error : ErrorObject)
  deriving DecidableEq

/-- What the server takes from the libraries beside it. -/
structure ServerCodec where
  validate_upgrade_request : Bytes → Except HandshakeError String
  upgrade_response : String → Bytes
  parse : Bytes → Inbound
  is_json : Bytes → Bool
  parse_error : ErrorObject
  with_reason : ErrorObject → String → ErrorObject
  error_response : Id → ErrorObject → Bytes

/-- A codec for servers that are run by hand: every head is accepted and no text is a call. -/
def ServerCodec.plain : ServerCodec where
  validate_upgrade_request _ := .ok ""
  upgrade_response _ := []
  parse _ := .Batch
  is_json _ := false
  parse_error := ⟨-32700, "Parse error", none⟩
  with_reason e _ := e
  error_response _ _ := []

inductive ServerWire
  | text (body : Bytes)
  | close (body : Bytes)
  | pong (body : Bytes)
  deriving DecidableEq

inductive ServerAct
  | Send (frame : ServerWire)
  | Request (id : Id) (method : String) (params : Option Bytes)
  | Notification (method : String) (params : Option Bytes)
  | PeerClosing
  | Fault (what : String)
  deriving DecidableEq

inductive ServerPhase
  | AwaitingRequest
  | Open
  | Closing
  deriving DecidableEq

structure JsonRpcServer where
  phase : ServerPhase
  frag : Option Bytes
  max_inbound : ℕ
  close_reason : Option String
  deriving DecidableEq

namespace JsonRpcServer

def new (max_message_bytes : ℕ) : JsonRpcServer where
  phase := .AwaitingRequest
  frag := none
  max_inbound := max_message_bytes
  close_reason := none

variable (c : ServerCodec) (s : JsonRpcServer)

def onHead (head : Bytes) : JsonRpcServer × ServerStep :=
  if s.phase ≠ .AwaitingRequest then (s, .Reject .NotUpgradeRequest)
  else
    match c.validate_upgrade_request head with
    | .ok key => ({ s with phase := .Open }, .Accept (c.upgrade_response key))
    | .error e => (s, .Reject e)

def isAsciiWhitespace (b : UInt8) : Bool :=
  b = 0x20 ∨ b = 0x09 ∨ b = 0x0A ∨ b = 0x0C ∨ b = 0x0D

def firstByte (text : Bytes) : Option UInt8 := (text.dropWhile isAsciiWhitespace).head?

def notAnObject (text : Bytes) : ErrorObject :=
  if firstByte text = some 0x5B then
    c.with_reason c.parse_error "Batch messages are not supported at this time"
  else if c.is_json text then c.with_reason c.parse_error "Invalid Message Format"
  else c.parse_error

def errorFrame (id : Id) (error : ErrorObject) : ServerWire :=
  .text (c.error_response id error)

def onMessage (text : Bytes) : JsonRpcServer × List ServerAct :=
  if (fromUtf8 text).isNone then
    ({ s with phase := .Closing, frag := none },
      [.Send (.close (toBeBytes CLOSE_INVALID_PAYLOAD)), .Fault "text frame is not valid UTF-8"])
  else
    match c.parse text with
    | .Valid none method params => (s, [.Notification method params])
    | .Valid (some id) method params => (s, [.Request id method params])
    | .InvalidCall id error => (s, [.Send (errorFrame c id error)])
    | .Batch => (s, [.Send (errorFrame c .Null (notAnObject c text))])
    | .Invalid error =>
      if firstByte text = some 0x7B then (s, [.Send (errorFrame c .Null error)])
      else (s, [.Send (errorFrame c .Null (notAnObject c text))])

def onCloseFrame (payload : Bytes) : JsonRpcServer × List ServerAct :=
  if s.phase = .Closing then (s, [])
  else if payload.length = 1 then
    ({ s with phase := .Closing },
      [.Send (.close (toBeBytes CLOSE_PROTOCOL_ERROR)),
        .Fault "close body shorter than a status code"])
  else
    let reason := match payload with
      | hi :: lo :: _ => "client closed (" ++ toString (fromBeBytes hi lo) ++ ")"
      | _ => "client closed"
    ({ s with phase := .Closing, frag := none, close_reason := some reason },
      [.Send (.close (closeEcho payload)), .PeerClosing])

/-- One inbound frame; a reserved opcode is `none`. -/
def onFrame (fin : Bool) (opcode : Option Opcode)
    (payload : Bytes) : JsonRpcServer × List ServerAct :=
  if s.phase = .AwaitingRequest then (s, [.Fault "frame before the upgrade"])
  else
    match opcode with
    | some .Ping => (s, if s.phase = .Closing then [] else [.Send (.pong payload)])
    | some .Pong => (s, [])
    | some .Close => s.onCloseFrame payload
    | some .Binary => (s, [.Fault "binary frame"])
    | some .Text =>
      if s.phase = .Closing then (s, [])
      else if s.frag.isSome then (s, [.Fault "new data frame inside a fragmented message"])
      else if s.max_inbound < payload.length then (s, [.Fault "message exceeds the inbound cap"])
      else if !fin then ({ s with frag := some payload }, [])
      else s.onMessage c payload
    | some .Cont =>
      if s.phase = .Closing then (s, [])
      else
        match s.frag with
        | none => (s, [.Fault "continuation with no message open"])
        | some buf =>
          let s := { s with frag := none }
          if s.max_inbound < buf.length + payload.length then
            (s, [.Fault "fragmented message exceeds the inbound cap"])
          else if fin then s.onMessage c (buf ++ payload)
          else ({ s with frag := some (buf ++ payload) }, [])
    | none => (s, [.Fault "reserved opcode"])

/-- A close of the server's own; it returns its frame, or nothing when one is out already. -/
def close : JsonRpcServer × List ServerAct :=
  if s.phase = .Closing then (s, [])
  else
    ({ s with phase := .Closing, frag := none }, [.Send (.close (toBeBytes CLOSE_NORMAL))])

end JsonRpcServer

inductive ServerEvent
  | head (bytes : Bytes)
  | frame (fin : Bool) (opcode : Option Opcode) (payload : Bytes)
  | close
  deriving DecidableEq

/-- A server and what it has put out. -/
structure ServerRun where
  server : JsonRpcServer
  acts : List ServerAct
  deriving DecidableEq

namespace ServerRun

def apply (r : ServerRun) (out : JsonRpcServer × List ServerAct) : ServerRun :=
  ⟨out.1, r.acts ++ out.2⟩

def step (c : ServerCodec) (r : ServerRun) : ServerEvent → ServerRun
  | .head bytes => { r with server := (r.server.onHead c bytes).1 }
  | .frame fin opcode payload => r.apply (r.server.onFrame c fin opcode payload)
  | .close => r.apply r.server.close

def run (c : ServerCodec) (r : ServerRun) (es : List ServerEvent) : ServerRun :=
  es.foldl (step c) r

end ServerRun

namespace ServerAct

def closes : ServerAct → Bool
  | .Send (.close _) => true
  | _ => false

/-- What may still come out behind a close: no frame at all. -/
def silent : ServerAct → Bool
  | .Send _ => false
  | _ => true

end ServerAct

section Closing

variable {c : ServerCodec} {s : JsonRpcServer}

/-- What a function of the server may do: nothing but silent acts behind the first close, and
the phase says whether there was one. -/
structure Ends (s : JsonRpcServer) (out : JsonRpcServer × List ServerAct) : Prop where
  final : Final ServerAct.closes ServerAct.silent out.2
  silent : s.phase = .Closing → ∀ a ∈ out.2, a.silent = true
  stays : s.phase = .Closing → out.1.phase = .Closing
  closing : Closed ServerAct.closes out.2 → out.1.phase = .Closing

variable {s' : JsonRpcServer}

theorem ends_single {a : ServerAct} (hph : s'.phase = s.phase) (ha : a.closes = false)
    (hs : s.phase = .Closing → a.silent = true) :
    Ends s (s', [a]) where
  final := pairwise_singleton _ _
  silent hc b hb := mem_singleton.1 hb ▸ hs hc
  stays hc := hph.trans hc
  closing := by
    rintro ⟨b, hb, hc⟩
    rw [mem_singleton.1 hb, ha] at hc
    cases hc

theorem ends_nil (hph : s'.phase = s.phase) : Ends s (s', []) where
  final := List.Pairwise.nil
  silent _ _ ha := absurd ha not_mem_nil
  stays hc := hph.trans hc
  closing h := absurd h not_closed_nil

theorem ends_close {body : Bytes} {acts : List ServerAct} (ho : s.phase ≠ .Closing)
    (hph : s'.phase = .Closing) (hac : ∀ a ∈ acts, a.silent = true) :
    Ends s (s', .Send (.close body) :: acts) where
  final := by
    refine pairwise_cons.2 ⟨fun a ha _ => hac a ha, ?_⟩
    apply final_of_not_closed
    rintro ⟨a, ha, hc⟩
    have := hac a ha
    cases a <;> simp_all [ServerAct.closes, ServerAct.silent]
  silent hc := absurd hc ho
  stays _ := hph
  closing _ := hph

theorem ends_onMessage (text : Bytes) (ho : s.phase ≠ .Closing) : Ends s (s.onMessage c text) := by
  unfold JsonRpcServer.onMessage
  split
  · exact ends_close ho rfl (by simp [ServerAct.silent])
  · split <;> try split
    all_goals exact ends_single rfl rfl fun hc => absurd hc ho

theorem ends_onCloseFrame (pl : Bytes) : Ends s (s.onCloseFrame pl) := by
  unfold JsonRpcServer.onCloseFrame
  split_ifs with hc
  · exact ends_nil rfl
  · exact ends_close hc rfl (by simp [ServerAct.silent])
  · exact ends_close hc rfl (by simp [ServerAct.silent])

theorem ends_onFrame (fin : Bool) (oc : Option Opcode) (pl : Bytes) :
    Ends s (s.onFrame c fin oc pl) := by
  unfold JsonRpcServer.onFrame
  split
  · exact ends_single rfl rfl fun _ => rfl
  · split
    · split_ifs with hc
      · exact ends_nil rfl
      · exact ends_single rfl rfl fun h => absurd h hc
    · exact ends_nil rfl
    · exact ends_onCloseFrame pl
    · exact ends_single rfl rfl fun _ => rfl
    · split_ifs with hc
      · exact ends_nil rfl
      · exact ends_single rfl rfl fun _ => rfl
      · exact ends_single rfl rfl fun _ => rfl
      · exact ends_nil rfl
      · exact ends_onMessage pl hc
    · split
      · exact ends_nil rfl
      · rename_i hc
        split
        · exact ends_single rfl rfl fun _ => rfl
        · dsimp only
          split
          · exact ends_single rfl rfl fun _ => rfl
          · split
            · have h := fun text => ends_onMessage (c := c) (s := { s with frag := none }) text hc
              exact ⟨(h _).final, (h _).silent, (h _).stays, (h _).closing⟩
            · exact ends_nil rfl
    · exact ends_single rfl rfl fun _ => rfl

theorem ends_serverClose : Ends s s.close := by
  unfold JsonRpcServer.close
  split_ifs with hc
  · exact ends_nil rfl
  · exact ends_close hc rfl nofun

namespace ServerRun

/-- What holds of a server after every event. -/
structure Sound (r : ServerRun) : Prop where
  final : Final ServerAct.closes ServerAct.silent r.acts
  closing : Closed ServerAct.closes r.acts → r.server.phase = .Closing

variable {r : ServerRun}

theorem sound_apply (h : Sound r) {out : JsonRpcServer × List ServerAct} (ho : Ends r.server out) :
    Sound (r.apply out) where
  final := final_append h.final ho.final fun hc => ho.silent (h.closing hc)
  closing hc := (closed_append.1 hc).elim (fun hc => ho.stays (h.closing hc)) ho.closing

theorem sound_step (h : Sound r) (e : ServerEvent) : Sound (step c r e) := by
  cases e with
  | head bytes =>
    refine ⟨h.final, fun hc => ?_⟩
    have hph := h.closing hc
    simp [step, JsonRpcServer.onHead, hph]
  | frame fin opcode payload => exact sound_apply h (ends_onFrame fin opcode payload)
  | close => exact sound_apply h ends_serverClose

theorem sound_run (h : Sound r) (es : List ServerEvent) : Sound (run c r es) := by
  induction es generalizing r with
  | nil => exact h
  | cons e es ih => exact ih (sound_step h e)

end ServerRun

end Closing

end TruenasRos.Api
