import TruenasRos.Error

/-! # WebSocket frames and the close handshake

What the sessions of both roles share: the opcodes of a frame, and the status code with which a
peer's close frame is answered.
-/

namespace TruenasRos.Ws

inductive Opcode
  | Cont
  | Text
  | Binary
  | Close
  | Ping
  | Pong
  deriving DecidableEq

def CLOSE_NORMAL : ℕ := 1000
def CLOSE_PROTOCOL_ERROR : ℕ := 1002
def CLOSE_INVALID_PAYLOAD : ℕ := 1007

/-- Whether an endpoint may put the status code on the wire. -/
def isSendableCloseCode (code : ℕ) : Bool :=
  (1000 ≤ code ∧ code ≤ 1003) ∨ (1007 ≤ code ∧ code ≤ 1014) ∨ (3000 ≤ code ∧ code ≤ 4999)

def fromUtf8 (bytes : Bytes) : Option String := String.fromUTF8? ⟨bytes.toArray⟩

def toBeBytes (code : ℕ) : Bytes := [UInt8.ofNat (code / 256), UInt8.ofNat code]

def fromBeBytes (hi lo : UInt8) : ℕ := 256 * hi.toNat + lo.toNat

def closeEchoCode : Bytes → Option ℕ
  | [] => none
  | [_] => some CLOSE_PROTOCOL_ERROR
  | hi :: lo :: reason =>
    let code := fromBeBytes hi lo
    if !isSendableCloseCode code then some CLOSE_PROTOCOL_ERROR
    else if (fromUtf8 reason).isNone then some CLOSE_INVALID_PAYLOAD
    else some code

def closeEcho (payload : Bytes) : Bytes :=
  match closeEchoCode payload with
  | some code => toBeBytes code
  | none => []

end TruenasRos.Ws
