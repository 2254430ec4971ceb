import TruenasRos.Http.Head

/-! # Responses

A response carries its own screens: the status is final and every field is a pair
the codec lets through. Serialising one is a function of the date it is given.
-/

namespace TruenasRos.Http

def isToken (name : Bytes) : Bool := name ≠ [] && name.all isTokenByte

def isCodecOwned (name : Bytes) : Bool :=
  ["content-length", "connection", "date", "transfer-encoding"].any fun owned =>
    eqIgnoreAsciiCase name (ascii owned)

def headerPairOk (name value : Bytes) : Bool :=
  isToken name && !isCodecOwned name && !hasFieldBreak value

structure ScreenedHeader where
  name : Bytes
  value : Bytes
  ok : headerPairOk name value

namespace ScreenedHeader

def new (name value : Bytes) : Option ScreenedHeader :=
  if h : headerPairOk name value then some ⟨name, value, h⟩ else none

end ScreenedHeader

/-- Where the body of a response comes from; a file is named by its descriptor. -/
inductive BodySource
  | bytes (b : Bytes)
  | file (file offset len : ℕ)
  deriving DecidableEq

def BodySource.declaredLen : BodySource → ℕ
  | .bytes b => b.length
  | .file _ _ len => len

structure HttpResponse where
  status : ℕ
  headers : List ScreenedHeader
  body : BodySource
  close : Bool
  head_len : Option ℕ
  final : 200 ≤ status ∧ status ≤ 999

namespace HttpResponse

def new (status : ℕ) : HttpResponse where
  status := if 200 ≤ status ∧ status ≤ 999 then status else 500
  headers := []
  body := .bytes []
  close := false
  head_len := none
  final := by split_ifs with h <;> [exact h; decide]

variable (r : HttpResponse)

def header (name value : Bytes) : HttpResponse :=
  match ScreenedHeader.new name value with
  | some field => { r with headers := r.headers ++ [field] }
  | none => r

def withBody (body : Bytes) : HttpResponse := { r with body := .bytes body }

def headContentLength (len : ℕ) : HttpResponse := { r with head_len := some len }

end HttpResponse

inductive ConnHeader
  | none
  | keepAlive
  | close
  deriving DecidableEq

def statusIsBodyless (status : Status) : Bool :=
  100 ≤ status && status ≤ 199 || status == 204 || status == 304

def pushDecimal (n : ℕ) : Bytes :=
  if n < 10 then [UInt8.ofNat (0x30 + n)]
  else pushDecimal (n / 10) ++ [UInt8.ofNat (0x30 + n % 10)]

def reason (status : Status) : String :=
  match status with
  | 100 => "Continue"
  | 200 => "OK"
  | 204 => "No Content"
  | 206 => "Partial Content"
  | 301 => "Moved Permanently"
  | 304 => "Not Modified"
  | 307 => "Temporary Redirect"
  | 400 => "Bad Request"
  | 403 => "Forbidden"
  | 404 => "Not Found"
  | 405 => "Method Not Allowed"
  | 409 => "Conflict"
  | 411 => "Length Required"
  | 412 => "Precondition Failed"
  | 413 => "Content Too Large"
  | 416 => "Range Not Satisfiable"
  | 431 => "Request Header Fields Too Large"
  | 500 => "Internal Server Error"
  | 501 => "Not Implemented"
  | 503 => "Service Unavailable"
  | 505 => "HTTP Version Not Supported"
  | _ => ""

variable (resp : HttpResponse)

variable (head_only : Bool) (date : Bytes) (conn : ConnHeader)

def writeHead : Bytes :=
  let declared := match resp.head_len, head_only with
    | some len, true => len
    | _, _ => resp.body.declaredLen
  ascii "HTTP/1.1 " ++ pushDecimal resp.status ++ ascii " " ++ ascii (reason resp.status) ++
    ascii "\r\nDate: " ++ date ++ CRLF ++
    (if statusIsBodyless resp.status then []
      else ascii "Content-Length: " ++ pushDecimal declared ++ CRLF) ++
    (match conn with
      | .none => []
      | .keepAlive => ascii "Connection: keep-alive\r\n"
      | .close => ascii "Connection: close\r\n") ++
    (resp.headers.flatMap fun h => h.name ++ ascii ": " ++ h.value ++ CRLF) ++ CRLF

def serialize : Bytes :=
  let body := match resp.body with
    | .bytes b => if !head_only && !statusIsBodyless resp.status then b else []
    | .file _ _ _ => []
  writeHead resp head_only date conn ++ body

inductive Serialized
  | headOnly (head : Bytes)
  | split (head body : Bytes)
  | fileTail (head : Bytes) (file offset len : ℕ)
  deriving DecidableEq

def serializeReply : Serialized :=
  let head := writeHead resp head_only date conn
  let alone := head_only || statusIsBodyless resp.status
  match resp.body with
  | .bytes body => if alone || body = [] then .headOnly head else .split head body
  | .file file offset len =>
    if alone || len = 0 then .headOnly head else .fileTail head file offset len

def CONTINUE_LINE : Bytes := ascii "HTTP/1.1 100 Continue\r\n\r\n"

theorem pushDecimal_of_three_digits {n : ℕ} (h : 100 ≤ n) (h' : n ≤ 999) :
    pushDecimal n = [UInt8.ofNat (0x30 + n / 100), UInt8.ofNat (0x30 + n / 10 % 10),
      UInt8.ofNat (0x30 + n % 10)] := by
  rw [pushDecimal, if_neg (by omega), pushDecimal, if_neg (by omega), pushDecimal,
    if_pos (by omega), Nat.div_div_eq_div_mul]
  rfl

/-- A status line never reads as the interim line: its status is final. -/
theorem writeHead_ne_continueLine : writeHead resp head_only date conn ≠ CONTINUE_LINE := by
  intro h
  obtain ⟨hl, hh⟩ := resp.final
  have hd := congrArg (fun b : Bytes => b[9]?) h
  simp only [writeHead, pushDecimal_of_three_digits (le_trans (by decide) hl) hh,
    List.append_assoc] at hd
  have hn : (ascii "HTTP/1.1 ").length = 9 := rfl
  rw [List.getElem?_append_right (by rw [hn]), hn] at hd
  have hc : CONTINUE_LINE[9]? = some 0x31 := rfl
  rw [hc] at hd
  have hb : UInt8.ofNat (0x30 + resp.status / 100) = 0x31 := by simpa using hd
  have hv : (0x30 + resp.status / 100) % 2 ^ 8 = 49 := congrArg UInt8.toNat hb
  omega

end TruenasRos.Http
