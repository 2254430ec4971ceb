import TruenasRos.Http.Chunked

/-! # Request heads

What a head says about its message. The tokenizer is foreign code: `Httparse` is
any function from buffers to outcomes that reports the exact length of a complete
head. Texts are byte strings, parts of the buffer are spans.
-/

namespace TruenasRos.Http

def MAX_HEADERS : ℕ := 160

inductive BodyKind
  | known (n : ℕ)
  | chunked
  deriving DecidableEq

inductive Version
  | http10
  | http11
  deriving DecidableEq

structure Head where
  method : Bytes
  target : Bytes
  version : Version
  headers : List HeaderView
  deriving DecidableEq

structure FrameFacts where
  len : ℕ
  body : Except Status BodyKind
  expects_continue : Bool

structure Span where
  start : ℕ
  len : ℕ
  deriving DecidableEq

namespace Span

/-- The part as the index keeps it, in 32 bits; an empty part lies anywhere. -/
def of (part : Span) : Option Span :=
  if part.len = 0 then some ⟨0, 0⟩
  else if part.start < 2 ^ 32 ∧ part.len < 2 ^ 32 then some part
  else none

def bytes (s : Span) (head : Bytes) : Option Bytes :=
  if s.start + s.len ≤ head.length then some ((head.drop s.start).take s.len) else none

def text (s : Span) (head : Bytes) : Option Bytes :=
  (s.bytes head).filter fun t => t.toByteArray.IsValidUTF8

def read (s : Span) (buf : Bytes) : Bytes := (buf.drop s.start).take s.len

end Span

/-- The parts of a head that the tokenizer fills in. -/
structure Request where
  method : Option Span
  path : Option Span
  version : Option ℕ
  headers : List (Span × Span)
  deriving DecidableEq

def Request.parts (req : Request) : List Span :=
  req.method.toList ++ req.path.toList ++ req.headers.flatMap fun h => [h.1, h.2]

inductive Parsed
  | complete (len : ℕ) (req : Request)
  | incomplete
  | tooManyHeaders
  | badVersion
  | malformed
  deriving DecidableEq

/-- A tokenizer with `MAX_HEADERS` slots. A complete head is one whatever follows it, and its
parts lie within it. -/
structure Httparse where
  parse : Bytes → Parsed
  complete_le {buf len req} : parse buf = .complete len req → len ≤ buf.length
  complete_append {buf len req} (rest : Bytes) :
    parse buf = .complete len req → parse (buf.take len ++ rest) = .complete len req
  complete_within {buf len req} : parse buf = .complete len req →
    ∀ part ∈ req.parts, part.len = 0 ∨ part.start + part.len ≤ len

def Httparse.single (head : Bytes) (req : Request)
    (hreq : ∀ part ∈ req.parts, part.len = 0 ∨ part.start + part.len ≤ head.length) : Httparse where
  parse buf :=
    if head <+: buf then .complete head.length req
    else if buf <+: head then .incomplete
    else .malformed
  complete_le h := by
    split_ifs at h with hp
    cases h
    exact hp.length_le
  complete_append rest h := by
    split_ifs at h with hp
    cases h
    rw [← List.prefix_iff_eq_take.1 hp, if_pos (List.prefix_append _ _)]
  complete_within h := by
    split_ifs at h
    cases h
    exact hreq

instance : Inhabited Httparse := ⟨⟨fun _ => .incomplete, nofun, nofun, nofun⟩⟩

def isHttpVersion (tok : Bytes) : Bool :=
  match tok.drop 5 with
  | [major, dot, minor] =>
    tok.take 5 == ascii "HTTP/" && dot == 0x2E && isDigit major && isDigit minor
  | _ => false

def skipLineEnds : Bytes → Bytes
  | [] => []
  | a :: rest =>
    if a = LF then skipLineEnds rest
    else
      match rest with
      | b :: rest' => if a = CR ∧ b = LF then skipLineEnds rest' else a :: b :: rest'
      | [] => [a]

variable (hp : Httparse) (buf : Bytes)

def versionStatus : Option Status :=
  let buf := skipLineEnds buf
  match buf.findIdx? fun b => b == CR || b == LF with
  | none => none
  | some line_end =>
    match (buf.take line_end).splitOn 0x20 with
    | [_, _, version] => if isHttpVersion version then some 505 else some 400
    | _ => some 400

def isAlphanumeric (b : UInt8) : Bool := isDigit b || isAlpha b

def isHexdigit (b : UInt8) : Bool :=
  isDigit b || 0x41 ≤ b && b ≤ 0x46 || 0x61 ≤ b && b ≤ 0x66

def stripScheme (target : Bytes) : Option Bytes :=
  if !(target.head?.any isAlpha) then none
  else
    match target.findIdx? fun b => !(isAlphanumeric b || b ∈ ascii "+-.") with
    | none => none
    | some fin =>
      if (target.drop fin).take 3 = ascii "://" then some (target.drop (fin + 3)) else none

/-- The target to serve: `some k` is the given one from its `k`-th byte on, `none` the
path `/` that an absolute target left out. -/
def targetCheck (method target : Bytes) (host : Option Bytes) : Except Status (Option ℕ) :=
  if target.head? = some 0x2F then .ok (some 0)
  else if target = ascii "*" then
    if method = ascii "OPTIONS" then .ok (some 0) else .error 400
  else
    match stripScheme target with
    | none => .error 400
    | some rest =>
      let authority := rest.takeWhile fun b => !(b ∈ ascii "/?#")
      let path := rest.drop authority.length
      if !(host.any fun h => eqIgnoreAsciiCase h authority) then .error 400
      else if path = [] then .ok none
      else if path.head? = some 0x2F then .ok (some (target.length - path.length))
      else .error 400

/-- A value up to its last `:` and the port after it; an address in brackets has none. -/
def splitPort (value : Bytes) : Bytes × Option Bytes :=
  match value.reverse.findIdx? (· == 0x3A) with
  | some j =>
    if 0x5D ∈ value.drop (value.length - (j + 1)) then (value, none)
    else (value.take (value.length - (j + 1)), some (value.drop (value.length - j)))
  | none => (value, none)

def hostIsValid (value : Bytes) : Bool :=
  let (host, port) := splitPort value
  if value = [] then false
  else if port.any fun p => !p.all isDigit then false
  else if host.head? = some 0x5B ∧ host.tail.getLast? = some 0x5D then
    let inner := host.tail.dropLast
    inner ≠ [] && inner.all fun b => isHexdigit b || b ∈ ascii ":.vV"
  else
    host ≠ [] && host.all fun b => isAlphanumeric b || b ∈ ascii "-._~%!$&'()*+,;="

def hostCheck (headers : List HeaderView) (version : Version) : Except Status (Option Bytes) :=
  match headers.filter fun h => eqIgnoreAsciiCase h.name (ascii "host"), version with
  | _ :: _ :: _, _ => .error 400
  | [h], _ => if hostIsValid h.value then .ok (some h.value) else .error 400
  | [], .http10 => .ok none
  | [], .http11 => .error 400

structure Tokens where
  req : Request
  len : ℕ
  version : Version
  target : Option Span
  deriving DecidableEq

def Request.views (req : Request) (buf : Bytes) : List HeaderView :=
  req.headers.map fun h => ⟨h.1.read buf, h.2.read buf⟩

def Tokens.targetText (t : Tokens) (buf : Bytes) : Bytes :=
  match t.target with
  | some s => s.read buf
  | none => ascii "/"

def screen (len : ℕ) (req : Request) : Except Status Tokens := do
  let version ← match req.version with
    | some 0 => .ok Version.http10
    | some 1 => .ok Version.http11
    | _ => .error 505
  let host ← hostCheck (req.views buf) version
  match req.method, req.path with
  | some m, some p =>
    let k ← targetCheck (m.read buf) (p.read buf) host
    return ⟨req, len, version, k.map fun k => ⟨p.start + k, p.len - k⟩⟩
  | _, _ => .error 400

def tokenize : Except Status (Option Tokens) :=
  match hp.parse buf with
  | .complete len req => (screen buf len req).map some
  | .incomplete => .ok none
  | .tooManyHeaders => .error 431
  | .badVersion =>
    match versionStatus buf with
    | some status => .error status
    | none => .ok none
  | .malformed => .error 400

structure IndexedHead where
  len : ℕ
  method : Span
  target : Option Span
  version : Version
  deriving DecidableEq

structure HeadIndex where
  head : Option IndexedHead
  headers : List (Span × Span)
  deriving DecidableEq

namespace HeadIndex

instance : Inhabited HeadIndex := ⟨⟨none, []⟩⟩

def place (buf : Bytes) (t : Tokens) : HeadIndex :=
  let spans := t.req.headers.map fun h => do return (← h.1.of, ← h.2.of)
  let head := do
    guard (spans.all Option.isSome)
    let target ← match t.target with
      | none => some none
      | some s =>
        match s.of with
        | some s => some (some s)
        | none => if s.read buf = ascii "/" then some none else none
    let method ← t.req.method
    let method ← method.of
    return ⟨t.len, method, target, t.version⟩
  ⟨head, (spans.takeWhile Option.isSome).reduceOption⟩

def described (index : HeadIndex) (head : Bytes) : Option IndexedHead :=
  index.head.filter fun i => i.len = head.length

def view (index : HeadIndex) (head : Bytes) : Option Head := do
  let i ← index.described head
  guard (index.headers.length ≤ MAX_HEADERS)
  let headers ← index.headers.mapM fun h => do
    return HeaderView.mk (← h.1.text head) (← h.2.bytes head)
  let method ← i.method.text head
  let target ← match i.target with
    | some s => s.text head
    | none => some (ascii "/")
  return ⟨method, target, i.version, headers⟩

end HeadIndex

def parseHead : Except Status (Option Head) := do
  let some t ← tokenize hp buf | return none
  match t.req.method with
  | some m => return some ⟨m.read buf, t.targetText buf, t.version, t.req.views buf⟩
  | none => .error 400

def headView (index : HeadIndex) (head : Bytes) : Except Status (Option Head) :=
  if (index.described head).isSome then .ok (index.view head) else parseHead hp head

def methodIsHead (head : Bytes) : Bool := (skipLineEnds head).take 5 == ascii "HEAD "

def listElements (headers : List HeaderView) (name : Bytes) : List Bytes :=
  (headers.filter fun h => eqIgnoreAsciiCase h.name name).flatMap fun h =>
    (h.value.splitOn 0x2C).map trimAscii

def hasToken (headers : List HeaderView) (name token : Bytes) : Bool :=
  (listElements headers name).any fun t => eqIgnoreAsciiCase t token

def decimalDigits : Bytes → ℕ → Option ℕ
  | [], n => some n
  | b :: v, n =>
    if isDigit b then do
      let n ← Usize.checkedMul n 10
      let n ← Usize.checkedAdd n (b - 0x30).toNat
      decimalDigits v n
    else none

def parseContentLength (v : Bytes) : Option ℕ := if v = [] then none else decimalDigits v 0

/-- What the pass over the fields has found out about the body. The counters wrap. -/
structure BodyScan where
  te_any : Bool
  te_chunked : UInt32
  te_other : UInt32
  te_last_chunked : Bool
  length : Option Bytes
  duplicate : Bool
  deriving DecidableEq

namespace BodyScan

instance : Inhabited BodyScan := ⟨⟨false, 0, 0, false, none, false⟩⟩

/-- One element of a transfer coding list; empty ones are ignored. -/
def coding (s : BodyScan) (t : Bytes) : BodyScan :=
  let t := trimAscii t
  if t = [] then s
  else if eqIgnoreAsciiCase t (ascii "chunked") then
    { s with te_chunked := s.te_chunked + 1, te_last_chunked := true }
  else { s with te_other := s.te_other + 1, te_last_chunked := false }

def field (s : BodyScan) (h : HeaderView) : BodyScan :=
  if eqIgnoreAsciiCase h.name (ascii "transfer-encoding") then
    (h.value.splitOn 0x2C).foldl coding { s with te_any := true }
  else if eqIgnoreAsciiCase h.name (ascii "content-length") then
    if s.length.isSome then { s with duplicate := true } else { s with length := some h.value }
  else s

end BodyScan

def bodyFrom (headers : List HeaderView) (version : Version) : Except Status BodyKind :=
  let s := headers.foldl BodyScan.field default
  if s.duplicate then .error 400
  else if s.te_any then
    if version = .http10 then .error 400
    else if s.te_chunked ≠ 1 ∨ s.te_last_chunked = false then .error 400
    else if s.length.any fun v => (parseContentLength v).isNone then .error 400
    else if 0 < s.te_other then .error 501
    else .ok .chunked
  else
    match s.length with
    | none => .ok (.known 0)
    | some value =>
      match parseContentLength value with
      | some n => .ok (.known n)
      | none => .error 400

def Tokens.facts (t : Tokens) (buf : Bytes) : FrameFacts where
  len := t.len
  body := bodyFrom (t.req.views buf) t.version
  expects_continue :=
    t.version == .http11 && hasToken (t.req.views buf) (ascii "expect") (ascii "100-continue")

def frameFactsIndexed (index : HeadIndex) : Except Status (Option FrameFacts) × HeadIndex :=
  match tokenize hp buf with
  | .error status => (.error status, { index with head := none })
  | .ok none => (.ok none, { index with head := none })
  | .ok (some t) => (.ok (some (t.facts buf)), .place buf t)

def frameFacts : Except Status (Option FrameFacts) :=
  (frameFactsIndexed hp buf default).1

/-- What the pass over the fields has found out about the connection. -/
structure DispositionScan where
  conn_close : Bool
  conn_keep : Bool
  has_cl : Bool
  has_te : Bool
  deriving DecidableEq

namespace DispositionScan

instance : Inhabited DispositionScan := ⟨⟨false, false, false, false⟩⟩

def option (s : DispositionScan) (t : Bytes) : DispositionScan :=
  let t := trimAscii t
  if eqIgnoreAsciiCase t (ascii "close") then { s with conn_close := true }
  else if eqIgnoreAsciiCase t (ascii "keep-alive") then { s with conn_keep := true }
  else s

def field (s : DispositionScan) (h : HeaderView) : DispositionScan :=
  if eqIgnoreAsciiCase h.name (ascii "connection") then (h.value.splitOn 0x2C).foldl option s
  else if eqIgnoreAsciiCase h.name (ascii "content-length") then { s with has_cl := true }
  else if eqIgnoreAsciiCase h.name (ascii "transfer-encoding") then { s with has_te := true }
  else s

end DispositionScan

/-- Whether the connection may persist, and whether two framings were declared. -/
def Head.responseDisposition (head : Head) : Bool × Bool :=
  let s := head.headers.foldl DispositionScan.field default
  let keep_alive := !s.conn_close && match head.version with
    | .http11 => true
    | .http10 => s.conn_keep
  (keep_alive, s.has_cl && s.has_te)

def uploadHead : Bytes :=
  ascii "PUT / HTTP/1.1\r\nHost: h\r\nTransfer-Encoding: chunked\r\nExpect: 100-continue\r\n\r\n"

def uploadParse : Httparse :=
  .single uploadHead
    ⟨some ⟨0, 3⟩, some ⟨4, 1⟩, some 1, [(⟨16, 4⟩, ⟨22, 1⟩), (⟨25, 17⟩, ⟨44, 7⟩), (⟨53, 6⟩, ⟨61,
      12⟩)]⟩
    (by decide)

example : ((frameFacts uploadParse uploadHead).toOption.join.map fun f => (f.len,
  f.expects_continue)) =
    some (77, true) := by decide +kernel

end TruenasRos.Http
