import TruenasRos.Error
import TruenasRos.Lib.Search
import TruenasRos.Lib.Usize
import Mathlib.Data.List.DropRight

/-! # Chunked transfer coding

The resumable scanner over the wire form of a chunked body and the decoders that
run on the same machine. Statuses are the numbers answered to the peer, ranges are
pairs of start and end offsets into the body.
-/

namespace TruenasRos.Http

open List Nat

abbrev Status := ℕ

def ascii (s : String) : Bytes := s.toList.map fun c => UInt8.ofNat c.toNat

def CR : UInt8 := 0x0D

def LF : UInt8 := 0x0A

def CRLF : Bytes := [CR, LF]

def slice (b : Bytes) (r : ℕ × ℕ) : Bytes := (b.drop r.1).take (r.2 - r.1)

def isDigit (b : UInt8) : Bool := 0x30 ≤ b && b ≤ 0x39

def isAlpha (b : UInt8) : Bool := 0x41 ≤ b && b ≤ 0x5A || 0x61 ≤ b && b ≤ 0x7A

def toLower (b : UInt8) : UInt8 := if 0x41 ≤ b && b ≤ 0x5A then b + 0x20 else b

def eqIgnoreAsciiCase (a b : Bytes) : Bool := a.map toLower == b.map toLower

def isAsciiWhitespace (b : UInt8) : Bool :=
  b == 0x20 || b == 0x09 || b == 0x0A || b == 0x0C || b == 0x0D

def trimAscii (v : Bytes) : Bytes :=
  (v.dropWhile isAsciiWhitespace).rdropWhile isAsciiWhitespace

def isTokenByte (b : UInt8) : Bool :=
  isDigit b || isAlpha b || b ∈ ascii "!#$%&'*+-.^_`|~"

def hasFieldBreak (value : Bytes) : Bool :=
  value.any fun b => b < 0x20 && b != 0x09 || b == 0x7F

structure HeaderView where
  name : Bytes
  value : Bytes
  deriving DecidableEq

def CHUNK_LINE_MAX : ℕ := 256

def TRAILER_LINE_MAX : ℕ := 1024

def TRAILER_MAX : ℕ := 8 * 1024

inductive State
  | size
  | data (remaining : ℕ)
  | dataCrlf
  | trailer
  | done
  deriving DecidableEq

structure ChunkScan where
  consumed : ℕ
  decoded : ℕ
  trailer_bytes : ℕ
  state : State
  deriving DecidableEq

instance : Inhabited ChunkScan := ⟨⟨0, 0, 0, .size⟩⟩

inductive Find
  | found (line : ℕ)
  | needMore
  | tooLong
  deriving DecidableEq

def crlfPosition : Bytes → Option ℕ
  | a :: b :: rest =>
    if a = CR ∧ b = LF then some 0 else (crlfPosition (b :: rest)).map (· + 1)
  | _ => none

def findCrlf (rest : Bytes) (max_line : ℕ) : Find :=
  match crlfPosition (rest.take (max_line + 2)) with
  | some i => .found i
  | none => if max_line + 2 ≤ rest.length then .tooLong else .needMore

def lineHasBareCrlf (line : Bytes) : Bool := line.any fun b => b == CR || b == LF

def hexDigit (b : UInt8) : Option ℕ :=
  if 0x30 ≤ b ∧ b ≤ 0x39 then some (b - 0x30).toNat
  else if 0x61 ≤ b ∧ b ≤ 0x66 then some ((b - 0x61).toNat + 10)
  else if 0x41 ≤ b ∧ b ≤ 0x46 then some ((b - 0x41).toNat + 10)
  else none

/-- The number the leading digits of a line continue `n` to, and what follows them. -/
def hexDigits : Bytes → ℕ → Option (ℕ × Bytes)
  | [], n => some (n, [])
  | b :: line, n =>
    match hexDigit b with
    | none => some (n, b :: line)
    | some d => do
      let n ← Usize.checkedMul n 16
      let n ← Usize.checkedAdd n d
      hexDigits line n

def trimOwsStart (v : Bytes) : Bytes := v.dropWhile fun b => b == 0x20 || b == 0x09

def parseSizeLine (line : Bytes) : Option ℕ :=
  match hexDigits line 0 with
  | none => none
  | some (n, rest) =>
    if rest.length = line.length then none
    else
      match trimOwsStart rest with
      | [] => some n
      | b :: _ => if b = 0x3B then some n else none

def splitTrailer (line : Bytes) : Option (Bytes × Bytes) :=
  match line.findIdx? (· == 0x3A) with
  | none => none
  | some colon =>
    let name := line.take colon
    if colon = 0 || !name.all isTokenByte then none
    else
      let value := trimAscii (line.drop (colon + 1))
      if hasFieldBreak value then none else some (name, value)

def FORBIDDEN_TRAILERS : List Bytes :=
  ["transfer-encoding", "content-length", "host", "authorization", "proxy-authorization",
    "cookie"].map ascii

def forbiddenTrailer (name : Bytes) : Bool := FORBIDDEN_TRAILERS.any (eqIgnoreAsciiCase name)

/-- One pass of the scanner's loop: the state after it, the spans it reports, and the
verdict if it is the last. -/
structure Pass where
  scan : ChunkScan
  payload : List (ℕ × ℕ)
  trailer : List (ℕ × ℕ)
  verdict : Option (Except Status (Option ℕ))

namespace Pass

def stop (s : ChunkScan) (v : Except Status (Option ℕ)) : Pass := ⟨s, [], [], some v⟩

def go (s : ChunkScan) : Pass := ⟨s, [], [], none⟩

end Pass

def sizePass (rest : Bytes) (s : ChunkScan) : Pass :=
  match findCrlf rest CHUNK_LINE_MAX with
  | .needMore => .stop s (.ok none)
  | .tooLong => .stop s (.error 400)
  | .found i =>
    if lineHasBareCrlf (rest.take i) then .stop s (.error 400)
    else
      match parseSizeLine (rest.take i) with
      | none => .stop s (.error 400)
      | some size =>
        .go { s with
          consumed := s.consumed + (i + 2)
          state := if size = 0 then .trailer else .data size }

def dataPass (rest : Bytes) (s : ChunkScan) (remaining : ℕ) : Pass :=
  let take := min remaining rest.length
  let s' := { s with consumed := s.consumed + take, decoded := s.decoded + take }
  let payload := if 0 < take then [(s.consumed, s.consumed + take)] else []
  if take = remaining then ⟨{ s' with state := .dataCrlf }, payload, [], none⟩
  else ⟨{ s' with state := .data (remaining - take) }, payload, [], some (.ok none)⟩

def dataCrlfPass (rest : Bytes) (s : ChunkScan) : Pass :=
  if rest.length < 2 then .stop s (.ok none)
  else if rest.take 2 ≠ CRLF then .stop s (.error 400)
  else .go { s with consumed := s.consumed + 2, state := .size }

def trailerPass (rest : Bytes) (s : ChunkScan) : Pass :=
  match findCrlf rest TRAILER_LINE_MAX with
  | .needMore => .stop s (.ok none)
  | .tooLong => .stop s (.error 431)
  | .found i =>
    let s' := { s with trailer_bytes := s.trailer_bytes + (i + 2) }
    if TRAILER_MAX < s'.trailer_bytes then .stop s' (.error 431)
    else
      let line := rest.take i
      let s' := { s' with consumed := s.consumed + (i + 2) }
      if lineHasBareCrlf line then .stop s' (.error 400)
      else if line = [] then .go { s' with state := .done }
      else
        match splitTrailer line with
        | none => .stop s' (.error 400)
        | some (name, _) =>
          if forbiddenTrailer name then .go s'
          else ⟨s', [], [(s.consumed, s.consumed + i)], none⟩

def runPass (body : Bytes) (s : ChunkScan) : Pass :=
  if s.state = .done then .stop s (.ok (some s.consumed))
  else if body.length < s.consumed then .stop s (.error 400)
  else
    let rest := body.drop s.consumed
    match s.state with
    | .size => sizePass rest s
    | .data remaining => dataPass rest s remaining
    | .dataCrlf => dataCrlfPass rest s
    | .trailer => trailerPass rest s
    | .done => .stop s (.ok (some s.consumed))

variable {w : Bytes} {i max : ℕ}

theorem crlfPosition_eq (w : Bytes) : crlfPosition w = Search.position CRLF w := by
  induction w with
  | nil => rfl
  | cons a w ih =>
    cases w with
    | nil => simp [crlfPosition, Search.position, CRLF]
    | cons b w => simp [crlfPosition, Search.position, ih, CRLF, eq_comm]

section

variable (h : crlfPosition w = some i)
include h

theorem crlfPosition_eq_some : w = w.take i ++ CR :: LF :: w.drop (i + 2) := by
  rw [crlfPosition_eq] at h
  obtain ⟨l, rfl, x, rfl⟩ := Search.exists_of_position h
  simp [CRLF]

theorem crlfPosition_append (x : Bytes) : crlfPosition (w ++ x) = some i := by
  rw [crlfPosition_eq] at h ⊢
  exact Search.position_append h x

theorem add_two_le_of_crlfPosition : i + 2 ≤ w.length := by
  rw [crlfPosition_eq] at h
  exact Search.add_le_of_position h

theorem crlfPosition_take {m : ℕ} (hm : i + 2 ≤ m) : crlfPosition (w.take m) = some i := by
  rw [crlfPosition_eq] at h ⊢
  exact Search.position_take h (cons_ne_nil _ _) hm

theorem findCrlf_of_crlfPosition {max : ℕ} (hm : i ≤ max) : findCrlf w max = .found i := by
  rw [findCrlf, crlfPosition_take h (by omega)]

end

theorem findCrlf_eq_found {rest : Bytes} (h : findCrlf rest max = .found i) :
    crlfPosition rest = some i ∧ i ≤ max := by
  unfold findCrlf at h
  cases hc : crlfPosition (rest.take (max + 2)) with
  | none =>
    rw [hc] at h
    split_ifs at h
  | some j =>
    rw [hc] at h
    cases h
    constructor
    · have := crlfPosition_append hc (rest.drop (max + 2))
      rwa [take_append_drop] at this
    · have := add_two_le_of_crlfPosition hc
      rw [length_take] at this
      omega

/-- Inside a payload, `k` bytes further on and with `m` bytes left. -/
def ChunkScan.within (s : ChunkScan) (k m : ℕ) : ChunkScan :=
  { s with consumed := s.consumed + k, decoded := s.decoded + k, state := .data m }

section

variable (p rest : Bytes) (s : ChunkScan)

/-- What a pass that goes on can do, with `rest` unread. -/
inductive Advance : Pass → Prop
  | size {i n : ℕ} (hs : s.state = .size) (hi : crlfPosition rest = some i)
      (hmax : i ≤ CHUNK_LINE_MAX) (hclean : lineHasBareCrlf (rest.take i) = false)
      (hn : parseSizeLine (rest.take i) = some n) :
      Advance (.go { s with
        consumed := s.consumed + (i + 2)
        state := if n = 0 then .trailer else .data n })
  | data {n : ℕ} (hs : s.state = .data n) (hn : n ≤ rest.length) :
      Advance
        ⟨{ s with consumed := s.consumed + n, decoded := s.decoded + n, state := .dataCrlf },
          if 0 < n then [(s.consumed, s.consumed + n)] else [], [], none⟩
  | crlf (hs : s.state = .dataCrlf) (hcrlf : rest.take 2 = CRLF) :
      Advance (.go { s with consumed := s.consumed + 2, state := .size })
  | field {i : ℕ} {name value : Bytes} (hs : s.state = .trailer)
      (hi : crlfPosition rest = some i) (hmax : i ≤ TRAILER_LINE_MAX)
      (hsum : s.trailer_bytes + (i + 2) ≤ TRAILER_MAX)
      (hclean : lineHasBareCrlf (rest.take i) = false) (hne : rest.take i ≠ [])
      (hfield : splitTrailer (rest.take i) = some (name, value)) :
      Advance
        ⟨{ s with consumed := s.consumed + (i + 2), trailer_bytes := s.trailer_bytes + (i + 2) },
          [], if forbiddenTrailer name then [] else [(s.consumed, s.consumed + i)], none⟩
  | finish {i : ℕ} (hs : s.state = .trailer) (hi : crlfPosition rest = some i)
      (hsum : s.trailer_bytes + (i + 2) ≤ TRAILER_MAX) (hnil : rest.take i = []) :
      Advance (.go { s with
        consumed := s.consumed + (i + 2)
        trailer_bytes := s.trailer_bytes + (i + 2)
        state := .done })

/-- What a pass that waits leaves behind: part of a line, or no payload that is there. -/
inductive Pause : Pass → Prop
  | line (hshort : rest.length ≤ TRAILER_LINE_MAX + 1) : Pause (.stop s (.ok none))
  | data {n : ℕ} (hs : s.state = .data n) (hn : rest.length < n) :
      Pause
        ⟨s.within rest.length (n - rest.length),
          if 0 < rest.length then [(s.consumed, s.consumed + rest.length)] else [], [],
          some (.ok none)⟩

/-- What a pass over `p` can do. -/
inductive Does : Pass → Prop
  | advance {pass : Pass} (hle : s.consumed ≤ p.length) (h : Advance (p.drop s.consumed) s pass) :
      Does pass
  | pause {pass : Pass} (hle : s.consumed ≤ p.length) (h : Pause (p.drop s.consumed) s pass) :
      Does pass
  | refuse {s' : ChunkScan} (status : Status) (hc : s.consumed ≤ s'.consumed)
      (hd : s'.decoded = s.decoded) : Does (.stop s' (.error status))
  | done (hs : s.state = .done) : Does (.stop s (.ok (some s.consumed)))

variable {p rest s} {pass : Pass}

section

variable (hle : s.consumed ≤ p.length)
include hle

theorem runPass_size (hs : s.state = .size) : runPass p s = sizePass (p.drop s.consumed) s := by
  simp [runPass, hs, if_neg (not_lt.2 hle)]

variable {n : ℕ}

theorem runPass_data (hs : s.state = .data n) : runPass p s = dataPass (p.drop s.consumed) s n := by
  simp [runPass, hs, if_neg (not_lt.2 hle)]

theorem runPass_dataCrlf (hs : s.state = .dataCrlf) :
    runPass p s = dataCrlfPass (p.drop s.consumed) s := by
  simp [runPass, hs, if_neg (not_lt.2 hle)]

theorem runPass_trailer (hs : s.state = .trailer) :
    runPass p s = trailerPass (p.drop s.consumed) s := by
  simp [runPass, hs, if_neg (not_lt.2 hle)]

end

theorem runPass_done (hs : s.state = .done) :
    runPass p s = .stop s (.ok (some s.consumed)) := if_pos hs

theorem dataPass_of_le (h : n ≤ p.length) : dataPass p s n =
      ⟨{ s with consumed := s.consumed + n, decoded := s.decoded + n, state := .dataCrlf },
        if 0 < n then [(s.consumed, s.consumed + n)] else [], [], none⟩ := by
  simp [dataPass, min_eq_left h]

theorem dataPass_of_lt (h : p.length < n) : dataPass p s n =
      ⟨s.within p.length (n - p.length),
        if 0 < p.length then [(s.consumed, s.consumed + p.length)] else [], [],
        some (.ok none)⟩ := by
  simp only [dataPass, min_eq_right h.le, if_neg h.ne]
  rfl

theorem length_lt_of_findCrlf (h : findCrlf p max = .needMore) : p.length < max + 2 := by
  unfold findCrlf at h
  cases hc : crlfPosition (p.take (max + 2)) with
  | some i => exact nomatch hc ▸ h
  | none =>
    simp only [hc] at h
    split_ifs at h with hlen
    exact not_le.1 hlen

theorem Advance.verdict (h : Advance rest s pass) : pass.verdict = none := by
  cases h <;> rfl

theorem Pause.verdict (h : Pause rest s pass) : pass.verdict = some (.ok none) := by
  cases h <;> rfl

section

variable (hle : s.consumed ≤ p.length)
include hle

theorem does_size (hs : s.state = .size) : Does p s (sizePass (p.drop s.consumed) s) := by
  unfold sizePass
  cases hf : findCrlf (p.drop s.consumed) CHUNK_LINE_MAX with
  | needMore =>
    have := length_lt_of_findCrlf hf
    exact .pause hle (.line (by simp only [CHUNK_LINE_MAX, TRAILER_LINE_MAX] at this ⊢; omega))
  | tooLong => exact .refuse 400 le_rfl rfl
  | found i =>
    obtain ⟨hi, hm⟩ := findCrlf_eq_found hf
    simp only
    split_ifs with hc
    · exact .refuse 400 le_rfl rfl
    · cases hn : parseSizeLine ((p.drop s.consumed).take i) with
      | none => exact .refuse 400 le_rfl rfl
      | some n => exact .advance hle (.size hs hi hm (Bool.eq_false_iff.2 hc) hn)

theorem does_data (hs : s.state = .data n) : Does p s (dataPass (p.drop s.consumed) s n) := by
  rcases lt_or_ge (p.drop s.consumed).length n with hn | hn
  · rw [dataPass_of_lt hn]
    exact .pause hle (.data hs hn)
  · rw [dataPass_of_le hn]
    exact .advance hle (.data hs hn)

theorem does_dataCrlf (hs : s.state = .dataCrlf) :
    Does p s (dataCrlfPass (p.drop s.consumed) s) := by
  unfold dataCrlfPass
  split_ifs with hlen hc
  · exact .pause hle (.line (hlen.le.trans (by decide)))
  · exact .refuse 400 le_rfl rfl
  · exact .advance hle (.crlf hs (not_not.1 hc))

theorem does_trailer (hs : s.state = .trailer) : Does p s (trailerPass (p.drop s.consumed) s) := by
  unfold trailerPass
  cases hf : findCrlf (p.drop s.consumed) TRAILER_LINE_MAX with
  | needMore => exact .pause hle (.line (Nat.le_of_lt_succ (length_lt_of_findCrlf hf)))
  | tooLong => exact .refuse 431 le_rfl rfl
  | found i =>
    obtain ⟨hi, hm⟩ := findCrlf_eq_found hf
    simp only
    split_ifs with hsum hc hnil
    · exact .refuse 431 le_rfl rfl
    · exact .refuse 400 (Nat.le_add_right _ _) rfl
    · exact .advance hle (.finish hs hi (not_lt.1 hsum) hnil)
    · cases hn : splitTrailer ((p.drop s.consumed).take i) with
      | none => exact .refuse 400 (Nat.le_add_right _ _) rfl
      | some field =>
        have ha := Advance.field hs hi hm (not_lt.1 hsum) (Bool.eq_false_iff.2 hc) hnil hn
        simp only
        split_ifs at ha ⊢ <;> exact .advance hle ha

end

theorem does_runPass (p : Bytes) (s : ChunkScan) : Does p s (runPass p s) := by
  rcases lt_or_ge p.length s.consumed with hlen | hle
  · rw [runPass]
    split_ifs with hd
    · exact .done hd
    · exact .refuse 400 le_rfl rfl
  · cases hs : s.state with
    | size => exact runPass_size hle hs ▸ does_size hle hs
    | data n => exact runPass_data hle hs ▸ does_data hle hs
    | dataCrlf => exact runPass_dataCrlf hle hs ▸ does_dataCrlf hle hs
    | trailer => exact runPass_trailer hle hs ▸ does_trailer hle hs
    | done => exact runPass_done hs ▸ .done hs

/-- A pass that goes on takes bytes in, or it leaves an empty payload. -/
theorem Advance.spends (h : Advance rest s pass) : ∃ k ≤ rest.length,
    pass.scan.consumed = s.consumed + k ∧ s.decoded ≤ pass.scan.decoded ∧
      (0 < k ∨ (∃ n, s.state = .data n) ∧ pass.scan.state = .dataCrlf) := by
  cases h with
  | size _ hi | field _ hi | finish _ hi =>
    exact ⟨_, add_two_le_of_crlfPosition hi, rfl, le_rfl, .inl (succ_pos _)⟩
  | data hs hn => exact ⟨_, hn, rfl, le_add_right _ _, .inr ⟨⟨_, hs⟩, rfl⟩⟩
  | crlf _ hc =>
    have hlen := congrArg length hc
    rw [length_take] at hlen
    exact ⟨2, min_eq_left_iff.1 hlen, rfl, le_rfl, .inl two_pos⟩

namespace Does

section

variable (hd : Does p s pass)
include hd

theorem advances (h : pass.verdict = none) :
    s.consumed ≤ p.length ∧ Advance (p.drop s.consumed) s pass := by
  cases hd with
  | advance hle ha => exact ⟨hle, ha⟩
  | pause _ hp => exact nomatch hp.verdict.symm.trans h
  | refuse | done => exact nomatch h

theorem pauses (h : pass.verdict = some (.ok none)) :
    s.consumed ≤ p.length ∧ Pause (p.drop s.consumed) s pass := by
  cases hd with
  | advance _ ha => exact nomatch ha.verdict.symm.trans h
  | pause hle hp => exact ⟨hle, hp⟩
  | refuse | done => exact nomatch h

theorem ends (h : pass.verdict = some (.ok (some n))) :
    s.state = .done ∧ pass = .stop s (.ok (some s.consumed)) ∧ s.consumed = n := by
  cases hd with
  | advance _ ha => exact nomatch ha.verdict.symm.trans h
  | pause _ hp => exact nomatch hp.verdict.symm.trans h
  | refuse => exact nomatch h
  | done hs => exact ⟨hs, rfl, Option.some.inj (Except.ok.inj (Option.some.inj h))⟩

theorem progress : s.consumed ≤ pass.scan.consumed ∧ s.decoded ≤ pass.scan.decoded := by
  cases hd with
  | advance _ ha =>
    obtain ⟨k, -, hc, hd, -⟩ := ha.spends
    exact ⟨hc ▸ le_add_right _ _, hd⟩
  | pause _ hp =>
    cases hp with
    | line => exact ⟨le_rfl, le_rfl⟩
    | data => exact ⟨le_add_right _ _, le_add_right _ _⟩
  | refuse _ hc hd => exact ⟨hc, hd.ge⟩
  | done => exact ⟨le_rfl, le_rfl⟩

theorem decoded (hs : ∀ n, s.state ≠ .data n) : pass.scan.decoded = s.decoded := by
  cases hd with
  | advance _ ha =>
    cases ha with
    | data hn => exact absurd hn (hs _)
    | _ => rfl
  | pause _ hp =>
    cases hp with
    | line => rfl
    | data hn => exact absurd hn (hs _)
  | refuse _ _ hd => exact hd
  | done => rfl

theorem trailer {v : Except Status (Option ℕ)} (h : pass.verdict = some v) : pass.trailer = [] := by
  cases hd with
  | advance _ ha => exact nomatch ha.verdict.symm.trans h
  | pause _ hp => cases hp <;> rfl
  | refuse | done => rfl

end

end Does

theorem consumed_runPass_le (h : (runPass p s).verdict = none) :
    (runPass p s).scan.consumed ≤ p.length := by
  obtain ⟨hle, ha⟩ := (does_runPass ..).advances h
  obtain ⟨k, hk, hc, -⟩ := ha.spends
  rw [length_drop] at hk
  omega

end

/-- What is left of the body, and one more inside a payload. -/
def ChunkScan.left (s : ChunkScan) (body : Bytes) : ℕ :=
  2 * (body.length - s.consumed) + match s.state with
    | .data _ => 1
    | _ => 0

theorem left_runPass_lt {body : Bytes} {s : ChunkScan} (h : (runPass body s).verdict = none) :
    (runPass body s).scan.left body < s.left body := by
  obtain ⟨hle, ha⟩ := (does_runPass ..).advances h
  obtain ⟨k, hk, hc, -, hp⟩ := ha.spends
  rw [length_drop] at hk
  unfold ChunkScan.left
  rcases hp with hp | ⟨⟨n, hs⟩, hs'⟩
  · split <;> split <;> omega
  · rw [hs, hs']
    simp only
    omega

/-- What a run of the loop leaves behind. -/
structure RunOut where
  scan : ChunkScan
  verdict : Except Status (Option ℕ)
  payload : List (ℕ × ℕ)
  trailer : List (ℕ × ℕ)

def run (body : Bytes) (s : ChunkScan) : RunOut :=
  let pass := runPass body s
  match _h : pass.verdict with
  | some v => { pass with verdict := v }
  | none =>
    let out := run body pass.scan
    { out with payload := pass.payload ++ out.payload, trailer := pass.trailer ++ out.trailer }
  termination_by s.left body
  decreasing_by exact left_runPass_lt _h

def scan (body : Bytes) (s : ChunkScan) : ChunkScan × Except Status (Option ℕ) :=
  let out := run body s
  (out.scan, out.verdict)

inductive Step
  | more
  | chunk (framing payload : ℕ)
  | last (framing : ℕ)
  | bad (status : Status)
  deriving DecidableEq

/-- The step once the CRLF that closes the previous payload, `skip` bytes, is past. -/
def stepAt (skip : ℕ) (rest : Bytes) : Step :=
  match findCrlf rest CHUNK_LINE_MAX with
  | .needMore => .more
  | .tooLong => .bad 400
  | .found nl =>
    if lineHasBareCrlf (rest.take nl) then .bad 400
    else
      match parseSizeLine (rest.take nl) with
      | none => .bad 400
      | some 0 =>
        match (scan rest default).2 with
        | .ok (some extent) => .last (skip + extent)
        | .ok none => .more
        | .error status => .bad status
      | some payload => .chunk (skip + nl + 2) payload

def step (buf : Bytes) (after_payload : Bool) : Step :=
  if after_payload then
    match buf with
    | [] => .more
    | [a] => if a = CR then .more else .bad 400
    | a :: b :: rest => if a = CR ∧ b = LF then stepAt 2 rest else .bad 400
  else stepAt 0 buf

/-- The field of a validated trailer line; its name has to be text. -/
def trailerView (line : Bytes) : Option HeaderView :=
  match splitTrailer line with
  | none => none
  | some (name, value) =>
    if name.toByteArray.IsValidUTF8 then some ⟨name, value⟩ else none

def decode (wire : Bytes) : Option (Bytes × List HeaderView) :=
  let out := run wire default
  match out.verdict with
  | .ok (some extent) =>
    if extent = wire.length then do
      let trailers ← (out.trailer.map (slice wire)).mapM trailerView
      return (out.payload.flatMap (slice wire), trailers)
    else none
  | _ => none

structure Compacted where
  start : ℕ
  len : ℕ
  trailer_lines : List Bytes
  deriving DecidableEq

def Compacted.trailers (c : Compacted) : Option (List HeaderView) :=
  c.trailer_lines.mapM trailerView

def copyWithin (wire : Bytes) (r : ℕ × ℕ) (dst : ℕ) : Bytes :=
  wire.take dst ++ slice wire r ++ wire.drop (dst + (r.2 - r.1))

/-- Decode in place: the layout, and the buffer the entity then lies in. -/
def compact (wire : Bytes) : Option (Compacted × Bytes) :=
  let out := run wire default
  match out.verdict with
  | .ok (some extent) =>
    if extent = wire.length then
      let lines := out.trailer.map (slice wire)
      match out.payload with
      | [] => some (⟨0, 0, lines⟩, wire)
      | first :: spans =>
        let (wire, last) := spans.foldl
          (fun acc r => (copyWithin acc.1 r acc.2, acc.2 + (r.2 - r.1))) (wire, first.2)
        some (⟨first.1, last - first.1, lines⟩, wire)
    else none
  | _ => none

end TruenasRos.Http
