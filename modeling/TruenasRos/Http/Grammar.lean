import TruenasRos.Http.Pieces

/-! # The grammar of a chunked body

A chunked body said apart from the scanner that reads it: chunks with their size lines, a line
that declares no payload, and a section of trailer fields. The decoder accepts exactly the wire
forms of such bodies.
-/

namespace TruenasRos.Http

open List

/-- The number that hexadecimal digits continue `m` to. -/
def hexValue (m : ℕ) (digits : Bytes) : ℕ :=
  digits.foldl (fun n b => n * 16 + (hexDigit b).getD 0) m

/-- A line that declares `n` bytes of payload: digits, blanks, and perhaps an extension. -/
structure Declares (line : Bytes) (n : ℕ) : Prop where
  short : line.length ≤ CHUNK_LINE_MAX
  clean : CR ∉ line ∧ LF ∉ line
  form : ∃ digits blanks extension, line = digits ++ (blanks ++ extension) ∧ digits ≠ [] ∧
    (∀ b ∈ digits, (hexDigit b).isSome) ∧ hexValue 0 digits = n ∧ n ≤ Usize.MAX ∧
    (∀ b ∈ blanks, b = 0x20 ∨ b = 0x09) ∧ (extension = [] ∨ ∃ x, extension = 0x3B :: x)

/-- A field of the trailer section, by its name and what stands behind the colon. -/
structure TrailerField where
  name : Bytes
  raw : Bytes

namespace TrailerField

def line (f : TrailerField) : Bytes := f.name ++ 0x3A :: f.raw

def wire (f : TrailerField) : Bytes := f.line ++ CRLF

def view (f : TrailerField) : HeaderView := ⟨f.name, trimAscii f.raw⟩

structure Grammatical (f : TrailerField) : Prop where
  name : f.name ≠ [] ∧ ∀ b ∈ f.name, isTokenByte b
  value : hasFieldBreak (trimAscii f.raw) = false
  short : f.line.length ≤ TRAILER_LINE_MAX

/-- The line has no end of line in it. -/
def Clean (f : TrailerField) : Prop := CR ∉ f.line ∧ LF ∉ f.line

end TrailerField

/-- A chunk, by its size line and its payload. -/
structure Chunk where
  line : Bytes
  payload : Bytes

def Chunk.wire (c : Chunk) : Bytes := c.line ++ CRLF ++ c.payload ++ CRLF

/-- The fields of a trailer section as they stand on the wire, the empty line included. -/
def trailerSection (fields : List TrailerField) : Bytes := fields.flatMap TrailerField.wire ++ CRLF

/-- A chunked body, part by part. -/
structure ChunkedBody where
  chunks : List Chunk
  last : Bytes
  fields : List TrailerField

namespace ChunkedBody

def wire (b : ChunkedBody) : Bytes :=
  b.chunks.flatMap Chunk.wire ++ (b.last ++ CRLF ++ trailerSection b.fields)

def entity (b : ChunkedBody) : Bytes := b.chunks.flatMap Chunk.payload

/-- The fields that may stand in a trailer section. -/
def permitted (fields : List TrailerField) : List TrailerField :=
  fields.filter fun f => !forbiddenTrailer f.name

def trailers (b : ChunkedBody) : List HeaderView := (permitted b.fields).map TrailerField.view

structure Grammatical (b : ChunkedBody) : Prop where
  chunks : ∀ c ∈ b.chunks, Declares c.line c.payload.length ∧ 0 < c.payload.length
  last : Declares b.last 0
  fields : ∀ f ∈ b.fields, f.Grammatical
  section_short : (trailerSection b.fields).length ≤ TRAILER_MAX

/-- No field line has an end of line in it. -/
def Clean (b : ChunkedBody) : Prop := ∀ f ∈ b.fields, f.Clean

end ChunkedBody

open ChunkedBody

variable {p w line rest name value e : Bytes} {ls : List Bytes} {n m : ℕ} {s : ChunkScan}
  {fs : List TrailerField}

theorem lineHasBareCrlf_eq_false : lineHasBareCrlf line = false ↔ CR ∉ line ∧ LF ∉ line := by
  simp only [lineHasBareCrlf, any_eq_false, Bool.or_eq_true, beq_iff_eq, not_or]
  constructor
  · intro h
    exact ⟨fun hmem => (h _ hmem).1 rfl, fun hmem => (h _ hmem).2 rfl⟩
  · rintro ⟨hc, hl⟩ b hb
    constructor
    · rintro rfl
      exact hc hb
    · rintro rfl
      exact hl hb

/-- The digits of a line are read up to the first other byte, and must fit in a word. -/
theorem hexDigits_eq_some_iff (hm : m ≤ Usize.MAX) : hexDigits line m = some (n, rest) ↔
      ∃ digits, line = digits ++ rest ∧ (∀ b ∈ digits, (hexDigit b).isSome) ∧
        (∀ b ∈ rest.head?, hexDigit b = none) ∧ hexValue m digits = n ∧ n ≤ Usize.MAX := by
  induction line generalizing m with
  | nil =>
    constructor
    · rintro ⟨⟩
      exact ⟨[], rfl, by simp, by simp, rfl, hm⟩
    · rintro ⟨digits, hl, -, -, rfl, -⟩
      obtain ⟨rfl, rfl⟩ := append_eq_nil_iff.1 hl.symm
      rfl
  | cons b line ih =>
    cases hb : hexDigit b with
    | none =>
      simp only [hexDigits, hb]
      constructor
      · rintro ⟨⟩
        exact ⟨[], rfl, by simp, by simpa using hb, rfl, hm⟩
      · rintro ⟨_ | ⟨d, digits⟩, hl, hall, -, rfl, -⟩
        · cases hl
          rfl
        · cases hl
          simp [hb] at hall
    | some d =>
      have hr : hexDigits (b :: line) m =
          if m * 16 + d ≤ Usize.MAX then hexDigits line (m * 16 + d) else none := by
        simp only [hexDigits, hb, Option.bind_eq_bind, Usize.bind_checkedAdd]
      rw [hr]
      constructor
      · intro h
        split_ifs at h with hf
        obtain ⟨digits, rfl, hall, hh, hv, hle⟩ := (ih hf).1 h
        refine ⟨b :: digits, rfl, ?_, hh, ?_, hle⟩
        · simpa [hb] using hall
        · simpa [hexValue, hb] using hv
      · rintro ⟨_ | ⟨d', digits⟩, hl, hall, hh, hv, hle⟩
        · cases hl
          simp [hb] at hh
        · cases hl
          have hg : m * 16 + d ≤ hexValue (m * 16 + d) digits :=
            Usize.le_foldl_digits _ _ (by decide) _ _
          have hv' : hexValue (m * 16 + d) digits = n := by simpa [hexValue, hb] using hv
          have hf : m * 16 + d ≤ Usize.MAX := by omega
          rw [if_pos hf, ih hf]
          exact ⟨digits, rfl, fun x hx => hall x (mem_cons_of_mem _ hx), hh, hv', hle⟩

theorem trimOwsStart_append {blanks : Bytes} (hbl : ∀ b ∈ blanks, b = 0x20 ∨ b = 0x09)
    (hr : ∀ b ∈ rest.head?, b ≠ 0x20 ∧ b ≠ 0x09) : trimOwsStart (blanks ++ rest) = rest := by
  rw [trimOwsStart, dropWhile_append_of_pos (by simpa using hbl)]
  cases rest with
  | nil => rfl
  | cons b rest => exact dropWhile_cons_of_neg (by simpa using hr b rfl)

theorem declares_of_parseSizeLine (hs : line.length ≤ CHUNK_LINE_MAX) (hc : CR ∉ line ∧ LF ∉ line)
    (h : parseSizeLine line = some n) : Declares line n := by
  refine ⟨hs, hc, ?_⟩
  unfold parseSizeLine at h
  cases hd : hexDigits line 0 with
  | none => simp [hd] at h
  | some found =>
    obtain ⟨n', rest⟩ := found
    obtain ⟨digits, rfl, hall, -, hv, hle⟩ := (hexDigits_eq_some_iff (Nat.zero_le _)).1 hd
    simp only [hd] at h
    split_ifs at h with hlen
    have hne : digits ≠ [] := by
      rintro rfl
      simp at hlen
    have hs := takeWhile_append_dropWhile (p := fun b => b == 0x20 || b == 0x09) (l := rest)
    have hbl : ∀ b ∈ rest.takeWhile (fun b => b == 0x20 || b == 0x09), b = 0x20 ∨ b = 0x09 := by
      intro b hb
      simpa using mem_takeWhile_imp hb
    change _ ++ trimOwsStart rest = rest at hs
    rcases he : trimOwsStart rest with _ | ⟨b, x⟩
    · simp only [he, Option.some.injEq] at h
      rw [he] at hs
      exact ⟨digits, _, [], by rw [hs], hne, hall, hv.trans h, h ▸ hle, hbl, .inl rfl⟩
    · simp only [he] at h
      split_ifs at h with hb
      rw [he, hb] at hs
      have hn := Option.some.inj h
      exact ⟨digits, _, 0x3B :: x, by rw [hs], hne, hall, hv.trans hn, hn ▸ hle, hbl,
        .inr ⟨x, rfl⟩⟩

theorem Declares.parseSizeLine (h : Declares line n) : parseSizeLine line = some n := by
  obtain ⟨digits, blanks, extension, rfl, hne, hall, hv, hle, hbl, he⟩ := h.form
  have hh : ∀ b ∈ (blanks ++ extension).head?, hexDigit b = none := by
    intro b hb
    cases blanks with
    | cons x blanks =>
      cases hb
      rcases hbl b mem_cons_self with rfl | rfl <;> rfl
    | nil =>
      rcases he with rfl | ⟨x, rfl⟩
      · simp at hb
      · cases hb
        rfl
  have hd : hexDigits (digits ++ (blanks ++ extension)) 0 = some (n, blanks ++ extension) :=
    (hexDigits_eq_some_iff (Nat.zero_le _)).2 ⟨digits, rfl, hall, hh, hv, hle⟩
  have hlen : ¬(blanks ++ extension).length = (digits ++ (blanks ++ extension)).length := by
    have hpos := length_pos_of_ne_nil hne
    simp only [length_append]
    omega
  have ht : trimOwsStart (blanks ++ extension) = extension := by
    apply trimOwsStart_append hbl
    rcases he with rfl | ⟨x, rfl⟩
    · simp
    · rintro b ⟨⟩
      decide
  unfold parseSizeLine
  rw [hd]
  dsimp only
  rw [if_neg hlen, ht]
  rcases he with rfl | ⟨x, rfl⟩
  · rfl
  · exact if_pos rfl

theorem declares_iff_sizeLine : Declares line n ↔ SizeLine line n := by
  constructor
  · intro h
    exact ⟨h.short, lineHasBareCrlf_eq_false.2 h.clean, h.parseSizeLine⟩
  · rintro ⟨hs, hc, hpa⟩
    exact declares_of_parseSizeLine hs (lineHasBareCrlf_eq_false.1 hc) hpa

theorem findIdx?_colon (h : ∀ b ∈ name, isTokenByte b) (raw : Bytes) :
    (name ++ 0x3A :: raw).findIdx? (· == 0x3A) = some name.length := by
  refine Search.findIdx?_eq_some_iff_append.2 ⟨name, _, raw, rfl, rfl, rfl, fun b hb => ?_⟩
  rw [beq_eq_false_iff_ne]
  rintro rfl
  exact absurd (h _ hb) (by decide)

theorem splitTrailer_eq_some_iff : splitTrailer line = some (name, value) ↔
      ∃ raw, line = name ++ 0x3A :: raw ∧ name ≠ [] ∧ (∀ b ∈ name, isTokenByte b) ∧
        trimAscii raw = value ∧ hasFieldBreak value = false := by
  constructor
  · intro h
    unfold splitTrailer at h
    cases hc : line.findIdx? (· == 0x3A) with
    | none => simp [hc] at h
    | some colon =>
      simp only [hc] at h
      obtain ⟨name, c, raw, rfl, rfl, ha, -⟩ := Search.findIdx?_eq_some_iff_append.1 hc
      split_ifs at h with hn hb
      obtain ⟨rfl, rfl⟩ := Prod.mk.inj (Option.some.inj h)
      obtain rfl : c = 0x3A := beq_iff_eq.1 ha
      simp only [take_left, Bool.or_eq_true, decide_eq_true_eq, Bool.not_eq_true', not_or,
        Bool.not_eq_false, all_eq_true, length_eq_zero_iff] at hn ⊢
      exact ⟨raw, rfl, hn.1, hn.2, by simp, eq_false_of_ne_true hb⟩
  · rintro ⟨raw, rfl, hne, ht, rfl, hb⟩
    have hlen : name.length ≠ 0 := by simpa using hne
    have hall : name.all isTokenByte = true := by simpa using ht
    unfold splitTrailer
    rw [findIdx?_colon ht]
    simp [hlen, hall, hb]

theorem splitTrailer_line {f : TrailerField} (h : f.Grammatical) :
    splitTrailer f.line = some (f.name, trimAscii f.raw) :=
  splitTrailer_eq_some_iff.2 ⟨f.raw, rfl, h.name.1, h.name.2, rfl, h.value⟩

/-- The scan reads the body to its end, and reports this entity and these trailer lines. -/
structure Yields (p : Bytes) (s : ChunkScan) (e : Bytes) (ls : List Bytes) : Prop where
  verdict : (run p s).verdict = .ok (some p.length)
  entity : (run p s).entity p = e
  lines : (run p s).lines p = ls

theorem yields_iff_of_advance {pass : Pass} (hle : s.consumed ≤ p.length)
    (h : Advance (p.drop s.consumed) s pass) :
    Yields p s e ls ↔ ∃ e' ls', Yields p pass.scan e' ls' ∧
      e = pass.payload.flatMap (slice p) ++ e' ∧ ls = pass.trailer.map (slice p) ++ ls' := by
  have hpa := runPass_of_advance hle h
  have hv : pass.verdict = none := by cases h <;> rfl
  have hr := run_of_verdict_none (hpa ▸ hv)
  rw [hpa] at hr
  constructor
  · rintro ⟨hv, rfl, rfl⟩
    rw [hr] at hv
    refine ⟨_, _, ⟨hv, rfl, rfl⟩, ?_, ?_⟩ <;> simp [hr, RunOut.entity, RunOut.lines]
  · rintro ⟨e', ls', ⟨hv, rfl, rfl⟩, rfl, rfl⟩
    refine ⟨(congrArg RunOut.verdict hr).trans hv, ?_, ?_⟩ <;>
      simp [hr, RunOut.entity, RunOut.lines]

theorem Yields.advance (h : Yields p s e ls) (hs : s.state ≠ .done) :
    ∃ pass e' ls', Advance (p.drop s.consumed) s pass ∧ Yields p pass.scan e' ls' ∧
      e = pass.payload.flatMap (slice p) ++ e' ∧ ls = pass.trailer.map (slice p) ++ ls' := by
  cases hv : (runPass p s).verdict with
  | none =>
    obtain ⟨hle, ha⟩ := (does_runPass ..).advances hv
    obtain ⟨e', ls', hy⟩ := (yields_iff_of_advance hle ha).1 h
    exact ⟨_, e', ls', ha, hy⟩
  | some v =>
    have hve := h.verdict
    rw [run_of_verdict_some hv] at hve
    dsimp only at hve
    rw [hve] at hv
    exact absurd ((does_runPass ..).ends hv).1 hs

theorem yields_done (hs : s.state = .done) :
    Yields p s e ls ↔ s.consumed = p.length ∧ e = [] ∧ ls = [] := by
  have hr := run_of_verdict_some (p := p) (by rw [runPass_done hs]; rfl)
  rw [runPass_done hs] at hr
  constructor
  · rintro ⟨hv, rfl, rfl⟩
    rw [hr] at hv ⊢
    exact ⟨Option.some.inj (Except.ok.inj hv), rfl, rfl⟩
  · rintro ⟨hc, rfl, rfl⟩
    exact ⟨by rw [hr, hc], by rw [hr]; rfl, by rw [hr]; rfl⟩

theorem slice_line (p : Bytes) (a i : ℕ) : slice p (a, a + i) = (p.drop a).take i := by
  simp [slice]

section

variable (h : Yields p s e ls)
include h

theorem Yields.data (hs : s.state = .data n) :
    n ≤ (p.drop s.consumed).length ∧ ∃ e', e = (p.drop s.consumed).take n ++ e' ∧
      Yields p { s with consumed := s.consumed + n, decoded := s.decoded + n, state := .dataCrlf }
        e' ls := by
  obtain ⟨pass, e', ls', ha, hy, rfl, rfl⟩ := h.advance (by simp [hs])
  cases ha with
  | @data m hs' hm =>
    obtain rfl : m = n := by simpa [hs] using hs'.symm
    refine ⟨hm, e', ?_, hy⟩
    rw [flatMap_span, slice_line]
  | size hs' | crlf hs' | field hs' | finish hs' => simp [hs] at hs'

theorem Yields.dataCrlf (hs : s.state = .dataCrlf) : (p.drop s.consumed).take 2 = CRLF ∧
      Yields p { s with consumed := s.consumed + 2, state := .size } e ls := by
  obtain ⟨pass, e', ls', ha, hy, rfl, rfl⟩ := h.advance (by simp [hs])
  cases ha with
  | crlf hs' hc => exact ⟨hc, hy⟩
  | size hs' | data hs' | field hs' | finish hs' => simp [hs] at hs'

theorem Yields.size (hs : s.state = .size) :
    ∃ line n rest, p.drop s.consumed = line ++ (CRLF ++ rest) ∧ SizeLine line n ∧ Yields p { s with
        consumed := s.consumed + (line.length + 2)
        state := if n = 0 then .trailer else .data n } e ls := by
  obtain ⟨pass, e', ls', ha, hy, rfl, rfl⟩ := h.advance (by simp [hs])
  cases ha with
  | @size i n hs' hi hm hc hn =>
    have hlen : ((p.drop s.consumed).take i).length = i :=
      length_take_of_le (by have := add_two_le_of_crlfPosition hi; omega)
    refine ⟨_, n, _, crlfPosition_eq_some hi, ⟨hlen.trans_le hm, hc, hn⟩, ?_⟩
    rw [hlen]
    exact hy
  | data hs' | crlf hs' | field hs' | finish hs' => simp [hs] at hs'

end

theorem drop_of_drop {a k : ℕ} {x : Bytes} (h : p.drop a = x ++ rest) (hk : x.length = k) :
    p.drop (a + k) = rest := by
  rw [← drop_drop, h, ← hk, drop_left]

theorem drop_line {a : ℕ} (h : p.drop a = line ++ (CRLF ++ rest)) :
    p.drop (a + (line.length + 2)) = rest := by
  rw [← append_assoc] at h
  exact drop_of_drop h (by simp [CRLF])

@[simp] theorem trailerSection_cons (f : TrailerField) (fs : List TrailerField) :
    trailerSection (f :: fs) = f.line ++ (CRLF ++ trailerSection fs) := by
  simp [trailerSection, TrailerField.wire]

theorem permitted_cons (f : TrailerField) (fs : List TrailerField) :
    (permitted (f :: fs)).map TrailerField.line =
      (if forbiddenTrailer f.name then [] else [f.line]) ++
        (permitted fs).map TrailerField.line := by
  unfold permitted
  cases hf : forbiddenTrailer f.name <;> simp [hf]

/-- What is left of the body in the trailer section is the wire form of fields. -/
theorem Yields.exists_fields (h : Yields p s e ls) (hs : s.state = .trailer) :
    e = [] ∧ ∃ fs, p.drop s.consumed = trailerSection fs ∧
      (∀ f ∈ fs, f.Grammatical ∧ f.Clean) ∧
      s.trailer_bytes + (trailerSection fs).length ≤ TRAILER_MAX ∧
      ls = (permitted fs).map TrailerField.line := by
  induction hk : p.length - s.consumed using Nat.strong_induction_on generalizing s ls with
  | _ k ih =>
    obtain ⟨pass, e', ls', ha, hy, rfl, rfl⟩ := h.advance (by simp [hs])
    have hr : (p.drop s.consumed).length = p.length - s.consumed := length_drop
    cases ha with
    | size hs' | data hs' | crlf hs' => simp [hs] at hs'
    | @finish i hs' hi hsum hnil =>
      have hlen := add_two_le_of_crlfPosition hi
      obtain rfl : i = 0 := by
        have := congrArg length hnil
        rw [length_take, length_nil] at this
        omega
      obtain ⟨he, rfl, rfl⟩ := (yields_done rfl).1 hy
      have hall : p.drop s.consumed = CRLF := by
        have hsh := crlfPosition_eq_some hi
        have hdr : (p.drop s.consumed).drop (0 + 2) = [] := by
          rw [drop_eq_nil_iff, hr]
          simp only [Pass.go] at he
          omega
        rw [hdr] at hsh
        exact hsh
      exact ⟨rfl, [], hall, by simp, hsum, rfl⟩
    | @field i name value hs' hi hm hsum hc hne hfi =>
      have hlen := add_two_le_of_crlfPosition hi
      obtain ⟨raw, hl, hn, hto, rfl, hb⟩ := splitTrailer_eq_some_iff.1 hfi
      obtain ⟨rfl, fs, hfl, hall, hsum', rfl⟩ := ih _ (by dsimp only; omega) hy hs rfl
      have ht : ((p.drop s.consumed).take i).length = i := length_take_of_le (by omega)
      have hsh := crlfPosition_eq_some hi
      rw [drop_drop, hfl] at hsh
      refine ⟨rfl, ⟨name, raw⟩ :: fs, ?_, ?_, ?_, ?_⟩
      · rw [trailerSection_cons]
        rw [hl] at hsh
        exact hsh
      · rintro f hf
        rcases mem_cons.1 hf with rfl | hf
        · refine ⟨⟨⟨hn, hto⟩, hb, ?_⟩, ?_⟩
          · rw [TrailerField.line, ← hl, ht]
            exact hm
          · rw [TrailerField.Clean, TrailerField.line, ← hl]
            exact lineHasBareCrlf_eq_false.1 hc
        · exact hall f hf
      · rw [trailerSection_cons, TrailerField.line, ← hl, length_append, ht, length_append]
        dsimp only at hsum'
        change s.trailer_bytes + (i + (2 + _)) ≤ _
        omega
      · rw [permitted_cons, TrailerField.line, ← hl]
        split_ifs
        · rfl
        · rw [map_singleton, slice_line]

theorem yields_of_fields (fs : List TrailerField) (hs : s.state = .trailer)
    (hle : s.consumed ≤ p.length) (hd : p.drop s.consumed = trailerSection fs)
    (hall : ∀ f ∈ fs, f.Grammatical ∧ f.Clean)
    (hsum : s.trailer_bytes + (trailerSection fs).length ≤ TRAILER_MAX) :
    Yields p s [] ((permitted fs).map TrailerField.line) := by
  induction fs generalizing s with
  | nil =>
    have hlen : p.length - s.consumed = 2 := by
      have := congrArg length hd
      rwa [length_drop] at this
    have ha : Advance (p.drop s.consumed) s _ := .finish (i := 0) hs (by rw [hd]; rfl) hsum rfl
    refine (yields_iff_of_advance hle ha).2 ⟨[], [], ?_, rfl, rfl⟩
    refine (yields_done rfl).2 ⟨?_, rfl, rfl⟩
    simp only [Pass.go]
    omega
  | cons f fs ih =>
    obtain ⟨hgr, hc⟩ := hall f mem_cons_self
    rw [trailerSection_cons] at hd hsum
    have hc' := lineHasBareCrlf_eq_false.2 hc
    have ht : (p.drop s.consumed).take f.line.length = f.line := by
      rw [hd, take_left]
    have hlen : s.consumed + (f.line.length + 2) ≤ p.length := by
      have := congrArg length hd
      rw [length_drop, length_append, length_append] at this
      change _ = f.line.length + (2 + _) at this
      omega
    have hb : s.trailer_bytes + (f.line.length + 2) + (trailerSection fs).length ≤
        TRAILER_MAX := by
      rw [length_append, length_append] at hsum
      change _ + (_ + (2 + _)) ≤ _ at hsum
      omega
    have ha : Advance (p.drop s.consumed) s _ := .field hs
      (by rw [hd]; exact crlfPosition_line hc' _) hgr.short (by omega)
      (by rw [ht]; exact hc') (by rw [ht]; simp [TrailerField.line])
      (by rw [ht]; exact splitTrailer_line hgr)
    refine (yields_iff_of_advance hle ha).2 ⟨[], _, ih hs hlen ?_ ?_ hb, rfl, ?_⟩
    · exact drop_line hd
    · exact fun g hg => hall g (mem_cons_of_mem _ hg)
    · rw [permitted_cons]
      split_ifs
      · rfl
      · rw [map_singleton, slice_line, ht]

/-- What is left of the body at a size line is the wire form of a body. -/
theorem Yields.exists_body (h : Yields p s e ls) (hs : s.state = .size) (hz : s.trailer_bytes = 0) :
    ∃ b : ChunkedBody, p.drop s.consumed = b.wire ∧ b.Grammatical ∧ b.Clean ∧ b.entity = e ∧
      ls = (permitted b.fields).map TrailerField.line := by
  induction hk : p.length - s.consumed using Nat.strong_induction_on generalizing s e with
  | _ k ih =>
    obtain ⟨line, n, rest, hd, hl, hnx⟩ := h.size hs
    have hr := drop_line hd
    by_cases hn : n = 0
    · subst hn
      obtain ⟨rfl, fs, hfl, hall, hsum, rfl⟩ := hnx.exists_fields rfl
      refine ⟨⟨[], line, fs⟩, ?_, ⟨by simp, declares_iff_sizeLine.2 hl, ?_, ?_⟩, ?_, rfl, rfl⟩
      · rw [hd, ← hr, hfl]
        simp [wire]
      · exact fun f hf => (hall f hf).1
      · simpa [hz] using hsum
      · exact fun f hf => (hall f hf).2
    · obtain ⟨hlo, e', rfl, hda⟩ := hnx.data (if_neg hn)
      obtain ⟨hcr, hcs⟩ := hda.dataCrlf rfl
      rw [hr] at hlo
      have hr' : p.drop (s.consumed + (line.length + 2) + n) = rest.drop n := by
        rw [← drop_drop, hr]
      rw [hr'] at hcr
      have hsh : rest = rest.take n ++ (CRLF ++ (rest.drop n).drop 2) := by
        rw [← hcr, take_append_drop, take_append_drop]
      have hpos : p.length - s.consumed = line.length + (2 + rest.length) := by
        have := congrArg length hd
        rw [length_drop, length_append, length_append] at this
        exact this
      obtain ⟨b, hw, hg, hcl, rfl, hls⟩ := ih _ (by dsimp only; omega) hcs rfl hz rfl
      rw [← drop_drop, hr'] at hw
      have hlen : (rest.take n).length = n := length_take_of_le hlo
      refine ⟨⟨⟨line, rest.take n⟩ :: b.chunks, b.last, b.fields⟩, ?_, { hg with
        chunks := ?_ }, hcl, ?_, hls⟩
      · rw [hd, hsh, hw]
        simp [wire, Chunk.wire, hlen]
      · rintro c hc
        rcases mem_cons.1 hc with rfl | hc
        · rw [hlen]
          exact ⟨declares_iff_sizeLine.2 hl, pos_of_ne_zero hn⟩
        · exact hg.chunks c hc
      · rw [hr]
        rfl

theorem yields_of_sizeLine (hs : s.state = .size) (hle : s.consumed ≤ p.length)
    (hd : p.drop s.consumed = line ++ (CRLF ++ rest)) (hl : Declares line n)
    (h : Yields p { s with
      consumed := s.consumed + (line.length + 2)
      state := if n = 0 then .trailer else .data n } e ls) : Yields p s e ls := by
  have hsi := declares_iff_sizeLine.1 hl
  have ht : (p.drop s.consumed).take line.length = line := by rw [hd, take_left]
  have ha : Advance (p.drop s.consumed) s _ := .size hs
    (by rw [hd]; exact crlfPosition_line hsi.clean _) hsi.short
    (by rw [ht]; exact hsi.clean) (by rw [ht]; exact hsi.parses)
  exact (yields_iff_of_advance hle ha).2 ⟨_, _, h, rfl, rfl⟩

theorem yields_of_chunk {c : Chunk} {tail : Bytes} (hs : s.state = .size)
    (hle : s.consumed ≤ p.length) (hd : p.drop s.consumed = c.wire ++ tail)
    (hl : Declares c.line c.payload.length) (hpos : 0 < c.payload.length)
    (hn : ∀ s', s'.state = .size → s'.trailer_bytes = s.trailer_bytes →
      s'.consumed ≤ p.length → p.drop s'.consumed = tail → Yields p s' e ls) :
    Yields p s (c.payload ++ e) ls := by
  have hd' : p.drop s.consumed = c.line ++ (CRLF ++ (c.payload ++ (CRLF ++ tail))) := by
    rw [hd]
    simp [Chunk.wire]
  have hto : p.length = s.consumed + (c.line.length + 2) + c.payload.length + 2 + tail.length := by
    have := congrArg length hd'
    simp only [length_drop, length_append, CRLF, length_cons, length_nil] at this
    omega
  have haf := drop_line hd'
  have hc : p.drop (s.consumed + (c.line.length + 2) + c.payload.length) = CRLF ++ tail :=
    drop_of_drop haf rfl
  -- the size line, the payload and the CRLF behind it are one pass each
  apply yields_of_sizeLine hs hle hd' hl
  rw [if_neg hpos.ne']
  have ha' : Advance (p.drop (s.consumed + (c.line.length + 2))) { s with
      consumed := s.consumed + (c.line.length + 2)
      state := .data c.payload.length } _ :=
    .data rfl (by rw [haf, length_append]; omega)
  refine (yields_iff_of_advance (by dsimp only [Pass.go]; omega) ha').2 ⟨e, ls, ?_, ?_, rfl⟩
  · have ha'' : Advance (p.drop (s.consumed + (c.line.length + 2) + c.payload.length)) { s with
        consumed := s.consumed + (c.line.length + 2) + c.payload.length
        decoded := s.decoded + c.payload.length
        state := .dataCrlf } _ :=
      .crlf rfl (by rw [hc]; rfl)
    refine (yields_iff_of_advance (by dsimp only; omega) ha'').2 ⟨e, ls, ?_, rfl, rfl⟩
    apply hn
    · rfl
    · rfl
    · dsimp only [Pass.go]
      omega
    · exact drop_of_drop hc rfl
  · rw [flatMap_span, slice_line]
    rw [haf, take_left]

theorem yields_of_last {last : Bytes} (hs : s.state = .size)
    (hz : s.trailer_bytes = 0) (hle : s.consumed ≤ p.length)
    (hd : p.drop s.consumed = last ++ CRLF ++ trailerSection fs) (hl : Declares last 0)
    (hall : ∀ f ∈ fs, f.Grammatical ∧ f.Clean) (hsh : (trailerSection fs).length ≤ TRAILER_MAX) :
    Yields p s [] ((permitted fs).map TrailerField.line) := by
  rw [append_assoc] at hd
  apply yields_of_sizeLine hs hle hd hl
  apply yields_of_fields
  · rfl
  · have := congrArg length hd
    simp only [length_drop, length_append, CRLF, length_cons, length_nil] at this
    dsimp only
    omega
  · exact drop_line hd
  · exact hall
  · dsimp only
    omega

theorem yields_of_body {b : ChunkedBody} (hg : b.Grammatical) (hc : b.Clean)
    (hs : s.state = .size) (hz : s.trailer_bytes = 0) (hle : s.consumed ≤ p.length)
    (hd : p.drop s.consumed = b.wire) :
    Yields p s b.entity ((permitted b.fields).map TrailerField.line) := by
  obtain ⟨chunks, last, fs⟩ := b
  obtain ⟨hch, hl, hfl, hsh⟩ := hg
  induction chunks generalizing s with
  | nil =>
    apply yields_of_last hs hz hle hd hl ?_ hsh
    exact fun f hf => ⟨hfl f hf, hc f hf⟩
  | cons c chunks ih =>
    obtain ⟨hln, hpos⟩ := hch c mem_cons_self
    have hh : p.drop s.consumed = c.wire ++ wire ⟨chunks, last, fs⟩ := by
      rw [hd]
      simp [wire]
    apply yields_of_chunk hs hle hh hln hpos
    intro s' hs' hz' hl' hd'
    apply ih hs' (hz'.trans hz) hl' hc hd' ?_ hl hfl hsh
    intro c' hc'
    exact hch c' (mem_cons_of_mem _ hc')

theorem mapM_trailerView (h : ∀ f ∈ fs, f.Grammatical) :
    ((permitted fs).map TrailerField.line).mapM trailerView =
      some ((permitted fs).map TrailerField.view) := by
  have h' : ∀ f ∈ permitted fs, f.Grammatical := fun f hf => h f (mem_of_mem_filter hf)
  generalize permitted fs = kept at h'
  induction kept with
  | nil => rfl
  | cons f kept ih =>
    have hv := trailerView_of_split (splitTrailer_line (h' f mem_cons_self))
    rw [map_cons, mapM_cons, hv, ih fun g hg => h' g (mem_cons_of_mem _ hg)]
    rfl

theorem decode_eq_some_iff_yields {t : List HeaderView} :
    decode w = some (e, t) ↔ ∃ ls, Yields w default e ls ∧ ls.mapM trailerView = some t := by
  constructor
  · intro h
    unfold decode at h
    dsimp only at h
    split at h
    · rename_i extent hv
      split_ifs at h with he
      obtain ⟨tr, ht, hpa⟩ := Option.bind_eq_some_iff.1 h
      obtain ⟨rfl, rfl⟩ := Prod.mk.inj (Option.some.inj hpa)
      exact ⟨_, ⟨he ▸ hv, rfl, rfl⟩, ht⟩
    · cases h
  · rintro ⟨ls, ⟨hv, rfl, rfl⟩, ht⟩
    exact decode_of_verdict hv ht

/-- A body of the grammar whose trailer lines have no end of line in them decodes to its payloads
and to the fields that may stand there, and nothing else decodes. -/
theorem decode_eq_some_iff_grammatical (w e : Bytes) (t : List HeaderView) :
    decode w = some (e, t) ↔
      ∃ b : ChunkedBody, b.wire = w ∧ b.Grammatical ∧ b.Clean ∧ b.entity = e ∧ b.trailers = t := by
  rw [decode_eq_some_iff_yields]
  constructor
  · rintro ⟨ls, hy, ht⟩
    obtain ⟨b, hw, hg, hc, he, rfl⟩ := hy.exists_body rfl rfl
    refine ⟨b, hw.symm, hg, hc, he, ?_⟩
    rw [mapM_trailerView hg.fields] at ht
    exact Option.some.inj ht
  · rintro ⟨b, rfl, hg, hc, rfl, rfl⟩
    refine ⟨_, yields_of_body hg hc rfl rfl (Nat.zero_le _) rfl, ?_⟩
    exact mapM_trailerView hg.fields

/-- A line feed at the start of a trailer value is trimmed away, so the rules for values allow it.
The decoder refuses the line all the same. -/
theorem decode_rejects_bare_line_feed :
    ∃ b : ChunkedBody, b.Grammatical ∧ decode b.wire = none := by
  refine ⟨⟨[], ascii "0", [⟨ascii "a", [LF]⟩]⟩, ⟨by simp, ?_, ?_, by decide⟩, by decide +kernel⟩
  · exact declares_iff_sizeLine.2 ⟨by decide, by decide, by decide⟩
  · simp only [mem_singleton, forall_eq]
    exact ⟨by decide +kernel, by decide, by decide⟩

end TruenasRos.Http
