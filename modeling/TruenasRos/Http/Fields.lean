import TruenasRos.Http.Head

/-! # What the fields of a head say

The framing of a body and the disposition of the connection read off the field lists as
a whole: the Content-Length lines, and the elements of the list-valued fields however
they are split over lines. The one-pass readers agree with that reading as long as their
counters do not wrap.
-/

namespace TruenasRos.Http

open List BodyScan

def decimalValue (v : Bytes) : ℕ := v.foldl (fun n b => n * 10 + (b - 0x30).toNat) 0

/-- `v` is the decimal of a number that fits a word. -/
structure IsDecimal (v : Bytes) (n : ℕ) : Prop where
  ne_nil : v ≠ []
  digits : ∀ b ∈ v, isDigit b
  value : decimalValue v = n
  fits : n ≤ Usize.MAX

variable {n : ℕ}

theorem decimalDigits_eq_some_iff {v : Bytes} {m : ℕ} (hn : n ≤ Usize.MAX) :
    decimalDigits v n = some m ↔ (∀ b ∈ v, isDigit b) ∧
      v.foldl (fun n b => n * 10 + (b - 0x30).toNat) n = m ∧ m ≤ Usize.MAX := by
  induction v generalizing n with
  | nil =>
    simp only [decimalDigits, Option.some.injEq, not_mem_nil, IsEmpty.forall_iff,
      implies_true, foldl_nil, true_and]
    exact ⟨fun h => ⟨h, h ▸ hn⟩, fun h => h.1⟩
  | cons b v ih =>
    have hle := Usize.le_foldl_digits 10 (fun b => (b - 0x30).toNat) (by decide) v
      (n * 10 + (b - 0x30).toNat)
    rw [decimalDigits, forall_mem_cons, foldl_cons]
    by_cases hb : isDigit b
    · simp only [hb, if_true, true_and, Option.bind_eq_bind, Usize.bind_checkedAdd]
      split_ifs with hf
      · exact ih hf
      · simp only [false_iff, not_and]
        omega
    · simp [hb]

theorem parseContentLength_eq_some_iff {v : Bytes} :
    parseContentLength v = some n ↔ IsDecimal v n := by
  unfold parseContentLength
  split_ifs with hv
  · exact iff_of_false nofun fun h => h.ne_nil hv
  · rw [decimalDigits_eq_some_iff (Nat.zero_le _)]
    exact ⟨fun ⟨hd, hval, hf⟩ => ⟨hv, hd, hval, hf⟩, fun h => ⟨h.digits, h.value, h.fits⟩⟩

theorem parseContentLength_eq_none_iff {v : Bytes} :
    parseContentLength v = none ↔ ∀ n, ¬IsDecimal v n := by
  simp [← parseContentLength_eq_some_iff, Option.eq_none_iff_forall_ne_some]

def isField (name : String) (h : HeaderView) : Bool := eqIgnoreAsciiCase h.name (ascii name)

variable (headers : List HeaderView)

def lengths : List Bytes :=
  (headers.filter (isField "content-length")).map (·.value)

/-- The elements of a list-valued field over all its lines, the empty ones left out. -/
def elements (name : String) (headers : List HeaderView) : List Bytes :=
  (listElements headers (ascii name)).filter (· ≠ [])

def codings : List Bytes := elements "transfer-encoding" headers

def isChunked (t : Bytes) : Bool := eqIgnoreAsciiCase t (ascii "chunked")

/-- The chunked coding ends the list and occurs nowhere else in it. -/
def ChunkedOnceLast (codings : List Bytes) : Prop :=
  ∃ front last, codings = front ++ [last] ∧ isChunked last ∧ ∀ c ∈ front, ¬isChunked c

/-- Some line carries a transfer coding list, be it an empty one. -/
def Coded : Prop := ∃ h ∈ headers, isField "transfer-encoding" h

/-- How the body of a message is framed, one rule for each outcome. -/
inductive BodyFraming : Version → Except Status BodyKind → Prop
  | manyLengths {version} : 1 < (lengths headers).length → BodyFraming version (.error 400)
  | codedOnOldVersion : (lengths headers).length ≤ 1 → Coded headers →
      BodyFraming .http10 (.error 400)
  | badCodings : (lengths headers).length ≤ 1 → Coded headers →
      ¬ChunkedOnceLast (codings headers) → BodyFraming .http11 (.error 400)
  | badLengthBesides {v} : (lengths headers).length ≤ 1 → Coded headers →
      ChunkedOnceLast (codings headers) → v ∈ lengths headers → (∀ n, ¬IsDecimal v n) →
      BodyFraming .http11 (.error 400)
  | otherCodings : (lengths headers).length ≤ 1 → Coded headers →
      ChunkedOnceLast (codings headers) → (∀ v ∈ lengths headers, ∃ n, IsDecimal v n) →
      (∃ c ∈ codings headers, ¬isChunked c) → BodyFraming .http11 (.error 501)
  | chunked : (lengths headers).length ≤ 1 → Coded headers →
      ChunkedOnceLast (codings headers) → (∀ v ∈ lengths headers, ∃ n, IsDecimal v n) →
      (∀ c ∈ codings headers, isChunked c) → BodyFraming .http11 (.ok .chunked)
  | empty {version} : ¬Coded headers → lengths headers = [] →
      BodyFraming version (.ok (.known 0))
  | length {version v n} : ¬Coded headers → lengths headers = [v] → IsDecimal v n →
      BodyFraming version (.ok (.known n))
  | badLength {version v} : ¬Coded headers → lengths headers = [v] → (∀ n, ¬IsDecimal v n) →
      BodyFraming version (.error 400)

/-- The counters of `s` have counted the codings `cs`. -/
structure Counted (s : BodyScan) (cs : List Bytes) : Prop where
  chunked : s.te_chunked = UInt32.ofNat (cs.countP isChunked)
  other : s.te_other = UInt32.ofNat (cs.countP fun c => !isChunked c)
  last : s.te_last_chunked = cs.getLast?.any isChunked

variable {headers} {cs : List Bytes} {s : BodyScan} {h : HeaderView}
  {name : String}

theorem Counted.coding (h : Counted s cs) (t : Bytes) :
    Counted (s.coding t) (cs ++ [trimAscii t].filter (· ≠ [])) := by
  unfold BodyScan.coding
  by_cases he : trimAscii t = []
  · simpa [he] using h
  · have hk : [trimAscii t].filter (· ≠ []) = [trimAscii t] := by simp [he]
    have hs : ∀ n, UInt32.ofNat n + 1 = UInt32.ofNat (n + 1) := fun n => by
      rw [UInt32.ofNat_add]
      rfl
    rw [hk]
    cases hc : isChunked (trimAscii t) with
    | true =>
      have hc' : eqIgnoreAsciiCase (trimAscii t) (ascii "chunked") = true := hc
      simp only [he, hc', if_true, if_false]
      refine ⟨?_, ?_, ?_⟩
      · rw [h.chunked, hs, countP_append, countP_singleton, if_pos hc]
      · simp [h.other, hc]
      · simp [hc]
    | false =>
      have hc' : eqIgnoreAsciiCase (trimAscii t) (ascii "chunked") = false := hc
      simp only [he, hc', if_false, Bool.false_eq_true]
      refine ⟨?_, ?_, ?_⟩
      · simp [h.chunked, hc]
      · rw [h.other, hs, countP_append, countP_singleton, if_pos (by simp [hc])]
      · simp [hc]

theorem Counted.codings (h : Counted s cs) (ts : List Bytes) :
    Counted (ts.foldl BodyScan.coding s) (cs ++ (ts.map trimAscii).filter (· ≠ [])) := by
  induction ts generalizing s cs with
  | nil => simpa using h
  | cons t ts ih =>
    have hs := ih (h.coding t)
    rw [append_assoc, ← filter_append] at hs
    exact hs

theorem foldl_coding (ts : List Bytes) (s : BodyScan) : (ts.foldl coding s).te_any = s.te_any ∧
      (ts.foldl coding s).length = s.length ∧
      (ts.foldl coding s).duplicate = s.duplicate := by
  induction ts generalizing s with
  | nil => exact ⟨rfl, rfl, rfl⟩
  | cons t ts ih =>
    have hs : (s.coding t).te_any = s.te_any ∧ (s.coding t).length = s.length ∧
        (s.coding t).duplicate = s.duplicate := by
      unfold coding
      dsimp only
      split_ifs <;> exact ⟨rfl, rfl, rfl⟩
    obtain ⟨ha, hl, hd⟩ := ih (s.coding t)
    exact ⟨ha.trans hs.1, hl.trans hs.2.1, hd.trans hs.2.2⟩

/-- `s` is what the pass knows after the fields `headers`. -/
structure FieldsRead (s : BodyScan) (headers : List HeaderView) : Prop where
  counted : Counted s (codings headers)
  any : s.te_any = true ↔ Coded headers
  length : s.length = (lengths headers).head?
  duplicate : s.duplicate = true ↔ 1 < (lengths headers).length

/-- What a line adds to the elements of a field. -/
def added (name : String) (h : HeaderView) : List Bytes :=
  if isField name h then (h.value.splitOn 0x2C).map trimAscii else []

theorem listElements_concat (headers : List HeaderView) (h : HeaderView) (name : String) :
    listElements (headers ++ [h]) (ascii name) =
      listElements headers (ascii name) ++ added name h := by
  cases hn : eqIgnoreAsciiCase h.name (ascii name) <;> simp [listElements, added, isField, hn]

theorem codings_concat (headers : List HeaderView) (h : HeaderView) : codings (headers ++ [h]) =
      codings headers ++ (added "transfer-encoding" h).filter (· ≠ []) := by
  rw [codings, elements, listElements_concat, filter_append]
  rfl

theorem lengths_concat (headers : List HeaderView) (h : HeaderView) :
    lengths (headers ++ [h]) = lengths headers ++ lengths [h] := by
  simp [lengths]

theorem coded_concat : Coded (headers ++ [h]) ↔ Coded headers ∨ isField "transfer-encoding" h := by
  simp [Coded]

theorem isField_of_isField (name other : String) (hn : isField name h = true)
    (hne : eqIgnoreAsciiCase (ascii name) (ascii other) = false) : isField other h = false := by
  rw [isField, eqIgnoreAsciiCase, beq_iff_eq] at hn
  rwa [isField, eqIgnoreAsciiCase, hn]

theorem BodyScan.field_eq (s : BodyScan) (h : HeaderView) :
    s.field h = if isField "transfer-encoding" h then
        (h.value.splitOn 0x2C).foldl coding { s with te_any := true }
      else if isField "content-length" h then
        if s.length.isSome then { s with duplicate := true } else { s with length := some h.value }
      else s :=
  rfl

theorem FieldsRead.field (hs : FieldsRead s headers)
    (h : HeaderView) : FieldsRead (s.field h) (headers ++ [h]) := by
  rw [BodyScan.field_eq]
  cases ht : isField "transfer-encoding" h with
  | true =>
    have hlen : lengths [h] = [] := by
      simp [lengths, isField_of_isField _ "content-length" ht (by decide)]
    obtain ⟨ha, hln, hd⟩ :=
      foldl_coding (h.value.splitOn 0x2C) { s with te_any := true }
    rw [if_pos rfl]
    refine ⟨?_, ?_, ?_, ?_⟩
    · rw [codings_concat, added, if_pos ht]
      have hcn : Counted { s with te_any := true } (codings headers) :=
        { hs.counted with }
      exact hcn.codings _
    · rw [ha, coded_concat]
      exact iff_of_true rfl (.inr ht)
    · rw [hln, lengths_concat, hlen, append_nil]
      exact hs.length
    · rw [hd, lengths_concat, hlen, append_nil]
      exact hs.duplicate
  | false =>
    have hc : codings (headers ++ [h]) = codings headers := by
      simp [codings_concat, added, ht]
    have hco : Coded (headers ++ [h]) ↔ Coded headers := by
      rw [coded_concat, ht]
      simp
    cases hcl : isField "content-length" h with
    | true =>
      have hlen : lengths (headers ++ [h]) = lengths headers ++ [h.value] := by simp [lengths, hcl]
      cases hl : lengths headers with
      | nil =>
        have hn : s.length = none := by rw [hs.length, hl]; rfl
        rw [hn, if_neg (by simp)]
        refine ⟨hc ▸ { hs.counted with },
          hs.any.trans hco.symm, by rw [hlen, hl]; rfl, ?_⟩
        rw [hlen, hl]
        simpa [hl] using hs.duplicate
      | cons v vs =>
        have hso : s.length = some v := by rw [hs.length, hl]; rfl
        rw [hso, Option.isSome_some, if_pos rfl]
        refine ⟨hc ▸ { hs.counted with },
          hs.any.trans hco.symm, by rw [hlen, hl]; rfl, ?_⟩
        rw [hlen, hl]
        simp
    | false =>
      have hlen : lengths (headers ++ [h]) = lengths headers := by simp [lengths, hcl]
      exact ⟨hc ▸ hs.counted, hs.any.trans hco.symm, hlen ▸ hs.length, hlen ▸ hs.duplicate⟩

theorem fieldsRead_foldl (headers : List HeaderView) :
    FieldsRead (headers.foldl field default) headers := by
  induction headers using reverseRecOn with
  | nil =>
    refine ⟨⟨rfl, rfl, rfl⟩, ?_, rfl, ?_⟩
    · simp [Coded]
    · simp [lengths]
  | append_singleton headers h ih =>
    rw [foldl_append]
    exact ih.field h

theorem chunkedOnceLast_iff :
    ChunkedOnceLast cs ↔ cs.countP isChunked = 1 ∧ cs.getLast?.any isChunked = true := by
  constructor
  · rintro ⟨front, last, rfl, hl, hf⟩
    have hz : front.countP isChunked = 0 := countP_eq_zero.2 hf
    simp [hz, hl]
  · rintro ⟨ho, hl⟩
    rcases cs.eq_nil_or_concat with rfl | ⟨front, last, rfl⟩
    · cases hl
    · rw [concat_eq_append] at *
      have hl' : isChunked last = true := by simpa using hl
      refine ⟨front, last, rfl, hl', ?_⟩
      rw [countP_append, countP_singleton, if_pos hl'] at ho
      exact countP_eq_zero.1 (by omega)

theorem ofNat_eq_one_iff (h : n < 2 ^ 32) : UInt32.ofNat n = 1 ↔ n = 1 := by
  rw [← UInt32.toNat_inj, UInt32.toNat_ofNat_of_lt' h]
  rfl

theorem ofNat_pos_iff (h : n < 2 ^ 32) : 0 < UInt32.ofNat n ↔ 0 < n := by
  rw [UInt32.lt_iff_toNat_lt, UInt32.toNat_ofNat_of_lt' h]
  rfl

section Agreement

variable {headers : List HeaderView} {vn : Version} {r : Except Status BodyKind} {s : BodyScan}

section

variable (hs : FieldsRead s headers)
include hs

theorem FieldsRead.bad_codings_iff (hf : (codings headers).length < 2 ^ 32) :
    (s.te_chunked ≠ 1 ∨ s.te_last_chunked = false) ↔ ¬ChunkedOnceLast (codings headers) := by
  rw [chunkedOnceLast_iff, hs.counted.chunked, hs.counted.last, not_and_or, Bool.not_eq_true,
    ne_eq, ofNat_eq_one_iff (lt_of_le_of_lt countP_le_length hf)]

theorem FieldsRead.other_codings_iff (hf : (codings headers).length < 2 ^ 32) :
    0 < s.te_other ↔ ∃ c ∈ codings headers, ¬isChunked c := by
  rw [hs.counted.other, ofNat_pos_iff (lt_of_le_of_lt countP_le_length hf), countP_pos_iff]
  simp

theorem FieldsRead.bad_length_iff (ho : (lengths headers).length ≤ 1) :
    (s.length.any fun v => (parseContentLength v).isNone) = true ↔
      ∃ v ∈ lengths headers, ∀ n, ¬IsDecimal v n := by
  rw [hs.length]
  match hl : lengths headers, ho with
  | [], _ => simp
  | [v], _ => simp [parseContentLength_eq_none_iff]

end

theorem bodyFrom_of_framing (hf : (codings headers).length < 2 ^ 32)
    (h : BodyFraming headers vn r) : bodyFrom headers vn = r := by
  have hs := fieldsRead_foldl headers
  unfold bodyFrom
  generalize headers.foldl field default = s at hs
  have hsi : (lengths headers).length ≤ 1 → ¬s.duplicate = true := fun ho hd =>
    absurd (hs.duplicate.1 hd) (by omega)
  have hg : (lengths headers).length ≤ 1 → (∀ v ∈ lengths headers, ∃ n, IsDecimal v n) →
      ¬s.length.any (fun v => (parseContentLength v).isNone) = true := by
    intro ho hv hb
    obtain ⟨v, hmem, hnot⟩ := (hs.bad_length_iff ho).1 hb
    exact (hv v hmem).elim hnot
  have hbad := hs.bad_codings_iff hf
  have hoh := hs.other_codings_iff hf
  cases h with
  | manyLengths hm => rw [if_pos (hs.duplicate.2 hm)]
  | codedOnOldVersion ho hco => rw [if_neg (hsi ho), if_pos (hs.any.2 hco), if_pos rfl]
  | badCodings ho hco hcd =>
    rw [if_neg (hsi ho), if_pos (hs.any.2 hco), if_neg nofun, if_pos (hbad.2 hcd)]
  | badLengthBesides ho hco hl hv hnot =>
    rw [if_neg (hsi ho), if_pos (hs.any.2 hco), if_neg nofun,
      if_neg fun hb => hbad.1 hb hl, if_pos ((hs.bad_length_iff ho).2 ⟨_, hv, hnot⟩)]
  | otherCodings ho hco hl hv hc =>
    rw [if_neg (hsi ho), if_pos (hs.any.2 hco), if_neg nofun,
      if_neg fun hb => hbad.1 hb hl, if_neg (hg ho hv),
      if_pos (hoh.2 hc)]
  | chunked ho hco hl hv hall =>
    have hno : ¬∃ c ∈ codings headers, ¬isChunked c := fun ⟨c, hmem, hc⟩ => hc (hall c hmem)
    rw [if_neg (hsi ho), if_pos (hs.any.2 hco), if_neg nofun,
      if_neg fun hb => hbad.1 hb hl, if_neg (hg ho hv),
      if_neg fun hc => hno (hoh.1 hc)]
  | empty hco hnil =>
    rw [if_neg (hsi (by simp [hnil])), if_neg fun ha => hco (hs.any.1 ha), hs.length, hnil]
    rfl
  | length hco ho hn =>
    rw [if_neg (hsi (by simp [ho])), if_neg fun ha => hco (hs.any.1 ha), hs.length,
      ho, head?_cons]
    simp [parseContentLength_eq_some_iff.2 hn]
  | badLength hco ho hnot =>
    rw [if_neg (hsi (by simp [ho])), if_neg fun ha => hco (hs.any.1 ha), hs.length,
      ho, head?_cons]
    simp [parseContentLength_eq_none_iff.2 hnot]

theorem exists_framing (headers : List HeaderView) (vn : Version) :
    ∃ r, BodyFraming headers vn r := by
  by_cases hm : 1 < (lengths headers).length
  · exact ⟨_, .manyLengths hm⟩
  have ho : (lengths headers).length ≤ 1 := by omega
  by_cases hco : Coded headers
  · cases vn with
    | http10 => exact ⟨_, .codedOnOldVersion ho hco⟩
    | http11 =>
      by_cases hla : ChunkedOnceLast (codings headers)
      · by_cases hv : ∃ v ∈ lengths headers, ∀ n, ¬IsDecimal v n
        · obtain ⟨v, hmem, hnot⟩ := hv
          exact ⟨_, .badLengthBesides ho hco hla hmem hnot⟩
        · push Not at hv
          by_cases hc : ∃ c ∈ codings headers, ¬isChunked c
          · exact ⟨_, .otherCodings ho hco hla hv hc⟩
          · push Not at hc
            exact ⟨_, .chunked ho hco hla hv hc⟩
      · exact ⟨_, .badCodings ho hco hla⟩
  · match hl : lengths headers, ho with
    | [], _ => exact ⟨_, .empty hco hl⟩
    | [v], _ =>
      by_cases hn : ∃ n, IsDecimal v n
      · obtain ⟨n, hn⟩ := hn
        exact ⟨_, .length hco hl hn⟩
      · push Not at hn
        exact ⟨_, .badLength hco hl hn⟩

theorem bodyFrom_eq_iff (hf : (codings headers).length < 2 ^ 32) :
    bodyFrom headers vn = r ↔ BodyFraming headers vn r := by
  refine ⟨fun h => ?_, bodyFrom_of_framing hf⟩
  obtain ⟨r', hr'⟩ := exists_framing headers vn
  rwa [← h, bodyFrom_of_framing hf hr']

end Agreement

theorem hasToken_concat (headers : List HeaderView) (h : HeaderView) (token : Bytes) :
    hasToken (headers ++ [h]) (ascii name) token =
      (hasToken headers (ascii name) token || (added name h).any (eqIgnoreAsciiCase · token)) := by
  rw [hasToken, listElements_concat, any_append]
  rfl

/-- `s` is what the pass knows about the connection after the fields `headers`. -/
structure DispositionRead (s : DispositionScan) (headers : List HeaderView) : Prop where
  close : s.conn_close = hasToken headers (ascii "connection") (ascii "close")
  keep : s.conn_keep = hasToken headers (ascii "connection") (ascii "keep-alive")
  cl : s.has_cl = headers.any (isField "content-length")
  te : s.has_te = headers.any (isField "transfer-encoding")

theorem foldl_option (ts : List Bytes) (s : DispositionScan) : ts.foldl DispositionScan.option s =
      { s with
        conn_close := s.conn_close || (ts.map trimAscii).any (eqIgnoreAsciiCase · (ascii "close"))
        conn_keep := s.conn_keep ||
          (ts.map trimAscii).any (eqIgnoreAsciiCase · (ascii "keep-alive")) } := by
  induction ts generalizing s with
  | nil => simp
  | cons t ts ih =>
    rw [foldl_cons, ih, DispositionScan.option]
    cases hc : eqIgnoreAsciiCase (trimAscii t) (ascii "close") with
    | true =>
      have hk : eqIgnoreAsciiCase (trimAscii t) (ascii "keep-alive") = false := by
        rw [eqIgnoreAsciiCase, beq_iff_eq] at hc
        rw [eqIgnoreAsciiCase, hc]
        decide
      simp [hc, hk]
    | false => cases hk : eqIgnoreAsciiCase (trimAscii t) (ascii "keep-alive") <;> simp [hc, hk]

theorem DispositionScan.field_eq (s : DispositionScan) (h : HeaderView) :
    s.field h = if isField "connection" h then
        (h.value.splitOn 0x2C).foldl DispositionScan.option s
      else if isField "content-length" h then { s with has_cl := true }
      else if isField "transfer-encoding" h then { s with has_te := true }
      else s :=
  rfl

theorem DispositionRead.field {s : DispositionScan}
    (hs : DispositionRead s headers) (h : HeaderView) :
    DispositionRead (s.field h) (headers ++ [h]) := by
  rw [DispositionScan.field_eq]
  cases hc : isField "connection" h with
  | true =>
    have hcl := isField_of_isField _ "content-length" hc (by decide)
    have ht := isField_of_isField _ "transfer-encoding" hc (by decide)
    rw [if_pos rfl, foldl_option]
    constructor
    · rw [hasToken_concat, added, if_pos hc, hs.close]
    · rw [hasToken_concat, added, if_pos hc, hs.keep]
    · simp [hs.cl, hcl]
    · simp [hs.te, ht]
  | false =>
    have hto : ∀ token, hasToken headers (ascii "connection") token =
        hasToken (headers ++ [h]) (ascii "connection") token := fun token => by
      simp [hasToken_concat, added, hc]
    have hclo := hs.close.trans (hto _)
    have hk := hs.keep.trans (hto _)
    cases hcl : isField "content-length" h with
    | true =>
      have ht := isField_of_isField _ "transfer-encoding" hcl (by decide)
      exact ⟨hclo, hk, by simp [hcl], by simp [hs.te, ht]⟩
    | false =>
      cases ht : isField "transfer-encoding" h with
      | true => exact ⟨hclo, hk, by simp [hs.cl, hcl], by simp [ht]⟩
      | false => exact ⟨hclo, hk, by simp [hs.cl, hcl], by simp [hs.te, ht]⟩

theorem dispositionRead_foldl (headers : List HeaderView) :
    DispositionRead (headers.foldl DispositionScan.field default) headers := by
  induction headers using reverseRecOn with
  | nil => exact ⟨rfl, rfl, rfl, rfl⟩
  | append_singleton headers h ih =>
    rw [foldl_append]
    exact ih.field h

theorem responseDisposition_eq (head : Head) : head.responseDisposition =
    (!hasToken head.headers (ascii "connection") (ascii "close") && (head.version == .http11 ||
          hasToken head.headers (ascii "connection") (ascii "keep-alive")),
      head.headers.any (isField "content-length") &&
        head.headers.any (isField "transfer-encoding")) := by
  have hs := dispositionRead_foldl head.headers
  simp only [Head.responseDisposition, hs.close, hs.keep, hs.cl, hs.te]
  cases head.version <;> rfl

/-- The two heads have the same lengths and the same lists, however these are split. -/
structure SameLists (a b : List HeaderView) : Prop where
  lengths : lengths a = lengths b
  codings : codings a = codings b
  coded : Coded a ↔ Coded b
  options : elements "connection" a = elements "connection" b

variable {a b : List HeaderView}

theorem FieldsRead.unique {s' : BodyScan} (ha : FieldsRead s a) (hb : FieldsRead s' b)
    (h : SameLists a b) : s = s' := by
  have hany : s.te_any = s'.te_any := Bool.eq_iff_iff.2 (ha.any.trans (h.coded.trans hb.any.symm))
  have hc := ha.counted.chunked.trans (h.codings ▸ hb.counted.chunked.symm)
  have ho := ha.counted.other.trans (h.codings ▸ hb.counted.other.symm)
  have hl := ha.counted.last.trans (h.codings ▸ hb.counted.last.symm)
  have hln := ha.length.trans (h.lengths ▸ hb.length.symm)
  have hd : s.duplicate = s'.duplicate :=
    Bool.eq_iff_iff.2 (ha.duplicate.trans (h.lengths ▸ hb.duplicate.symm))
  exact mk.injEq .. ▸ ⟨hany, hc, ho, hl, hln, hd⟩

theorem hasToken_eq_elements (headers : List HeaderView) (name : String) {token : Bytes}
    (h : token ≠ []) : hasToken headers (ascii name) token =
      (elements name headers).any (eqIgnoreAsciiCase · token) := by
  rw [hasToken, elements, any_filter]
  refine congrArg _ (funext fun t => ?_)
  by_cases ht : t = []
  · have hn : eqIgnoreAsciiCase [] token = false := by
      rw [eqIgnoreAsciiCase, beq_eq_false_iff_ne, map_nil]
      exact fun hnil => h (map_eq_nil_iff.1 hnil.symm)
    simp [ht, hn]
  · simp [ht]

theorem any_length_iff (headers : List HeaderView) :
    headers.any (isField "content-length") = decide (lengths headers ≠ []) := by
  rw [Bool.eq_iff_iff, decide_eq_true_iff]
  simp [lengths]

theorem any_coded_iff (headers : List HeaderView) :
    headers.any (isField "transfer-encoding") = true ↔ Coded headers := by
  rw [any_eq_true]
  rfl

theorem SameLists.responseDisposition (h : SameLists a b) (method target : Bytes) (vn : Version) :
    Head.responseDisposition ⟨method, target, vn, a⟩ =
      Head.responseDisposition ⟨method, target, vn, b⟩ := by
  have hc : a.any (isField "transfer-encoding") = b.any (isField "transfer-encoding") := by
    rw [Bool.eq_iff_iff, any_coded_iff, any_coded_iff, h.coded]
  simp only [responseDisposition_eq, hc, any_length_iff, h.lengths, h.options,
    hasToken_eq_elements _ "connection" (show ascii "close" ≠ [] by decide),
    hasToken_eq_elements _ "connection" (show ascii "keep-alive" ≠ [] by decide)]

/-- The fields whose value is a list. -/
def IsListField (name : Bytes) : Prop :=
  eqIgnoreAsciiCase name (ascii "transfer-encoding") ∨ eqIgnoreAsciiCase name (ascii "connection")

theorem isField_congr {h' : HeaderView} (heq : eqIgnoreAsciiCase h'.name h.name = true)
    (field : String) : isField field h' = isField field h := by
  rw [eqIgnoreAsciiCase, beq_iff_eq] at heq
  rw [isField, isField, eqIgnoreAsciiCase, eqIgnoreAsciiCase, heq]

theorem elements_append (field : String) (a b : List HeaderView) :
    elements field (a ++ b) = elements field a ++ elements field b := by
  simp [elements, listElements]

theorem elements_split (field : String) {name name' : Bytes} (v w : Bytes)
    (hn : eqIgnoreAsciiCase name' name = true) :
    elements field [⟨name, v ++ 0x2C :: w⟩] = elements field [⟨name, v⟩, ⟨name', w⟩] := by
  have hb : eqIgnoreAsciiCase name' (ascii field) = eqIgnoreAsciiCase name (ascii field) :=
    @isField_congr ⟨name, v⟩ ⟨name', w⟩ hn field
  cases hf : eqIgnoreAsciiCase name (ascii field) <;>
    simp [elements, listElements, hb, hf, splitOn_append_cons_self]

/-- Cutting a line of a list-valued field at a comma leaves the lists as they were. -/
theorem SameLists.split {name name' : Bytes} (hl : IsListField name)
    (hn : eqIgnoreAsciiCase name' name = true) (v w : Bytes) (before after : List HeaderView) :
    SameLists (before ++ ⟨name, v ++ 0x2C :: w⟩ :: after)
      (before ++ ⟨name, v⟩ :: ⟨name', w⟩ :: after) := by
  have he : ∀ field, elements field (before ++ ⟨name, v ++ 0x2C :: w⟩ :: after) =
      elements field (before ++ ⟨name, v⟩ :: ⟨name', w⟩ :: after) := by
    intro field
    rw [elements_append, elements_append, ← singleton_append, elements_append,
      elements_split field v w hn, ← elements_append]
    rfl
  have hk : ∀ field u u', isField field ⟨name', u'⟩ = isField field ⟨name, u⟩ :=
    fun field u u' => isField_congr hn field
  have hnot : ∀ u, isField "content-length" ⟨name, u⟩ = false := by
    intro u
    rcases hl with ht | hc
    · exact isField_of_isField "transfer-encoding" "content-length" ht (by decide)
    · exact isField_of_isField "connection" "content-length" hc (by decide)
  refine ⟨?_, he _, ?_, he _⟩
  · simp [Http.lengths, hnot, hk "content-length" v w]
  · have hs : isField "transfer-encoding" ⟨name, v ++ 0x2C :: w⟩ =
        isField "transfer-encoding" ⟨name, v⟩ := rfl
    simp only [← any_coded_iff, any_append, any_cons, hs, hk "transfer-encoding" v w]
    rw [← Bool.or_assoc (isField "transfer-encoding" ⟨name, v⟩), Bool.or_self]

/-- The framing follows the rules while the counters do not wrap, the disposition follows the
connection options, and neither depends on how a list is split over lines. -/
theorem fields_read_as_lists (headers : List HeaderView) (version : Version) :
    ((codings headers).length < 2 ^ 32 →
      ∀ r, bodyFrom headers version = r ↔ BodyFraming headers version r) ∧
    (∀ method target, Head.responseDisposition ⟨method, target, version, headers⟩ =
      (!hasToken headers (ascii "connection") (ascii "close") &&
          (version == .http11 || hasToken headers (ascii "connection") (ascii "keep-alive")),
        headers.any (isField "content-length") && headers.any (isField "transfer-encoding"))) ∧
    (∀ headers', SameLists headers headers' → bodyFrom headers version = bodyFrom headers' version ∧
      ∀ method target, Head.responseDisposition ⟨method, target, version, headers⟩ =
        Head.responseDisposition ⟨method, target, version, headers'⟩) ∧
    ∀ name name' v w before after, IsListField name → eqIgnoreAsciiCase name' name →
      headers = before ++ ⟨name, v ++ 0x2C :: w⟩ :: after →
      SameLists headers (before ++ ⟨name, v⟩ :: ⟨name', w⟩ :: after) := by
  refine ⟨fun hf r => bodyFrom_eq_iff hf, fun method target => responseDisposition_eq _,
    fun headers' h => ⟨(by rw [Http.bodyFrom, Http.bodyFrom, (fieldsRead_foldl headers).unique
      (fieldsRead_foldl headers') h]), fun method target => h.responseDisposition ..⟩, ?_⟩
  rintro name name' v w before after hl hn rfl
  exact .split hl hn v w before after

/-- A coding besides the chunked one is not implemented, whatever length stands with it. -/
theorem fields_read_as_lists_other_coding : bodyFrom [⟨ascii "Content-Length", ascii "5"⟩,
      ⟨ascii "Transfer-Encoding", ascii "gzip, Chunked"⟩] .http11 = .error 501 := by
  refine ((fields_read_as_lists _ _).1 (by decide) _).2 (.otherCodings (by decide) ?_ ?_ ?_ ?_)
  · exact ⟨_, mem_cons_of_mem _ mem_cons_self, by decide⟩
  · exact ⟨[ascii "gzip"], ascii "Chunked", by decide, by decide, by decide⟩
  · intro v hv
    have hf : v = ascii "5" := by simpa using (show v ∈ [ascii "5"] from hv)
    exact ⟨5, hf ▸ ⟨by decide, by decide +kernel, by decide +kernel, by decide +kernel⟩⟩
  · exact ⟨ascii "gzip", by decide, by decide⟩

def repeated (n : ℕ) : List HeaderView :=
  [⟨ascii "Transfer-Encoding", [0x2C].intercalate (List.replicate n (ascii "chunked"))⟩]

theorem codings_repeated (hn : n ≠ 0) :
    codings (repeated n) = List.replicate n (ascii "chunked") := by
  have hne : replicate n (ascii "chunked") ≠ [] := by simpa using hn
  have hs : ([0x2C].intercalate (replicate n (ascii "chunked"))).splitOn 0x2C =
      replicate n (ascii "chunked") := by
    refine splitOn_intercalate 0x2C (fun l hl => ?_) hne
    rw [eq_of_mem_replicate hl]
    decide
  have hf : isField "transfer-encoding" ⟨ascii "Transfer-Encoding",
      [0x2C].intercalate (replicate n (ascii "chunked"))⟩ = true := by
    exact show eqIgnoreAsciiCase (ascii "Transfer-Encoding") (ascii "transfer-encoding") = true by
      decide
  rw [repeated, ← nil_append [_], codings_concat, added, if_pos hf, hs,
    show codings [] = [] from rfl]
  simp [show trimAscii (ascii "chunked") = ascii "chunked" by decide,
    show ascii "chunked" ≠ [] by decide]

theorem lengths_repeated (n : ℕ) : lengths (repeated n) = [] := by
  have hn : isField "content-length" ⟨ascii "Transfer-Encoding",
      [0x2C].intercalate (replicate n (ascii "chunked"))⟩ = false :=
    show eqIgnoreAsciiCase (ascii "Transfer-Encoding") (ascii "content-length") = false by decide
  simp [lengths, repeated, hn]

theorem coded_repeated (n : ℕ) : Coded (repeated n) :=
  ⟨_, mem_cons_self,
    show eqIgnoreAsciiCase (ascii "Transfer-Encoding") (ascii "transfer-encoding") = true by decide⟩

theorem isChunked_chunked : isChunked (ascii "chunked") = true := by decide

theorem bodyFrom_repeated (hn : n ≠ 0) (hw : UInt32.ofNat n = 1) :
    bodyFrom (repeated n) .http11 = .ok .chunked := by
  have hs := fieldsRead_foldl (repeated n)
  have hc := codings_repeated hn
  unfold bodyFrom
  generalize (repeated n).foldl field default = s at hs
  have ho : s.te_chunked = 1 := by
    rw [hs.counted.chunked, hc, countP_replicate, if_pos isChunked_chunked, hw]
  have hz : s.te_other = 0 := by
    rw [hs.counted.other, hc, countP_replicate, if_neg (by simp [isChunked_chunked])]
    rfl
  have hl : s.te_last_chunked = true := by
    rw [hs.counted.last, hc, getLast?_replicate, if_neg hn]
    exact isChunked_chunked
  have hd : ¬s.duplicate = true := fun hd => by
    have hm := hs.duplicate.1 hd
    rw [lengths_repeated] at hm
    exact absurd hm (by decide)
  have hln : s.length = none := by rw [hs.length, lengths_repeated]; rfl
  rw [if_neg hd, if_pos (hs.any.2 (coded_repeated n)), if_neg nofun, if_neg (by simp [ho, hl]),
    hln, hz]
  rfl

theorem framing_repeated (hn : 1 < n) : BodyFraming (repeated n) .http11 (.error 400) := by
  refine .badCodings (by rw [lengths_repeated]; decide) (coded_repeated n) fun hl => ?_
  have ho := (chunkedOnceLast_iff.1 hl).1
  rw [codings_repeated (by omega), countP_replicate, if_pos isChunked_chunked] at ho
  omega

/-- Past 2³² codings the count is taken for one, and the list is accepted. -/
theorem chunked_count_wraps : bodyFrom (repeated (2 ^ 32 + 1)) .http11 = .ok .chunked ∧
      BodyFraming (repeated (2 ^ 32 + 1)) .http11 (.error 400) :=
  ⟨bodyFrom_repeated (by decide) (by decide), framing_repeated (by decide)⟩

end TruenasRos.Http
