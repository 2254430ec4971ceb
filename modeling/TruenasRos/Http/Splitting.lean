import TruenasRos.Http.Fields
import TruenasRos.Http.Response
import TruenasRos.Http.Scan

/-! # No response splitting

A serialised response is read back line by line: the lines of its head are those the
codec writes and one for each field it admitted, and what follows the first empty line
is the body the head declares. No name or value of a handler adds a line.
-/

namespace TruenasRos.Http

open List Nat

/-- Cut `b` at its first line ends, up to and with the first empty line. -/
def cutHead : ℕ → Bytes → Option (List Bytes × Bytes)
  | 0, _ => none
  | fuel + 1, b =>
    match crlfPosition b with
    | none => none
    | some 0 => some ([], b.drop 2)
    | some i => (cutHead fuel (b.drop (i + 2))).map fun r => (b.take i :: r.1, r.2)

/-- The lines of the head of `b` and the bytes after its empty line. -/
def readHead (b : Bytes) : Option (List Bytes × Bytes) := cutHead b.length b

structure IsLine (line : Bytes) : Prop where
  ne_nil : line ≠ []
  cr : CR ∉ line
  lf : LF ∉ line

theorem IsLine.position {line : Bytes} (h : IsLine line) (rest : Bytes) :
    crlfPosition (line ++ CRLF ++ rest) = some line.length := by
  rw [append_assoc]
  refine crlfPosition_line (any_eq_false.2 fun b hb he => ?_) rest
  rcases Bool.or_eq_true_iff.1 he with hc | hl
  · exact h.cr (beq_iff_eq.1 hc ▸ hb)
  · exact h.lf (beq_iff_eq.1 hl ▸ hb)

variable {lines : List Bytes} {d : ℕ} {name value : Bytes}

theorem cutHead_lines (h : ∀ line ∈ lines, IsLine line) (body : Bytes)
    {fuel : ℕ} (hf : lines.length < fuel) :
    cutHead fuel (lines.flatMap (· ++ CRLF) ++ CRLF ++ body) = some (lines, body) := by
  induction lines generalizing fuel with
  | nil =>
    obtain ⟨fuel, rfl⟩ := exists_eq_succ_of_ne_zero (by omega : fuel ≠ 0)
    rfl
  | cons line lines ih =>
    obtain ⟨fuel, rfl⟩ := exists_eq_succ_of_ne_zero (by omega : fuel ≠ 0)
    rw [forall_mem_cons] at h
    obtain ⟨i, hi⟩ : ∃ i, line.length = i + 1 :=
      exists_eq_succ_of_ne_zero fun h0 => h.1.ne_nil (length_eq_zero_iff.1 h0)
    have hr : (line :: lines).flatMap (· ++ CRLF) ++ CRLF ++ body =
        line ++ CRLF ++ (lines.flatMap (· ++ CRLF) ++ CRLF ++ body) := by simp
    have hc : cutHead fuel _ = _ := ih h.2 (by simpa using hf)
    rw [hr]
    generalize lines.flatMap (· ++ CRLF) ++ CRLF ++ body = rest at hc
    have hpos := h.1.position rest
    have ht : (line ++ CRLF ++ rest).take (i + 1) = line := by
      rw [← hi, append_assoc, take_left]
    have hd : (line ++ CRLF ++ rest).drop (i + 1 + 2) = rest := by
      rw [← hi]
      exact drop_left' (by simp [CRLF])
    rw [hi] at hpos
    rw [cutHead, hpos]
    simp only [ht, hd, hc]
    rfl

theorem readHead_lines (h : ∀ line ∈ lines, IsLine line) (body : Bytes) :
    readHead (lines.flatMap (· ++ CRLF) ++ CRLF ++ body) = some (lines, body) := by
  apply cutHead_lines h body
  have hc : CRLF.length = 2 := rfl
  have hle : lines.length ≤ (lines.flatMap (· ++ CRLF)).length := by
    clear h
    induction lines with
    | nil => exact zero_le _
    | cons line lines ih =>
      rw [flatMap_cons, length_append, length_append, length_cons]
      omega
  simp only [length_append]
  omega

theorem decimalValue_concat (v : Bytes) (b : UInt8) :
    decimalValue (v ++ [b]) = decimalValue v * 10 + (b - 0x30).toNat := by
  rw [decimalValue, foldl_append]
  rfl

theorem toNat_digit (h : d < 10) : (UInt8.ofNat (0x30 + d) - 0x30).toNat = d := by
  have hall : ∀ d : Fin 10, (UInt8.ofNat (0x30 + d) - 0x30).toNat = d := by decide
  exact hall ⟨d, h⟩

theorem isDigit_digit (h : d < 10) : isDigit (UInt8.ofNat (0x30 + d)) = true := by
  have hall : ∀ d : Fin 10, isDigit (UInt8.ofNat (0x30 + d)) = true := by decide
  exact hall ⟨d, h⟩

theorem pushDecimal_spec (n : ℕ) :
    decimalValue (pushDecimal n) = n ∧ pushDecimal n ≠ [] ∧ ∀ b ∈ pushDecimal n, isDigit b := by
  induction n using Nat.strong_induction_on with
  | _ n ih =>
    rw [pushDecimal]
    split_ifs with h
    · refine ⟨?_, by simp, fun b hb => ?_⟩
      · rw [← nil_append [UInt8.ofNat (0x30 + n)], decimalValue_concat, toNat_digit h]
        exact zero_add n
      · rw [mem_singleton.1 hb]
        exact isDigit_digit h
    · have hm : n % 10 < 10 := Nat.mod_lt n (by decide)
      obtain ⟨hv, -, hd⟩ := ih (n / 10) (by omega)
      refine ⟨?_, by simp, fun b hb => ?_⟩
      · rw [decimalValue_concat, toNat_digit hm, hv]
        omega
      · rcases mem_append.1 hb with hb | hb
        · exact hd b hb
        · rw [mem_singleton.1 hb]
          exact isDigit_digit hm

def Plain (b : Bytes) : Prop := CR ∉ b ∧ LF ∉ b

instance (b : Bytes) : Decidable (Plain b) := inferInstanceAs (Decidable (CR ∉ b ∧ LF ∉ b))

theorem Plain.append {a b : Bytes} (ha : Plain a) (hb : Plain b) : Plain (a ++ b) := by
  simp only [Plain, mem_append, not_or]
  exact ⟨⟨ha.1, hb.1⟩, ha.2, hb.2⟩

theorem plain_pushDecimal (n : ℕ) : Plain (pushDecimal n) :=
  ⟨fun h => absurd ((pushDecimal_spec n).2.2 CR h) (by decide),
    fun h => absurd ((pushDecimal_spec n).2.2 LF h) (by decide)⟩

theorem plain_reason (status : Status) : Plain (ascii (reason status)) := by
  unfold reason Plain
  split <;> decide

theorem plain_of_isToken (h : isToken name = true) : Plain name := by
  simp only [isToken, Bool.and_eq_true, all_eq_true] at h
  exact ⟨fun hc => absurd (h.2 CR hc) (by decide), fun hl => absurd (h.2 LF hl) (by decide)⟩

theorem plain_of_not_hasFieldBreak (h : hasFieldBreak value = false) : Plain value := by
  rw [hasFieldBreak, any_eq_false] at h
  exact ⟨fun hc => absurd (by decide) (h CR hc), fun hl => absurd (by decide) (h LF hl)⟩

theorem headerPairOk_iff : headerPairOk name value = true ↔
    isToken name = true ∧ isCodecOwned name = false ∧ hasFieldBreak value = false := by
  simp [headerPairOk, and_assoc]

/-- A response as a handler makes it: a status, fields, a body and perhaps a length to
declare to a HEAD request. -/
def answered (status : ℕ) (calls : List (Bytes × Bytes)) (body : Bytes) (head_len : Option ℕ) :
    HttpResponse :=
  let fields : HttpResponse := calls.foldl (fun r c => r.header c.1 c.2) (.new status)
  let resp := fields.withBody body
  match head_len with
  | some len => resp.headContentLength len
  | none => resp

def admitted (calls : List (Bytes × Bytes)) : List (Bytes × Bytes) :=
  calls.filter fun c => headerPairOk c.1 c.2

def connLines : ConnHeader → List Bytes
  | .none => []
  | .keepAlive => [ascii "Connection: keep-alive"]
  | .close => [ascii "Connection: close"]

/-- The lines of a head in order, given the digits it writes. -/
def headLines (status : Status) (code date len : Bytes) (conn : ConnHeader)
    (fields : List (Bytes × Bytes)) : List Bytes :=
  (ascii "HTTP/1.1 " ++ code ++ ascii " " ++ ascii (reason status)) ::
    (ascii "Date: " ++ date) ::
    ((if status = 204 ∨ status = 304 then [] else [ascii "Content-Length: " ++ len]) ++
      connLines conn ++ fields.map fun c => c.1 ++ ascii ": " ++ c.2)

theorem headers_foldl (calls : List (Bytes × Bytes)) (r : HttpResponse) :
    (calls.foldl (fun r c => r.header c.1 c.2) r).headers.map (fun h => (h.name, h.value)) =
      r.headers.map (fun h => (h.name, h.value)) ++ admitted calls := by
  induction calls generalizing r with
  | nil => simp [admitted]
  | cons c calls ih =>
    rw [foldl_cons, ih (r.header c.1 c.2)]
    unfold HttpResponse.header ScreenedHeader.new
    by_cases hc : headerPairOk c.1 c.2 = true
    · simp [hc, admitted]
    · simp [hc, admitted]

section

variable (resp : HttpResponse)

theorem statusIsBodyless_iff :
    statusIsBodyless resp.status = true ↔ resp.status = 204 ∨ resp.status = 304 := by
  have hf := resp.final.1
  have hn : (decide (resp.status ≤ 199)) = false := decide_eq_false (by omega)
  simp [statusIsBodyless, hn]

def declared (head_only : Bool) : ℕ :=
  match resp.head_len, head_only with
  | some len, true => len
  | _, _ => resp.body.declaredLen

theorem declared_of_bodied : declared resp false = resp.body.declaredLen := by
  unfold declared
  cases resp.head_len <;> rfl

theorem writeHead_eq (head_only : Bool) (date : Bytes) (conn : ConnHeader) :
    writeHead resp head_only date conn =
      (headLines resp.status (pushDecimal resp.status) date (pushDecimal (declared resp head_only))
        conn (resp.headers.map fun h => (h.name, h.value))).flatMap (· ++ CRLF) ++ CRLF := by
  have hlen : (if statusIsBodyless resp.status then []
      else ascii "Content-Length: " ++ pushDecimal (declared resp head_only) ++ CRLF) =
      (if resp.status = 204 ∨ resp.status = 304 then []
        else [ascii "Content-Length: " ++ pushDecimal (declared resp head_only)]).flatMap
          (· ++ CRLF) := by
    by_cases h : resp.status = 204 ∨ resp.status = 304
    · rw [if_pos ((statusIsBodyless_iff resp).2 h), if_pos h, flatMap_nil]
    · rw [if_neg fun hb => h ((statusIsBodyless_iff resp).1 hb), if_neg h, flatMap_cons,
        flatMap_nil, append_nil]
  have hh : writeHead resp head_only date conn =
      ascii "HTTP/1.1 " ++ pushDecimal resp.status ++ ascii " " ++ ascii (reason resp.status) ++
        (CRLF ++ ascii "Date: ") ++ date ++ CRLF ++
        (if statusIsBodyless resp.status then []
          else ascii "Content-Length: " ++ pushDecimal (declared resp head_only) ++ CRLF) ++
        (connLines conn).flatMap (· ++ CRLF) ++
        (resp.headers.flatMap fun h => h.name ++ ascii ": " ++ h.value ++ CRLF) ++ CRLF := by
    cases conn <;> rfl
  rw [hh, hlen]
  simp [headLines, flatMap_map]

theorem isLine_of_plain {a b : Bytes} (ha : Plain a) (hb : Plain b) (hne : a ≠ []) :
    IsLine (a ++ b) :=
  ⟨append_ne_nil_of_left_ne_nil hne b, (ha.append hb).1, (ha.append hb).2⟩

theorem isLine_headLines {status n m : ℕ} {date : Bytes} {conn : ConnHeader}
    {fs : List (Bytes × Bytes)} (hd : Plain date) (hf : ∀ c ∈ fs, headerPairOk c.1 c.2 = true) :
    ∀ line ∈ headLines status (pushDecimal n) date (pushDecimal m) conn fs, IsLine line := by
  intro line hl
  simp only [headLines, mem_cons, mem_append, mem_map] at hl
  rcases hl with rfl | rfl | (hl | hl) | ⟨c, hc, rfl⟩
  · simp only [append_assoc]
    exact isLine_of_plain (by decide)
      ((plain_pushDecimal n).append (.append (by decide) (plain_reason status))) (by decide)
  · exact isLine_of_plain (by decide) hd (by decide)
  · split_ifs at hl
    · exact absurd hl not_mem_nil
    · rw [mem_singleton.1 hl]
      exact isLine_of_plain (by decide) (plain_pushDecimal m) (by decide)
  · cases conn with
    | none => exact absurd hl not_mem_nil
    | keepAlive | close =>
      rw [mem_singleton.1 hl]
      exact ⟨by decide, by decide, by decide⟩
  · obtain ⟨ht, -, hv⟩ := headerPairOk_iff.1 (hf c hc)
    have hn : c.1 ≠ [] := by
      rw [isToken, Bool.and_eq_true] at ht
      exact of_decide_eq_true ht.1
    rw [append_assoc]
    exact isLine_of_plain (plain_of_isToken ht)
      (.append (by decide) (plain_of_not_hasFieldBreak hv)) hn

/-- The segments of a reply in sending order; a file tail is not one. -/
def Serialized.segments : Serialized → List Bytes
  | .headOnly head => [head]
  | .split head body => [head, body]
  | .fileTail head _ _ _ => [head]

def sent (head_only : Bool) : Bytes :=
  match resp.body with
  | .bytes b => if !head_only && !statusIsBodyless resp.status then b else []
  | .file _ _ _ => []

theorem flatten_segments {body : Bytes} (hbo : resp.body = .bytes body)
    (head_only : Bool) (date : Bytes) (conn : ConnHeader) :
    (serializeReply resp head_only date conn).segments.flatten =
      serialize resp head_only date conn := by
  rw [serializeReply, serialize, hbo]
  cases head_only <;> cases hb : statusIsBodyless resp.status <;> cases body <;>
    simp [Serialized.segments]

end

/-- Whatever a handler puts into its response, the bytes are the lines of the codec and
one line for each admitted field, an empty line, and the body that the length declares. -/
theorem serialize_reads_back (status : ℕ) (calls : List (Bytes × Bytes)) (body : Bytes)
    (head_len : Option ℕ) (head_only : Bool) (conn : ConnHeader) (date : Bytes)
    (hdate : CR ∉ date ∧ LF ∉ date) :
    let resp := answered status calls body head_len
    let bytes := serialize resp head_only date conn
    ∃ code len payload,
      readHead bytes = some (headLines resp.status code date len conn (admitted calls), payload) ∧
      bytes = (headLines resp.status code date len conn (admitted calls)).flatMap (· ++ CRLF) ++
        CRLF ++ payload ∧
      (∀ line ∈ headLines resp.status code date len conn (admitted calls),
        line ≠ [] ∧ CR ∉ line ∧ LF ∉ line) ∧
      (code.length = 3 ∧ (∀ b ∈ code, isDigit b) ∧ decimalValue code = resp.status ∧
        200 ≤ resp.status ∧ resp.status ≤ 999) ∧
      (∀ c ∈ admitted calls, ∀ owned ∈ ["content-length", "connection", "date",
        "transfer-encoding"], eqIgnoreAsciiCase c.1 (ascii owned) = false) ∧
      (len ≠ [] ∧ ∀ b ∈ len, isDigit b) ∧
      (if head_only = false ∧ resp.status ≠ 204 ∧ resp.status ≠ 304 then
        decimalValue len = payload.length ∧ payload = body
      else payload = []) ∧
      (serializeReply resp head_only date conn).segments.flatten = bytes := by
  intro resp bytes
  have hbo : resp.body = .bytes body := by cases head_len <;> rfl
  have hh : resp.headers.map (fun h => (h.name, h.value)) = admitted calls := by
    cases head_len <;> exact headers_foldl calls (.new status)
  have hl : ∀ line ∈ headLines resp.status (pushDecimal resp.status) date
      (pushDecimal (declared resp head_only)) conn (admitted calls), IsLine line :=
    isLine_headLines hdate fun c hc => (mem_filter.1 hc).2
  have hby : bytes = (headLines resp.status (pushDecimal resp.status) date
      (pushDecimal (declared resp head_only)) conn (admitted calls)).flatMap (· ++ CRLF) ++ CRLF ++
        sent resp head_only := by
    rw [← hh, ← writeHead_eq]
    rfl
  refine ⟨pushDecimal resp.status, pushDecimal (declared resp head_only), sent resp head_only,
    ?_, hby, fun line hln => ⟨(hl line hln).ne_nil, (hl line hln).cr,
      (hl line hln).lf⟩, ⟨?_, (pushDecimal_spec _).2.2, (pushDecimal_spec _).1, resp.final⟩, ?_,
    (pushDecimal_spec _).2, ?_, ?_⟩
  · rw [hby, readHead_lines hl]
  · rw [pushDecimal_of_three_digits (le_trans (by decide) resp.final.1) resp.final.2]
    rfl
  · intro c hc owned ho
    have hn := (headerPairOk_iff.1 (mem_filter.1 hc).2).2.1
    rw [isCodecOwned, any_eq_false] at hn
    exact Bool.eq_false_iff.2 (hn owned ho)
  · rw [sent, hbo]
    by_cases h : head_only = false ∧ resp.status ≠ 204 ∧ resp.status ≠ 304
    · have hbd : statusIsBodyless resp.status = false :=
        Bool.eq_false_iff.2 fun hb => ((statusIsBodyless_iff resp).1 hb).elim h.2.1 h.2.2
      have hd : declared resp head_only = body.length := by
        rw [h.1, declared_of_bodied, hbo]
        rfl
      rw [if_pos h, hd, h.1, hbd]
      exact ⟨(pushDecimal_spec _).1, rfl⟩
    · rw [if_neg h]
      refine if_neg fun hs => h ?_
      rw [Bool.and_eq_true, Bool.not_eq_true', Bool.not_eq_true'] at hs
      refine ⟨hs.1, fun h204 => ?_, fun h304 => ?_⟩
      · exact absurd ((statusIsBodyless_iff resp).2 (.inl h204)) (Bool.eq_false_iff.1 hs.2)
      · exact absurd ((statusIsBodyless_iff resp).2 (.inr h304)) (Bool.eq_false_iff.1 hs.2)
  · exact flatten_segments resp hbo head_only date conn

/-- A value that tries to end the head early is dropped, with its line. -/
theorem serialize_reads_back_injection : ∃ code len payload,
      readHead (serialize (answered 200 [(ascii "x-a", ascii "1"), (ascii "x-b",
        ascii "2\r\n\r\nno")] (ascii "body") none) false (ascii "today") .close) =
        some ([ascii "HTTP/1.1 " ++ code ++ ascii " " ++ ascii "OK", ascii "Date: today",
          ascii "Content-Length: " ++ len, ascii "Connection: close", ascii "x-a: 1"], payload) ∧
      payload = ascii "body" := by
  obtain ⟨code, len, payload, hr, -, -, -, -, -, hpa, -⟩ := serialize_reads_back 200
    [(ascii "x-a", ascii "1"), (ascii "x-b", ascii "2\r\n\r\nno")] (ascii "body") none false .close
    (ascii "today") (by decide)
  exact ⟨code, len, payload, hr, hpa.2⟩

end TruenasRos.Http
