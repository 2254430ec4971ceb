import TruenasRos.Lib.Incremental
import TruenasRos.Http.Framer
import TruenasRos.Http.Scan

/-! # Segmentation of a buffered chunked body

Whether the outcome of a chunked message depends on how its bytes arrive. Both caps
are checked where an arrival ends, the cap on the payload first, so what counts is
which of the two the body crosses first.
-/

namespace TruenasRos.Http

open Incremental List Nat

/-- In text that starts where the scanner expects `st`, payload byte `k` stands at `off`. -/
inductive PayloadAt : State → Bytes → ℕ → ℕ → Prop
  | size {line rest n k off} (hline : SizeLine line n) (hn : n ≠ 0)
      (h : PayloadAt (.data n) rest k off) :
      PayloadAt .size (line ++ (CRLF ++ rest)) k (line.length + 2 + off)
  | here {rest n k} (hn : k < n) (hrest : k < rest.length) : PayloadAt (.data n) rest k k
  | later {data rest k off} (h : PayloadAt .dataCrlf rest k off) :
      PayloadAt (.data data.length) (data ++ rest) (data.length + k) (data.length + off)
  | crlf {rest k off} (h : PayloadAt .size rest k off) :
      PayloadAt .dataCrlf (CRLF ++ rest) k (2 + off)

variable {w p : Bytes} {k off : ℕ} {st : State}

theorem PayloadAt.lt_length (h : PayloadAt st w k off) : off < w.length := by
  induction h with
  | size _ _ _ ih | crlf _ ih =>
    simp only [length_append, CRLF, length_cons, length_nil]
    omega
  | here _ hr => exact hr
  | later _ ih =>
    rw [length_append]
    omega

theorem take_crlf_append (off : ℕ) (rest : Bytes) :
    (CRLF ++ rest).take (2 + off) = CRLF ++ rest.take off := by
  rw [add_comm]
  rfl

theorem PayloadAt.scan_take (h : PayloadAt st w k off) (pre : Bytes) (s : ChunkScan)
    (hs : s.state = st) (hc : s.consumed = pre.length) :
    ∃ m, 0 < m ∧ scan (pre ++ w.take off) s =
      ({ s with consumed := pre.length + off, decoded := s.decoded + k, state := .data m },
        .ok none) := by
  have hle : ∀ rest : Bytes, s.consumed ≤ (pre ++ rest).length := fun rest => by
    rw [hc, length_append]
    exact le_add_right _ _
  induction h generalizing pre s with
  | @size line rest n k off hl hn _ ih =>
    have hpa := runPass_size (hle (line ++ (CRLF ++ rest.take off))) hs
    rw [hc, drop_left, sizePass_line hl, if_neg hn] at hpa
    obtain ⟨m, hm, hsc⟩ := ih (pre ++ (line ++ CRLF))
      { s with consumed := s.consumed + (line.length + 2), state := .data n } rfl
      (by simp [hc, CRLF]) (by simp [hc, CRLF])
    refine ⟨m, hm, ?_⟩
    rw [add_assoc, take_length_add_append, take_crlf_append,
      scan_of_verdict_none (by rw [hpa]; rfl), hpa]
    simpa [Pass.go, CRLF, add_assoc] using hsc
  | @here rest n k hn hr =>
    have hlen : (rest.take k).length = k := length_take_of_le hr.le
    have hpa := runPass_data (hle (rest.take k)) hs
    rw [hc, drop_left, dataPass_of_lt (hlen.symm ▸ hn), hlen] at hpa
    refine ⟨n - k, Nat.sub_pos_of_lt hn, ?_⟩
    rw [scan_of_verdict_some (by rw [hpa]), hpa, ChunkScan.within, hc]
  | @later data rest k off _ ih =>
    have hpa := runPass_data (hle (data ++ rest.take off)) hs
    rw [hc, drop_left, dataPass_of_le (length_append ▸ le_add_right _ _)] at hpa
    obtain ⟨m, hm, hsc⟩ := ih (pre ++ data) { s with
      consumed := s.consumed + data.length
      decoded := s.decoded + data.length
      state := .dataCrlf } rfl (by simp [hc]) (by simp [hc])
    refine ⟨m, hm, ?_⟩
    rw [take_length_add_append, scan_of_verdict_none (by rw [hpa]), hpa]
    simpa [add_assoc] using hsc
  | @crlf rest k off _ ih =>
    have hpa := runPass_dataCrlf (hle (CRLF ++ rest.take off)) hs
    rw [hc, drop_left, dataCrlfPass_crlf] at hpa
    obtain ⟨m, hm, hsc⟩ := ih (pre ++ CRLF)
      { s with consumed := s.consumed + 2, state := .size } rfl
      (by simp [hc, CRLF]) (by simp [hc, CRLF])
    refine ⟨m, hm, ?_⟩
    rw [take_crlf_append, scan_of_verdict_none (by rw [hpa]; rfl), hpa]
    simpa [Pass.go, CRLF, add_assoc] using hsc

theorem decoded_runPass_le_scan (p : Bytes) (s : ChunkScan) :
    (runPass p s).scan.decoded ≤ (scan p s).1.decoded := by
  cases h : (runPass p s).verdict with
  | some v => rw [scan_of_verdict_some h]
  | none =>
    rw [scan_of_verdict_none h]
    exact (scan_progress p _).2

theorem decoded_dataPass (rest : Bytes) (s : ChunkScan) (n : ℕ) :
    (dataPass rest s n).scan.decoded = s.decoded + min n rest.length := by
  rcases lt_or_ge rest.length n with hn | hn
  · rw [dataPass_of_lt hn, min_eq_right hn.le, ChunkScan.within]
  · rw [dataPass_of_le hn, min_eq_left hn]

theorem PayloadAt.scan_take_fresh (h : PayloadAt .size w k off) :
    ∃ m, 0 < m ∧ scan (w.take off) default = (⟨off, k, 0, .data m⟩, .ok none) := by
  obtain ⟨m, hm, hs⟩ := h.scan_take [] default rfl rfl
  refine ⟨m, hm, hs.trans ?_⟩
  simp [default]

theorem PayloadAt.lt_decoded (h : PayloadAt .size w k off) (hp : p <+: w)
    (ho : off < p.length) : k < (scan p default).1.decoded := by
  obtain ⟨m, hm, hs⟩ := h.scan_take_fresh
  obtain ⟨z, rfl⟩ := hp
  rw [take_append_of_le_length ho.le] at hs
  have hr := scan_resume (x := p.drop off) (zero_le _) (congrArg Prod.snd hs)
  rw [take_append_drop, hs] at hr
  rw [← hr]
  refine lt_of_lt_of_le ?_ (decoded_runPass_le_scan _ _)
  rw [runPass_data ho.le rfl, decoded_dataPass]
  refine Nat.lt_add_of_pos_right (lt_min hm ?_)
  rw [length_drop]
  exact Nat.sub_pos_of_lt ho

theorem exists_payloadAt {body : Bytes} {s : ChunkScan}
    (h : s.decoded + k < (scan body s).1.decoded) :
    ∃ off, PayloadAt s.state (body.drop s.consumed) k off := by
  refine scan_induction (P := fun s s' _ => ∀ k, s.decoded + k < s'.decoded →
    ∃ off, PayloadAt s.state (body.drop s.consumed) k off) ?_ ?_ s k h
  · intro s v hv k hk
    by_cases hs : ∃ n, s.state = .data n
    · obtain ⟨n, hs⟩ := hs
      by_cases hle : s.consumed ≤ body.length
      · rw [runPass_data hle hs, decoded_dataPass] at hk
        exact ⟨k, hs ▸ .here (by omega) (by omega)⟩
      · simp only [runPass, hs, reduceCtorEq, if_false, if_pos (not_le.1 hle)] at hk
        exact absurd hk (not_lt.2 (Nat.le_add_right _ _))
    · rw [(does_runPass ..).decoded fun n hn => hs ⟨n, hn⟩] at hk
      omega
  · intro s s' v hv ih k hk
    obtain ⟨hle, ha⟩ := (does_runPass ..).advances hv
    generalize runPass body s = pass at ha ih
    cases ha with
    | @size i n hs hi hm hc hn =>
      obtain ⟨off, ho⟩ := ih k hk
      by_cases hz : n = 0
      · simp only [Pass.go, hz, if_true] at ho
        cases ho
      · simp only [Pass.go, if_neg hz] at ho
        rw [← drop_drop] at ho
        rw [hs, crlfPosition_eq_some hi]
        have hlen : ((body.drop s.consumed).take i).length = i :=
          length_take_of_le (by have := add_two_le_of_crlfPosition hi; omega)
        exact ⟨_, .size ⟨hlen.trans_le hm, hc, hn⟩ hz ho⟩
    | @data n hs hn =>
      rcases lt_or_ge k n with hkn | hkn
      · exact ⟨k, hs ▸ .here hkn (by omega)⟩
      · obtain ⟨off, ho⟩ := ih (k - n) (by simp only; omega)
        simp only [← drop_drop] at ho
        have hlen : ((body.drop s.consumed).take n).length = n := length_take_of_le hn
        have := @PayloadAt.later ((body.drop s.consumed).take n) _ _ _ ho
        rw [take_append_drop, hlen, add_sub_of_le hkn] at this
        exact ⟨_, hs ▸ this⟩
    | crlf hs hcr =>
      obtain ⟨off, ho⟩ := ih k hk
      simp only [Pass.go, ← drop_drop] at ho
      rw [hs, ← take_append_drop 2 (body.drop s.consumed), hcr]
      exact ⟨_, .crlf ho⟩
    | field hs hi _ hsum _ _ hf =>
      obtain ⟨off, ho⟩ := ih k hk
      simp only [hs] at ho
      cases ho
    | finish hs hi hsum hnil =>
      obtain ⟨off, ho⟩ := ih k hk
      cases ho

inductive Outcome
  | message (header_len body_len : ℕ)
  | failed (status : Status)
  deriving DecidableEq

/-- What a verdict settles, with the phase it leaves. -/
def outcome : Framing → Phase → Option Outcome
  | .complete _ _, .fail status _ => some (.failed status)
  | .complete header_len body_len, _ => some (.message header_len body_len)
  | _, _ => none

section

variable {U : Type*}

def arrival (hp : Httparse) (cfg : HttpConfig) (head : Bytes) (conn : HttpConn U) (p : Bytes) :
    Option Outcome × HttpConn U :=
  let framed := frame hp cfg (head ++ p) conn
  (outcome framed.1 framed.2.phase, framed.2)

/-- The outcome as a function of the scan. -/
def scanOutcome (cfg : HttpConfig) (head_len : ℕ) (s : ChunkScan)
    (v : Except Status (Option ℕ)) : Option Outcome :=
  if cfg.max_body < s.decoded then some (.failed 413)
  else if cfg.wireCap < s.consumed then some (.failed 400)
  else
    match v with
    | .error status => some (.failed status)
    | .ok none => none
    | .ok (some extent) => some (.message head_len extent)

variable {hp : Httparse} {cfg : HttpConfig} {head : Bytes} {conn : HttpConn U}
  {stash : Option Bytes} {s : ChunkScan}

theorem scanStep_eq {buf : Bytes} {head_len : ℕ}
    (hc : conn.phase = .chunkedBody stash head_len s) :
    scanStep cfg buf conn = match scanOutcome cfg head_len (scan (buf.drop head_len) s).1
        (scan (buf.drop head_len) s).2 with
      | some (.failed status) => fail conn buf.length status (methodIsHead (stash.getD buf))
      | some (.message header_len body_len) =>
        (.complete header_len body_len, { conn with phase := .chunkedDone stash })
      | none =>
        (.moreInMessage, { conn with
          phase := .chunkedBody stash head_len (scan (buf.drop head_len) s).1 }) := by
  have he : ∀ n, (scan (buf.drop head_len) s).2 = .ok (some n) →
      (scan (buf.drop head_len) s).1.consumed = n := fun _ => extent_eq_consumed
  simp only [scanStep, hc]
  generalize scan (buf.drop head_len) s = r at he
  obtain ⟨s', v⟩ := r
  rcases v with status | (_ | n)
  on_goal 3 => obtain rfl : s'.consumed = n := he n rfl
  all_goals
    simp only [scanOutcome]
    split_ifs <;> rfl

section

variable (hc : conn.phase = .chunkedBody stash head.length s)
include hc

theorem arrival_eq (p : Bytes) :
    (arrival hp cfg head conn p).1 = scanOutcome cfg head.length (scan p s).1 (scan p s).2 := by
  simp only [arrival, frame, hc, scanStep_eq hc, drop_left]
  rcases scanOutcome cfg head.length (scan p s).1 (scan p s).2 with _ | _ | _ <;> rfl

theorem arrival_of_waiting (h : (arrival hp cfg head conn p).1 = none) :
    (scan p s).2 = .ok none ∧ (arrival hp cfg head conn p).2 =
      { conn with phase := .chunkedBody stash head.length (scan p s).1 } := by
  rw [arrival_eq hc] at h
  constructor
  · unfold scanOutcome at h
    split_ifs at h
    rcases hv : (scan p s).2 with status | (_ | n)
    · exact nomatch hv ▸ h
    · rfl
    · exact nomatch hv ▸ h
  · simp [arrival, frame, hc, scanStep_eq hc, h]

end

section

variable (hc : conn.phase = .chunkedBody stash head.length default)
include hc

theorem resumable_arrival : Resumable (arrival hp cfg head) conn := by
  rintro p _ ⟨x, rfl⟩ hp
  obtain ⟨hw, hn⟩ := arrival_of_waiting hc hp
  rw [hn]
  have hr := scan_resume (x := x) (zero_le _) hw
  simp [arrival, frame, hc, scanStep, hr, fail]

theorem arrival_of_far {w : Bytes}
    {off : ℕ} (ho : PayloadAt .size w cfg.max_body off) (hf : cfg.wireCap < off) :
    (arrival hp cfg head conn (w.take off)).1 = some (.failed 400) ∧
      (arrival hp cfg head conn w).1 = some (.failed 413) := by
  rw [arrival_eq hc, arrival_eq hc]
  obtain ⟨m, -, hs⟩ := ho.scan_take_fresh
  constructor
  · rw [hs, scanOutcome, if_neg (lt_irrefl _), if_pos hf]
  · exact if_pos (ho.lt_decoded prefix_rfl ho.lt_length)

/-- An answered prefix is answered as the whole body unless it crossed the wire cap alone
and the whole body crosses the payload cap too. -/
theorem arrival_prefix_iff (w : Bytes) :
    (∀ p, p <+: w → ∀ o, (arrival hp cfg head conn p).1 = some o →
        (arrival hp cfg head conn w).1 = some o) ↔
      ∀ off, PayloadAt .size w cfg.max_body off → off ≤ cfg.wireCap := by
  constructor
  · intro hall off hoff
    by_contra hf
    obtain ⟨hb, hwh⟩ := arrival_of_far hc hoff (not_le.1 hf)
    have ht : w.take off <+: w := take_prefix off w
    exact nomatch hwh.symm.trans (hall _ ht _ hb)
  · rintro hne p hp o ho
    obtain ⟨x, rfl⟩ := hp
    rw [arrival_eq hc] at ho ⊢
    by_cases hw : (scan p default).2 = .ok none
    · have hm := scan_progress (p ++ x) (scan p default).1
      rw [scan_resume (zero_le _) hw] at hm
      rw [hw] at ho
      unfold scanOutcome at ho
      split_ifs at ho with hpay hwi
      · cases ho
        exact if_pos (hpay.trans_le hm.2)
      · cases ho
        have hpay' : ¬ cfg.max_body < (scan (p ++ x) default).1.decoded := by
          intro hov
          obtain ⟨off, hoff⟩ := exists_payloadAt (s := default) ((zero_add _).trans_lt hov)
          -- the byte that crosses the payload cap is one the prefix had already counted
          have hlt := (hne off hoff).trans_lt
            (hwi.trans_le (consumed_scan_le (zero_le _) hw))
          exact hpay (hoff.lt_decoded (prefix_append p x) hlt)
        exact (if_neg hpay').trans (if_pos (hwi.trans_le hm.1))
    · rw [scan_append (zero_le _) hw]
      exact ho

end

/-- The outcome of a buffered chunked body is independent of how its bytes arrive exactly
when payload byte `max_body`, if there is one, stands within the wire cap. -/
theorem chunked_outcome_independent_iff (hp : Httparse) (cfg : HttpConfig) (head : Bytes)
    (conn : HttpConn U) (stash : Option Bytes)
    (hconn : conn.phase = .chunkedBody stash head.length default) (w : Bytes) :
    (∀ ps qs, GrowsTo w ps → GrowsTo w qs →
        feed (arrival hp cfg head) conn ps = feed (arrival hp cfg head) conn qs) ↔
      ∀ off, PayloadAt .size w cfg.max_body off → off ≤ cfg.wireCap :=
  (feed_independent_iff (resumable_arrival hconn)).trans (arrival_prefix_iff hconn w)

end

/-- One byte of payload under a size line as long as they may be. -/
def paddedLine : Bytes := ascii "1;" ++ List.replicate 254 0x61

def paddedChunk : Bytes := paddedLine ++ (CRLF ++ (ascii "x" ++ CRLF))

def paddedBody (n : ℕ) : Bytes := (List.replicate n paddedChunk).flatten

def smallConfig : HttpConfig where
  max_head := 1024
  max_body := 64
  max_head_le := by decide
  max_body_le := by decide

def danceHead : Bytes := ascii "PUT / HTTP/1.1\r\nExpect: 100-continue\r\n\r\n"

/-- A connection whose head is stashed and whose chunked body comes next. -/
def dancing : HttpConn Unit :=
  { HttpConn.new () with phase := .chunkedBody (some danceHead) 0 default }

theorem length_paddedLine : paddedLine.length = 256 := by decide +kernel

theorem sizeLine_paddedLine : SizeLine paddedLine 1 :=
  ⟨length_paddedLine.le, by decide +kernel, by decide +kernel⟩

theorem paddedBody_succ (n : ℕ) :
    paddedBody (n + 1) = paddedLine ++ (CRLF ++ (ascii "x" ++ (CRLF ++ paddedBody n))) := by
  change paddedChunk ++ paddedBody n = _
  rw [paddedChunk, append_assoc, append_assoc, append_assoc]

theorem payloadAt_paddedBody (n m : ℕ) :
    PayloadAt .size (paddedBody (n + (m + 1))) n (261 * n + 258) := by
  induction n with
  | zero =>
    have h := @PayloadAt.size _ (ascii "x" ++ (CRLF ++ paddedBody m)) _ _ _ sizeLine_paddedLine
      (by decide) (.here one_pos (by simp [ascii]))
    rw [length_paddedLine, ← paddedBody_succ] at h
    rwa [zero_add]
  | succ n ih =>
    have h := PayloadAt.size sizeLine_paddedLine (by decide)
      (@PayloadAt.later (ascii "x") _ _ _ (PayloadAt.crlf ih))
    rw [length_paddedLine, ← paddedBody_succ, show (ascii "x").length = 1 from rfl] at h
    convert h using 1
    · rw [add_right_comm n 1]
    · exact add_comm n 1
    · omega

/-- The same bytes, cut before the last payload byte and whole, end in two statuses. -/
theorem chunked_outcome_depends_on_segmentation :
    GrowsTo (paddedBody 65) [(paddedBody 65).take 16962, paddedBody 65] ∧
      feed (arrival default smallConfig []) dancing
        [(paddedBody 65).take 16962, paddedBody 65] = some (.failed 400) ∧
      feed (arrival default smallConfig []) dancing [paddedBody 65] = some (.failed 413) := by
  have ho : PayloadAt .size (paddedBody 65) smallConfig.max_body 16962 :=
    payloadAt_paddedBody 64 0
  have hco : dancing.phase = .chunkedBody _ ([] : Bytes).length default := rfl
  obtain ⟨hc, hw⟩ := @arrival_of_far _ default _ _ _ _ hco _ _ ho (by decide)
  refine ⟨growsTo_pair ?_, feed_cons_of_some hc _, feed_cons_of_some hw _⟩
  exact take_prefix 16962 _

/-- A short body ends the same way however it arrives. -/
theorem chunked_outcome_independent_short :
    dancing.phase = .chunkedBody (some danceHead) ([] : Bytes).length default ∧
      ∀ ps qs, GrowsTo (ascii "3\r\nabc\r\n0\r\n\r\n") ps →
        GrowsTo (ascii "3\r\nabc\r\n0\r\n\r\n") qs →
        feed (arrival default smallConfig []) dancing ps =
          feed (arrival default smallConfig []) dancing qs :=
  ⟨rfl, (chunked_outcome_independent_iff default smallConfig [] dancing _ rfl _).2
    fun _ ho => (ho.lt_length.trans_le (by decide)).le⟩

end TruenasRos.Http
