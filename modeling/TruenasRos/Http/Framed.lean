import TruenasRos.Http.Segmentation
import TruenasRos.Http.Steps

/-! # What a framing decision can be

The relation `Framed` lists the verdicts of the framer with the phase each leaves and
what is known of the buffer, once; what holds of every decision is read off it.
-/

namespace TruenasRos.Http

section

variable (hp : Httparse) (cfg : HttpConfig) (cap : Option ℕ+) (buf : Bytes)

/-- Verdicts on a chunked body that is buffered whole. -/
inductive Scans (stash : Option Bytes) (head_len : ℕ) (s : ChunkScan) : Framing → Phase → Prop
  | failed {status head_only} :
      Scans stash head_len s (.complete buf.length 0) (.fail status head_only)
  | waits {s'} (h : scan (buf.drop head_len) s = (s', .ok none))
      (hwire : s'.consumed ≤ cfg.wireCap) :
      Scans stash head_len s .moreInMessage (.chunkedBody stash head_len s')
  | done {s' extent} (h : scan (buf.drop head_len) s = (s', .ok (some extent)))
      (hwire : extent ≤ cfg.wireCap) :
      Scans stash head_len s (.complete head_len extent) (.chunkedDone stash)

/-- The body of a head that is delivered on its own before its body is buffered. -/
def Expects (facts : FrameFacts) (kind : BodyKind) : Prop :=
  facts.body = .ok kind ∧ facts.expects_continue = true ∧
    match kind with
    | .known n => 0 < n ∧ n ≤ cfg.max_body
    | .chunked => True

/-- The body of a head that is streamed. -/
def Opens (facts : FrameFacts) : StreamedBody → Prop
  | .known n => facts.body = .ok (.known n) ∧ STREAM_WINDOW < n
  | .chunked => facts.body = .ok .chunked

/-- Verdicts on a head of a connection. -/
inductive Heads : Framing → Phase → Prop
  | failed {status head_only} : Heads (.complete buf.length 0) (.fail status head_only)
  | more (hlen : buf.length ≤ cfg.max_head) : Heads .more .head
  | known {facts n} (hfacts : frameFacts hp buf = .ok (some facts))
      (hlen : facts.len ≤ cfg.max_head) (hbody : facts.body = .ok (.known n))
      (hn : n ≤ cfg.max_body) : Heads (.complete facts.len n) .head
  | expects {facts kind} (hfacts : frameFacts hp buf = .ok (some facts))
      (hlen : facts.len ≤ cfg.max_head) (hkind : Expects cfg facts kind) :
      Heads (.complete facts.len 0) (.expectHead (buf.take facts.len) kind)
  | opens {facts kind} (hfacts : frameFacts hp buf = .ok (some facts))
      (hlen : facts.len ≤ cfg.max_head) (hcap : cap.isSome) (hkind : Opens facts kind) :
      Heads (.complete facts.len 0)
        (.streamOpen (buf.take facts.len) facts.expects_continue kind)
  | chunked {facts f phase} (hfacts : frameFacts hp buf = .ok (some facts))
      (hlen : facts.len ≤ cfg.max_head) (hbody : facts.body = .ok .chunked)
      (h : Scans cfg buf none facts.len default f phase) : Heads f phase

/-- Verdicts on a streamed body. -/
inductive Flows : Phase → Framing → Phase → Prop
  | failed {phase status head_only} :
      Flows phase (.complete buf.length 0) (.fail status head_only)
  | within {head chunk_left decoded after_payload} (h : 0 < chunk_left) :
      Flows (.streamBody head chunk_left after_payload decoded)
        (.complete 0 (min chunk_left STREAM_WINDOW))
        (.streamBody head chunk_left after_payload decoded)
  | waits {head decoded after_payload} (h : step buf after_payload = .more) :
      Flows (.streamBody head 0 after_payload decoded) .moreInMessage
        (.streamBody head 0 after_payload decoded)
  | chunk {head decoded framing payload after_payload}
      (h : step buf after_payload = .chunk framing payload) :
      Flows (.streamBody head 0 after_payload decoded)
        (.complete framing (min payload STREAM_WINDOW)) (.streamBody head 0 after_payload decoded)
  | last {head decoded framing after_payload} (h : step buf after_payload = .last framing) :
      Flows (.streamBody head 0 after_payload decoded) (.complete framing 0)
        (.streamDone head (closing after_payload).length)
  | between {head remaining} (hpos : 0 < remaining) (hbuf : buf = []) :
      Flows (.streamKnown head remaining) .moreInMessage (.streamKnown head remaining)
  | window {head remaining} (hpos : 0 < remaining) (hbuf : buf ≠ []) :
      Flows (.streamKnown head remaining) (.complete 0 (min remaining STREAM_WINDOW))
        (.streamKnown head remaining)

/-- A message was declared and has not been delivered. -/
def Undelivered : Phase → Prop
  | .fail _ _ => True
  | .chunkedDone _ => True
  | .streamOpen _ _ _ => True
  | .streamDone _ _ => True
  | _ => False

/-- The verdict on a buffer, by the phase it is framed in. -/
inductive Framed : Phase → Framing → Phase → Prop
  | repeats {phase} (h : Undelivered phase) :
      Framed phase (.complete buf.length 0) phase
  | holds {req resume} : Framed (.parked req resume) .more (.parked req resume)
  | rest {phase head n}
      (h : phase = .expectHead head (.known n) ∨ phase = .expectBody head (.known n)) :
      Framed phase (.complete 0 n) phase
  | starts {phase phase' head f}
      (h : phase = .expectHead head .chunked ∨ phase = .expectBody head .chunked)
      (hs : Scans cfg buf (some head) 0 default f phase') : Framed phase f phase'
  | scans {phase' stash head_len s f} (hs : Scans cfg buf stash head_len s f phase') :
      Framed (.chunkedBody stash head_len s) f phase'
  | flows {phase phase' f} (h : Flows buf phase f phase') : Framed phase f phase'
  | heads {phase' f} (h : Heads hp cfg cap buf f phase') : Framed .head f phase'

end

theorem Framed.not_parked {hp : Httparse} {cfg : HttpConfig} {cap : Option ℕ+} {buf : Bytes}
    {ph ph' : Phase} {header_len bl : ℕ}
    (h : Framed hp cfg cap buf ph (.complete header_len bl) ph') (req : ParkedRequest)
    (resume : Option StreamPark) : ph' ≠ .parked req resume := by
  rintro rfl
  cases h with
  | repeats hr => exact hr
  | rest h => simp at h
  | starts _ hs => cases hs
  | scans hs => cases hs
  | flows hf => cases hf
  | heads hh =>
    cases hh with
    | chunked _ _ _ hs => cases hs

section

variable {U : Type*} {hp : Httparse} {cfg : HttpConfig} {buf head : Bytes} {conn : HttpConn U}

/-- What framing leaves alone. -/
def Keeps (conn conn' : HttpConn U) : Prop :=
  conn'.stream_cap = conn.stream_cap ∧ conn'.state = conn.state

theorem scans_scanStep {stash : Option Bytes} {head_len : ℕ} {s : ChunkScan}
    (hc : conn.phase = .chunkedBody stash head_len s) :
    Scans cfg buf stash head_len s (scanStep cfg buf conn).1 (scanStep cfg buf conn).2.phase ∧
      Keeps conn (scanStep cfg buf conn).2 := by
  simp only [scanStep, hc]
  rcases hs : scan (buf.drop head_len) s with ⟨s', status | (_ | extent)⟩
  · simp only
    split_ifs <;> exact ⟨.failed, rfl, rfl⟩
  · simp only
    split_ifs with hpay hw
    · exact ⟨.failed, rfl, rfl⟩
    · exact ⟨.failed, rfl, rfl⟩
    · exact ⟨.waits hs (not_lt.1 hw), rfl, rfl⟩
  · simp only
    split_ifs with hpay hw
    · exact ⟨.failed, rfl, rfl⟩
    · exact ⟨.failed, rfl, rfl⟩
    · exact ⟨.done hs (not_lt.1 hw), rfl, rfl⟩

theorem flows_knownStep {rm : ℕ} (hc : conn.phase = .streamKnown head rm) :
    Flows buf conn.phase (knownStep buf conn).1 (knownStep buf conn).2.phase ∧
      Keeps conn (knownStep buf conn).2 := by
  obtain ⟨ph, cap, ix, state⟩ := conn
  obtain rfl : ph = _ := hc
  simp only [knownStep]
  split_ifs with hz hb
  · exact ⟨.failed, rfl, rfl⟩
  · exact ⟨.between (pos_of_ne_zero hz) hb, rfl, rfl⟩
  · exact ⟨.window (pos_of_ne_zero hz) hb, rfl, rfl⟩

theorem flows_streamStep {left dc : ℕ} {ap : Bool} (hc : conn.phase = .streamBody head left ap dc) :
    Flows buf conn.phase (streamStep buf conn).1 (streamStep buf conn).2.phase ∧
      Keeps conn (streamStep buf conn).2 := by
  obtain ⟨ph, cap, ix, state⟩ := conn
  obtain rfl : ph = _ := hc
  by_cases hl : 0 < left
  · simp only [streamStep, if_pos hl]
    exact ⟨.within hl, rfl, rfl⟩
  · obtain rfl : left = 0 := Nat.eq_zero_of_not_pos hl
    simp only [streamStep, if_neg hl]
    cases hs : step buf ap with
    | more => exact ⟨.waits hs, rfl, rfl⟩
    | bad status => exact ⟨.failed, rfl, rfl⟩
    | chunk framing payload =>
      simp only
      split_ifs
      · exact ⟨.failed, rfl, rfl⟩
      · exact ⟨.chunk hs, rfl, rfl⟩
    | last framing => cases ap <;> exact ⟨.last hs, rfl, rfl⟩

theorem frameFactsIndexed_fst (hp : Httparse) (buf : Bytes) (ix : HeadIndex) :
    (frameFactsIndexed hp buf ix).1 = frameFacts hp buf := by
  unfold frameFacts frameFactsIndexed
  split <;> rfl

theorem heads_factsStep {facts : FrameFacts} (hco : conn.phase = .head)
    (hf : frameFacts hp buf = .ok (some facts)) :
    Heads hp cfg conn.stream_cap buf (factsStep cfg buf conn facts).1
        (factsStep cfg buf conn facts).2.phase ∧ Keeps conn (factsStep cfg buf conn facts).2 := by
  obtain ⟨ph, cap, ix, state⟩ := conn
  obtain rfl : ph = _ := hco
  unfold factsStep
  by_cases hl : cfg.max_head < facts.len
  · rw [if_pos hl]
    exact ⟨.failed, rfl, rfl⟩
  · have hlen := not_lt.1 hl
    simp only [if_neg hl]
    rcases hb : facts.body with status | (n | _)
    · exact ⟨.failed, rfl, rfl⟩
    · simp only
      split_ifs with ho hst hm he
      · exact ⟨.failed, rfl, rfl⟩
      · exact ⟨.opens hf hlen hst.1 ⟨hb, hst.2⟩, rfl, rfl⟩
      · exact ⟨.failed, rfl, rfl⟩
      · exact ⟨.expects hf hlen ⟨hb, he.1, he.2, not_lt.1 hm⟩, rfl, rfl⟩
      · exact ⟨.known hf hlen hb (not_lt.1 hm), rfl, rfl⟩
    · split_ifs with hc he
      · exact ⟨.opens hf hlen hc hb, rfl, rfl⟩
      · exact ⟨.expects hf hlen ⟨hb, he, trivial⟩, rfl, rfl⟩
      · obtain ⟨hs, hk⟩ := @scans_scanStep _ cfg buf
          ⟨.chunkedBody none facts.len default, cap, ix, state⟩ none facts.len default rfl
        exact ⟨.chunked hf hlen hb hs, hk⟩

theorem heads_headStep (hc : conn.phase = .head) :
    Heads hp cfg conn.stream_cap buf (headStep hp cfg buf conn).1
        (headStep hp cfg buf conn).2.phase ∧ Keeps conn (headStep hp cfg buf conn).2 := by
  obtain ⟨ph, cap, ix, state⟩ := conn
  obtain rfl : ph = _ := hc
  simp only [headStep, frameFactsIndexed_fst]
  rcases hf : frameFacts hp buf with status | (_ | facts)
  · split_ifs <;> exact ⟨.failed, rfl, rfl⟩
  · simp only
    split_ifs with hl
    · exact ⟨.failed, rfl, rfl⟩
    · exact ⟨.more (not_lt.1 hl), rfl, rfl⟩
  · exact @heads_factsStep _ hp cfg buf ⟨.head, cap, _, state⟩ facts rfl hf

theorem framed_frame (hp : Httparse) (cfg : HttpConfig) (buf : Bytes) (conn : HttpConn U) :
    Framed hp cfg conn.stream_cap buf conn.phase (frame hp cfg buf conn).1
        (frame hp cfg buf conn).2.phase ∧ Keeps conn (frame hp cfg buf conn).2 := by
  obtain ⟨ph, cap, ix, state⟩ := conn
  cases ph with
  | head => exact (heads_headStep rfl).imp .heads id
  | fail status head_only | chunkedDone stash | streamOpen head expect kind
    | streamDone head block_at => exact ⟨.repeats trivial, rfl, rfl⟩
  | parked req resume => exact ⟨.holds, rfl, rfl⟩
  | chunkedBody stash head_len s => exact (scans_scanStep rfl).imp .scans id
  | streamBody head chunk_left after_payload decoded => exact (flows_streamStep rfl).imp .flows id
  | streamKnown head remaining => exact (flows_knownStep rfl).imp .flows id
  | expectHead head kind =>
    cases kind with
    | known n => exact ⟨.rest (.inl rfl), rfl, rfl⟩
    | chunked =>
      exact (@scans_scanStep _ cfg buf ⟨.chunkedBody (some head) 0 default, cap, ix, state⟩
        _ _ _ rfl).imp (.starts (.inl rfl)) id
  | expectBody head kind =>
    cases kind with
    | known n => exact ⟨.rest (.inr rfl), rfl, rfl⟩
    | chunked =>
      exact (@scans_scanStep _ cfg buf ⟨.chunkedBody (some head) 0 default, cap, ix, state⟩
        _ _ _ rfl).imp (.starts (.inr rfl)) id

end

end TruenasRos.Http
