import TruenasRos.Http.Bound
import TruenasRos.Http.Boundary

/-! # Streamed and buffered bodies agree

The streamed walk hands out a chunked body window by window, the decoder takes it
whole. Driven over the same bytes, however they are cut, the windows add up to the
entity, and the end carries the trailers.
-/

namespace TruenasRos.Http

open List Protocol Sys Nat

variable {tr : List HeaderView}

theorem blockTrailers_of_isBody {block : Bytes} (h : IsBody .chunked block)
    (ht : ((run block default).lines block).mapM trailerView = some tr) :
    blockTrailers block = tr := by
  have hv : (run block default).verdict = .ok (some block.length) := h
  have hl : ((run block default).trailer.map (slice block)).mapM trailerView = some tr := ht
  simp only [blockTrailers, compact, hv, if_true]
  cases (run block default).payload with
  | nil | cons first spans => simp [Compacted.trailers, hl]

theorem decode_of_isBody {w : Bytes} (h : IsBody .chunked w)
    (ht : ((run w default).lines w).mapM trailerView = some tr) :
    decode w = some ((run w default).entity w, tr) :=
  decode_of_verdict h ht

theorem isBody_of_decode {w ent : Bytes} (h : decode w = some (ent, tr)) :
    IsBody .chunked w ∧ (run w default).entity w = ent ∧
      ((run w default).lines w).mapM trailerView = some tr := by
  obtain ⟨ts, ht⟩ := exists_trailers w default
  have hb : IsBody .chunked w := by
    simp only [decode] at h
    split at h
    · rename_i extent hv
      split_ifs at h with he
      rw [IsBody, scan, hv, he]
    · cases h
  rw [decode_of_isBody hb ht] at h
  cases h
  exact ⟨hb, rfl, ht⟩

variable {part ent rest buf block : Bytes} {cl : ℕ} {ap : Bool}

theorem scan_of_stepAt (skip : ℕ) (b : Bytes) :
    (stepAt skip b = .more → (scan b default).2 = .ok none) ∧
      ∀ status, stepAt skip b = .bad status → (scan b default).2 = .error status := by
  have hs : ∀ v, (sizePass b default).verdict = some v → (scan b default).2 = v := fun v hv => by
    rw [scan_of_verdict_some (by rwa [runPass_size (zero_le _) rfl])]
  unfold stepAt
  unfold sizePass at hs
  cases hf : findCrlf b CHUNK_LINE_MAX with
  | needMore | tooLong => simp_all [Pass.stop]
  | found i =>
    simp only [hf] at hs ⊢
    split_ifs at hs ⊢ with hc
    · simp_all [Pass.stop]
    · cases hn : parseSizeLine (b.take i) with
      | none => simp_all [Pass.stop]
      | some n =>
        cases n with
        | succ n => simp
        | zero =>
          simp only
          split <;> simp_all

/-- Between chunks, a body goes on with the closing bytes and a body of its own. -/
theorem StreamAt.exists_block (h : StreamAt part ent 0 ap) (hb : IsBody .chunked (part ++ rest)) :
    ∃ block, rest = closing ap ++ block ∧ IsBody .chunked block := by
  have he : ∀ {part block}, StreamAt part ent 0 false → IsBody .chunked (part ++ block) →
      IsBody .chunked block := by
    intro part block h hb
    rw [IsBody, scan, (h.continues block).verdict, RunOut.shift, length_append] at hb
    rw [IsBody, scan]
    cases hv : (run block default).verdict with
    | error status => cases hv ▸ hb
    | ok v =>
      rw [hv] at hb
      cases v with
      | none => cases hb
      | some n =>
        have hn : part.length + n = part.length + block.length :=
          Option.some.inj (Except.ok.inj hb)
        rw [add_left_cancel hn]
  cases ap with
  | false => exact ⟨rest, rfl, he h hb⟩
  | true =>
    have hc : rest.take 2 = CRLF := by
      obtain ⟨s, hs, hsta⟩ := h
      have hve : (run (part ++ rest) s).verdict = .ok (some (part ++ rest).length) :=
        (hs.resume rest).verdict ▸ hb
      have hpa := runPass_dataCrlf (hs.le_length rest) hsta
      rw [hs.drop, dataCrlfPass] at hpa
      by_contra hne
      split_ifs at hpa
      all_goals
        rw [run_of_verdict_some (by rw [hpa]; rfl)] at hve
        cases hve
    refine ⟨rest.drop 2, ?_, ?_⟩
    · rw [closing, if_pos rfl, ← hc, take_append_drop]
    · apply he h.close
      rwa [closing, if_pos rfl, append_assoc, ← hc, take_append_drop]

theorem step_of_prefix (h : buf <+: closing ap ++ block) :
    step buf ap = .more ∧ buf ≠ closing ap ++ block ∨
      ∃ b, buf = closing ap ++ b ∧ b <+: block ∧
        step buf ap = stepAt (closing ap).length b := by
  cases ap with
  | false => exact .inr ⟨buf, rfl, h, rfl⟩
  | true =>
    match buf, h with
    | [], _ => exact .inl ⟨rfl, nofun⟩
    | [a], h =>
      obtain ⟨rfl, -⟩ := cons_prefix_cons.1 h
      exact .inl ⟨rfl, by simp [closing, CRLF]⟩
    | a :: b :: rest, h =>
      obtain ⟨ha, h⟩ := cons_prefix_cons.1 h
      obtain ⟨hb, h⟩ := cons_prefix_cons.1 h
      rw [ha, hb]
      exact .inr ⟨rest, rfl, h, rfl⟩

theorem StreamAt.owes (h : StreamAt part ent cl ap) (hpos : 0 < cl)
    (hb : IsBody .chunked (part ++ rest)) : cl ≤ rest.length ∧
      ent.length + cl ≤ ((run (part ++ rest) default).entity (part ++ rest)).length := by
  obtain ⟨s, hs, hsta⟩ := h
  rw [if_pos hpos] at hsta
  have hc := hs.resume rest
  have hv : (run (part ++ rest) s).verdict = .ok (some (part ++ rest).length) :=
    hc.verdict ▸ hb
  have hpa := runPass_data (hs.le_length rest) hsta
  rw [hs.drop] at hpa
  rcases lt_or_ge rest.length cl with hlt | hle
  · rw [run_of_verdict_some (by rw [hpa, dataPass_of_lt hlt])] at hv
    exact nomatch hv
  · have hr := continues_of_runPass
      (by rw [hpa, dataPass_of_le hle]) (by rw [hpa, trailer_dataPass])
    rw [hpa, entity_dataPass, min_eq_left hle] at hr
    rw [hc.entity, hr.entity, length_append, length_append, slice, hs.consumed,
      drop_left, length_take]
    omega

theorem step_on_body (h : StreamAt part ent 0 ap)
    (hbo : IsBody .chunked (part ++ rest)) (hbuf : buf <+: rest) :
    match step buf ap with
    | .more => buf ≠ rest
    | .bad _ => False
    | .chunk _ _ => True
    | .last fr => fr = rest.length := by
  obtain ⟨block, rfl, hb⟩ := h.exists_block hbo
  rcases step_of_prefix hbuf with ⟨hm, hne⟩ | ⟨b, rfl, ⟨x, rfl⟩, hst⟩
  · rw [hm]
    exact hne
  · have hl : ∀ v, (scan b default).2 = v → v ≠ .ok none → v = .ok (some (b ++ x).length) := by
      rintro v rfl hv
      rw [← scan_append (zero_le _) hv]
      exact hb
    rw [hst]
    have hse := sees_stepAt (closing ap).length b
    obtain ⟨hm, hbad⟩ := scan_of_stepAt (closing ap).length b
    cases hs : stepAt (closing ap).length b with
    | more =>
      intro heq
      have hw := hm hs
      rw [append_cancel_left heq] at hw
      exact nomatch hw.symm.trans hb
    | bad status => exact nomatch hl _ (hbad status hs) nofun
    | chunk fr payload => trivial
    | last fr =>
      rw [hs] at hse
      cases hse with
      | last _ hd =>
        have he := hl _ hd nofun
        rw [length_append]
        exact congrArg _ (Option.some.inj (Except.ok.inj he))

/-- A connection whose handler lets everything proceed and records what it sees. -/
abbrev Recording := Sys (List HttpRequest)

def recorder : Handler (List HttpRequest) := fun req log => (.proceed, log ++ [req])

section

variable (hp : Httparse) (cfg : HttpConfig) (max_request_bytes : ℕ) (env : Env) (owned : Bool)

def Sys.drain : ℕ → Recording → Recording
  | 0, sys => sys
  | fuel + 1, sys =>
    match sys.next hp cfg max_request_bytes (.pump recorder env owned) with
    | (sys, some _) => Sys.drain fuel sys
    | (sys, none) => sys

def Sys.feed (sys : Recording) (segment : Bytes) : Recording :=
  let sys := (sys.next hp cfg max_request_bytes (.recv segment)).1
  Sys.drain hp cfg max_request_bytes env owned (sys.buf.length + 1) sys

def Sys.drive (sys : Recording) (segments : List Bytes) : Recording :=
  segments.foldl (Sys.feed hp cfg max_request_bytes env owned) sys

end

section

variable (max_request_bytes : ℕ) (h : Head) (index : HeadIndex) (cap : ℕ+) (head : Bytes)
  (chunk_left : ℕ) (after_payload : Bool) (decoded : ℕ) (log : List HttpRequest) (part buf : Bytes)

def inBody (pending : Option (ℕ × ℕ)) : Recording :=
  ⟨⟨.streamBody head chunk_left after_payload decoded, some cap, index, log⟩, part, buf, pending,
    false⟩

def bodyStart : Recording := inBody index cap head 0 false 0 [] [] [] none

/-- What a pump does in a streamed chunked body. -/
inductive Pumped : Recording × Option Response → Prop
  | waits (pending : Option (ℕ × ℕ))
      (hshort : buf.length < min chunk_left STREAM_WINDOW ∨
        chunk_left = 0 ∧ (step buf after_payload = .more ∨
          ∃ framing payload, step buf after_payload = .chunk framing payload ∧
            buf.length < framing + min payload STREAM_WINDOW)) :
      Pumped (inBody index cap head chunk_left after_payload decoded log part buf pending, none)
  | window {framing owed n : ℕ} (hn : 0 < n) (hle : framing + n ≤ buf.length)
      (hlen : n = min owed STREAM_WINDOW)
      (hframing : 0 < chunk_left ∧ framing = 0 ∧ owed = chunk_left ∨
        chunk_left = 0 ∧ step buf after_payload = .chunk framing owed) :
      Pumped (inBody index cap head (owed - n) (owed - n == 0) (Usize.saturatingAdd decoded n)
          (log ++ [request h head ((buf.drop framing).take n) [] .window])
          (part ++ buf.take (framing + n)) (buf.drop (framing + n)) none, some (interim false))
  | ended {framing : ℕ} {sys : Recording} (hzero : chunk_left = 0)
      (hstep : step buf after_payload = .last framing) (hclosed : sys.closed = true)
      (hlog : sys.conn.state = log ++ [request h head []
        (blockTrailers ((buf.take framing).drop (closing after_payload).length)) .fin])
      (hconsumed : sys.consumed = part ++ buf.take framing) :
      Pumped (sys, some .close)
  | failed {out : Recording × Option Response} (hclosed : out.1.closed = true)
      (hlog : out.1.conn.state = log)
      (hwhy : max_request_bytes < STREAM_WINDOW + (CHUNK_LINE_MAX + 4) ∨
        (∃ status, step buf after_payload = .bad status) ∧ chunk_left = 0 ∨
        ∃ framing payload, chunk_left = 0 ∧ step buf after_payload = .chunk framing payload ∧
          (cap : ℕ) < Usize.saturatingAdd decoded payload) :
      Pumped out

def entityOf : Bytes := log.flatMap HttpRequest.body

def AllWindows : Prop := ∀ q ∈ log, q.stage = .window ∧ q.body.length ≤ STREAM_WINDOW

/-- A connection in the course of a drive: in the body, at its end, or given up. -/
inductive Driven : Recording → Prop
  | under {chunk_left decoded : ℕ} {after_payload : Bool} {log : List HttpRequest}
      {part buf : Bytes} {pending : Option (ℕ × ℕ)}
      (hat : StreamAt part (entityOf log) chunk_left after_payload) (hlog : AllWindows log)
      (hdecoded : decoded ≤ (entityOf log).length) :
      Driven (inBody index cap head chunk_left after_payload decoded log part buf pending)
  | ended {sys : Recording} {windows : List HttpRequest} {last : HttpRequest}
      (hclosed : sys.closed = true) (hstate : sys.conn.state = windows ++ [last])
      (hlog : AllWindows windows) (hlast : last.stage = .fin)
      (hdecode : decode sys.consumed = some (entityOf windows, last.trailers)) : Driven sys
  | failed {sys : Recording} (hclosed : sys.closed = true) (hlog : AllWindows sys.conn.state) :
      Driven sys

end

section

variable {hp : Httparse} {cfg : HttpConfig} {mrb : ℕ} {env : Env} {owned : Bool}
  {ix : HeadIndex} {cap : ℕ+} {head : Bytes} {h : Head} {dc : ℕ} {log : List HttpRequest}
  {pending : Option (ℕ × ℕ)}

section

variable (hv : headView hp ix head = .ok (some h))
include hv

theorem deliver_window {fr n left : ℕ} (hle : fr + n ≤ buf.length)
    (ho : owed (buf.take fr) cl ap n = left) :
    (inBody ix cap head cl ap dc log part buf pending).deliver hp recorder env owned fr n =
      (inBody ix cap head (left - n) (left - n == 0) (Usize.saturatingAdd dc n)
        (log ++ [request h head ((buf.drop fr).take n) [] .window])
        (part ++ buf.take (fr + n)) (buf.drop (fr + n)) none, some (interim false)) := by
  have hb := length_window hle
  simp only [deliver, inBody, Protocol.step, deliverMid, dispatch, headOrFarewell, hv, hb, ho]
  rfl

variable {fr : ℕ} {sys : Recording}

theorem deliver_end {block_at : ℕ} : deliver hp recorder env owned
        ⟨⟨.streamDone head block_at, some cap, ix, log⟩, part, buf, none, false⟩ fr 0 =
      (⟨⟨.head, some cap, ix,
          log ++ [request h head [] (blockTrailers ((buf.take fr).drop block_at)) .fin]⟩,
        part ++ buf.take fr, buf.drop fr, none, true⟩, some .close) := by
  simp only [deliver, Protocol.step, deliverLast, dispatch, headOrFarewell, hv]
  rfl

theorem pumped_pump (cfg : HttpConfig) (mrb : ℕ) :
    Pumped mrb h ix cap head cl ap dc log part buf
      ((inBody ix cap head cl ap dc log part buf pending).next hp cfg
        mrb (.pump recorder env owned)) := by
  have hf : frame hp cfg buf ⟨.streamBody head cl ap dc, some cap, ix, log⟩ =
      streamStep buf ⟨.streamBody head cl ap dc, some cap, ix, log⟩ := rfl
  rw [next_of_open rfl]
  rcases Nat.eq_zero_or_pos cl with rfl | hpos
  · simp only [exec, inBody, hf, streamStep, Nat.lt_irrefl, if_false]
    cases hs : step buf ap with
    | more => exact .waits none (.inr ⟨rfl, .inl hs⟩)
    | bad status =>
      simp only [fail, add_zero, le_refl, if_true]
      split_ifs <;> exact .failed rfl rfl (.inr (.inl ⟨⟨status, hs⟩, rfl⟩))
    | chunk fr pl =>
      obtain ⟨hle, ha⟩ := step_take_of_chunk hs
      have hfm := framing_le_of_step_chunk hs
      have hpos : 0 < pl := by
        obtain ⟨_, _, -, hn, -⟩ := split_of_step_chunk hs
        exact pos_of_ne_zero hn
      have hm : 0 < min pl STREAM_WINDOW := lt_min hpos (by decide)
      simp only
      split_ifs with hc
      · simp only [fail, add_zero, le_refl, if_true]
        have ho : (cap : ℕ) < Usize.saturatingAdd dc pl := by simpa using hc
        split_ifs <;> exact .failed rfl rfl (.inr (.inr ⟨fr, pl, rfl, hs, ho⟩))
      · simp only
        split_ifs with hmax hh
        · exact .failed rfl rfl (.inl (by omega))
        · have hd := @deliver_window part buf 0 ap hp env owned ix cap head h
            dc log none hv fr (min pl STREAM_WINDOW) pl hh
            (by simp [owed, ha])
          rw [inBody] at hd
          rw [hd]
          exact .window hm hh rfl (.inr ⟨rfl, hs⟩)
        · exact .waits _ (.inr ⟨rfl, .inr ⟨fr, pl, hs, not_le.1 hh⟩⟩)
    | last fr =>
      have hfm := framing_le_of_step_last hs
      have hlen : (if ap then 2 else 0) = (closing ap).length := by
        cases ap <;> rfl
      simp only [hlen]
      obtain ⟨line, tail, extent, -, hb, he, hpos, hdo⟩ := split_of_step_last hs
      have hle : fr ≤ buf.length := by
        have := (isBody_of_scan (Prod.ext rfl hdo)).1
        rw [hb, length_append]
        omega
      split_ifs with hmax
      · refine .failed rfl rfl (.inl ?_)
        simp only [STREAM_WINDOW, CHUNK_LINE_MAX, TRAILER_MAX] at hfm ⊢
        omega
      · rw [deliver_end hv]
        exact .ended rfl hs rfl rfl rfl
      · next hh => exact absurd hle hh
  · have hm : 0 < min cl STREAM_WINDOW := lt_min hpos (by decide)
    simp only [exec, inBody, hf, streamStep, if_pos hpos]
    split_ifs with hmax hh
    · exact .failed rfl rfl (.inl (by omega))
    · have hd := @deliver_window part buf cl ap hp env owned ix cap head h
        dc log none hv 0 (min cl STREAM_WINDOW) cl hh (if_pos hpos)
      rw [inBody] at hd
      rw [hd]
      exact .window hm hh rfl (.inl ⟨hpos, rfl, rfl⟩)
    · exact .waits _ (.inl (by omega))

end

theorem payload_of_trailer {p : Bytes} {s : ChunkScan} (hs : s.state = .trailer ∨ s.state = .done) :
    (run p s).payload = [] := by
  refine run_induction (P := fun s out => s.state = .trailer ∨ s.state = .done →
    out.payload = []) ?_ ?_ s hs
  · intro s v hv hs
    rcases hs with hs | hs
    · unfold runPass
      simp only [hs, reduceCtorEq, if_false, trailerPass]
      repeat' split
      all_goals rfl
    · rw [runPass_done hs]
      rfl
  · intro s out hv ih hs
    obtain ⟨-, ha⟩ := (does_runPass ..).advances hv
    generalize runPass p s = pass at ha ih
    cases ha with
    | size hsi _ _ _ _ => simp [hsi] at hs
    | data hd _ => simp [hd] at hs
    | crlf hc _ => simp [hc] at hs
    | field ht _ _ _ _ _ _ => exact ih (.inl ht)
    | finish _ _ _ _ => exact ih (.inr rfl)

theorem entity_terminal {line : Bytes} (hl : SizeLine line 0) (tail : Bytes) :
    (run (line ++ (CRLF ++ tail)) default).entity (line ++ (CRLF ++ tail)) = [] := by
  have hpa := runPass_size (p := line ++ (CRLF ++ tail)) (s := default) (zero_le _) rfl
  rw [show (default : ChunkScan).consumed = 0 from rfl, drop_zero, sizePass_line hl,
    if_pos rfl] at hpa
  rw [run_of_verdict_none (by rw [hpa]; rfl), hpa]
  simp only [RunOut.entity, Pass.go, nil_append]
  rw [payload_of_trailer (.inl rfl), flatMap_nil]

theorem decode_of_last (ha : StreamAt part ent 0 ap) (hs : step buf ap = .last fr) :
    decode (part ++ buf.take fr) =
      some (ent, blockTrailers ((buf.take fr).drop (closing ap).length)) := by
  have hb := (isBody_of_last ha hs).2
  obtain ⟨line, tail, extent, hln, rfl, rfl, hle, hd⟩ := split_of_step_last hs
  have hbl := (isBody_of_scan (Prod.ext rfl hd)).2
  have hta : (line ++ (CRLF ++ tail)).take extent =
      line ++ (CRLF ++ tail.take (extent - (line.length + 2))) := by
    obtain ⟨k, rfl⟩ := Nat.exists_eq_add_of_le hle
    rw [Nat.add_sub_cancel_left, add_assoc, take_length_add_append]
    exact congrArg (line ++ ·) (@List.take_length_add_append _ CRLF _ k)
  have he := entity_terminal hln (tail.take (extent - (line.length + 2)))
  rw [← hta] at he
  rw [take_length_add_append] at hb ⊢
  rw [drop_left]
  generalize (line ++ (CRLF ++ tail)).take extent = block at hb hbl he ⊢
  rw [← append_assoc] at hb ⊢
  have hc := ha.close.continues block
  obtain ⟨tr, ht⟩ := exists_trailers block default
  have hl := hc.lines
  rw [RunOut.lines_shift, nil_append] at hl
  have hen := hc.entity
  rw [RunOut.entity_shift, he, append_nil] at hen
  rw [blockTrailers_of_isBody hbl ht, decode_of_isBody hb (by rw [hl]; exact ht), hen]

theorem AllWindows.append {body : Bytes} (hl : AllWindows log) (hb : body.length ≤ STREAM_WINDOW) :
    AllWindows (log ++ [request h head body [] .window]) := by
  refine forall_mem_append.2 ⟨hl, forall_mem_singleton.2 ?_⟩
  exact ⟨rfl, hb⟩

theorem entityOf_append (log : List HttpRequest) (body : Bytes) (tr : List HeaderView)
    (stage : Stage) : entityOf (log ++ [request h head body tr stage]) = entityOf log ++ body := by
  simp only [entityOf, flatMap_append, flatMap_singleton]
  rfl

theorem driven_pump (cfg : HttpConfig) (mrb : ℕ) (env : Env) (owned : Bool)
    (hv : headView hp ix head = .ok (some h)) (hd : Driven ix cap head sys) :
    Driven ix cap head (sys.next hp cfg mrb (.pump recorder env owned)).1 := by
  by_cases hcl : sys.closed = true
  · rw [next_of_closed hcl]
    exact hd
  cases hd with
  | ended hc | failed hc => exact absurd hc hcl
  | @under cl dc ap log part buf pending ha hl hdc =>
    have hpu := @pumped_pump part buf cl ap hp env owned ix cap head h
      dc log pending hv cfg mrb
    generalize next hp cfg mrb _ (.pump recorder env owned) = out at hpu ⊢
    cases hpu with
    | waits pending _ => exact .under ha hl hdc
    | @window fr left n hpos hle hn hf =>
      have hlen := length_window hle
      refine .under ?_ (hl.append (hlen.trans_le (hn ▸ min_le_right _ _))) ?_
      · rw [entityOf_append, take_add, ← append_assoc]
        have hwi : ((buf.drop fr).take n).length ≤ left := by omega
        rcases hf with ⟨hpos, rfl, rfl⟩ | ⟨rfl, hs⟩
        · have hw := ha.window hwi hpos
          rw [hlen] at hw
          rwa [take_zero, append_nil]
        · obtain ⟨hpos, hln⟩ := streamAt_of_chunk ha hs
          have hw := hln.window hwi hpos
          rwa [hlen] at hw
      · rw [entityOf_append, length_append, hlen]
        exact (min_le_left _ _).trans (Nat.add_le_add_right hdc _)
    | ended hz hst hc hs hco =>
      subst hz
      refine .ended hc hs hl rfl ?_
      rw [hco]
      exact decode_of_last ha hst
    | failed hc hs _ => exact .failed hc (hs ▸ hl)

theorem driven_drain (hv : headView hp ix head = .ok (some h)) (hd : Driven ix cap head sys)
    (fuel : ℕ) : Driven ix cap head (sys.drain hp cfg mrb env owned fuel) := by
  induction fuel generalizing sys with
  | zero => exact hd
  | succ fuel ih =>
    have hpu := driven_pump cfg mrb env owned hv hd
    rw [drain]
    split
    · rename_i sys' r ho
      rw [ho] at hpu
      exact ih hpu
    · rename_i sys' ho
      rw [ho] at hpu
      exact hpu

theorem driven_recv (hd : Driven ix cap head sys) (segment : Bytes) :
    Driven ix cap head (sys.next hp cfg mrb (.recv segment)).1 := by
  by_cases hc : sys.closed = true
  · rw [next_of_closed hc]
    exact hd
  cases hd with
  | under ha hl hdc => exact .under ha hl hdc
  | ended hc' | failed hc' => exact absurd hc' hc

theorem driven_drive (hv : headView hp ix head = .ok (some h)) (hd : Driven ix cap head sys)
    (segs : List Bytes) : Driven ix cap head (sys.drive hp cfg mrb env owned segs) := by
  induction segs generalizing sys with
  | nil => exact hd
  | cons segment segs ih => exact ih (driven_drain hv (driven_recv hd segment) _)

/-- The end was delivered and all of `w` was read. -/
def Over (w : Bytes) (sys : Recording) : Prop :=
  sys.closed = true ∧ sys.consumed = w ∧ ∃ q ∈ sys.conn.state, q.stage = .fin

variable {w e : Bytes} {t : List HeaderView}

theorem pump_forward (cfg : HttpConfig) (env : Env) (owned : Bool)
    (hv : headView hp ix head = .ok (some h))
    (hmax : STREAM_WINDOW + (CHUNK_LINE_MAX + 4) ≤ mrb) (hde : decode w = some (e, t))
    (hcap : e.length ≤ cap) (hd : Driven ix cap head sys) (ho : sys.closed = false)
    (hw : sys.consumed ++ (sys.buf ++ rest) = w) :
    let out := sys.next hp cfg mrb (.pump recorder env owned)
    (out.2 = none ∧ out.1.closed = false ∧ out.1.consumed = sys.consumed ∧ out.1.buf = sys.buf ∧
        rest ≠ []) ∨
      ∃ r, out.2 = some r ∧
        (Over w out.1 ∨ out.1.closed = false ∧ out.1.consumed ++ (out.1.buf ++ rest) = w ∧
          out.1.buf.length < sys.buf.length) := by
  obtain ⟨hb, he, -⟩ := isBody_of_decode hde
  cases hd with
  | ended hc _ _ _ _ | failed hc _ => exact nomatch ho.symm.trans hc
  | @under cl dc ap log part buf pending ha hlog hdc =>
    have hpu := @pumped_pump part buf cl ap hp env owned ix cap head h
      dc log pending hv cfg mrb
    obtain rfl : part ++ (buf ++ rest) = w := hw
    -- what a chunk that starts here owes is still to come
    have hos : ∀ {fr pl}, cl = 0 →
        step buf ap = .chunk fr pl →
        fr + pl ≤ buf.length + rest.length ∧
          (entityOf log).length + pl ≤ e.length := by
      rintro fr pl rfl hs
      obtain ⟨hle, -⟩ := step_take_of_chunk hs
      obtain ⟨hpos, hl⟩ := streamAt_of_chunk ha hs
      have hsp : part ++ (buf ++ rest) = part ++ buf.take fr ++ (buf.drop fr ++ rest) := by
        rw [append_assoc, ← append_assoc (buf.take fr), take_append_drop]
      rw [hsp] at hb he
      obtain ⟨ht, hlen⟩ := hl.owes hpos hb
      rw [length_append, length_drop] at ht
      rw [he] at hlen
      exact ⟨by omega, hlen⟩
    have hf : ∀ {after}, cl = 0 → step buf ap = after →
        match (after : Step) with
        | .more => buf ≠ buf ++ rest
        | .bad _ => False
        | .chunk _ _ => True
        | .last fr => fr = (buf ++ rest).length := by
      rintro after rfl rfl
      exact step_on_body ha hb (prefix_append _ _)
    generalize next hp cfg mrb _ (.pump recorder env owned) = out at hpu ⊢
    cases hpu with
    | waits pending hsh =>
      refine .inl ⟨rfl, rfl, rfl, rfl, ?_⟩
      rintro rfl
      rcases hsh with hsh | ⟨hz, hm | ⟨fr, pl, hs, hsh⟩⟩
      · have hpos : 0 < cl := by omega
        have := (ha.owes hpos hb).1
        rw [append_nil] at this
        omega
      · exact hf hz hm (append_nil buf).symm
      · have := (hos hz hs).1
        rw [length_nil] at this
        omega
    | @window fr left n hpos hle hn hfm =>
      refine .inr ⟨_, rfl, .inr ⟨rfl, ?_, ?_⟩⟩
      · simp only [inBody, append_assoc]
        rw [← append_assoc (buf.take _), take_append_drop]
      · simp only [inBody, length_drop]
        omega
    | @ended fr _ hz hs hc hsta hco =>
      refine .inr ⟨_, rfl, .inl ⟨hc, ?_, ?_⟩⟩
      · have hall := hf hz hs
        have hle := (isBody_of_last (hz ▸ ha) hs).1
        rw [length_append] at hall
        obtain rfl : rest = [] := length_eq_zero_iff.1 (by omega)
        rw [hco, take_of_length_le (by omega), append_nil]
      · rw [hsta]
        exact ⟨_, mem_append_right _ (mem_singleton_self _), rfl⟩
    | failed _ _ hwhy =>
      exfalso
      rcases hwhy with hwhy | ⟨⟨status, hbad⟩, hz⟩ | ⟨fr, pl, hz, hs, hov⟩
      · omega
      · exact hf hz hbad
      · have hlen := (hos hz hs).2
        simp only [Usize.saturatingAdd] at hov
        omega

theorem Over.drain (ho : Over w sys) (fuel : ℕ) : sys.drain hp cfg mrb env owned fuel = sys := by
  cases fuel with
  | zero => rfl
  | succ fuel => rw [Sys.drain, Sys.next_of_closed ho.1]

section

variable (hv : headView hp ix head = .ok (some h)) (hm : STREAM_WINDOW + (CHUNK_LINE_MAX + 4) ≤ mrb)
  (hde : decode w = some (e, t))
include hv hm hde

theorem drain_forward
    (hcap : e.length ≤ cap) {fuel : ℕ} (hd : Driven ix cap head sys) (hon : sys.closed = false)
    (hw : sys.consumed ++ (sys.buf ++ rest) = w) (hf : sys.buf.length < fuel) :
    let sys' := sys.drain hp cfg mrb env owned fuel
    Over w sys' ∨ sys'.closed = false ∧ sys'.consumed ++ (sys'.buf ++ rest) = w ∧ rest ≠ [] := by
  induction fuel generalizing sys with
  | zero => exact absurd hf (not_lt_zero _)
  | succ fuel ih =>
    have hs := pump_forward cfg env owned hv hm hde hcap hd hon hw
    have hpu := driven_pump cfg mrb env owned hv hd
    rw [drain]
    generalize sys.next hp cfg mrb (.pump recorder env owned) = out at hs hpu
    obtain ⟨sys', r⟩ := out
    rcases hs with ⟨rfl, ho', hc, hb, hr⟩ | ⟨r, rfl, ho | ⟨ho', hw', hlt⟩⟩
    · refine .inr ⟨ho', ?_, hr⟩
      rw [hc, hb, hw]
    · refine .inl ?_
      simp only [ho.drain]
      exact ho
    · exact ih hpu ho' hw' (by simp only at hlt; omega)

theorem drive_forward (hc : e.length ≤ cap) (segs : List Bytes) (hd : Driven ix cap head sys)
    (hs : Over w sys ∨ sys.closed = false ∧ sys.consumed ++ (sys.buf ++ segs.flatten) = w ∧
      segs.flatten ≠ []) : Over w (sys.drive hp cfg mrb env owned segs) := by
  induction segs generalizing sys with
  | nil =>
    rcases hs with ho | ⟨-, -, hne⟩
    · exact ho
    · exact absurd rfl hne
  | cons segment segs ih =>
    apply ih (driven_drain hv (driven_recv hd segment) _)
    rcases hs with ho | ⟨hon, hw, -⟩
    · refine .inl ?_
      simp only [next_of_closed ho.1, ho.drain]
      exact ho
    · refine drain_forward hv hm hde hc (driven_recv hd segment) ?_ ?_ (lt_succ_self _)
      · rw [next_of_open hon]
        exact hon
      · rw [next_of_open hon]
        simp only [exec, append_assoc]
        exact hw

end

theorem Driven.last {sys : Recording} (hd : Driven ix cap head sys)
    {q : HttpRequest} (hq : q ∈ sys.conn.state) (hf : q.stage = .fin) :
    ∃ windows, sys.conn.state = windows ++ [q] ∧ AllWindows windows ∧
      decode sys.consumed = some (entityOf windows, q.trailers) := by
  have hw : ∀ {log}, AllWindows log → q ∉ log := fun hl hq =>
    nomatch hf.symm.trans (hl q hq).1
  cases hd with
  | under _ hl _ | failed _ hl => exact absurd hq (hw hl)
  | @ended _ windows last _ hs hl _ hde =>
    rw [hs] at hq
    rcases mem_append.1 hq with hq | hq
    · exact absurd hq (hw hl)
    · obtain rfl := mem_singleton.1 hq
      exact ⟨windows, hs, hl, hde⟩

/-- Driven over the segments of a body that the decoder accepts, the streaming machine
delivers its entity in windows and then its end with the trailers. If it delivers an end,
the bytes it has taken are a body that the decoder accepts, with what was delivered. -/
theorem streamed_agrees_with_decode (hp : Httparse) (cfg : HttpConfig) (max_request_bytes : ℕ)
    (hmax : cfg.minRequestBytes ≤ max_request_bytes) (env : Env) (owned : Bool) (index : HeadIndex)
    (cap : ℕ+) (head : Bytes) (h : Head) (hview : headView hp index head = .ok (some h))
    (segments : List Bytes) :
    let sys := (bodyStart index cap head).drive hp cfg max_request_bytes env owned segments
    (∀ e t, decode segments.flatten = some (e, t) → e.length ≤ cap →
      ∃ windows last, sys.conn.state = windows ++ [last] ∧
        (∀ q ∈ windows, q.stage = .window ∧ q.body.length ≤ STREAM_WINDOW) ∧
        windows.flatMap HttpRequest.body = e ∧ last.stage = .fin ∧ last.trailers = t ∧
          sys.consumed = segments.flatten) ∧
      ∀ last ∈ sys.conn.state, last.stage = .fin → ∃ windows, sys.conn.state = windows ++ [last] ∧
          decode sys.consumed = some (windows.flatMap HttpRequest.body, last.trailers) := by
  intro sys
  have hsr : Driven index cap head (bodyStart index cap head) :=
    .under .nil nofun (zero_le _)
  have hd : Driven index cap head sys := driven_drive hview hsr segments
  constructor
  · intro e t hde hcap
    have hw : STREAM_WINDOW + (CHUNK_LINE_MAX + 4) ≤ max_request_bytes :=
      (le_minRequestBytes_of_window (by decide) (by omega)).trans hmax
    have hne : segments.flatten ≠ [] := by
      intro hnil
      have hn : decode [] = none := by decide +kernel
      rw [hnil, hn] at hde
      exact nomatch hde
    obtain ⟨-, hc, q, hq, hf⟩ : Over segments.flatten sys :=
      drive_forward hview hw hde hcap segments hsr (.inr ⟨rfl, rfl, hne⟩)
    obtain ⟨windows, hs, hl, hde'⟩ := hd.last hq hf
    rw [hc, hde] at hde'
    cases hde'
    exact ⟨windows, q, hs, hl, rfl, hf, rfl, hc⟩
  · intro last hla hf
    obtain ⟨windows, hs, -, hde⟩ := hd.last hla hf
    exact ⟨windows, hs, hde⟩

end

def uploadView : Head :=
  ⟨ascii "PUT", ascii "/", .http11,
    [⟨ascii "Host", ascii "h"⟩, ⟨ascii "Transfer-Encoding", ascii "chunked"⟩,
      ⟨ascii "Expect", ascii "100-continue"⟩]⟩

theorem streamed_agrees_with_decode_upload :
    let segments := [ascii "2\r\na", ascii "b\r\n0\r\nx: y\r\n\r\n"]
    let sys := (bodyStart default 2 uploadHead).drive uploadParse default
      (default : HttpConfig).minRequestBytes calm false segments
    decode segments.flatten = some (ascii "ab", [⟨ascii "x", ascii "y"⟩]) ∧
      ∃ windows last, sys.conn.state = windows ++ [last] ∧
        (∀ q ∈ windows, q.stage = .window ∧ q.body.length ≤ STREAM_WINDOW) ∧
        windows.flatMap HttpRequest.body = ascii "ab" ∧ last.stage = .fin ∧
          last.trailers = [⟨ascii "x", ascii "y"⟩] ∧ sys.consumed = segments.flatten := by
  intro segments sys
  have hv : headView uploadParse default uploadHead = .ok (some uploadView) := by decide +kernel
  have hd : decode segments.flatten = some (ascii "ab", [⟨ascii "x", ascii "y"⟩]) := by
    decide +kernel
  exact ⟨hd, (streamed_agrees_with_decode uploadParse default _ le_rfl calm false default 2
    uploadHead uploadView hv segments).1 _ _ hd (by decide)⟩

/-- Bytes after the body do not keep the machine from its end; the decoder refuses them. -/
theorem streamed_end_before_trailing_bytes :
    let w := ascii "0\r\n\r\nX"
    let sys := (bodyStart default 1 uploadHead).drive uploadParse default
      (default : HttpConfig).minRequestBytes calm false [w]
    (∃ last ∈ sys.conn.state, last.stage = .fin) ∧ decode w = none := by
  refine ⟨?_, by decide +kernel⟩
  decide +kernel

end TruenasRos.Http
