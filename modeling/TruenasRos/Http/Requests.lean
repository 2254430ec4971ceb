import TruenasRos.Http.Framed
import TruenasRos.Http.Pieces

/-! # Requests on the wire

Where a request ends is said by its own head: after as many bytes as it declares, or
where the chunked body that follows it is complete. A connection's bytes are at a
boundary when they are a sequence of whole requests.
-/

namespace TruenasRos.Http

open List

/-- The bytes of a head, all of them, and the body it announces. -/
def IsHead (hp : Httparse) (head : Bytes) (kind : BodyKind) : Prop :=
  ∃ facts, frameFacts hp head = .ok (some facts) ∧ facts.len = head.length ∧ facts.body = .ok kind

/-- A body that is the whole of what its head announces. -/
def IsBody : BodyKind → Bytes → Prop
  | .known n, body => body.length = n
  | .chunked, body => (scan body default).2 = .ok (some body.length)

/-- The bytes of a sequence of whole requests. -/
inductive Boundary (hp : Httparse) : Bytes → Prop
  | start : Boundary hp []
  | request {pre head body : Bytes} {kind : BodyKind} (h : Boundary hp pre)
      (hhead : IsHead hp head kind) (hbody : IsBody kind body) :
      Boundary hp (pre ++ head ++ body)

/-- Whole requests, a head, and the part of its body that was read. -/
def InBody (hp : Httparse) (consumed : Bytes) (kind : BodyKind) (part : Bytes) : Prop :=
  ∃ pre head, Boundary hp pre ∧ IsHead hp head kind ∧ consumed = pre ++ head ++ part

namespace InBody

variable {hp : Httparse} {cn part piece : Bytes} {kind : BodyKind}

theorem append (h : InBody hp cn kind part) (piece : Bytes) :
    InBody hp (cn ++ piece) kind (part ++ piece) := by
  obtain ⟨pre, head, hpre, hh, rfl⟩ := h
  exact ⟨pre, head, hpre, hh, append_assoc _ _ _⟩

theorem boundary (h : InBody hp cn kind part) (hb : IsBody kind part) : Boundary hp cn := by
  obtain ⟨pre, head, hpre, hh, rfl⟩ := h
  exact .request hpre hh hb

theorem of_isHead {head : Bytes} (h : Boundary hp cn) (hh : IsHead hp head kind) :
    InBody hp (cn ++ head) kind [] :=
  ⟨cn, head, h, hh, (append_nil _).symm⟩

end InBody

section

variable {hp : Httparse} {buf : Bytes} {len : ℕ} {req : Request}

theorem Span.read_take {part : Span} (h : part.len = 0 ∨ part.start + part.len ≤ len) :
    part.read (buf.take len) = part.read buf := by
  unfold Span.read
  rcases h with hz | hle
  · rw [hz, take_zero, take_zero]
  · rw [drop_take, take_take, min_eq_left (by omega)]

section

variable (h : ∀ part ∈ req.parts, part.len = 0 ∨ part.start + part.len ≤ len)
include h

theorem Request.views_take : req.views (buf.take len) = req.views buf := by
  refine map_congr_left fun field hf => ?_
  have hmem : ∀ part ∈ [field.1, field.2], part ∈ req.parts := fun part hpr =>
    mem_append_right _ (mem_flatMap.2 ⟨field, hf, hpr⟩)
  rw [Span.read_take (h _ (hmem _ (by simp))), Span.read_take (h _ (hmem _ (by simp)))]

theorem screen_take : screen (buf.take len) len req = screen buf len req := by
  unfold screen
  rw [Request.views_take h]
  cases hm : req.method with
  | none => rfl
  | some m =>
    cases hpa : req.path with
    | none => rfl
    | some path =>
      have hmem : m ∈ req.parts ∧ path ∈ req.parts := by simp [Request.parts, hm, hpa]
      simp [Span.read_take (h _ hmem.1), Span.read_take (h _ hmem.2)]

end

variable {t : Tokens} {facts : FrameFacts}

theorem tokens_of_screen (h : screen buf len req = .ok t) : t.req = req ∧ t.len = len := by
  simp only [screen] at h
  split at h
  on_goal 3 => cases h
  all_goals
    obtain ⟨vs, -, h⟩ := bind_eq_ok_iff.1 h
    obtain ⟨host, -, h⟩ := bind_eq_ok_iff.1 h
    split at h
    · obtain ⟨k, -, h⟩ := bind_eq_ok_iff.1 h
      cases h
      exact ⟨rfl, rfl⟩
    · cases h

theorem tokenize_eq_some (h : tokenize hp buf = .ok (some t)) :
    hp.parse buf = .complete t.len t.req ∧ screen buf t.len t.req = .ok t := by
  unfold tokenize at h
  cases hpa : hp.parse buf with
  | complete len req =>
    simp only [hpa] at h
    cases hs : screen buf len req with
    | error status =>
      rw [hs] at h
      exact nomatch h
    | ok t' =>
      rw [hs] at h
      cases h
      obtain ⟨rfl, rfl⟩ := tokens_of_screen hs
      exact ⟨rfl, hs⟩
  | incomplete | tooManyHeaders | malformed => exact nomatch hpa ▸ h
  | badVersion =>
    rw [hpa] at h
    simp only at h
    split at h <;> exact nomatch h

theorem tokenize_take (h : tokenize hp buf = .ok (some t)) :
    tokenize hp (buf.take t.len) = .ok (some t) := by
  obtain ⟨hpa, hs⟩ := tokenize_eq_some h
  have ha := hp.complete_append [] hpa
  rw [append_nil] at ha
  rw [tokenize, ha]
  simp only [screen_take (hp.complete_within hpa), hs]
  rfl

section

variable (h : frameFacts hp buf = .ok (some facts))
include h

theorem frameFacts_eq_some : ∃ t, tokenize hp buf = .ok (some t) ∧ facts = t.facts buf := by
  unfold frameFacts frameFactsIndexed at h
  split at h
  · exact nomatch h
  · exact nomatch h
  · next t ht => exact ⟨t, ht, (Option.some.inj (Except.ok.inj h)).symm⟩

theorem len_le_of_frameFacts : facts.len ≤ buf.length := by
  obtain ⟨t, ht, rfl⟩ := frameFacts_eq_some h
  exact hp.complete_le (tokenize_eq_some ht).1

theorem isHead_of_frameFacts {kind : BodyKind} (hb : facts.body = .ok kind) :
    IsHead hp (buf.take facts.len) kind := by
  have hlen := len_le_of_frameFacts h
  obtain ⟨t, ht, rfl⟩ := frameFacts_eq_some h
  have hv := @Request.views_take buf t.len t.req (hp.complete_within (tokenize_eq_some ht).1)
  refine ⟨t.facts (buf.take t.len), ?_, (length_take_of_le hlen).symm, ?_⟩
  · simp [frameFacts, frameFactsIndexed, Tokens.facts, tokenize_take ht]
  · rw [← hb]
    simp [Tokens.facts, hv]

end

end

theorem isBody_of_scan {w : Bytes} {s : ChunkScan} {extent : ℕ}
    (h : scan w default = (s, .ok (some extent))) :
    extent ≤ w.length ∧ IsBody .chunked (w.take extent) := by
  have hd : (scan w default).2 = .ok (some extent) := by rw [h]
  have hle : extent ≤ w.length :=
    extent_eq_consumed hd ▸ consumed_scan_le (Nat.zero_le _) hd
  refine ⟨hle, ?_⟩
  rw [IsBody, scan_take (Nat.zero_le _) hd, hd, length_take_of_le hle]

/-- Where the streamed walk stands in a chunked body, and the entity it has given. -/
def StreamAt (part ent : Bytes) (chunk_left : ℕ) (after_payload : Bool) : Prop :=
  ∃ s, Stands part s ent ∧ s.state =
    if 0 < chunk_left then .data chunk_left else if after_payload then .dataCrlf else .size

namespace StreamAt

variable {part ent piece : Bytes} {left : ℕ} {ap : Bool}

theorem nil : StreamAt [] [] 0 false := ⟨default, .nil, rfl⟩

theorem window (h : StreamAt part ent left ap) (hle : piece.length ≤ left) (hpos : 0 < left) :
    StreamAt (part ++ piece) (ent ++ piece) (left - piece.length) (left - piece.length == 0) := by
  obtain ⟨s, hs, hsta⟩ := h
  rw [if_pos hpos] at hsta
  rcases hle.lt_or_eq with hlt | rfl
  · refine ⟨_, hs.payload_part hsta hlt, ?_⟩
    rw [if_pos (Nat.sub_pos_of_lt hlt)]
    rfl
  · refine ⟨_, hs.payload_rest hsta, ?_⟩
    rw [Nat.sub_self]
    rfl

theorem close (h : StreamAt part ent 0 ap) : StreamAt (part ++ closing ap) ent 0 false := by
  obtain ⟨s, hs, hsta⟩ := h
  cases ap with
  | false => exact ⟨s, (append_nil part).symm ▸ hs, hsta⟩
  | true => exact ⟨_, hs.crlf hsta, rfl⟩

section

variable (h : StreamAt part ent 0 false)
include h

theorem line {line : Bytes} {n : ℕ} (hl : SizeLine line n)
    (hn : n ≠ 0) : StreamAt (part ++ (line ++ CRLF)) ent n false := by
  obtain ⟨s, hs, hsta⟩ := h
  exact ⟨_, hs.size_line hsta hl hn, (if_pos (pos_of_ne_zero hn)).symm⟩

theorem continues (block : Bytes) : Continues (part ++ block) (run (part ++ block) default) ent []
      ((run block default).shift part.length ent.length) := by
  obtain ⟨s, hs, hsta⟩ := h
  exact hs.finish hsta

theorem isBody {block : Bytes} (hb : IsBody .chunked block) : IsBody .chunked (part ++ block) := by
  rw [IsBody] at hb ⊢
  rw [scan, (h.continues block).verdict, RunOut.shift, length_append]
  exact congrArg (shiftVerdict part.length) hb

end

end StreamAt

end TruenasRos.Http
