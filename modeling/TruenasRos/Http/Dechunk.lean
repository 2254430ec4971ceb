import TruenasRos.Http.Pieces

/-! # Decoding in place

The payloads of a chunked body follow one another in the buffer, each behind its framing. So they
can be moved down one after the other without touching what is still to be moved, and the buffer
then holds the entity that the copying decoder returns.
-/

namespace TruenasRos.Http

open List Nat

variable {p w buf : Bytes} {s : ChunkScan} {lo hi dst n : ℕ} {spans : List (ℕ × ℕ)}

/-- Spans that follow one another between two offsets. -/
def Follow : ℕ → List (ℕ × ℕ) → ℕ → Prop
  | lo, [], hi => lo ≤ hi
  | lo, r :: spans, hi => lo ≤ r.1 ∧ r.1 ≤ r.2 ∧ Follow r.2 spans hi

def extent (spans : List (ℕ × ℕ)) : ℕ := (spans.map fun r => r.2 - r.1).sum

@[simp] theorem extent_cons (r : ℕ × ℕ) (spans : List (ℕ × ℕ)) :
    extent (r :: spans) = r.2 - r.1 + extent spans := by
  simp [extent]

theorem Follow.mono {lo' : ℕ} (h : Follow lo spans hi) (hle : lo' ≤ lo) : Follow lo' spans hi := by
  cases spans with
  | nil => exact hle.trans h
  | cons r spans => exact ⟨hle.trans h.1, h.2⟩

theorem Follow.le (h : Follow lo spans hi) : lo ≤ hi := by
  induction spans generalizing lo with
  | nil => exact h
  | cons r spans ih =>
    obtain ⟨hl, hr, hre⟩ := h
    exact hl.trans (hr.trans (ih hre))

theorem follow_span {k : ℕ} (h : Follow (lo + k) spans hi) :
    Follow lo ((if 0 < k then [(lo, lo + k)] else []) ++ spans) hi := by
  split
  · exact ⟨le_rfl, le_add_right _ _, h⟩
  · exact h.mono (le_add_right _ _)

theorem extent_span (lo k : ℕ) (spans : List (ℕ × ℕ)) :
    extent ((if 0 < k then [(lo, lo + k)] else []) ++ spans) = k + extent spans := by
  split
  · simp
  · rename_i hk
    obtain rfl : k = 0 := Nat.eq_zero_of_not_pos hk
    simp

theorem follow_run (hle : s.consumed ≤ p.length) (h : (run p s).verdict = .ok (some n)) :
    Follow s.consumed (run p s).payload p.length ∧
      s.decoded + extent (run p s).payload = (run p s).scan.decoded := by
  refine run_induction (P := fun s out => s.consumed ≤ p.length →
    out.verdict = .ok (some n) → Follow s.consumed out.payload p.length ∧
      s.decoded + extent out.payload = out.scan.decoded) ?_ ?_ s hle h
  · rintro s _ hv hle rfl
    obtain ⟨-, hpa, -⟩ := (does_runPass ..).ends hv
    rw [hpa]
    exact ⟨hle, rfl⟩
  · intro s out hv ih hle ho
    obtain ⟨hf, hd⟩ := ih (consumed_runPass_le hv) ho
    have ha := ((does_runPass ..).advances hv).2
    generalize runPass p s = pass at ha hf hd
    cases ha with
    | size | crlf | field | finish => exact ⟨hf.mono (le_add_right _ _), hd⟩
    | data =>
      refine ⟨follow_span hf, ?_⟩
      rw [extent_span, ← add_assoc]
      exact hd

def gather (buf : Bytes) (dst : ℕ) (spans : List (ℕ × ℕ)) : Bytes × ℕ :=
  spans.foldl (fun acc r => (copyWithin acc.1 r acc.2, acc.2 + (r.2 - r.1))) (buf, dst)

/-- What is still to be moved lies behind what has been written, so the moves read the spans as
they were. -/
theorem take_gather (hdst : dst ≤ lo) (hsp : Follow lo spans w.length)
    (hd : buf.drop lo = w.drop lo) (hlen : buf.length = w.length) :
    (gather buf dst spans).2 = dst + extent spans ∧
      (gather buf dst spans).1.take (dst + extent spans) =
        buf.take dst ++ spans.flatMap (slice w) := by
  induction spans generalizing buf dst lo with
  | nil => exact ⟨rfl, (append_nil _).symm⟩
  | cons r spans ih =>
    obtain ⟨hl, hr, hre⟩ := hsp
    have he := hre.le
    have hsl : slice buf r = slice w r := by
      obtain ⟨k, hk⟩ := Nat.exists_eq_add_of_le hl
      unfold slice
      rw [hk, ← drop_drop, ← drop_drop, hd]
    have hsi : (slice w r).length = r.2 - r.1 := by
      rw [slice, length_take, length_drop]
      omega
    have ht : (buf.take dst).length = dst := by
      rw [length_take]
      omega
    have hm : copyWithin buf r dst =
        buf.take dst ++ slice w r ++ buf.drop (dst + (r.2 - r.1)) := by
      rw [copyWithin, hsl]
    have hf : (buf.take dst ++ slice w r).length = dst + (r.2 - r.1) := by
      rw [length_append, ht, hsi]
    have hro : dst + (r.2 - r.1) ≤ r.2 := by omega
    have hb : (copyWithin buf r dst).drop r.2 = w.drop r.2 := by
      obtain ⟨k, hk⟩ := Nat.exists_eq_add_of_le hro
      obtain ⟨j, hj⟩ := Nat.exists_eq_add_of_le (hl.trans hr)
      calc (copyWithin buf r dst).drop r.2
          = (buf.drop (dst + (r.2 - r.1))).drop k := by
            rw [hm, hk, ← drop_drop, ← hf, drop_left]
        _ = buf.drop r.2 := by rw [drop_drop, ← hk]
        _ = w.drop r.2 := by rw [hj, ← drop_drop, hd, drop_drop]
    have hl' : (copyWithin buf r dst).length = w.length := by
      rw [hm, length_append, hf, length_drop]
      omega
    obtain ⟨hs, hfst⟩ := ih hro hre hb hl'
    rw [extent_cons, ← add_assoc]
    refine ⟨hs, hfst.trans ?_⟩
    rw [hm, ← hf, take_left, flatMap_cons, append_assoc]

/-- Where one decoder succeeds so does the other, with the same entity and the same trailers, and
the entity is as long as the scanner counted. -/
theorem compact_agrees_with_decode (w : Bytes) : compact w = none ∧ decode w = none ∨
      ∃ c wire entity trailers, compact w = some (c, wire) ∧ decode w = some (entity, trailers) ∧
        slice wire (c.start, c.start + c.len) = entity ∧ c.len = (scan w default).1.decoded ∧
        c.trailers = some trailers := by
  by_cases ho : (run w default).verdict = .ok (some w.length)
  · right
    obtain ⟨trailers, ht⟩ := exists_trailers w default
    have hde := decode_of_verdict ho ht
    obtain ⟨hf, hd⟩ := follow_run (zero_le _) ho
    change 0 + _ = _ at hd
    cases hs : (run w default).payload with
    | nil =>
      refine ⟨⟨0, 0, (run w default).lines w⟩, w, _, trailers, ?_, hde, ?_, ?_, ht⟩
      · simp only [compact, ho, if_true, hs]
        rfl
      · rw [RunOut.entity, hs]
        rfl
      · rw [hs] at hd
        exact hd
    | cons first spans =>
      rw [hs] at hf hd
      obtain ⟨-, hfi, hr⟩ := hf
      obtain ⟨hsnd, hfst⟩ := take_gather le_rfl hr rfl rfl
      rw [extent_cons] at hd
      refine ⟨⟨first.1, (gather w first.2 spans).2 - first.1, (run w default).lines w⟩,
        (gather w first.2 spans).1, _, trailers, ?_, hde, ?_, ?_, ht⟩
      · simp only [compact, ho, if_true, hs]
        rfl
      · have he : first.1 + ((gather w first.2 spans).2 - first.1) = first.2 + extent spans := by
          omega
        have hta : (w.take first.2).length = first.2 := by
          rw [length_take]
          have := hr.le
          omega
        dsimp only
        rw [he, slice, ← drop_take, hfst, RunOut.entity, hs,
          drop_append_of_le_length (by omega), flatMap_cons, slice, drop_take]
      · rw [hsnd, scan]
        dsimp only
        omega
  · left
    constructor
    · unfold compact
      dsimp only
      split
      · rename_i extent hv
        rw [if_neg]
        rintro rfl
        exact ho hv
      · rfl
    · unfold decode
      dsimp only
      split
      · rename_i extent hv
        rw [if_neg]
        rintro rfl
        exact ho hv
      · rfl

end TruenasRos.Http
