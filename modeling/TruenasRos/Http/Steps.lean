import TruenasRos.Http.Scan

/-! # One chunk at a time

What a step of the streamed walk sees: the CRLF that closes the previous payload, a
size line, and for the terminal chunk a trailer section that fits in the buffer.
-/

namespace TruenasRos.Http

open List Nat

variable {rest buf line : Bytes} {skip fr payload : ℕ} {ap : Bool} {v : Option ℕ}

def closing (after_payload : Bool) : Bytes := if after_payload then CRLF else []

theorem line_of_findCrlf {max i : ℕ} (h : findCrlf rest max = .found i) :
    rest = rest.take i ++ (CRLF ++ rest.drop (i + 2)) ∧ (rest.take i).length = i ∧ i ≤ max := by
  obtain ⟨hi, hm⟩ := findCrlf_eq_found h
  have := add_two_le_of_crlfPosition hi
  exact ⟨crlfPosition_eq_some hi, length_take_of_le (by omega), hm⟩

/-- What a step past the closing bytes has seen. -/
inductive Sees (skip : ℕ) : Bytes → Step → Prop
  | short {rest : Bytes} (h : findCrlf rest CHUNK_LINE_MAX = .needMore) : Sees skip rest .more
  | bad {rest : Bytes} {status : Status} : Sees skip rest (.bad status)
  | chunk {line tail : Bytes} {n : ℕ} (hline : SizeLine line n) (hn : n ≠ 0) :
      Sees skip (line ++ (CRLF ++ tail)) (.chunk (skip + line.length + 2) n)
  | waiting {line tail : Bytes} (hline : SizeLine line 0)
      (h : (scan (line ++ (CRLF ++ tail)) default).2 = .ok none) :
      Sees skip (line ++ (CRLF ++ tail)) .more
  | last {line tail : Bytes} {extent : ℕ} (hline : SizeLine line 0)
      (h : (scan (line ++ (CRLF ++ tail)) default).2 = .ok (some extent)) :
      Sees skip (line ++ (CRLF ++ tail)) (.last (skip + extent))

theorem sees_stepAt (skip : ℕ) (rest : Bytes) : Sees skip rest (stepAt skip rest) := by
  unfold stepAt
  cases hf : findCrlf rest CHUNK_LINE_MAX with
  | needMore => exact .short hf
  | tooLong => exact .bad
  | found i =>
    obtain ⟨hr, hlen, hm⟩ := line_of_findCrlf hf
    simp only
    split_ifs with hc
    · exact .bad
    · cases hn : parseSizeLine (rest.take i) with
      | none => exact .bad
      | some n =>
        have hl : SizeLine (rest.take i) n :=
          ⟨hlen.trans_le hm, Bool.eq_false_iff.2 hc, hn⟩
        generalize rest.take i = line at hr hlen hl
        generalize rest.drop (i + 2) = tail at hr
        subst hr hlen
        cases n with
        | succ n => exact .chunk hl (succ_ne_zero n)
        | zero =>
          simp only
          split
          · exact .last hl ‹_›
          · exact .waiting hl ‹_›
          · exact .bad

theorem stepAt_line {n : ℕ} (h : SizeLine line n) (hn : n ≠ 0) (tail : Bytes) :
    stepAt skip (line ++ (CRLF ++ tail)) = .chunk (skip + line.length + 2) n := by
  simp [stepAt, findCrlf_line h.clean h.short, h.clean, h.parses]

theorem step_closing (ap : Bool) (rest : Bytes) : step (closing ap ++ rest) ap =
      stepAt (closing ap).length rest := by
  cases ap with
  | false => rfl
  | true => rfl

theorem step_cases (buf : Bytes) (ap : Bool) :
    (buf.length < 2 ∧ step buf ap = .more) ∨ step buf ap = .bad 400 ∨
      ∃ rest, buf = closing ap ++ rest ∧
        Sees (closing ap).length rest (step buf ap) := by
  cases ap with
  | false => exact .inr (.inr ⟨buf, rfl, sees_stepAt 0 buf⟩)
  | true =>
    match buf with
    | [] => exact .inl ⟨two_pos, rfl⟩
    | [a] =>
      by_cases ha : a = CR
      · exact .inl ⟨one_lt_two, if_pos ha⟩
      · exact .inr (.inl (if_neg ha))
    | a :: b :: rest =>
      by_cases hab : a = CR ∧ b = LF
      · rw [hab.1, hab.2]
        exact .inr (.inr ⟨rest, rfl, sees_stepAt 2 rest⟩)
      · exact .inr (.inl (if_neg hab))

theorem split_of_step_chunk (h : step buf ap = .chunk fr payload) :
    ∃ line tail, SizeLine line payload ∧ payload ≠ 0 ∧
      buf = closing ap ++ (line ++ CRLF) ++ tail ∧
        fr = (closing ap ++ (line ++ CRLF)).length := by
  rcases step_cases buf ap with ⟨-, hm⟩ | hb | ⟨rest, rfl, hs⟩
  · exact nomatch hm.symm.trans h
  · exact nomatch hb.symm.trans h
  · rw [h] at hs
    cases hs with
    | @chunk line tail n hl hn =>
      refine ⟨line, tail, hl, hn, ?_, ?_⟩
      · simp
      · simp only [length_append, add_assoc]
        rfl

theorem step_take_of_chunk (h : step buf ap = .chunk fr payload) :
    fr ≤ buf.length ∧ step (buf.take fr) ap = .chunk fr payload := by
  obtain ⟨line, tail, hl, hn, rfl, rfl⟩ := split_of_step_chunk h
  refine ⟨(prefix_append _ _).length_le, ?_⟩
  rw [take_left, ← append_nil CRLF, step_closing, stepAt_line hl hn, append_nil]
  simp only [length_append, add_assoc]
  rfl

theorem consumed_trailer_le {p : Bytes} {s : ChunkScan}
    (hs : s.state = .trailer ∨ s.state = .done) (hsum : s.trailer_bytes ≤ TRAILER_MAX)
    (h : (scan p s).2 = .ok v) :
    (scan p s).1.consumed + s.trailer_bytes ≤ s.consumed + TRAILER_MAX := by
  refine scan_induction (P := fun s s' w => s.state = .trailer ∨ s.state = .done →
    s.trailer_bytes ≤ TRAILER_MAX → w = .ok v →
      s'.consumed + s.trailer_bytes ≤ s.consumed + TRAILER_MAX) ?_ ?_ s hs hsum h
  · rintro s _ hv hs hsum rfl
    cases v with
    | some n =>
      rw [((does_runPass ..).ends hv).2.1]
      exact Nat.add_le_add_left hsum _
    | none =>
      have hpa := ((does_runPass ..).pauses hv).2
      generalize runPass p s = pass at hpa ⊢
      cases hpa with
      | line _ => exact Nat.add_le_add_left hsum _
      | data hd _ => simp [hd] at hs
  · intro s s' w hv ih hs hsum hw
    have ha := ((does_runPass ..).advances hv).2
    generalize runPass p s = pass at ha ih
    cases ha with
    | size hsi _ _ _ _ => simp [hsi] at hs
    | data hd _ => simp [hd] at hs
    | crlf hc _ => simp [hc] at hs
    | field ht _ _ hle _ _ _ =>
      have := ih (.inl ht) hle hw
      simp only at this
      omega
    | finish _ _ hle _ =>
      have := ih (.inr rfl) hle hw
      simp only [Pass.go] at this
      omega

theorem scan_terminal (hl : SizeLine line 0) (tail : Bytes) :
    scan (line ++ (CRLF ++ tail)) default =
      scan (line ++ (CRLF ++ tail)) ⟨line.length + 2, 0, 0, .trailer⟩ := by
  have hpa := runPass_size (p := line ++ (CRLF ++ tail)) (s := default) (zero_le _) rfl
  rw [show (default : ChunkScan).consumed = 0 from rfl, drop_zero, sizePass_line hl,
    if_pos rfl] at hpa
  rw [scan_of_verdict_none (by rw [hpa]; rfl), hpa, Pass.go,
    show (default : ChunkScan).consumed = 0 from rfl, zero_add]
  rfl

theorem consumed_terminal_le {tail : Bytes} (hl : SizeLine line 0)
    (h : (scan (line ++ (CRLF ++ tail)) default).2 = .ok v) :
    (scan (line ++ (CRLF ++ tail)) default).1.consumed ≤ CHUNK_LINE_MAX + 2 + TRAILER_MAX := by
  rw [scan_terminal hl] at h ⊢
  have := consumed_trailer_le (.inl rfl) (zero_le _) h
  have hs := hl.short
  simp only at this ⊢
  omega

theorem split_of_step_last (h : step buf ap = .last fr) :
    ∃ line tail extent, SizeLine line 0 ∧ buf = closing ap ++ (line ++ (CRLF ++ tail)) ∧
      fr = (closing ap).length + extent ∧ line.length + 2 ≤ extent ∧
        (scan (line ++ (CRLF ++ tail)) default).2 = .ok (some extent) := by
  rcases step_cases buf ap with ⟨-, hm⟩ | hb | ⟨rest, rfl, hs⟩
  · exact nomatch hm.symm.trans h
  · exact nomatch hb.symm.trans h
  · rw [h] at hs
    cases hs with
    | @last line tail extent hl hd =>
      have he := extent_eq_consumed hd
      rw [scan_terminal hl] at he
      have hpr := (scan_progress (line ++ (CRLF ++ tail)) ⟨line.length + 2, 0, 0, .trailer⟩).1
      exact ⟨line, tail, extent, hl, rfl, rfl, he ▸ hpr, hd⟩

theorem length_closing_le (ap : Bool) : (closing ap).length ≤ 2 := by
  cases ap <;> decide

theorem length_le_of_step_more (h : step buf ap = .more) :
    buf.length ≤ 2 + (CHUNK_LINE_MAX + 2 + TRAILER_MAX) + (TRAILER_LINE_MAX + 1) := by
  rcases step_cases buf ap with ⟨hlen, -⟩ | hb | ⟨rest, rfl, hs⟩
  · omega
  · exact nomatch hb.symm.trans h
  · have hc := length_closing_le ap
    rw [h] at hs
    rw [length_append]
    cases hs with
    | short hf =>
      have := length_lt_of_findCrlf hf
      omega
    | waiting hl hw =>
      have hr := length_le_of_waiting hw
      have ht := consumed_terminal_le hl hw
      omega

theorem framing_le_of_step_chunk (h : step buf ap = .chunk fr payload) :
    fr ≤ CHUNK_LINE_MAX + 4 := by
  obtain ⟨line, tail, hl, -, -, rfl⟩ := split_of_step_chunk h
  have hc := length_closing_le ap
  have hs := hl.short
  have hcr : CRLF.length = 2 := rfl
  rw [length_append, length_append]
  omega

theorem framing_le_of_step_last (h : step buf ap = .last fr) :
    fr ≤ 2 + (CHUNK_LINE_MAX + 2 + TRAILER_MAX) := by
  obtain ⟨line, tail, extent, hl, -, rfl, -, hd⟩ := split_of_step_last h
  have hc := length_closing_le ap
  have ht := consumed_terminal_le hl hd
  rw [extent_eq_consumed hd] at ht
  omega

end TruenasRos.Http
