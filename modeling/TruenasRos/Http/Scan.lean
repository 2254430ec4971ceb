import TruenasRos.Http.Chunked

/-! # Scanning arrivals

The scanner sees longer and longer prefixes of a body. A pass that does not wait
for more bytes is the same on every longer prefix, and a scan that waits can be
taken up again without a trace.
-/

namespace TruenasRos.Http

open List ChunkScan Nat

variable {p x : Bytes} {s : ChunkScan}

structure SizeLine (line : Bytes) (n : ℕ) : Prop where
  short : line.length ≤ CHUNK_LINE_MAX
  clean : lineHasBareCrlf line = false
  parses : parseSizeLine line = some n

variable {line : Bytes} {max n : ℕ} {v : Except Status (Option ℕ)}

theorem crlfPosition_line (h : lineHasBareCrlf line = false) (rest : Bytes) :
    crlfPosition (line ++ (CRLF ++ rest)) = some line.length := by
  induction line with
  | nil => rfl
  | cons a line ih =>
    simp only [lineHasBareCrlf, any_cons, Bool.or_eq_false_iff, beq_eq_false_iff_ne] at h ih
    have hne : ∃ b w, line ++ (CRLF ++ rest) = b :: w := by
      cases line with
      | nil => exact ⟨_, _, rfl⟩
      | cons b line => exact ⟨_, _, rfl⟩
    obtain ⟨b, w, hw⟩ := hne
    rw [cons_append, hw, crlfPosition, if_neg (fun ha => h.1.1 ha.1), ← hw, ih h.2]
    rfl

theorem findCrlf_line (hc : lineHasBareCrlf line = false) (hm : line.length ≤ max) (rest : Bytes) :
    findCrlf (line ++ (CRLF ++ rest)) max = .found line.length :=
  findCrlf_of_crlfPosition (crlfPosition_line hc rest) hm

theorem sizePass_line (h : SizeLine line n) (rest : Bytes) (s : ChunkScan) :
    sizePass (line ++ (CRLF ++ rest)) s = .go { s with
      consumed := s.consumed + (line.length + 2)
      state := if n = 0 then .trailer else .data n } := by
  simp [sizePass, findCrlf_line h.clean h.short, h.clean, h.parses]

theorem dataCrlfPass_crlf (rest : Bytes) (s : ChunkScan) :
    dataCrlfPass (CRLF ++ rest) s = .go { s with consumed := s.consumed + 2, state := .size } := by
  have hlen : ¬ (CRLF ++ rest).length < 2 := by simp [CRLF]
  have ht : (CRLF ++ rest).take 2 = CRLF := rfl
  rw [dataCrlfPass, if_neg hlen, ht, if_neg (not_not.2 rfl)]

theorem findCrlf_append (h : findCrlf p max ≠ .needMore) :
    findCrlf (p ++ x) max = findCrlf p max := by
  unfold findCrlf at h ⊢
  rw [take_append]
  cases hc : crlfPosition (p.take (max + 2)) with
  | some i => rw [crlfPosition_append hc]
  | none =>
    simp only [hc] at h
    split_ifs at h with hlen
    · rw [Nat.sub_eq_zero_of_le hlen, take_zero, append_nil, hc, if_pos hlen]
      exact if_pos (le_trans hlen (length_append ▸ Nat.le_add_right _ _))
    · exact absurd rfl h

theorem take_append_of_findCrlf {i : ℕ} (h : findCrlf p max = .found i) :
    (p ++ x).take i = p.take i := by
  have := add_two_le_of_crlfPosition (findCrlf_eq_found h).1
  exact take_append_of_le_length (by omega)

theorem sizePass_append (h : (sizePass p s).verdict ≠ some (.ok none)) :
    sizePass (p ++ x) s = sizePass p s := by
  unfold sizePass at h ⊢
  cases hf : findCrlf p CHUNK_LINE_MAX with
  | needMore => exact absurd (by rw [hf]; rfl) h
  | tooLong => rw [findCrlf_append (by rw [hf]; nofun), hf]
  | found i =>
    rw [findCrlf_append (by rw [hf]; nofun), hf]
    simp [take_append_of_findCrlf hf]

theorem dataPass_append (h : (dataPass p s n).verdict ≠ some (.ok none)) :
    dataPass (p ++ x) s n = dataPass p s n := by
  rcases lt_or_ge p.length n with hn | hn
  · exact absurd (by rw [dataPass_of_lt hn]) h
  · have hn' : n ≤ (p ++ x).length := length_append ▸ le_add_right_of_le hn
    rw [dataPass_of_le hn, dataPass_of_le hn']

theorem dataCrlfPass_append (h : (dataCrlfPass p s).verdict ≠ some (.ok none)) :
    dataCrlfPass (p ++ x) s = dataCrlfPass p s := by
  unfold dataCrlfPass at h ⊢
  by_cases hlen : p.length < 2
  · exact absurd (by rw [if_pos hlen]; rfl) h
  · have hl' : ¬ (p ++ x).length < 2 := by
      rw [length_append]
      omega
    rw [if_neg hlen, if_neg hl', take_append_of_le_length (not_lt.1 hlen)]

theorem trailerPass_append (h : (trailerPass p s).verdict ≠ some (.ok none)) :
    trailerPass (p ++ x) s = trailerPass p s := by
  unfold trailerPass at h ⊢
  cases hf : findCrlf p TRAILER_LINE_MAX with
  | needMore => exact absurd (by rw [hf]; rfl) h
  | tooLong => rw [findCrlf_append (by rw [hf]; nofun), hf]
  | found i =>
    rw [findCrlf_append (by rw [hf]; nofun), hf]
    simp [take_append_of_findCrlf hf]

theorem runPass_append (hle : s.consumed ≤ p.length)
    (h : (runPass p s).verdict ≠ some (.ok none)) : runPass (p ++ x) s = runPass p s := by
  have hl' : s.consumed ≤ (p ++ x).length := length_append ▸ le_add_right_of_le hle
  have hd : (p ++ x).drop s.consumed = p.drop s.consumed ++ x :=
    drop_append_of_le_length hle
  cases hs : s.state with
  | size =>
    rw [runPass_size hle hs] at h
    rw [runPass_size hle hs, runPass_size hl' hs, hd, sizePass_append h]
  | data n =>
    rw [runPass_data hle hs] at h
    rw [runPass_data hle hs, runPass_data hl' hs, hd, dataPass_append h]
  | dataCrlf =>
    rw [runPass_dataCrlf hle hs] at h
    rw [runPass_dataCrlf hle hs, runPass_dataCrlf hl' hs, hd, dataCrlfPass_append h]
  | trailer =>
    rw [runPass_trailer hle hs] at h
    rw [runPass_trailer hle hs, runPass_trailer hl' hs, hd, trailerPass_append h]
  | done => rw [runPass_done hs, runPass_done hs]

theorem run_of_verdict_some (h : (runPass p s).verdict = some v) :
    run p s = ⟨(runPass p s).scan, v, (runPass p s).payload, (runPass p s).trailer⟩ := by
  rw [run]
  split
  · rename_i v' hv
    cases hv.symm.trans h
    rfl
  · next hv => cases hv.symm.trans h

theorem run_of_verdict_none (h : (runPass p s).verdict = none) :
    run p s = { run p (runPass p s).scan with
      payload := (runPass p s).payload ++ (run p (runPass p s).scan).payload
      trailer := (runPass p s).trailer ++ (run p (runPass p s).scan).trailer } := by
  rw [run]
  split
  · next v hv => cases hv.symm.trans h
  · rfl

theorem scan_of_verdict_some (h : (runPass p s).verdict = some v) :
    scan p s = ((runPass p s).scan, v) := by
  simp [scan, run_of_verdict_some h]

theorem scan_of_verdict_none (h : (runPass p s).verdict = none) :
    scan p s = scan p (runPass p s).scan := by
  simp [scan, run_of_verdict_none h]

/-- A fact that holds where a run stops and is carried back by each pass holds of it. -/
theorem run_induction {P : ChunkScan → RunOut → Prop}
    (stop : ∀ s v, (runPass p s).verdict = some v →
      P s ⟨(runPass p s).scan, v, (runPass p s).payload, (runPass p s).trailer⟩)
    (go : ∀ s out, (runPass p s).verdict = none → P (runPass p s).scan out → P s { out with
        payload := (runPass p s).payload ++ out.payload
        trailer := (runPass p s).trailer ++ out.trailer })
    (s : ChunkScan) : P s (run p s) := by
  induction hm : s.left p using Nat.strong_induction_on generalizing s with
  | _ m ih =>
    cases h : (runPass p s).verdict with
    | some v =>
      rw [run_of_verdict_some h]
      exact stop s v h
    | none =>
      rw [run_of_verdict_none h]
      exact go s _ h (ih _ (hm ▸ left_runPass_lt h) _ rfl)

theorem scan_induction {P : ChunkScan → ChunkScan → Except Status (Option ℕ) → Prop}
    (stop : ∀ s v, (runPass p s).verdict = some v → P s (runPass p s).scan v)
    (go : ∀ s s' v, (runPass p s).verdict = none → P (runPass p s).scan s' v → P s s' v)
    (s : ChunkScan) : P s (scan p s).1 (scan p s).2 :=
  run_induction (P := fun s out => P s out.scan out.verdict) stop
    (fun s _ hv ih => go s _ _ hv ih) s

/-- A scan that gives a verdict gives it on every longer prefix. -/
theorem scan_append (hle : s.consumed ≤ p.length) (h : (scan p s).2 ≠ .ok none) :
    scan (p ++ x) s = scan p s := by
  refine scan_induction
    (P := fun s s' v => s.consumed ≤ p.length → v ≠ .ok none → scan (p ++ x) s = (s', v))
    ?_ ?_ s hle h
  · intro s v hv hle hne
    have ha := runPass_append (x := x) hle (by rw [hv]; exact fun he => hne (Option.some.inj he))
    rw [scan_of_verdict_some (by rw [ha]; exact hv), ha]
  · intro s s' v hv ih hle hne
    have ha := runPass_append (x := x) hle (by rw [hv]; nofun)
    rw [scan_of_verdict_none (by rw [ha]; exact hv), ha]
    exact ih (consumed_runPass_le hv) hne

theorem scan_eq_of_runPass {body : Bytes} {s s' : ChunkScan}
    (hs : (runPass body s).scan = (runPass body s').scan)
    (hv : (runPass body s).verdict = (runPass body s').verdict) : scan body s = scan body s' := by
  cases h : (runPass body s).verdict with
  | some v => rw [scan_of_verdict_some h, scan_of_verdict_some (hv.symm.trans h), hs]
  | none => rw [scan_of_verdict_none h, hs, ← scan_of_verdict_none (hv.symm.trans h)]

/-- Taking in part of a payload first changes nothing. -/
theorem dataPass_within {rest : Bytes} (hn : rest.length < n) :
    (dataPass x (s.within rest.length (n - rest.length)) (n - rest.length)).scan =
        (dataPass (rest ++ x) s n).scan ∧
      (dataPass x (s.within rest.length (n - rest.length)) (n - rest.length)).verdict =
        (dataPass (rest ++ x) s n).verdict := by
  have hlen : (rest ++ x).length = rest.length + x.length := length_append
  rcases lt_or_ge (rest ++ x).length n with hlt | hge
  · rw [dataPass_of_lt hlt, dataPass_of_lt (by omega)]
    refine ⟨?_, rfl⟩
    simp only [within, mk.injEq, State.data.injEq, true_and]
    omega
  · rw [dataPass_of_le hge, dataPass_of_le (by omega)]
    simp only [within, mk.injEq, and_true]
    omega

section

variable (hle : s.consumed ≤ p.length)
include hle

theorem runPass_within (hs : s.state = .data n) :
    runPass (p ++ x) s = dataPass (p.drop s.consumed ++ x) s n ∧
      ∀ m, runPass (p ++ x) (s.within (p.drop s.consumed).length m) =
        dataPass x (s.within (p.drop s.consumed).length m) m := by
  have hall : s.consumed + (p.drop s.consumed).length = p.length := by
    rw [length_drop]
    omega
  have hlen : p.length ≤ (p ++ x).length := length_append ▸ le_add_right _ _
  constructor
  · rw [runPass_data (hle.trans hlen) hs, drop_append_of_le_length hle]
  · intro m
    rw [runPass_data (hall.trans_le hlen) rfl]
    simp only [within, hall, drop_left]

theorem scan_append_of_pause {pass : Pass}
    (h : Pause (p.drop s.consumed) s pass) : scan (p ++ x) pass.scan = scan (p ++ x) s := by
  cases h with
  | line _ => rfl
  | data hs hn =>
    obtain ⟨hne, hf⟩ := runPass_within hle hs
    obtain ⟨hsc, hv⟩ := dataPass_within hn
    apply scan_eq_of_runPass
    · rw [hne, hf, hsc]
    · rw [hne, hf, hv]

/-- A scan that waits can be taken up again where it stopped. -/
theorem scan_resume (h : (scan p s).2 = .ok none) :
    scan (p ++ x) (scan p s).1 = scan (p ++ x) s := by
  refine scan_induction
    (P := fun s s' v => s.consumed ≤ p.length → v = .ok none → scan (p ++ x) s' = scan (p ++ x) s)
    ?_ ?_ s hle h
  · rintro s _ hv hle rfl
    exact scan_append_of_pause hle ((does_runPass ..).pauses hv).2
  · rintro s s' v hv ih hle rfl
    have ha := runPass_append (x := x) hle (by rw [hv]; nofun)
    rw [scan_of_verdict_none (s := s) (by rw [ha]; exact hv), ha]
    exact ih (consumed_runPass_le hv) rfl

end

theorem scan_progress (p : Bytes) (s : ChunkScan) :
    s.consumed ≤ (scan p s).1.consumed ∧ s.decoded ≤ (scan p s).1.decoded := by
  refine scan_induction
    (P := fun s s' _ => s.consumed ≤ s'.consumed ∧ s.decoded ≤ s'.decoded) ?_ ?_ s
  · exact fun s v _ => (does_runPass p s).progress
  · rintro s s' v _ ⟨hc, hd⟩
    have hp := (does_runPass p s).progress
    exact ⟨hp.1.trans hc, hp.2.trans hd⟩

theorem consumed_scan_le {v : Option ℕ} (hle : s.consumed ≤ p.length)
    (h : (scan p s).2 = .ok v) : (scan p s).1.consumed ≤ p.length := by
  refine scan_induction
    (P := fun s s' w => s.consumed ≤ p.length → w = .ok v → s'.consumed ≤ p.length) ?_ ?_ s hle h
  · rintro s _ hv hle rfl
    cases v with
    | some n =>
      rw [((does_runPass ..).ends hv).2.1]
      exact hle
    | none =>
      have hpa := ((does_runPass ..).pauses hv).2
      generalize runPass p s = pass at hpa ⊢
      cases hpa with
      | line _ => exact hle
      | data _ _ =>
        simp only [within, length_drop]
        omega
  · intro s s' w hv ih _ hw
    exact ih (consumed_runPass_le hv) hw

theorem length_le_of_waiting (h : (scan p s).2 = .ok none) :
    p.length ≤ (scan p s).1.consumed + (TRAILER_LINE_MAX + 1) := by
  refine scan_induction
    (P := fun _ s' v => v = .ok none → p.length ≤ s'.consumed + (TRAILER_LINE_MAX + 1)) ?_
    (fun _ _ _ _ ih => ih) s h
  rintro s _ hv rfl
  obtain ⟨hle, hpa⟩ := (does_runPass ..).pauses hv
  have hr : (p.drop s.consumed).length = p.length - s.consumed := length_drop
  generalize runPass p s = pass at hpa ⊢
  cases hpa with
  | line hs =>
    simp only [Pass.stop]
    omega
  | data _ _ =>
    simp only [within]
    omega

theorem extent_eq_consumed (h : (scan p s).2 = .ok (some n)) : (scan p s).1.consumed = n := by
  refine scan_induction
    (P := fun _ s' v => v = .ok (some n) → s'.consumed = n) ?_ (fun _ _ _ _ ih => ih) s h
  rintro s _ hv rfl
  obtain ⟨-, hpa, hn⟩ := (does_runPass ..).ends hv
  rw [hpa]
  exact hn

end TruenasRos.Http
