import TruenasRos.Http.Steps

/-! # A body scanned piece by piece

A scan depends only on the bytes it consumes and not on where the body starts. So a
body can be taken in pieces: what the scanner makes of the whole is what it makes of
the pieces, one after the other.
-/

namespace TruenasRos.Http

open List RunOut Nat

variable {p q x rest w ent' : Bytes} {s : ChunkScan} {pass : Pass} {n : ℕ}

theorem Advance.take (h : Advance rest s pass) {m : ℕ}
    (hm : pass.scan.consumed ≤ s.consumed + m) : Advance (rest.take m) s pass := by
  have ht : ∀ i, i + 2 ≤ m → (rest.take m).take i = rest.take i := fun i hi => by
    rw [take_take, min_eq_left (by omega)]
  cases h with
  | @size i n hs hi hmax hc hn =>
    have hle : i + 2 ≤ m := by simp only [Pass.go] at hm; omega
    rw [← ht i hle] at hc hn
    exact .size hs (crlfPosition_take hi hle) hmax hc hn
  | @data n hs hn =>
    simp only at hm
    exact .data hs (by rw [length_take]; omega)
  | crlf hs hcr =>
    simp only [Pass.go] at hm
    refine .crlf hs ?_
    rw [take_take, min_eq_left (by omega), hcr]
  | @field i name value hs hi hmax hsum hc hne hf =>
    have hle : i + 2 ≤ m := by simp only at hm; omega
    rw [← ht i hle] at hc hne hf
    exact .field hs (crlfPosition_take hi hle) hmax hsum hc hne hf
  | @finish i hs hi hsum hnil =>
    have hle : i + 2 ≤ m := by simp only [Pass.go] at hm; omega
    rw [← ht i hle] at hnil
    exact .finish hs (crlfPosition_take hi hle) hsum hnil

theorem runPass_of_advance (hle : s.consumed ≤ p.length)
    (h : Advance (p.drop s.consumed) s pass) : runPass p s = pass := by
  cases h with
  | size hs hi hm hc hn =>
    rw [runPass_size hle hs]
    simp [sizePass, findCrlf_of_crlfPosition hi hm, hc, hn]
  | data hs hn => rw [runPass_data hle hs, dataPass_of_le hn]
  | crlf hs hcr =>
    rw [runPass_dataCrlf hle hs, ← take_append_drop 2 (p.drop s.consumed), hcr, dataCrlfPass_crlf]
  | @field i name value hs hi hm hsum hc hne hf =>
    rw [runPass_trailer hle hs]
    simp only [trailerPass, findCrlf_of_crlfPosition hi hm, if_neg (not_lt.2 hsum), hc,
      Bool.false_eq_true, if_false, if_neg hne, hf]
    split_ifs <;> rfl
  | @finish i hs hi hsum hnil =>
    have hm : i ≤ TRAILER_LINE_MAX := by
      have := add_two_le_of_crlfPosition hi
      have hlen := congrArg length hnil
      rw [length_take, length_nil] at hlen
      omega
    rw [runPass_trailer hle hs]
    simp only [trailerPass, findCrlf_of_crlfPosition hi hm, if_neg (not_lt.2 hsum), hnil,
      if_true]
    rfl

theorem scan_take (hle : s.consumed ≤ p.length) (h : (scan p s).2 = .ok (some n)) :
    scan (p.take n) s = scan p s := by
  have hlen : n ≤ p.length := extent_eq_consumed h ▸ consumed_scan_le hle h
  refine (scan_induction (P := fun s s' v => v = .ok (some n) → s'.consumed = n →
    s.consumed ≤ n ∧ scan (p.take n) s = (s', v)) ?_ ?_ s h (extent_eq_consumed h)).2
  · rintro s _ hv rfl hn
    obtain ⟨hs, hpa, -⟩ := (does_runPass ..).ends hv
    rw [hpa] at hn ⊢
    refine ⟨hn.le, ?_⟩
    rw [scan_of_verdict_some (by rw [runPass_done hs]; rfl), runPass_done hs]
    exact congrArg (fun m => (s, Except.ok (some m))) hn
  · rintro s s' v hv ih ho hn
    obtain ⟨hl', hsc⟩ := ih ho hn
    have hb := (does_runPass p s).progress.1.trans hl'
    have hpa : runPass (p.take n) s = runPass p s := by
      apply runPass_of_advance (by rw [length_take]; omega)
      rw [drop_take]
      exact ((does_runPass ..).advances hv).2.take (by omega)
    exact ⟨hb, by rw [scan_of_verdict_none (by rw [hpa]; exact hv), hpa, hsc]⟩

def shiftSpan (c : ℕ) (r : ℕ × ℕ) : ℕ × ℕ := (c + r.1, c + r.2)

def ChunkScan.shift (c d : ℕ) (s : ChunkScan) : ChunkScan :=
  { s with consumed := c + s.consumed, decoded := d + s.decoded }

def shiftVerdict (c : ℕ) : Except Status (Option ℕ) → Except Status (Option ℕ)
  | .ok v => .ok (v.map (c + ·))
  | .error status => .error status

def Pass.shift (c d : ℕ) (pass : Pass) : Pass :=
  ⟨pass.scan.shift c d, pass.payload.map (shiftSpan c), pass.trailer.map (shiftSpan c),
    pass.verdict.map (shiftVerdict c)⟩

def RunOut.shift (c d : ℕ) (out : RunOut) : RunOut :=
  ⟨out.scan.shift c d, shiftVerdict c out.verdict, out.payload.map (shiftSpan c),
    out.trailer.map (shiftSpan c)⟩

section

variable (c d : ℕ)

theorem sizePass_shift : sizePass rest (s.shift c d) = (sizePass rest s).shift c d := by
  unfold sizePass
  repeat' split
  all_goals simp [Pass.shift, Pass.stop, Pass.go, ChunkScan.shift, shiftVerdict, add_assoc]

theorem dataPass_shift : dataPass rest (s.shift c d) n = (dataPass rest s n).shift c d := by
  rcases lt_or_ge rest.length n with hn | hn
  · rw [dataPass_of_lt hn, dataPass_of_lt hn]
    simp only [Pass.shift, ChunkScan.shift, ChunkScan.within, shiftVerdict, add_assoc,
      Option.map]
    split_ifs <;> simp [shiftSpan]
  · rw [dataPass_of_le hn, dataPass_of_le hn]
    simp only [Pass.shift, ChunkScan.shift, add_assoc, Option.map]
    split_ifs <;> simp [shiftSpan]

theorem dataCrlfPass_shift : dataCrlfPass rest (s.shift c d) = (dataCrlfPass rest s).shift c d := by
  unfold dataCrlfPass
  repeat' split
  all_goals simp [Pass.shift, Pass.stop, Pass.go, ChunkScan.shift, shiftVerdict, add_assoc]

theorem trailerPass_shift : trailerPass rest (s.shift c d) = (trailerPass rest s).shift c d := by
  simp only [trailerPass]
  cases findCrlf rest TRAILER_LINE_MAX with
  | needMore => rfl
  | tooLong => rfl
  | found i =>
    simp only [ChunkScan.shift, add_assoc]
    split_ifs with hs hc hnil
    · rfl
    · rfl
    · rfl
    · cases splitTrailer (rest.take i) with
      | none => rfl
      | some field =>
        simp only
        split_ifs <;> rfl

end

theorem runPass_shift (pre : Bytes) (d : ℕ) (hle : s.consumed ≤ p.length) :
    runPass (pre ++ p) (s.shift pre.length d) = (runPass p s).shift pre.length d := by
  have hl' : (s.shift pre.length d).consumed ≤ (pre ++ p).length := by
    rw [length_append]
    exact Nat.add_le_add_left hle _
  have hd : (pre ++ p).drop (s.shift pre.length d).consumed = p.drop s.consumed := by
    rw [ChunkScan.shift, drop_length_add_append]
  cases hs : s.state with
  | size => rw [runPass_size hle hs, runPass_size hl' hs, hd, sizePass_shift]
  | data n => rw [runPass_data hle hs, runPass_data hl' hs, hd, dataPass_shift]
  | dataCrlf => rw [runPass_dataCrlf hle hs, runPass_dataCrlf hl' hs, hd, dataCrlfPass_shift]
  | trailer => rw [runPass_trailer hle hs, runPass_trailer hl' hs, hd, trailerPass_shift]
  | done =>
    rw [runPass_done hs]
    exact @runPass_done (pre ++ p) (s.shift pre.length d) hs

theorem run_shift (pre : Bytes) (d : ℕ) (hle : s.consumed ≤ p.length) :
    run (pre ++ p) (s.shift pre.length d) = (run p s).shift pre.length d := by
  refine run_induction (P := fun s out => s.consumed ≤ p.length →
    run (pre ++ p) (s.shift pre.length d) = out.shift pre.length d) ?_ ?_ s hle
  · intro s v hv hle
    have hpa := runPass_shift pre d hle
    rw [run_of_verdict_some (by rw [hpa, Pass.shift, hv]; rfl), hpa]
    rfl
  · intro s out hv ih hle
    have hpa := runPass_shift pre d hle
    rw [run_of_verdict_none (by rw [hpa, Pass.shift, hv]; rfl), hpa]
    simp [Pass.shift, ih (consumed_runPass_le hv), shift]

def RunOut.entity (out : RunOut) (body : Bytes) : Bytes := out.payload.flatMap (slice body)

def RunOut.lines (out : RunOut) (body : Bytes) : List Bytes := out.trailer.map (slice body)

theorem slice_append {r : ℕ × ℕ} (h : r.2 ≤ p.length) : slice (p ++ x) r = slice p r := by
  unfold slice
  rcases lt_or_ge r.2 r.1 with hlt | hge
  · rw [Nat.sub_eq_zero_of_le hlt.le, take_zero, take_zero]
  · rw [drop_append_of_le_length (hge.trans h), take_append_of_le_length]
    rw [length_drop]
    omega

theorem slice_split {a b c : ℕ} (ha : a ≤ b) (hb : b ≤ c) :
    slice w (a, c) = slice w (a, b) ++ slice w (b, c) := by
  unfold slice
  rw [show c - a = (b - a) + (c - b) by omega, take_add, drop_drop, show a + (b - a) = b by omega]

theorem slice_shift (pre w : Bytes) (r : ℕ × ℕ) :
    slice (pre ++ w) (shiftSpan pre.length r) = slice w r := by
  simp [slice, shiftSpan, Nat.add_sub_add_left]

theorem flatMap_span (w : Bytes) (a k : ℕ) :
    (if 0 < k then [(a, a + k)] else []).flatMap (slice w) = slice w (a, a + k) := by
  split_ifs with hk
  · exact append_nil _
  · obtain rfl : k = 0 := Nat.eq_zero_of_not_pos hk
    simp [slice]

theorem RunOut.entity_shift (pre w : Bytes) (d : ℕ) (out : RunOut) :
    (out.shift pre.length d).entity (pre ++ w) = out.entity w := by
  simp [entity, shift, flatMap_map, slice_shift]

theorem RunOut.lines_shift (pre w : Bytes) (d : ℕ) (out : RunOut) :
    (out.shift pre.length d).lines (pre ++ w) = out.lines w := by
  simp only [lines, shift, map_map]
  exact map_congr_left fun r _ => slice_shift pre w r

def RunOut.after (pass : Pass) (out : RunOut) : RunOut :=
  { out with payload := pass.payload ++ out.payload, trailer := pass.trailer ++ out.trailer }

theorem exists_run_after (s s' : ChunkScan) (hs : (runPass p s).scan = (runPass p s').scan)
    (hv : (runPass p s).verdict = (runPass p s').verdict) :
    ∃ out : RunOut, run p s = out.after (runPass p s) ∧ run p s' = out.after (runPass p s') := by
  cases h : (runPass p s).verdict with
  | some v =>
    refine ⟨⟨(runPass p s).scan, v, [], []⟩, ?_, ?_⟩
    · rw [run_of_verdict_some h, RunOut.after, append_nil, append_nil]
    · rw [run_of_verdict_some (hv.symm.trans h), RunOut.after, append_nil, append_nil, hs]
  | none =>
    refine ⟨run p (runPass p s).scan, run_of_verdict_none h, ?_⟩
    rw [run_of_verdict_none (hv.symm.trans h), hs]
    rfl

/-- What a run makes of a body, with `ent` and `lines` before it. -/
structure Continues (body : Bytes) (out : RunOut) (ent : Bytes) (lines : List Bytes)
    (out' : RunOut) : Prop where
  scan : out.scan = out'.scan
  verdict : out.verdict = out'.verdict
  entity : out.entity body = ent ++ out'.entity body
  lines : out.lines body = lines ++ out'.lines body

theorem entity_dataPass (w rest : Bytes) (s : ChunkScan) (n : ℕ) :
    (dataPass rest s n).payload.flatMap (slice w) =
      slice w (s.consumed, s.consumed + min n rest.length) := by
  rcases lt_or_ge rest.length n with hn | hn
  · rw [dataPass_of_lt hn, flatMap_span, min_eq_right hn.le]
  · rw [dataPass_of_le hn, flatMap_span, min_eq_left hn]

theorem trailer_dataPass (rest : Bytes) (s : ChunkScan) (n : ℕ) :
    (dataPass rest s n).trailer = [] := by
  simp only [dataPass]
  split_ifs <;> rfl

theorem continues_of_within (hle : s.consumed ≤ p.length) (hs : s.state = .data n)
    (hn : (p.drop s.consumed).length < n) (x : Bytes) :
    Continues (p ++ x) (run (p ++ x) s) (p.drop s.consumed) []
      (run (p ++ x) (s.within (p.drop s.consumed).length (n - (p.drop s.consumed).length))) := by
  obtain ⟨hne, hf⟩ := runPass_within (x := x) hle hs
  obtain ⟨hsc, hv⟩ := dataPass_within (x := x) (s := s) hn
  generalize hk : (p.drop s.consumed).length = k at *
  have hall : s.consumed + k = p.length := by
    rw [← hk, length_drop]
    omega
  obtain ⟨out, ho, ho'⟩ := exists_run_after s (s.within k (n - k))
    (by rw [hne, hf, hsc]) (by rw [hne, hf, hv])
  rw [ho, ho', hne, hf]
  refine ⟨rfl, rfl, ?_, ?_⟩
  · simp only [RunOut.entity, RunOut.after, flatMap_append, ← append_assoc, entity_dataPass]
    congr 1
    rw [slice_split (le_add_right _ k) (by rw [length_append, hk]; omega), slice_append hall.le]
    congr 1
    · rw [slice, hall, take_of_length_le (by rw [length_drop])]
    · rw [ChunkScan.within, length_append, hk, add_assoc,
        show min n (k + x.length) = k + min (n - k) x.length by omega]
  · simp only [RunOut.lines, RunOut.after, trailer_dataPass]
    rfl

theorem Continues.refl (body : Bytes) (out : RunOut) : Continues body out [] [] out :=
  ⟨rfl, rfl, rfl, rfl⟩

theorem Continues.trans {body ent : Bytes} {out out' out'' : RunOut}
    (h : Continues body out ent [] out') (h' : Continues body out' ent' [] out'') :
    Continues body out (ent ++ ent') [] out'' where
  scan := h.scan.trans h'.scan
  verdict := h.verdict.trans h'.verdict
  entity := by rw [h.entity, h'.entity, append_assoc]
  lines := by rw [h.lines, h'.lines]; rfl

theorem continues_of_runPass (hv : (runPass p s).verdict = none) (ht : (runPass p s).trailer = []) :
    Continues p (run p s) ((runPass p s).payload.flatMap (slice p)) []
      (run p (runPass p s).scan) := by
  rw [run_of_verdict_none hv]
  refine ⟨rfl, rfl, ?_, ?_⟩
  · simp [entity]
  · simp only [lines, ht]
    rfl

/-- A body that starts with `part` has given the entity `ent` when the scan is at `s`. -/
structure Stands (part : Bytes) (s : ChunkScan) (ent : Bytes) : Prop where
  consumed : s.consumed = part.length
  decoded : s.decoded = ent.length
  trailer_bytes : s.trailer_bytes = 0
  resume : ∀ x, Continues (part ++ x) (run (part ++ x) default) ent [] (run (part ++ x) s)

namespace Stands

variable {part ent piece : Bytes}

theorem nil : Stands [] default [] := ⟨rfl, rfl, rfl, fun _ => .refl _ _⟩

section

variable (h : Stands part s ent)
include h

theorem drop (x : Bytes) : (part ++ x).drop s.consumed = x := by
  rw [h.consumed, drop_left]

theorem le_length (x : Bytes) : s.consumed ≤ (part ++ x).length := by
  rw [h.consumed, length_append]
  exact le_add_right _ _

theorem extend {s' : ChunkScan}
    (hc : s'.consumed = s.consumed + piece.length)
    (hd : s'.decoded = s.decoded + ent'.length) (ht : s'.trailer_bytes = s.trailer_bytes)
    (hr : ∀ x, Continues (part ++ piece ++ x) (run (part ++ piece ++ x) s) ent' []
      (run (part ++ piece ++ x) s')) : Stands (part ++ piece) s' (ent ++ ent') where
  consumed := by rw [hc, h.consumed, length_append]
  decoded := by rw [hd, h.decoded, length_append]
  trailer_bytes := ht.trans h.trailer_bytes
  resume x := by
    have hf := h.resume (piece ++ x)
    rw [← append_assoc] at hf
    exact hf.trans (hr x)

theorem payload_part (hs : s.state = .data n) (hn : piece.length < n) :
    Stands (part ++ piece) (s.within piece.length (n - piece.length)) (ent ++ piece) := by
  refine h.extend rfl rfl rfl fun x => ?_
  have hpr := continues_of_within (x := x) (h.le_length piece) hs (by rwa [h.drop])
  rwa [h.drop] at hpr

theorem payload_rest (hs : s.state = .data piece.length) :
    Stands (part ++ piece) { s with
      consumed := s.consumed + piece.length
      decoded := s.decoded + piece.length
      state := .dataCrlf } (ent ++ piece) := by
  refine h.extend rfl rfl rfl fun x => ?_
  have hpa : runPass (part ++ piece ++ x) s = _ :=
    (runPass_data (append_assoc _ _ _ ▸ h.le_length (piece ++ x)) hs).trans
      (dataPass_of_le (by
        rw [append_assoc, h.drop, length_append]
        exact Nat.le_add_right _ _))
  have hc := continues_of_runPass (by rw [hpa]) (by rw [hpa])
  rw [hpa, flatMap_span] at hc
  convert hc using 1
  rw [slice_append (by rw [h.consumed, length_append]), slice, h.consumed, drop_left,
    Nat.add_sub_cancel_left, take_length]

theorem framing {state : State}
    (hpa : ∀ x, runPass (part ++ (piece ++ x)) s =
      .go { s with consumed := s.consumed + piece.length, state := state }) :
    Stands (part ++ piece) { s with consumed := s.consumed + piece.length, state := state }
      ent := by
  rw [← append_nil ent]
  refine h.extend rfl rfl rfl fun x => ?_
  rw [append_assoc]
  have hc := continues_of_runPass (p := part ++ (piece ++ x)) (by rw [hpa]; rfl)
    (by rw [hpa]; rfl)
  rwa [hpa] at hc

theorem crlf (hs : s.state = .dataCrlf) :
    Stands (part ++ CRLF) { s with consumed := s.consumed + 2, state := .size } ent :=
  h.framing fun x => by
    rw [runPass_dataCrlf (h.le_length _) hs, h.drop, dataCrlfPass_crlf]
    rfl

theorem size_line {line : Bytes} (hs : s.state = .size) (hl : SizeLine line n) (hn : n ≠ 0) :
    Stands (part ++ (line ++ CRLF))
      { s with consumed := s.consumed + (line ++ CRLF).length, state := .data n } ent :=
  h.framing fun x => by
    rw [runPass_size (h.le_length _) hs, h.drop, append_assoc, sizePass_line hl, if_neg hn,
      length_append]
    rfl

theorem finish {block : Bytes} (hs : s.state = .size) :
    Continues (part ++ block) (run (part ++ block) default) ent []
      ((run block default).shift part.length ent.length) := by
  have hc := h.resume block
  obtain ⟨hco, hd, ht, -⟩ := h
  have hsh : s = (default : ChunkScan).shift part.length ent.length := by
    obtain ⟨cn, dc, trailer_bytes, state⟩ := s
    obtain rfl := hco
    obtain rfl := hd
    obtain rfl := ht
    obtain rfl := hs
    rfl
  rwa [hsh, run_shift _ _ (zero_le _)] at hc

end

end Stands

theorem isValidUTF8_of_ascii {b : Bytes} (h : ∀ x ∈ b, x.toNat < 128) :
    b.toByteArray.IsValidUTF8 := by
  induction b with
  | nil => exact ByteArray.isValidUTF8_empty
  | cons a b ih =>
    have hn : ∀ n : Fin 128, String.utf8EncodeChar (.ofNat n) = [.ofNat n] := by decide
    have he := hn ⟨a.toNat, h a mem_cons_self⟩
    rw [UInt8.ofNat_toNat] at he
    have ho : [a].toByteArray.IsValidUTF8 := he ▸ Char.isValidUTF8_toByteArray_utf8EncodeChar
    have ha := ho.append (ih fun x hx => h x (mem_cons_of_mem a hx))
    rwa [← toByteArray_append] at ha

theorem trailerView_of_split {line name value : Bytes}
    (h : splitTrailer line = some (name, value)) : trailerView line = some ⟨name, value⟩ := by
  have hto : ∀ x ∈ name, isTokenByte x := by
    simp only [splitTrailer] at h
    split at h
    · exact nomatch h
    · split_ifs at h with hn
      cases h
      simp only [Bool.or_eq_true, decide_eq_true_eq, Bool.not_eq_true', not_or,
        Bool.not_eq_false, all_eq_true] at hn
      exact hn.2
  simp only [trailerView, h]
  refine if_pos (isValidUTF8_of_ascii fun x hx => ?_)
  have ht := hto x hx
  rw [← @UInt8.ofNat_toNat x] at ht
  have hn : ∀ n : Fin 256, isTokenByte (.ofNat n) → (n : ℕ) < 128 := by decide +kernel
  exact hn ⟨x.toNat, x.toNat_lt⟩ ht

theorem splits_of_run (p : Bytes) (s : ChunkScan) :
    ∀ line ∈ (run p s).lines p, ∃ field, splitTrailer line = some field := by
  refine run_induction (P := fun _ out => ∀ line ∈ out.trailer.map (slice p),
    ∃ field, splitTrailer line = some field) ?_ ?_ s
  · intro s v hv line hl
    rw [(does_runPass ..).trailer hv] at hl
    exact nomatch hl
  · intro s out hv ih line hl
    rw [map_append, mem_append] at hl
    rcases hl with hl | hl
    · obtain ⟨-, ha⟩ := (does_runPass ..).advances hv
      generalize runPass p s = pass at ha hl
      cases ha with
      | @field i name value _ _ _ _ _ _ hf =>
        split_ifs at hl
        · exact nomatch hl
        · rw [map_singleton, mem_singleton] at hl
          refine ⟨(name, value), ?_⟩
          rw [hl, slice, Nat.add_sub_cancel_left]
          exact hf
      | _ => exact nomatch hl
    · exact ih line hl

theorem exists_trailers (p : Bytes) (s : ChunkScan) :
    ∃ tr, ((run p s).lines p).mapM trailerView = some tr := by
  have hs := splits_of_run p s
  generalize (run p s).lines p = lines at hs ⊢
  induction lines with
  | nil => exact ⟨[], rfl⟩
  | cons line lines ih =>
    obtain ⟨tr, ht⟩ := ih fun l hl => hs l (mem_cons_of_mem _ hl)
    obtain ⟨⟨name, value⟩, hf⟩ := hs line mem_cons_self
    refine ⟨⟨name, value⟩ :: tr, ?_⟩
    rw [mapM_cons, trailerView_of_split hf, ht]
    rfl

theorem decode_of_verdict {tr : List HeaderView} (h : (run w default).verdict = .ok (some w.length))
    (ht : ((run w default).lines w).mapM trailerView = some tr) :
    decode w = some ((run w default).entity w, tr) := by
  have hl : ((run w default).trailer.map (slice w)).mapM trailerView = some tr := ht
  simp only [decode, h, if_true, hl]
  rfl

end TruenasRos.Http
