import TruenasRos.Lib.Fallible
import TruenasRos.Lib.LittleEndian

/-! # Words in a byte string

A word is read at an offset, in either byte order. A read that leaves the string is a fault of
its own, apart from what the reader reports.
-/

namespace TruenasRos

open List Nat

namespace BigEndian

def toBytes (width n : ℕ) : List UInt8 := (LittleEndian.toBytes width n).reverse

def ofBytes (bs : List UInt8) : ℕ := LittleEndian.ofBytes bs.reverse

@[simp]
theorem length_toBytes (width n : ℕ) : (toBytes width n).length = width := by
  rw [toBytes, length_reverse, LittleEndian.length_toBytes]

theorem ofBytes_toBytes {width n : ℕ} (h : n < 256 ^ width) : ofBytes (toBytes width n) = n := by
  rw [ofBytes, toBytes, reverse_reverse, LittleEndian.ofBytes_toBytes h]

theorem ofBytes_lt (bs : List UInt8) : ofBytes bs < 256 ^ bs.length := by
  have h := LittleEndian.ofBytes_lt bs.reverse
  rwa [length_reverse] at h

theorem eq_toBytes {bs : List UInt8} {width n : ℕ} (hlen : bs.length = width)
    (hn : ofBytes bs = n) : bs = toBytes width n := by
  have h := LittleEndian.eq_toBytes (length_reverse.trans hlen) hn
  rw [toBytes, ← h, reverse_reverse]

end BigEndian

/-- Why a reader of a byte string stops. -/
inductive Fault (ε : Type)
  | outOfBounds
  | error (e : ε)
  deriving DecidableEq

namespace Words

variable {ε : Type} {decode : List UInt8 → ℕ} {width i p n : ℕ} {b pre suf : List UInt8}

/-- The word of this width at an offset. -/
def word (ε : Type) (decode : List UInt8 → ℕ) (width : ℕ) (b : List UInt8) (i : ℕ) :
    Except (Fault ε) ℕ :=
  if i + width ≤ b.length then .ok (decode ((b.drop i).take width)) else .error .outOfBounds

theorem word_eq_ok_iff : word ε decode width b i = .ok n ↔
    i + width ≤ b.length ∧ decode ((b.drop i).take width) = n := by
  unfold word
  split_ifs with hf
  · simp [hf]
  · simp [hf]

theorem word_of_drop {bs : List UInt8} (hp : b.drop p = pre ++ (bs ++ suf)) (hpre : pre.length = i)
    (hlen : bs.length = width) (hn : decode bs = n) (hpos : 0 < width) :
    word ε decode width b (p + i) = .ok n := by
  have hl := congrArg length hp
  simp only [length_drop, length_append] at hl
  rw [word_eq_ok_iff, ← drop_drop, hp, ← hpre, drop_left, ← hlen, take_left]
  exact ⟨by omega, hn⟩

theorem word_lt (h : word ε BigEndian.ofBytes width b i = .ok n) : n < 256 ^ width := by
  obtain ⟨hf, rfl⟩ := word_eq_ok_iff.1 h
  have hlt := BigEndian.ofBytes_lt ((b.drop i).take width)
  rwa [length_take, length_drop, min_eq_left (by omega)] at hlt

section Records

variable {β : Type} {recs : List (List UInt8)} {size : ℕ} {R : List UInt8 → β → Prop}
  {vals : List β}

theorem length_flatten (h : ∀ rec ∈ recs, rec.length = size) :
    recs.flatten.length = recs.length * size := by
  rw [List.length_flatten, map_congr_left h, map_const', sum_replicate, smul_eq_mul]

theorem drop_flatten (h : ∀ rec ∈ recs, rec.length = size) (hi : i < recs.length) :
    recs.flatten.drop (i * size) = recs[i] ++ (recs.drop (i + 1)).flatten := by
  induction recs generalizing i with
  | nil => simp at hi
  | cons rec recs ih =>
    have hr : rec.length = size := h rec mem_cons_self
    cases i with
    | zero => simp
    | succ i =>
      have ho : (i + 1) * size = rec.length + i * size := by
        rw [hr]
        ring
      rw [flatten_cons, ho, drop_length_add_append]
      exact ih (fun rec hmem => h rec (mem_cons_of_mem _ hmem)) (lt_of_succ_lt_succ hi)

theorem length_of_forall₂
    (hall : List.Forall₂ R recs vals) (hs : ∀ rec val, R rec val → rec.length = size) :
    ∀ rec ∈ recs, rec.length = size := by
  induction hall with
  | nil => simp
  | cons hr _ ih =>
    rw [forall_mem_cons]
    exact ⟨hs _ _ hr, ih⟩

/-- A loop over the offsets reads the records one by one. -/
theorem mapM_range_records {read : ℕ → Except (Fault ε) β} {base : ℕ} (header : List UInt8)
    (hb : header.length = base)
    (hall : List.Forall₂ R recs vals) (hs : ∀ rec val, R rec val → rec.length = size)
    (hrd : ∀ rec val p suf, R rec val → (header ++ recs.flatten).drop p = rec ++ suf →
      read p = .ok val) :
    (List.range recs.length).mapM (fun i => read (base + i * size)) = .ok vals := by
  rw [mapM_eq_ok_iff, forall₂_iff_get]
  constructor
  · rw [length_range, hall.length_eq]
  · intro i hi hi'
    have hlt : i < recs.length := by simpa using hi
    have hr : R recs[i] vals[i] := hall.get hlt hi'
    simp only [get_eq_getElem, getElem_range]
    apply hrd _ _ _ _ hr
    rw [← hb, drop_length_add_append, drop_flatten (length_of_forall₂ hall hs) hlt]

end Records

section BigEndianWords

variable {ws : List ℕ}

theorem length_flatMap_toBytes (width : ℕ) (ws : List ℕ) :
    (ws.flatMap (BigEndian.toBytes width)).length = ws.length * width := by
  simp only [length_flatMap, BigEndian.length_toBytes, map_const', sum_replicate, smul_eq_mul]

/-- Words that stand one after the other are read one after the other. -/
theorem word_of_words (hpos : 0 < width) (hp : b.drop p =
    ws.flatMap (BigEndian.toBytes width) ++ suf) (hi : i < ws.length) (hlt : ws[i] < 256 ^ width) :
    word ε BigEndian.ofBytes width b (p + i * width) = .ok ws[i] := by
  have hs : ws = ws.take i ++ ws[i] :: ws.drop (i + 1) := by
    rw [getElem_cons_drop, take_append_drop]
  rw [hs, flatMap_append, flatMap_cons, append_assoc, append_assoc] at hp
  apply word_of_drop hp
  · rw [length_flatMap_toBytes, length_take, min_eq_left hi.le]
  · exact BigEndian.length_toBytes _ _
  · exact BigEndian.ofBytes_toBytes hlt
  · exact hpos

/-- Words that are read one after the other stand one after the other. -/
theorem take_of_words {size : ℕ} (hs : size = ws.length * width) (h : ∀ i, (hi : i < ws.length) →
      word ε BigEndian.ofBytes width b (p + i * width) = .ok ws[i]) :
    (b.drop p).take size = ws.flatMap (BigEndian.toBytes width) := by
  subst hs
  induction ws generalizing p with
  | nil => simp
  | cons n ws ih =>
    have hf := h 0 (by simp)
    rw [zero_mul, add_zero, word_eq_ok_iff] at hf
    have hb : (b.drop p).take width = BigEndian.toBytes width n := by
      refine BigEndian.eq_toBytes ?_ hf.2
      rw [length_take, length_drop]
      omega
    have hr := ih fun i hi => by
      have hn := h (i + 1) (by simpa using hi)
      rw [succ_mul, add_comm (i * width), ← add_assoc] at hn
      exact hn
    rw [length_cons, succ_mul, add_comm, take_add, drop_drop, hb, hr, flatMap_cons]

end BigEndianWords

end Words

end TruenasRos
