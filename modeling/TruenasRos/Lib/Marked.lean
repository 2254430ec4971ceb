import Mathlib.Tactic

/-! # Marked words

A stream is made of words, some of which are marked. The mark sits on the last letter of its
word, so that how many marked words have ended can be read off any part of the stream.
-/

namespace TruenasRos.Marked

open List

variable {α : Type*} {last : Bool} {w w' : List α} {ws ws' : List (List α × Bool)} {n : ℕ}

/-- The letters of a word, with the mark on the last of them. -/
def markLast (last : Bool) : List α → List (α × Bool)
  | [] => []
  | [a] => [(a, last)]
  | a :: b :: w => (a, false) :: markLast last (b :: w)

/-- The letters of the words. -/
def stream (ws : List (List α × Bool)) : List (α × Bool) := ws.flatMap fun w => markLast w.2 w.1

/-- The marked words that end within the first letters. -/
def finished : List (List α × Bool) → ℕ → ℕ
  | [], _ => 0
  | w :: ws, n =>
    if w.1.length ≤ n then (if w.2 ∧ w.1 ≠ [] then 1 else 0) + finished ws (n - w.1.length) else 0

@[simp] theorem markLast_nil (last : Bool) : markLast last ([] : List α) = [] := rfl

theorem markLast_cons {a : α} (h : w ≠ []) :
    markLast last (a :: w) = (a, false) :: markLast last w := by
  cases w with
  | nil => exact absurd rfl h
  | cons b w => rfl

theorem map_fst_markLast (last : Bool) (w : List α) : (markLast last w).map (·.1) = w := by
  induction w with
  | nil => rfl
  | cons a w ih =>
    cases w with
    | nil => rfl
    | cons b w => rw [markLast, map_cons, ih]

@[simp] theorem length_markLast (last : Bool) (w : List α) :
    (markLast last w).length = w.length := by
  rw [← length_map (·.1), map_fst_markLast]

theorem markLast_append (h : w' ≠ []) :
    markLast last (w ++ w') = markLast false w ++ markLast last w' := by
  induction w with
  | nil => rfl
  | cons a w ih =>
    rw [cons_append, markLast_cons (by simp [h]), ih]
    cases w with
    | nil => rfl
    | cons b w => rfl

theorem countP_markLast (last : Bool) (w : List α) :
    (markLast last w).countP (·.2) = if last ∧ w ≠ [] then 1 else 0 := by
  induction w with
  | nil => simp
  | cons a w ih =>
    cases w with
    | nil => cases last <;> simp [markLast]
    | cons b w => simpa [markLast] using ih

theorem countP_take_markLast (h : n < w.length) : ((markLast last w).take n).countP (·.2) = 0 := by
  induction w generalizing n with
  | nil => simp at h
  | cons a w ih =>
    cases n with
    | zero => simp
    | succ n =>
      have hn : n < w.length := by simpa using h
      have hw : w ≠ [] := ne_nil_of_length_pos (by omega)
      rw [markLast_cons hw, take_succ_cons, countP_cons_of_neg (by simp), ih hn]

theorem stream_cons (w : List α × Bool) : stream (w :: ws) = markLast w.2 w.1 ++ stream ws := rfl

theorem map_fst_stream (ws : List (List α × Bool)) : (stream ws).map (·.1) = ws.flatMap (·.1) := by
  induction ws with
  | nil => rfl
  | cons w ws ih => rw [stream_cons, map_append, map_fst_markLast, ih, flatMap_cons]

theorem finished_zero (ws : List (List α × Bool)) : finished ws 0 = 0 := by
  induction ws with
  | nil => rfl
  | cons w ws ih =>
    rw [finished]
    split_ifs with h hm
    · exact absurd (length_eq_zero_iff.1 (Nat.le_zero.1 h)) hm.2
    · rw [Nat.zero_sub, ih]
    · rfl

/-- The marks among the first letters are the words that have ended. -/
theorem countP_take_stream (ws : List (List α × Bool)) (n : ℕ) :
    ((stream ws).take n).countP (·.2) = finished ws n := by
  induction ws generalizing n with
  | nil => simp [stream, finished]
  | cons w ws ih =>
    rw [stream_cons, take_append, countP_append, length_markLast, ih, finished]
    split_ifs with h hm
    · rw [take_of_length_le (by simpa using h), countP_markLast, if_pos hm]
    · rw [take_of_length_le (by simpa using h), countP_markLast, if_neg hm]
    · rw [countP_take_markLast (by omega), Nat.sub_eq_zero_of_le (by omega), finished_zero]

end TruenasRos.Marked
