import Mathlib.Tactic

/-! # Machine-word arithmetic

Natural numbers with the checked and saturating operations of a 64-bit unsigned
word.
-/

namespace TruenasRos.Usize

def MAX : ℕ := 2 ^ 64 - 1

def checkedAdd (a b : ℕ) : Option ℕ := if a + b ≤ MAX then some (a + b) else none

def checkedMul (a b : ℕ) : Option ℕ := if a * b ≤ MAX then some (a * b) else none

def saturatingAdd (a b : ℕ) : ℕ := min (a + b) MAX

def saturatingMul (a b : ℕ) : ℕ := min (a * b) MAX

theorem le_saturatingAdd {n a b : ℕ} (h : n ≤ a + b) (hn : n ≤ MAX) : n ≤ saturatingAdd a b :=
  le_min h hn

theorem saturatingAdd_saturatingAdd (a b c : ℕ) :
    saturatingAdd (saturatingAdd a b) c = saturatingAdd (a + b) c := by
  unfold saturatingAdd
  omega

/-- A number takes one more digit if it fits a word with it. -/
theorem bind_checkedAdd {α : Type*} (n base d : ℕ) (k : ℕ → Option α) :
    ((checkedMul n base).bind fun n => (checkedAdd n d).bind k) =
      if n * base + d ≤ MAX then k (n * base + d) else none := by
  unfold checkedMul
  split_ifs with hm hf hf
  · simp [checkedAdd, hf]
  · simp [checkedAdd, hf]
  · omega
  · rfl

theorem le_foldl_digits {α : Type*} (base : ℕ) (d : α → ℕ) (hb : 0 < base) (l : List α) (n : ℕ) :
    n ≤ l.foldl (fun n a => n * base + d a) n := by
  induction l generalizing n with
  | nil => exact le_rfl
  | cons a l ih =>
    calc n ≤ n * base + d a := Nat.le_add_right_of_le (Nat.le_mul_of_pos_right n hb)
      _ ≤ _ := ih _

end TruenasRos.Usize
