import Mathlib.Tactic

/-! # Flag sets

A flag word is a bit vector. A set of flags is contained in a word when every
one of its bits is set there, so a single flag is a single bit.
-/

namespace TruenasRos.BitFlags

open BitVec

variable {w i : ℕ}

def contains (a b : BitVec w) : Bool :=
  a &&& b == b

def intersects (a b : BitVec w) : Bool :=
  a &&& b != 0#w

def difference (a b : BitVec w) : BitVec w :=
  a &&& ~~~b

theorem contains_iff {a b : BitVec w} :
    contains a b = true ↔ ∀ i, b.getLsbD i = true → a.getLsbD i = true := by
  rw [contains, beq_iff_eq]
  constructor
  · intro h i hb
    have hi := congrArg (fun v => v.getLsbD i) h
    simpa [hb] using hi
  · intro h
    apply eq_of_getLsbD_eq
    intro i _
    cases hb : b.getLsbD i with
    | false => simp [hb]
    | true => simp [hb, h i hb]

@[simp] theorem contains_or_right (a b c : BitVec w) :
    contains a (b ||| c) = (contains a b && contains a c) := by
  rw [Bool.eq_iff_iff]
  simp only [Bool.and_eq_true, contains_iff, getLsbD_or, Bool.or_eq_true]
  constructor
  · intro h
    exact ⟨fun i hb => h i (.inl hb), fun i hc => h i (.inr hc)⟩
  · rintro ⟨hb, hc⟩ i (hi | hi)
    · exact hb i hi
    · exact hc i hi

theorem contains_twoPow (a : BitVec w) (hi : i < w) : contains a (twoPow w i) = a.getLsbD i := by
  rw [Bool.eq_iff_iff, contains_iff]
  simp only [getLsbD_twoPow, Bool.and_eq_true, decide_eq_true_eq]
  constructor
  · intro h
    exact h i ⟨hi, rfl⟩
  · rintro h j ⟨_, rfl⟩
    exact h

theorem contains_foldl_or {α : Type*} (f : α → BitVec w) (l : List α) (a : BitVec w) (hi : i < w) :
    contains (l.foldl (fun acc x => acc ||| f x) a) (twoPow w i) =
      (contains a (twoPow w i) || l.any fun x => contains (f x) (twoPow w i)) := by
  induction l generalizing a with
  | nil => simp
  | cons x l ih => simp [ih, contains_twoPow _ hi, Bool.or_assoc]

theorem intersects_or_left (a b c : BitVec w) :
    intersects (a ||| b) c = (intersects a c || intersects b c) := by
  have hd : (a ||| b) &&& c = (a &&& c) ||| (b &&& c) := by
    apply eq_of_getLsbD_eq
    simp [Bool.and_or_distrib_right]
  rw [Bool.eq_iff_iff]
  simp only [intersects, bne_iff_ne, ne_eq, Bool.or_eq_true, hd, or_eq_zero_iff]
  tauto

theorem intersects_comm (a b : BitVec w) : intersects a b = intersects b a := by
  rw [intersects, intersects, BitVec.and_comm]

theorem intersects_or_right (a b c : BitVec w) :
    intersects a (b ||| c) = (intersects a b || intersects a c) := by
  rw [intersects_comm, intersects_or_left, intersects_comm b, intersects_comm c]

theorem contains_or_left (a b : BitVec w) : contains (a ||| b) b = true := by
  rw [contains_iff]
  intro i hi
  simp [hi]

theorem intersects_of_contains {a b : BitVec w} (h : contains a b = true) (hb : b ≠ 0#w) :
    intersects a b = true := by
  rw [contains, beq_iff_eq] at h
  rwa [intersects, bne_iff_ne, h]

@[simp] theorem getLsbD_difference (a b : BitVec w) (i : ℕ) :
    (difference a b).getLsbD i = (a.getLsbD i && !b.getLsbD i) := by
  rw [difference, getLsbD_and, getLsbD_not]
  by_cases hi : i < w
  · simp [hi]
  · simp [getLsbD_of_ge a i (not_lt.1 hi)]

end TruenasRos.BitFlags
