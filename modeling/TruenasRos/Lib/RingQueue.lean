import Mathlib.Tactic

/-! # Queues in a ring of slots

A producer and a consumer count the entries they have written and read in words that
wrap, and an entry lies at its count modulo the number of slots. As long as no more
entries are waiting than there are slots, the ring is a queue.
-/

namespace TruenasRos.RingQueue

open List Nat

variable {α : Type*} {w k head tail : ℕ} {slots q : List α} {a : α}

/-- The slots hold the queue `q`, from the count `head` up to the count `tail`. -/
structure Holds (w k : ℕ) (slots : List α) (head tail : ℕ) (q : List α) : Prop where
  size : slots.length = 2 ^ k
  fits : k < w
  room : q.length ≤ 2 ^ k
  head_lt : head < 2 ^ w
  tail_eq : tail = (head + q.length) % 2 ^ w
  entry : ∀ j (h : j < q.length), slots[(head + j) % 2 ^ k]? = some q[j]

theorem Holds.two_pow_lt (h : Holds w k slots head tail q) : 2 ^ k < 2 ^ w :=
  Nat.pow_lt_pow_right (by decide) h.fits

theorem mod_mod_slots (h : k < w) (n : ℕ) : n % 2 ^ w % 2 ^ k = n % 2 ^ k :=
  mod_mod_of_dvd n (pow_dvd_pow 2 h.le)

theorem Holds.waiting (h : Holds w k slots head tail q) :
    (tail + 2 ^ w - head) % 2 ^ w = q.length := by
  have hlt := h.two_pow_lt
  have hr := h.room
  have hh := h.head_lt
  rw [h.tail_eq]
  rcases lt_or_ge (head + q.length) (2 ^ w) with hw | hw
  · rw [mod_eq_of_lt hw, show head + q.length + 2 ^ w - head = q.length + 2 ^ w by omega,
      add_mod_right, mod_eq_of_lt (by omega)]
  · have hwp : (head + q.length) % 2 ^ w = head + q.length - 2 ^ w := by
      rw [mod_eq_sub_mod hw, mod_eq_of_lt (by omega)]
    rw [hwp, show head + q.length - 2 ^ w + 2 ^ w - head = q.length by omega,
      mod_eq_of_lt (by omega)]

theorem Holds.empty_iff (h : Holds w k slots head tail q) : head = tail ↔ q = [] := by
  rw [← length_eq_zero_iff, ← h.waiting]
  have hh := h.head_lt
  have ht : tail < 2 ^ w := h.tail_eq ▸ Nat.mod_lt _ (Nat.two_pow_pos w)
  constructor
  · rintro rfl
    rw [Nat.add_sub_cancel_left, Nat.mod_self]
  · intro hz
    obtain ⟨c, hc⟩ := dvd_of_mod_eq_zero hz
    have ho : c = 1 := by
      have hpos : 0 < c := pos_of_ne_zero fun h0 => by
        rw [h0, mul_zero] at hc
        omega
      have hlt : c < 2 := by
        by_contra hge
        have := Nat.mul_le_mul_left (2 ^ w) (not_lt.1 hge)
        omega
      omega
    rw [ho, mul_one] at hc
    omega

theorem slot_ne {i j : ℕ} (hij : i < j) (hj : j < i + 2 ^ k) :
    (head + i) % 2 ^ k ≠ (head + j) % 2 ^ k := by
  intro heq
  have hd : 2 ^ k ∣ (head + j) - (head + i) := (modEq_iff_dvd' (by omega)).1 heq
  have hle := le_of_dvd (by omega) hd
  omega

theorem Holds.push (h : Holds w k slots head tail q) (hr : q.length < 2 ^ k) (a : α) :
    Holds w k (slots.set (tail % 2 ^ k) a) head ((tail + 1) % 2 ^ w) (q ++ [a]) where
  size := by rw [length_set, h.size]
  fits := h.fits
  room := by simpa using hr
  head_lt := h.head_lt
  tail_eq := by
    rw [h.tail_eq, mod_add_mod, length_append, length_singleton, add_assoc]
  entry j hj := by
    rw [h.tail_eq, mod_mod_slots h.fits]
    have hs : ∀ n, n % 2 ^ k < slots.length := fun n => by
      rw [h.size]
      exact Nat.mod_lt n (Nat.two_pow_pos k)
    rcases lt_or_ge j q.length with hlt | hge
    · rw [getElem?_set_ne (slot_ne hlt (by omega)).symm, h.entry j hlt, getElem_append_left hlt]
    · have hl : j = q.length := by
        rw [length_append, length_singleton] at hj
        omega
      subst hl
      rw [getElem?_set_self (hs _)]
      simp

theorem Holds.front (h : Holds w k slots head tail (a :: q)) : slots[head % 2 ^ k]? = some a := by
  have he := h.entry 0 (by simp)
  simpa using he

theorem Holds.pop (h : Holds w k slots head tail (a :: q)) :
    Holds w k slots ((head + 1) % 2 ^ w) tail q where
  size := h.size
  fits := h.fits
  room := le_trans (by simp) h.room
  head_lt := Nat.mod_lt _ (Nat.two_pow_pos w)
  tail_eq := by
    rw [h.tail_eq, mod_add_mod, length_cons]
    congr 1
    omega
  entry j hj := by
    have he := h.entry (j + 1) (by simpa using hj)
    rw [add_mod, mod_mod_slots h.fits, ← add_mod, show head + 1 + j = head + (j + 1) by omega, he]
    simp

theorem holds_empty (hs : slots.length = 2 ^ k) (hf : k < w) (hh : head < 2 ^ w) :
    Holds w k slots head head [] where
  size := hs
  fits := hf
  room := zero_le _
  head_lt := hh
  tail_eq := by rw [length_nil, add_zero, mod_eq_of_lt hh]
  entry _ hj := absurd hj (not_lt_zero _)

/-- The queue as it is read off the slots. -/
def window (w k : ℕ) (slots : List α) (head tail : ℕ) : List α :=
  (List.range ((tail + 2 ^ w - head) % 2 ^ w)).filterMap fun j => slots[(head + j) % 2 ^ k]?

theorem Holds.window_eq (h : Holds w k slots head tail q) : window w k slots head tail = q := by
  rw [window, h.waiting]
  have hm : (range q.length).filterMap (fun j => slots[(head + j) % 2 ^ k]?) =
      (range q.length).filterMap fun j => q[j]? := by
    refine filterMap_congr fun j hj => ?_
    have hlt := mem_range.1 hj
    rw [h.entry j hlt, getElem?_eq_getElem hlt]
  rw [hm]
  clear hm h
  induction q using reverseRecOn with
  | nil => rfl
  | append_singleton q a ih =>
    rw [length_append, length_singleton, range_succ, filterMap_append]
    have hf : (range q.length).filterMap (fun j => (q ++ [a])[j]?) =
        (range q.length).filterMap fun j => q[j]? :=
      filterMap_congr fun j hj => getElem?_append_left (mem_range.1 hj)
    rw [hf, ih]
    simp

end TruenasRos.RingQueue
