import Mathlib.Tactic

/-! # The completion token

The `user_data` of a submission packs an op's tag, its slot and the low half of the slot's
generation. A token read back gives the same three values, as long as the slot fits its field.
-/

namespace TruenasRos.Uring

def SLOT_MASK : ℕ := 0x00ffffff

def packRaw (tag slot generation : ℕ) : ℕ :=
  tag ||| (slot &&& SLOT_MASK) <<< 8 ||| generation <<< 32

def unpackRaw (user_data : ℕ) : ℕ × ℕ × ℕ :=
  (user_data &&& 0xff, (user_data >>> 8) &&& SLOT_MASK, (user_data >>> 32) % 2 ^ 32)

theorem and_slotMask (n : ℕ) : n &&& SLOT_MASK = n % 2 ^ 24 :=
  Nat.and_two_pow_sub_one_eq_mod n 24

theorem and_byte (n : ℕ) : n &&& 0xff = n % 2 ^ 8 :=
  Nat.and_two_pow_sub_one_eq_mod n 8

theorem packRaw_eq {tag : ℕ} (ht : tag < 2 ^ 8) (slot generation : ℕ) :
    packRaw tag slot generation = 2 ^ 32 * generation + (2 ^ 8 * (slot % 2 ^ 24) + tag) := by
  have hs : 2 ^ 8 * (slot % 2 ^ 24) + tag < 2 ^ 32 := by omega
  rw [packRaw, and_slotMask, Nat.shiftLeft_eq, Nat.shiftLeft_eq, Nat.or_comm tag,
    Nat.mul_comm _ (2 ^ 8), ← Nat.two_pow_add_eq_or_of_lt ht, Nat.or_comm,
    Nat.mul_comm _ (2 ^ 32), ← Nat.two_pow_add_eq_or_of_lt hs]

theorem unpackRaw_packRaw {tag slot generation : ℕ} (ht : tag < 2 ^ 8) (hs : slot < 2 ^ 24)
    (hg : generation < 2 ^ 32) :
    unpackRaw (packRaw tag slot generation) = (tag, slot, generation) := by
  rw [packRaw_eq ht, unpackRaw, and_byte, and_slotMask, Nat.shiftRight_eq_div_pow,
    Nat.shiftRight_eq_div_pow, Prod.mk.injEq, Prod.mk.injEq]
  omega

theorem packRaw_unpackRaw {user_data tag slot generation : ℕ} (hu : user_data < 2 ^ 64)
    (h : unpackRaw user_data = (tag, slot, generation)) :
    packRaw tag slot generation = user_data := by
  rw [unpackRaw, and_byte, and_slotMask, Nat.shiftRight_eq_div_pow, Nat.shiftRight_eq_div_pow,
    Prod.mk.injEq, Prod.mk.injEq] at h
  rw [packRaw_eq (by omega)]
  omega

end TruenasRos.Uring
