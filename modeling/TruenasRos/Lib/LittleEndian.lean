import Mathlib.Tactic

/-! # Little-endian integers

Fixed-width little-endian encodings of natural numbers as byte lists.
-/

namespace TruenasRos.LittleEndian

/-- The low `width` bytes of a number, least significant first. -/
def toBytes : ℕ → ℕ → List UInt8
  | 0, _ => []
  | width + 1, n => UInt8.ofNat n :: toBytes width (n / 256)

def ofBytes : List UInt8 → ℕ
  | [] => 0
  | b :: bs => b.toNat + 256 * ofBytes bs

@[simp]
theorem length_toBytes (width n : ℕ) : (toBytes width n).length = width := by
  induction width generalizing n with
  | zero => rfl
  | succ width ih => rw [toBytes, List.length_cons, ih]

theorem ofBytes_toBytes {width n : ℕ} (h : n < 256 ^ width) : ofBytes (toBytes width n) = n := by
  induction width generalizing n with
  | zero =>
    rw [pow_zero, Nat.lt_one_iff] at h
    rw [h]
    rfl
  | succ width ih =>
    have hd : n / 256 < 256 ^ width :=
      Nat.div_lt_of_lt_mul (by rw [pow_succ] at h; omega)
    rw [toBytes, ofBytes, ih hd, UInt8.toNat_ofNat']
    omega

theorem ofBytes_lt (bs : List UInt8) : ofBytes bs < 256 ^ bs.length := by
  induction bs with
  | nil => simp [ofBytes]
  | cons b bs ih =>
    have hb := b.toNat_lt
    rw [ofBytes, List.length_cons, pow_succ]
    omega

theorem toBytes_ofBytes (bs : List UInt8) : toBytes bs.length (ofBytes bs) = bs := by
  induction bs with
  | nil => rfl
  | cons b bs ih =>
    have hb := b.toNat_lt
    have hd : (b.toNat + 256 * ofBytes bs) / 256 = ofBytes bs := by omega
    have hm : UInt8.ofNat (b.toNat + 256 * ofBytes bs) = b := by
      apply UInt8.toNat_inj.1
      rw [UInt8.toNat_ofNat']
      omega
    rw [ofBytes, List.length_cons, toBytes, hd, hm, ih]

theorem eq_toBytes {bs : List UInt8} {width n : ℕ} (hlen : bs.length = width)
    (hn : ofBytes bs = n) : bs = toBytes width n := by
  rw [← hlen, ← hn, toBytes_ofBytes]

end TruenasRos.LittleEndian
