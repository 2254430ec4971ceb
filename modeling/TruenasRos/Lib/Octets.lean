import TruenasRos.Lib.Lines

/-! # Octets of a text

A text is a list of letters. It is stored as its UTF-8 octets, and octets can be written out
as pairs of upper-case hexadecimal digits, which are read back as they were.
-/

namespace TruenasRos.Octets

open List Lines Nat

variable {s t : List Char} {c : Char} {b : UInt8} {n : ℕ}

def utf8 (s : List Char) : List UInt8 := s.flatMap String.utf8EncodeChar

theorem utf8_injective : Function.Injective utf8 := by
  intro s t h
  have hs : s.utf8Encode = t.utf8Encode := congrArg toByteArray h
  have hd := congrArg ByteArray.utf8Decode? hs
  rw [utf8Decode?_utf8Encode, utf8Decode?_utf8Encode, Option.some.injEq] at hd
  exact toArray_inj hd

theorem utf8EncodeChar_of_lt (h : c.toNat < 128) :
    String.utf8EncodeChar c = [UInt8.ofNat c.toNat] := by
  have hc : c.val.toNat ≤ 0x7f := le_of_lt_succ h
  rw [String.utf8EncodeChar, if_pos hc]
  rfl

theorem le_of_mem_utf8EncodeChar (h : 128 ≤ c.toNat) (hb : b ∈ String.utf8EncodeChar c) :
    128 ≤ b.toNat := by
  have hc : ¬ c.val.toNat ≤ 0x7f := Nat.not_le_of_lt h
  rw [String.utf8EncodeChar, if_neg hc] at hb
  split_ifs at hb <;> simp only [mem_cons, not_mem_nil, or_false] at hb <;>
    rcases hb with rfl | rfl | rfl | rfl <;> simp only [UInt8.toNat_ofNat'] <;> omega

/-- A property that only ASCII has holds of the octets as it holds of the letters. -/
theorem forall_mem_utf8 {p : ℕ → Prop} (hp : ∀ n, p n → n < 128) :
    (∀ b ∈ utf8 s, p b.toNat) ↔ ∀ c ∈ s, p c.toNat := by
  simp only [utf8, mem_flatMap, forall_exists_index, and_imp]
  constructor
  · intro h c hc
    by_cases hlt : c.toNat < 128
    · have hb := h (UInt8.ofNat c.toNat) c hc (by simp [utf8EncodeChar_of_lt hlt])
      rwa [UInt8.toNat_ofNat', mod_eq_of_lt (by omega)] at hb
    · obtain ⟨b, hb⟩ := exists_mem_of_ne_nil _ (String.utf8EncodeChar_ne_nil)
      have := le_of_mem_utf8EncodeChar (not_lt.1 hlt) hb
      exact absurd (hp _ (h b c hc hb)) (by omega)
  · intro h b c hc hb
    have hlt := hp _ (h c hc)
    rw [utf8EncodeChar_of_lt hlt, mem_singleton] at hb
    rw [hb, UInt8.toNat_ofNat', mod_eq_of_lt (by omega)]
    exact h c hc

def ofUtf8 (bs : List UInt8) : Option (List Char) :=
  bs.toByteArray.utf8Decode?.map Array.toList

theorem ofUtf8_utf8 (s : List Char) : ofUtf8 (utf8 s) = some s := by
  have hd : (utf8 s).toByteArray.utf8Decode? = some s.toArray := utf8Decode?_utf8Encode
  rw [ofUtf8, hd]
  rfl

theorem notMem_utf8EncodeChar (hn : n < 128) (hc : c.toNat ≠ n) :
    UInt8.ofNat n ∉ String.utf8EncodeChar c := by
  have hb : (UInt8.ofNat n).toNat = n := by
    rw [UInt8.toNat_ofNat', mod_eq_of_lt (by omega)]
  intro hmem
  by_cases hlt : c.toNat < 128
  · rw [utf8EncodeChar_of_lt hlt, mem_singleton] at hmem
    have heq := congrArg UInt8.toNat hmem
    rw [hb, UInt8.toNat_ofNat', mod_eq_of_lt (by omega)] at heq
    exact hc heq.symm
  · have hge := le_of_mem_utf8EncodeChar (not_lt.1 hlt) hmem
    omega

theorem utf8_unify (s : List Char) : utf8 (unify '\r' '\n' s) = unify 0x0d 0x0a (utf8 s) := by
  have hco : ∀ c t, utf8 (c :: t) = String.utf8EncodeChar c ++ utf8 t := fun _ _ => rfl
  have hnl : ∀ t, utf8 ('\n' :: t) = 0x0a :: utf8 t := fun t => hco '\n' t
  have hcr : ∀ t, utf8 ('\r' :: t) = 0x0d :: utf8 t := fun t => hco '\r' t
  have hpn : ∀ c t, c ≠ '\r' → unify 0x0d 0x0a (utf8 (c :: t)) = String.utf8EncodeChar c ++
        unify 0x0d 0x0a (utf8 t) := by
    intro c t hc
    have hn : c.toNat ≠ 13 := fun h => hc (Char.toNat_inj.1 h)
    have hmem := notMem_utf8EncodeChar (by omega) hn
    exact unify_append hmem
  induction hs : s.length using Nat.strong_induction_on generalizing s with
  | _ n ih =>
    rcases s with - | ⟨c, s⟩
    · rfl
    simp only [length_cons] at hs
    by_cases hc : c = '\r'
    · subst hc
      rcases s with - | ⟨d, s⟩
      · rfl
      simp only [length_cons] at hs
      by_cases hd : d = '\n'
      · subst hd
        rw [unify_pair, hnl, hcr, hnl, unify_pair, ih s.length (by omega) s rfl]
      · -- the octets of the next letter do not begin with a line break
        have hn : d.toNat ≠ 10 := fun h => hd (Char.toNat_inj.1 h)
        have hf : ∃ b bs, utf8 (d :: s) = b :: bs ∧ b ≠ 0x0a := by
          obtain ⟨b, bs, hb⟩ := exists_cons_of_ne_nil (String.utf8EncodeChar_ne_nil)
          refine ⟨b, bs ++ utf8 s, ?_, ?_⟩
          · rw [hco, hb]
            rfl
          · rintro rfl
            exact notMem_utf8EncodeChar (by omega) hn (hb ▸ mem_cons_self)
        obtain ⟨b, bs, hu8, hb⟩ := hf
        rw [unify_lone hd, hnl, hcr, ih (d :: s).length (by simp; omega) (d :: s) rfl, hu8,
          unify_lone hb]
    · rw [unify_cons hc, hpn c s hc, hco, ih s.length (by omega) s rfl]

def hexDigit (n : ℕ) : Char := n.digitChar.toUpper

def hex (bs : List UInt8) : List Char :=
  bs.flatMap fun b => [hexDigit (b.toNat / 16), hexDigit (b.toNat % 16)]

def digitOf (c : Char) : Option ℕ :=
  if '0' ≤ c ∧ c ≤ '9' then some (c.toNat - 48)
  else if 'A' ≤ c ∧ c ≤ 'F' then some (c.toNat - 55) else none

/-- The octets that pairs of digits write. -/
def unhex : List Char → Option (List UInt8)
  | [] => some []
  | [_] => none
  | a :: b :: s => do
    let hi ← digitOf a
    let lo ← digitOf b
    let bs ← unhex s
    return UInt8.ofNat (16 * hi + lo) :: bs

theorem digitOf_hexDigit (h : n < 16) : digitOf (hexDigit n) = some n := by
  interval_cases n <;> rfl

theorem unhex_hex (bs : List UInt8) : unhex (hex bs) = some bs := by
  induction bs with
  | nil => rfl
  | cons b bs ih =>
    have hb : b.toNat < 256 := b.toNat_lt
    rw [hex, flatMap_cons, ← hex, cons_append, cons_append, nil_append, unhex,
      digitOf_hexDigit (by omega), digitOf_hexDigit (by omega), ih]
    have hv : 16 * (b.toNat / 16) + b.toNat % 16 = b.toNat := div_add_mod _ _
    simp only [Option.bind_eq_bind, Option.bind_some, hv, UInt8.ofNat_toNat]
    rfl

theorem mem_hex {bs : List UInt8} (h : c ∈ hex bs) :
    (48 ≤ c.toNat ∧ c.toNat ≤ 57) ∨ (65 ≤ c.toNat ∧ c.toNat ≤ 70) := by
  have hd : ∀ n < 16, (48 ≤ (hexDigit n).toNat ∧ (hexDigit n).toNat ≤ 57) ∨
      (65 ≤ (hexDigit n).toNat ∧ (hexDigit n).toNat ≤ 70) := by decide
  simp only [hex, mem_flatMap, mem_cons, not_mem_nil, or_false] at h
  obtain ⟨b, -, rfl | rfl⟩ := h
  · exact hd _ (by have : b.toNat < 256 := b.toNat_lt; omega)
  · exact hd _ (mod_lt _ (by omega))

end TruenasRos.Octets
