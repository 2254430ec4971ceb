import TruenasRos.Walk.QueryDir
import TruenasRos.Lib.LittleEndian

/-! # Resume cursors

A cursor is the last key a walk emitted, with a bit that says whether the caller
pruned it. Its token is a fixed header followed by the key; the host order of the
header's integers is little-endian.
-/

namespace TruenasRos.Walk

open List LittleEndian

structure TreeCursor where
  key : Bytes
  skip_subtree : Bool
  deriving DecidableEq

/-- The cursor at the start of a walk. -/
instance : Inhabited TreeCursor := ⟨⟨[], false⟩⟩

/-- The bytes of `"TnTc"` read in host order. -/
def CURSOR_MAGIC : ℕ := 0x6354_6E54

def CURSOR_VERSION : ℕ := 1

def CURSOR_FLAG_SKIP : ℕ := 1

namespace TreeCursor

def fromKey (key : Bytes) : TreeCursor := ⟨key, false⟩

variable (c : TreeCursor)

def namesDir : Bool := c.key.getLast? == some SLASH

def skippingSubtree : TreeCursor := { c with skip_subtree := c.namesDir }

def toBytes (c : TreeCursor) : Bytes :=
  let flags := if c.skip_subtree then CURSOR_FLAG_SKIP else 0
  LittleEndian.toBytes 4 CURSOR_MAGIC ++ LittleEndian.toBytes 2 CURSOR_VERSION ++
    LittleEndian.toBytes 2 flags ++ LittleEndian.toBytes 4 c.key.length ++ c.key

/-- `n` in lower-case hexadecimal after `0x`, padded with zeros to `digits`. -/
def hex (digits n : ℕ) : String :=
  "0x" ++ String.ofList ((Nat.toDigits 16 n).leftpad digits '0')

def bad (why : String) : Except Error TreeCursor := .error (.validation s!"tree cursor: {why}")

def fromBytes (data : Bytes) : Except Error TreeCursor :=
  if data.length < 12 then bad "truncated header"
  else
    let magic := ofBytes (data.take 4)
    let version := ofBytes ((data.drop 4).take 2)
    let flags := ofBytes ((data.drop 6).take 2)
    let len := ofBytes ((data.drop 8).take 4)
    if magic ≠ CURSOR_MAGIC then
      let magic := hex 8 magic
      bad s!"not a cursor blob (magic {magic})"
    else if version ≠ CURSOR_VERSION then bad s!"unsupported version {version}"
    else if flags &&& (0xFFFF - CURSOR_FLAG_SKIP) ≠ 0 then
      let flags := hex 4 flags
      bad s!"unknown flags {flags}"
    else if data.length ≠ 12 + len then bad "length does not match the blob"
    else .ok ⟨data.drop 12, flags &&& CURSOR_FLAG_SKIP ≠ 0⟩

def components : List Name := (c.key.splitOn SLASH).filter (· ≠ [])

/-- A token gives back the cursor it was made from. -/
theorem fromBytes_toBytes {c : TreeCursor} (h : c.key.length < 2 ^ 32) :
    fromBytes c.toBytes = .ok c := by
  have hlen : LittleEndian.ofBytes (LittleEndian.toBytes 4 c.key.length) = c.key.length :=
    LittleEndian.ofBytes_toBytes (by norm_num; exact h)
  obtain ⟨key, skip⟩ := c
  have hf : LittleEndian.ofBytes
      (LittleEndian.toBytes 2 (if skip then CURSOR_FLAG_SKIP else 0)) = skip.toNat := by
    cases skip <;> rfl
  simp only [LittleEndian.toBytes] at hlen hf
  have hd : ¬(toBytes ⟨key, skip⟩).length < 12 := by simp [toBytes]; omega
  rw [fromBytes, if_neg hd]
  simp only [toBytes, LittleEndian.toBytes, cons_append, nil_append, take_succ_cons,
    take_zero, drop_succ_cons, drop_zero, hlen, hf]
  rw [if_neg (by decide), if_neg (by decide), if_neg (by cases skip <;> simp [CURSOR_FLAG_SKIP]),
    if_neg (by simp; omega)]
  cases skip <;> rfl

theorem flags_eq {flags : ℕ} (hlt : flags < 256 ^ 2)
    (h : flags &&& (0xFFFF - CURSOR_FLAG_SKIP) = 0) :
    flags = if flags &&& CURSOR_FLAG_SKIP ≠ 0 then CURSOR_FLAG_SKIP else 0 := by
  have hh : flags / 2 % 2 ^ 15 = 0 := by
    rw [← Nat.and_two_pow_sub_one_eq_mod]
    exact (Nat.and_div_two).symm.trans
      (congrArg (· / 2) h)
  have hs : flags < 2 := by omega
  interval_cases flags <;> rfl

/-- A token is accepted only as the encoding of the cursor it gives. -/
theorem eq_toBytes_of_fromBytes {data : Bytes} {c : TreeCursor} (h : fromBytes data = .ok c) :
    data = c.toBytes ∧ c.key.length < 2 ^ 32 := by
  unfold fromBytes bad at h
  dsimp only at h
  split_ifs at h with hsh hm hv hf hlen
  obtain rfl := Except.ok.inj h
  have hw (k n : ℕ) (hk : k + n ≤ 12) : ((data.drop k).take n).length = n := by
    rw [length_take, length_drop]
    omega
  have hlt (k n : ℕ) (hk : k + n ≤ 12) : ofBytes ((data.drop k).take n) < 256 ^ n := by
    have h := ofBytes_lt ((data.drop k).take n)
    rwa [hw k n hk] at h
  have hkey : (data.drop 12).length = ofBytes ((data.drop 8).take 4) := by
    rw [length_drop]
    omega
  have hd : data = (data.drop 0).take 4 ++ (data.drop 4).take 2 ++ (data.drop 6).take 2 ++
      (data.drop 8).take 4 ++ data.drop 12 := by
    have hs (k n : ℕ) : data.drop k = (data.drop k).take n ++ data.drop (k + n) := by
      rw [← drop_drop, take_append_drop]
    conv_lhs => rw [← drop_zero (l := data), hs 0 4, hs 4 2, hs 6 2, hs 8 4]
    simp
  refine ⟨?_, hkey ▸ hlt 8 4 (by omega)⟩
  rw [eq_toBytes (hw 0 4 (by omega)) (not_not.1 hm), eq_toBytes (hw 4 2 (by omega)) (not_not.1 hv),
    eq_toBytes (hw 6 2 (by omega)) (flags_eq (hlt 6 2 (by omega)) (not_not.1 hf)),
    eq_toBytes (hw 8 4 (by omega)) hkey.symm] at hd
  apply hd.trans
  unfold toBytes
  simp

end TreeCursor

end TruenasRos.Walk
