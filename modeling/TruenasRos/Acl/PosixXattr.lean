import TruenasRos.Acl.Validation
import TruenasRos.Lib.Words

/-! # POSIX1E lists as extended attributes

The little-endian wire form of a list: a version word, and eight bytes an entry. A special
entry's id is written as the kernel's "no id" value and not read back.
-/

namespace TruenasRos.Acl

open LittleEndian Words List

namespace PosixTag

/-- The tags whose entries carry no id. -/
def isSpecial : PosixTag → Bool
  | userObj | groupObj | mask | other => true
  | user | group => false

def tryFrom : ℕ → Option PosixTag
  | 0x01 => some userObj
  | 0x02 => some user
  | 0x04 => some groupObj
  | 0x08 => some group
  | 0x10 => some mask
  | 0x20 => some other
  | _ => none

theorem tryFrom_toNat (tag : PosixTag) : tryFrom tag.toNat = some tag := by
  cases tag <;> rfl

theorem isSpecial_eq_false_iff {tag : PosixTag} : tag.isSpecial = false ↔ tag.isNamed = true := by
  cases tag <;> simp [isSpecial, isNamed]

end PosixTag

namespace PosixXattr

def HDR_SZ : ℕ := 4
def ACE_SZ : ℕ := 8
def VERSION : ℕ := 2

def le16 (b : Bytes) (i : ℕ) : Except (Fault Error) ℕ := word Error ofBytes 2 b i

def le32 (b : Bytes) (i : ℕ) : Except (Fault Error) ℕ := word Error ofBytes 4 b i

def entryId (tag : PosixTag) (xid : ℕ) : Except (Fault Error) ℤ :=
  if tag.isSpecial then .ok (-1)
  else if (xid : ℤ) = SPECIAL_ID then
    .error (.error (.parse "POSIX ACL named entry carries the undefined-id sentinel"))
  else .ok xid

def parseAce (data : Bytes) (is_default : Bool) (p : ℕ) : Except (Fault Error) PosixAce := do
  let code ← le16 data p
  match PosixTag.tryFrom code with
  | none => .error (.error (.parse "unknown POSIX ACL tag"))
  | some tag =>
    let perms ← le16 data (p + 2)
    let xid ← le32 data (p + 4)
    let id ← entryId tag xid
    .ok { tag, perms := BitVec.ofNat 16 perms, id, default := is_default }

def parseAces (data : Bytes) (is_default : Bool) : Except (Fault Error) (List PosixAce) :=
  if data.isEmpty then .ok []
  else if data.length < HDR_SZ then .error (.error (.parse "POSIX ACL too short"))
  else do
    let version ← le32 data 0
    if version ≠ VERSION then
      .error (.error (.parse "unsupported POSIX ACL version"))
    else if (data.length - HDR_SZ) % ACE_SZ ≠ 0 then
      .error (.error (.parse "POSIX ACL has a partial entry"))
    else
      let naces := (data.length - HDR_SZ) / ACE_SZ
      (range naces).mapM fun i => parseAce data is_default (HDR_SZ + i * ACE_SZ)

def entryXid (a : PosixAce) : Except Error ℕ :=
  if a.tag.isSpecial then .ok SPECIAL_ID.toNat
  else if 0 ≤ a.id ∧ a.id < 2 ^ 32 ∧ a.id ≠ SPECIAL_ID then .ok a.id.toNat
  else .error (.validation s!"POSIX ACL entry id {a.id} is not a valid uid/gid")

def encodeAce (a : PosixAce) : Except Error Bytes := do
  let xid ← entryXid a
  .ok (toBytes 2 a.tag.toNat ++ (toBytes 2 a.perms.toNat ++
    toBytes 4 xid))

def encodeAces (aces : List PosixAce) : Except Error Bytes := do
  let entries ← aces.mapM encodeAce
  .ok (toBytes 4 VERSION ++ entries.flatten)

variable {a : PosixAce} {aces : List PosixAce} {data entry suf : Bytes} {p : ℕ}

def decoded (is_default : Bool) (a : PosixAce) : PosixAce :=
  { a with id := if a.tag.isNamed then a.id else -1, default := is_default }

theorem exists_encodeAce (h : a.Admissible) : ∃ entry, encodeAce a = .ok entry := by
  have hx : ∃ xid, entryXid a = .ok xid := by
    unfold entryXid
    split_ifs with hs hid
    · exact ⟨_, rfl⟩
    · exact ⟨_, rfl⟩
    · refine absurd (h.id ?_) hid
      exact PosixTag.isSpecial_eq_false_iff.1 (eq_false_of_ne_true hs)
  obtain ⟨xid, hx⟩ := hx
  exact ⟨_, bind_eq_ok_iff.2 ⟨xid, hx, rfl⟩⟩

theorem entryId_entryXid {xid : ℕ} (h : entryXid a = .ok xid) : xid < 256 ^ 4 ∧
    entryId a.tag xid = .ok (if a.tag.isNamed then a.id else -1) := by
  unfold entryXid at h
  unfold entryId
  split_ifs at h with hs hid
  · cases h
    rw [if_pos hs]
    have hn : a.tag.isNamed ≠ true := by
      rw [Ne, ← PosixTag.isSpecial_eq_false_iff, hs]
      exact Bool.noConfusion
    rw [if_neg hn]
    exact ⟨by decide, rfl⟩
  · cases h
    have hn : a.tag.isNamed = true :=
      PosixTag.isSpecial_eq_false_iff.1 (eq_false_of_ne_true hs)
    have hc : ((a.id.toNat : ℕ) : ℤ) = a.id := Int.toNat_of_nonneg hid.1
    rw [if_neg hs, hc, if_neg hid.2.2, if_pos hn]
    exact ⟨by omega, rfl⟩

theorem parseAce_encodeAce (h : encodeAce a = .ok entry) (hp : data.drop p = entry ++ suf)
    (df : Bool) : parseAce data df p = .ok (decoded df a) := by
  obtain ⟨xid, hx, heq⟩ := bind_eq_ok_iff.1 h
  cases heq
  obtain ⟨hlt, hid⟩ := entryId_entryXid hx
  rw [append_assoc, append_assoc] at hp
  have hc : le16 data p = .ok a.tag.toNat := by
    have hp' : data.drop p = [] ++ (toBytes 2 a.tag.toNat ++ _) := hp
    exact word_of_drop hp' rfl (length_toBytes _ _)
      (ofBytes_toBytes (by cases a.tag <;> decide)) Nat.two_pos
  have hpe : le16 data (p + 2) = .ok a.perms.toNat := by
    apply word_of_drop hp (length_toBytes _ _) (length_toBytes _ _)
    · exact ofBytes_toBytes a.perms.isLt
    · exact Nat.two_pos
  have hw : le32 data (p + 4) = .ok xid := by
    rw [← append_assoc] at hp
    apply word_of_drop hp
    · simp
    · exact length_toBytes _ _
    · exact ofBytes_toBytes hlt
    · decide
  rw [parseAce, hc]
  simp only [bind, Except.bind, PosixTag.tryFrom_toNat, hpe, hw, hid]
  rw [decoded, BitVec.ofNat_toNat, BitVec.setWidth_eq]

theorem parseAces_eq {naces : ℕ} (hlen : data.length = HDR_SZ + naces * ACE_SZ)
    (hv : le32 data 0 = .ok VERSION) (df : Bool) : parseAces data df =
      (List.range naces).mapM fun i => parseAce data df (HDR_SZ + i * ACE_SZ) := by
  have hne : ¬data.isEmpty = true := by
    rw [List.isEmpty_iff, ← List.length_eq_zero_iff, hlen, HDR_SZ]
    omega
  have hd : (data.length - HDR_SZ) / ACE_SZ = naces := by
    rw [hlen, Nat.add_sub_cancel_left, ACE_SZ, Nat.mul_div_cancel _ (by decide)]
  have hm : (data.length - HDR_SZ) % ACE_SZ = 0 := by
    rw [hlen, Nat.add_sub_cancel_left, ACE_SZ, Nat.mul_mod_left]
  rw [parseAces, if_neg hne, if_neg (by omega), hv]
  simp [bind, Except.bind, hm, hd]

theorem exists_encodeAces (h : ∀ a ∈ aces, a.Admissible) : ∃ data, encodeAces aces = .ok data := by
  have he : ∃ es, aces.mapM encodeAce = .ok es := by
    simp only [mapM_eq_ok_iff]
    induction aces with
    | nil => exact ⟨[], .nil⟩
    | cons a aces ih =>
      rw [forall_mem_cons] at h
      obtain ⟨entry, het⟩ := exists_encodeAce h.1
      obtain ⟨es, he⟩ := ih h.2
      exact ⟨entry :: es, .cons het he⟩
  obtain ⟨es, he⟩ := he
  exact ⟨_, bind_eq_ok_iff.2 ⟨es, he, rfl⟩⟩

theorem parseAces_encodeAces (h : encodeAces aces = .ok data) (df : Bool) :
    parseAces data df = .ok (aces.map (decoded df)) := by
  obtain ⟨es, he, heq⟩ := bind_eq_ok_iff.1 h
  cases heq
  let R (entry : Bytes) (b : PosixAce) : Prop :=
    ∃ a, encodeAce a = .ok entry ∧ b = decoded df a
  have hall : List.Forall₂ R es (aces.map (decoded df)) := by
    rw [forall₂_map_right_iff]
    exact List.Forall₂.flip (List.Forall₂.imp (fun a entry ha => ⟨a, ha, rfl⟩)
      (mapM_eq_ok_iff.1 he))
  have hs : ∀ entry b, R entry b → entry.length = ACE_SZ := by
    rintro entry b ⟨a, ha, -⟩
    obtain ⟨xid, -, heq⟩ := bind_eq_ok_iff.1 ha
    cases heq
    simp [ACE_SZ]
  have hl : (toBytes 4 VERSION ++ es.flatten).length =
      HDR_SZ + es.length * ACE_SZ := by
    rw [length_append, length_toBytes, HDR_SZ, length_flatten (length_of_forall₂ hall hs)]
  have hv : le32 (toBytes 4 VERSION ++ es.flatten) 0 = .ok VERSION := by
    have hp : (toBytes 4 VERSION ++ es.flatten).drop 0 =
      [] ++ (toBytes 4 VERSION ++ es.flatten) := rfl
    exact word_of_drop hp rfl (length_toBytes _ _)
      (ofBytes_toBytes (by decide)) (by decide)
  rw [parseAces_eq hl hv]
  apply mapM_range_records (toBytes 4 VERSION)
    (length_toBytes _ _) hall hs
  rintro entry b p suf ⟨a, ha, rfl⟩ hp
  exact parseAce_encodeAce ha hp df

end PosixXattr

end TruenasRos.Acl
