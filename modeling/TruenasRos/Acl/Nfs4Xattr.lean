import TruenasRos.Acl.Nfs4
import TruenasRos.Error
import TruenasRos.Lib.Usize
import TruenasRos.Lib.Words

/-! # NFS4 lists as an extended attribute

The big-endian wire form of a list: a flag word, the number of ACEs, and five words an ACE. The
third word of an ACE says whether the fifth is an id or names a special principal, by its lowest
bit; the other bits are not kept.
-/

namespace TruenasRos.Acl

open BigEndian List Words Nat

def Nfs4AclFlag.ACL_IS_TRIVIAL : Nfs4AclFlag := 0x10000

namespace Nfs4AceType

def toNat : Nfs4AceType → ℕ
  | allow => 0
  | deny => 1
  | audit => 2
  | alarm => 3

def tryFrom : ℕ → Option Nfs4AceType
  | 0 => some allow
  | 1 => some deny
  | 2 => some audit
  | 3 => some alarm
  | _ => none

theorem tryFrom_eq_some_iff {code : ℕ} {t : Nfs4AceType} :
    tryFrom code = some t ↔ code = t.toNat := by
  constructor
  · intro h
    unfold tryFrom at h
    split at h <;> cases h <;> rfl
  · rintro rfl
    cases t <;> rfl

theorem toNat_lt (t : Nfs4AceType) : t.toNat < 256 ^ 4 := by
  cases t <;> decide

end Nfs4AceType

def Nfs4Who.toNat : Nfs4Who → ℕ
  | .named => 0
  | .owner => 1
  | .group => 2
  | .everyone => 3

namespace Nfs4Xattr

def HDR_SZ : ℕ := 8
def ACE_SZ : ℕ := 20
def ACEI4_SPECIAL_WHO : BitVec 32 := 1

def be32 (b : Bytes) (i : ℕ) : Except (Fault Error) ℕ := word Error ofBytes 4 b i

def specialWho : ℕ → Option Nfs4Who
  | 1 => some .owner
  | 2 => some .group
  | 3 => some .everyone
  | _ => none

def principal (iflag who_raw : ℕ) : Except (Fault Error) (Nfs4Who × ℤ) :=
  if BitVec.ofNat 32 iflag &&& ACEI4_SPECIAL_WHO ≠ 0 then
    match specialWho who_raw with
    | some w => .ok (w, -1)
    | none => .error (.error (.parse "invalid NFS4 special principal"))
  else .ok (.named, who_raw)

def parseAce (data : Bytes) (p : ℕ) : Except (Fault Error) Nfs4Ace := do
  let code ← be32 data p
  match Nfs4AceType.tryFrom code with
  | none => .error (.error (.parse "invalid NFS4 ACE type"))
  | some ace_type =>
    let ace_flags ← be32 data (p + 4)
    let iflag ← be32 data (p + 8)
    let access_mask ← be32 data (p + 12)
    let who_raw ← be32 data (p + 16)
    let (who_type, who_id) ← principal iflag who_raw
    .ok
      { ace_type
        ace_flags := BitVec.ofNat 32 ace_flags
        access_mask := BitVec.ofNat 32 access_mask
        who_type, who_id }

/-- The length a list of this many ACEs has, if it can be counted. -/
def need (naces : ℕ) : Option ℕ :=
  (Usize.checkedMul naces ACE_SZ).bind fun n => Usize.checkedAdd n HDR_SZ

def fromXattr (data : Bytes) : Except (Fault Error) Nfs4Acl :=
  if data.isEmpty then .ok { acl_flags := Nfs4AclFlag.ACL_IS_TRIVIAL, aces := [] }
  else if data.length < HDR_SZ then
    .error (.error (.parse s!"NFS4 ACL truncated: {data.length} bytes"))
  else do
    let acl_flags ← be32 data 0
    let naces ← be32 data 4
    if need naces ≠ some data.length then
      .error (.error (.parse s!"NFS4 ACL is {data.length} bytes for a declared {naces} ACEs"))
    else
      let aces ← (List.range naces).mapM fun i => parseAce data (HDR_SZ + i * ACE_SZ)
      .ok { acl_flags := BitVec.ofNat 32 acl_flags, aces }

def namedWho (who_id : ℤ) : Except Error ℕ :=
  if 0 ≤ who_id ∧ who_id < 2 ^ 32 then .ok who_id.toNat
  else .error (.validation s!"named NFS4 ACE id {who_id} is not a valid uid/gid")

def principalWords (a : Nfs4Ace) : Except Error (ℕ × ℕ) :=
  if a.who_type = .named then do
    let who ← namedWho a.who_id
    .ok (0, who)
  else .ok (1, a.who_type.toNat)

def encodeAce (a : Nfs4Ace) : Except Error Bytes := do
  let (iflag, who) ← principalWords a
  .ok ([a.ace_type.toNat, a.ace_flags.toNat, iflag, a.access_mask.toNat, who].flatMap
    (toBytes 4))

def toXattr (acl : Nfs4Acl) : Except Error Bytes := do
  let aces ← acl.aces.mapM encodeAce
  .ok ([acl.acl_flags.toNat, acl.aces.length % 2 ^ 32].flatMap
    (toBytes 4) ++ aces.flatten)

variable {a : Nfs4Ace} {acl : Nfs4Acl} {data entry suf : Bytes} {p iflag who i naces : ℕ}

/-- The ids that an ACE can have on the wire. -/
structure Encodable (a : Nfs4Ace) : Prop where
  named : a.who_type = .named → 0 ≤ a.who_id ∧ a.who_id < 2 ^ 32
  special : a.who_type ≠ .named → a.who_id = -1

theorem special_iff (iflag : ℕ) :
    BitVec.ofNat 32 iflag &&& ACEI4_SPECIAL_WHO ≠ 0 ↔ iflag % 2 = 1 := by
  have hb : (BitVec.ofNat 32 iflag &&& ACEI4_SPECIAL_WHO).toNat = iflag % 2 := by
    change iflag % 2 ^ 32 &&& 1 = iflag % 2
    rw [and_one_is_mod]
    omega
  have hz : (0 : BitVec 32).toNat = 0 := rfl
  rw [Ne, ← BitVec.toNat_inj, hb, hz]
  omega

theorem specialWho_eq_some_iff {code : ℕ} {w : Nfs4Who} :
    specialWho code = some w ↔ w ≠ .named ∧ code = w.toNat := by
  constructor
  · intro h
    unfold specialWho at h
    split at h <;> cases h <;> exact ⟨by decide, rfl⟩
  · rintro ⟨hne, rfl⟩
    cases w with
    | named => exact absurd rfl hne
    | owner | group | everyone => rfl

theorem principal_principalWords (ha : Encodable a) (h : principalWords a = .ok (iflag, who)) :
    iflag < 256 ^ 4 ∧ who < 256 ^ 4 ∧ principal iflag who = .ok (a.who_type, a.who_id) := by
  unfold principalWords at h
  split_ifs at h with hn
  · obtain ⟨hno, hlt⟩ := ha.named hn
    rw [namedWho, if_pos ⟨hno, hlt⟩] at h
    cases h
    refine ⟨by decide, by omega, ?_⟩
    rw [principal, if_neg (by decide), hn, Int.toNat_of_nonneg hno]
  · cases h
    refine ⟨by decide, (by cases a.who_type <;> decide), ?_⟩
    rw [principal, if_pos (by decide), specialWho_eq_some_iff.2 ⟨hn, rfl⟩, ha.special hn]

theorem exists_principalWords (ha : Encodable a) :
    ∃ iflag who, principalWords a = .ok (iflag, who) := by
  unfold principalWords
  split_ifs with hn
  · rw [namedWho, if_pos (ha.named hn)]
    exact ⟨_, _, rfl⟩
  · exact ⟨_, _, rfl⟩

theorem principalWords_principal (h : principal iflag who = .ok (a.who_type, a.who_id))
    (hwho : who < 256 ^ 4) : principalWords a = .ok (iflag % 2, who) := by
  unfold principal at h
  split_ifs at h with hs
  · rw [special_iff] at hs
    cases hw : specialWho who with
    | none =>
      rw [hw] at h
      cases h
    | some w =>
      rw [hw] at h
      obtain ⟨ht, -⟩ := Prod.mk.inj (Except.ok.inj h)
      obtain ⟨hne, rfl⟩ := specialWho_eq_some_iff.1 hw
      rw [principalWords, if_neg (ht ▸ hne), hs, ht]
  · rw [special_iff] at hs
    obtain ⟨ht, hid⟩ := Prod.mk.inj (Except.ok.inj h)
    have hz : iflag % 2 = 0 := by omega
    rw [principalWords, if_pos ht.symm, namedWho, ← hid, if_pos (by omega), hz]
    rfl

theorem length_encodeAce (h : encodeAce a = .ok entry) : entry.length = ACE_SZ := by
  obtain ⟨⟨iflag, who⟩, -, heq⟩ := bind_eq_ok_iff.1 h
  cases heq
  exact length_flatMap_toBytes 4 _

theorem be32_lt {n : ℕ} (h : be32 data i = .ok n) : n < 2 ^ 32 := word_lt h

theorem parseAce_eq_ok_iff : parseAce data p = .ok a ↔ ∃ iflag who,
    be32 data p = .ok a.ace_type.toNat ∧ be32 data (p + 4) = .ok a.ace_flags.toNat ∧
      be32 data (p + 8) = .ok iflag ∧ be32 data (p + 12) = .ok a.access_mask.toNat ∧
      be32 data (p + 16) = .ok who ∧ principal iflag who = .ok (a.who_type, a.who_id) := by
  constructor
  · intro h
    obtain ⟨code, hc, h⟩ := bind_eq_ok_iff.1 h
    cases ht : Nfs4AceType.tryFrom code with
    | none =>
      rw [ht] at h
      cases h
    | some ace_type =>
      rw [ht] at h
      obtain ⟨flags, hf, h⟩ := bind_eq_ok_iff.1 h
      obtain ⟨iflag, hif, h⟩ := bind_eq_ok_iff.1 h
      obtain ⟨mask, hm, h⟩ := bind_eq_ok_iff.1 h
      obtain ⟨who, hw, h⟩ := bind_eq_ok_iff.1 h
      obtain ⟨⟨who_type, who_id⟩, hpr, h⟩ := bind_eq_ok_iff.1 h
      cases h
      have hwo : ∀ {n i : ℕ}, be32 data i = .ok n → (BitVec.ofNat 32 n).toNat = n := by
        intro n i hr
        rw [BitVec.toNat_ofNat, mod_eq_of_lt (be32_lt hr)]
      rw [Nfs4AceType.tryFrom_eq_some_iff.1 ht] at hc
      refine ⟨iflag, who, hc, ?_, hif, ?_, hw, hpr⟩
      · rw [hwo hf]
        exact hf
      · rw [hwo hm]
        exact hm
  · rintro ⟨iflag, who, hc, hf, hif, hm, hw, hpr⟩
    rw [parseAce, hc]
    simp [bind, Except.bind, Nfs4AceType.tryFrom_eq_some_iff.2 rfl, hf, hif, hm, hw, hpr]

theorem parseAce_encodeAce (ha : Encodable a) (h : encodeAce a = .ok entry)
    (hp : data.drop p = entry ++ suf) : parseAce data p = .ok a := by
  obtain ⟨⟨iflag, who⟩, hwo, heq⟩ := bind_eq_ok_iff.1 h
  cases heq
  obtain ⟨hif, hw, hpr⟩ := principal_principalWords ha hwo
  rw [parseAce_eq_ok_iff]
  refine ⟨iflag, who, ?_, ?_, ?_, ?_, ?_, hpr⟩
  · exact word_of_words (by decide) hp (i := 0) (by simp) a.ace_type.toNat_lt
  · exact word_of_words (by decide) hp (i := 1) (by simp) a.ace_flags.isLt
  · exact word_of_words (by decide) hp (i := 2) (by simp) hif
  · exact word_of_words (by decide) hp (i := 3) (by simp) a.access_mask.isLt
  · exact word_of_words (by decide) hp (i := 4) (by simp) hw

/-- The bytes of an ACE with its flag word cut down to the lowest bit. -/
def plainIflag (ace : Bytes) : Bytes :=
  ace.take 8 ++ (toBytes 4 (ofBytes ((ace.drop 8).take 4) % 2) ++ ace.drop 12)

theorem plainIflag_words (code flags mask : ℕ) (hif : iflag < 2 ^ 32) :
    plainIflag ([code, flags, iflag, mask, who].flatMap (toBytes 4)) =
      [code, flags, iflag % 2, mask, who].flatMap (toBytes 4) := by
  have hs : ∀ iflag, [code, flags, iflag, mask, who].flatMap (toBytes 4) =
      [code, flags].flatMap (toBytes 4) ++ (toBytes 4 iflag ++
        [mask, who].flatMap (toBytes 4)) := by
    simp
  have hlen : ([code, flags].flatMap (toBytes 4)).length = 8 :=
    length_flatMap_toBytes 4 _
  have hw : ofBytes (toBytes 4 iflag) = iflag :=
    ofBytes_toBytes hif
  rw [plainIflag, hs, hs, take_left' hlen, drop_left' hlen, take_left' (length_toBytes _ _), hw,
    ← drop_drop (i := 4), drop_left' hlen, drop_left' (length_toBytes _ _)]

theorem encodeAce_parseAce (h : parseAce data p = .ok a) :
    encodeAce a = .ok (plainIflag ((data.drop p).take ACE_SZ)) := by
  obtain ⟨iflag, who, hc, hf, hif, hm, hw, hpr⟩ := parseAce_eq_ok_iff.1 h
  have hb : (data.drop p).take ACE_SZ =
      [a.ace_type.toNat, a.ace_flags.toNat, iflag, a.access_mask.toNat, who].flatMap
        (toBytes 4) := by
    refine take_of_words (ε := Error) rfl fun i hi => ?_
    match i, hi with
    | 0, _ => exact hc
    | 1, _ => exact hf
    | 2, _ => exact hif
    | 3, _ => exact hm
    | 4, _ => exact hw
  rw [encodeAce, principalWords_principal hpr (be32_lt hw), hb,
    plainIflag_words _ _ _ (be32_lt hif)]
  rfl

theorem need_eq (h : naces < 2 ^ 32) : need naces = some (naces * ACE_SZ + HDR_SZ) := by
  have hm : naces * ACE_SZ ≤ Usize.MAX := by
    unfold ACE_SZ Usize.MAX
    omega
  have ha : naces * ACE_SZ + HDR_SZ ≤ Usize.MAX := by
    unfold ACE_SZ HDR_SZ Usize.MAX
    omega
  rw [need, Usize.checkedMul, if_pos hm, Option.bind_some, Usize.checkedAdd, if_pos ha]

theorem fromXattr_eq {flags : ℕ} (hf : be32 data 0 = .ok flags)
    (hn : be32 data 4 = .ok naces) (hlen : data.length = naces * ACE_SZ + HDR_SZ) :
    fromXattr data = (List.range naces).mapM (fun i => parseAce data (HDR_SZ + i * ACE_SZ)) >>=
      fun aces => .ok { acl_flags := BitVec.ofNat 32 flags, aces } := by
  have hne : ¬data.isEmpty = true := by
    rw [List.isEmpty_iff, ← List.length_eq_zero_iff, hlen, HDR_SZ]
    omega
  have hnd : ¬need naces ≠ some data.length := by
    rw [need_eq (be32_lt hn), hlen, not_not]
  rw [fromXattr, if_neg hne, if_neg (by omega), hf]
  simp [bind, Except.bind, hn, if_neg hnd]

theorem fromXattr_eq_ok (hne : data ≠ []) (h : fromXattr data = .ok acl) : ∃ flags naces,
    be32 data 0 = .ok flags ∧ be32 data 4 = .ok naces ∧ data.length = naces * ACE_SZ + HDR_SZ := by
  rw [fromXattr, if_neg (by simpa using hne)] at h
  split_ifs at h with hs
  obtain ⟨flags, hf, h⟩ := bind_eq_ok_iff.1 h
  obtain ⟨naces, hn, h⟩ := bind_eq_ok_iff.1 h
  split_ifs at h with hnd
  rw [need_eq (be32_lt hn), not_not, Option.some.injEq] at hnd
  exact ⟨flags, naces, hf, hn, hnd.symm⟩

theorem exists_be32 (h : i + 4 ≤ data.length) : ∃ n, be32 data i = .ok n :=
  ⟨_, word_eq_ok_iff.2 ⟨h, rfl⟩⟩

theorem parseAce_ne_outOfBounds (h : p + ACE_SZ ≤ data.length) :
    parseAce data p ≠ .error .outOfBounds := by
  unfold ACE_SZ at h
  obtain ⟨code, hc⟩ : ∃ n, be32 data p = .ok n := exists_be32 (by omega)
  obtain ⟨flags, hf⟩ : ∃ n, be32 data (p + 4) = .ok n := exists_be32 (by omega)
  obtain ⟨iflag, hif⟩ : ∃ n, be32 data (p + 8) = .ok n := exists_be32 (by omega)
  obtain ⟨mask, hm⟩ : ∃ n, be32 data (p + 12) = .ok n := exists_be32 (by omega)
  obtain ⟨who, hw⟩ : ∃ n, be32 data (p + 16) = .ok n := exists_be32 (by omega)
  rw [parseAce, hc]
  simp only [bind, Except.bind, hf, hif, hm, hw]
  split
  · nofun
  · unfold principal
    split_ifs with hs
    · cases specialWho who with
      | none => nofun
      | some w => nofun
    · nofun

theorem fromXattr_ne_outOfBounds (data : Bytes) : fromXattr data ≠ .error .outOfBounds := by
  unfold fromXattr
  split_ifs with he hs
  · nofun
  · nofun
  · unfold HDR_SZ at hs
    obtain ⟨flags, hf⟩ : ∃ n, be32 data 0 = .ok n := exists_be32 (by omega)
    obtain ⟨naces, hn⟩ : ∃ n, be32 data 4 = .ok n := exists_be32 (by omega)
    simp only [bind, Except.bind, hf, hn]
    split_ifs with hnd
    · nofun
    · rw [need_eq (be32_lt hn), not_not, Option.some.injEq] at hnd
      have hl : (range naces).mapM (fun i => parseAce data (HDR_SZ + i * ACE_SZ)) ≠
          .error .outOfBounds := by
        apply mapM_ne_error
        intro i hi
        apply parseAce_ne_outOfBounds
        have hle : (i + 1) * ACE_SZ ≤ naces * ACE_SZ :=
          mul_le_mul_right _ (mem_range.1 hi)
        rw [succ_mul] at hle
        omega
      cases hr : (range naces).mapM (fun i => parseAce data (HDR_SZ + i * ACE_SZ)) with
      | ok aces => nofun
      | error e =>
        rw [hr] at hl
        intro heq
        exact hl (congrArg Except.error (Except.error.inj heq))

theorem fromXattr_toXattr (hlen : acl.aces.length < 2 ^ 32) (ha : ∀ a ∈ acl.aces, Encodable a) :
    ∃ data, toXattr acl = .ok data ∧ fromXattr data = .ok acl := by
  have hall : ∃ es, List.Forall₂ (fun entry a => Encodable a ∧ encodeAce a = .ok entry)
      es acl.aces := by
    generalize acl.aces = aces at ha
    induction aces with
    | nil => exact ⟨[], .nil⟩
    | cons a aces ih =>
      rw [forall_mem_cons] at ha
      obtain ⟨iflag, who, hw⟩ := exists_principalWords ha.1
      obtain ⟨es, he⟩ := ih ha.2
      exact ⟨_ :: es, .cons ⟨ha.1, bind_eq_ok_iff.2 ⟨_, hw, rfl⟩⟩ he⟩
  obtain ⟨es, hall⟩ := hall
  have he : acl.aces.mapM encodeAce = .ok es :=
    mapM_eq_ok_iff.2 (List.Forall₂.flip (List.Forall₂.imp (fun _ _ h => h.2) hall))
  have hs : ∀ entry a, Encodable a ∧ encodeAce a = .ok entry → entry.length = ACE_SZ :=
    fun _ _ h => length_encodeAce h.2
  have hc : acl.aces.length % 2 ^ 32 = es.length := by
    rw [hall.length_eq, mod_eq_of_lt hlen]
  let header := [acl.acl_flags.toNat, acl.aces.length % 2 ^ 32].flatMap (toBytes 4)
  have hh : header.length = HDR_SZ := length_flatMap_toBytes 4 _
  have hp : (header ++ es.flatten).drop 0 = header ++ es.flatten := rfl
  have hf : be32 (header ++ es.flatten) 0 = .ok acl.acl_flags.toNat :=
    word_of_words (by decide) hp (i := 0) (by simp) acl.acl_flags.isLt
  have hn : be32 (header ++ es.flatten) 4 = .ok es.length := by
    rw [← hc]
    exact word_of_words (by decide) hp (i := 1) (by simp) (mod_lt _ (by decide))
  have hl : (header ++ es.flatten).length = es.length * ACE_SZ + HDR_SZ := by
    rw [length_append, hh, length_flatten (length_of_forall₂ hall hs), add_comm]
  have hlo := mapM_range_records header hh hall hs
    fun entry a p suf h hp => parseAce_encodeAce h.1 h.2 hp
  refine ⟨header ++ es.flatten, bind_eq_ok_iff.2 ⟨es, he, rfl⟩, ?_⟩
  rw [fromXattr_eq hf hn hl, hlo, BitVec.ofNat_toNat, BitVec.setWidth_eq]
  rfl

/-- The bytes of a list with the flag word of each ACE cut down to the lowest bit. -/
def plainIflags (data : Bytes) : Bytes :=
  data.take HDR_SZ ++ ((List.range ((data.length - HDR_SZ) / ACE_SZ)).map fun i =>
    plainIflag ((data.drop (HDR_SZ + i * ACE_SZ)).take ACE_SZ)).flatten

theorem toXattr_fromXattr (hne : data ≠ []) (h : fromXattr data = .ok acl) :
    toXattr acl = .ok (plainIflags data) := by
  obtain ⟨flags, naces, hf, hn, hlen⟩ := fromXattr_eq_ok hne h
  rw [fromXattr_eq hf hn hlen] at h
  obtain ⟨aces, ha, heq⟩ := bind_eq_ok_iff.1 h
  cases heq
  have hall := mapM_eq_ok_iff.1 ha
  have hc : aces.length = naces := by
    rw [← hall.length_eq, length_range]
  have hd : (data.length - HDR_SZ) / ACE_SZ = naces := by
    rw [hlen, Nat.add_sub_cancel, ACE_SZ, Nat.mul_div_cancel _ (by decide)]
  have hh : data.take HDR_SZ = [flags, naces].flatMap (toBytes 4) := by
    refine take_of_words (ε := Error) (p := 0) rfl fun i hi => ?_
    match i, hi with
    | 0, _ => exact hf
    | 1, _ => exact hn
  have he : aces.mapM encodeAce = .ok ((range naces).map fun i =>
      plainIflag ((data.drop (HDR_SZ + i * ACE_SZ)).take ACE_SZ)) := by
    rw [mapM_eq_ok_iff, forall₂_map_right_iff]
    exact List.Forall₂.flip (List.Forall₂.imp (fun i a h => encodeAce_parseAce h) hall)
  have hf' : (BitVec.ofNat 32 flags).toNat = flags := by
    rw [BitVec.toNat_ofNat, Nat.mod_eq_of_lt (be32_lt hf)]
  have hn' : naces % 2 ^ 32 = naces := Nat.mod_eq_of_lt (be32_lt hn)
  rw [toXattr, he, plainIflags, hd, hh]
  simp only [bind, Except.bind, hf', hc, hn']

theorem length_plainIflags (hlen : data.length = naces * ACE_SZ + HDR_SZ) :
    (plainIflags data).length = data.length := by
  have hd : (data.length - HDR_SZ) / ACE_SZ = naces := by
    rw [hlen, Nat.add_sub_cancel, ACE_SZ, Nat.mul_div_cancel _ (by decide)]
  have hs : ∀ ace ∈ (range naces).map (fun i =>
      plainIflag ((data.drop (HDR_SZ + i * ACE_SZ)).take ACE_SZ)), ace.length = ACE_SZ := by
    intro ace hmem
    obtain ⟨i, hi, rfl⟩ := mem_map.1 hmem
    have hle : (i + 1) * ACE_SZ ≤ naces * ACE_SZ := Nat.mul_le_mul_right _ (mem_range.1 hi)
    have ht : ((data.drop (HDR_SZ + i * ACE_SZ)).take ACE_SZ).length = ACE_SZ := by
      rw [Nat.succ_mul] at hle
      rw [length_take, length_drop]
      omega
    rw [plainIflag, length_append, length_append, length_take, length_drop, length_toBytes, ht]
    rfl
  rw [plainIflags, hd, length_append, length_flatten hs, length_take, length_map, length_range]
  omega

/-- An ACL is read back from its encoding, bytes that were read are written as they stood but for
the flag words, and no read leaves the bytes. -/
theorem xattr_codec : (∀ acl : Nfs4Acl, acl.aces.length < 2 ^ 32 → (∀ a ∈ acl.aces, Encodable a) →
      ∃ data, toXattr acl = .ok data ∧ fromXattr data = .ok acl) ∧
    (∀ data acl, data ≠ [] → fromXattr data = .ok acl →
      toXattr acl = .ok (plainIflags data) ∧ (plainIflags data).length = data.length) ∧
    ∀ data, fromXattr data ≠ .error .outOfBounds := by
  refine ⟨fun acl hlen ha => fromXattr_toXattr hlen ha, ?_, fromXattr_ne_outOfBounds⟩
  intro data acl hne h
  obtain ⟨_, naces, -, -, hlen⟩ := fromXattr_eq_ok hne h
  exact ⟨toXattr_fromXattr hne h, length_plainIflags hlen⟩

end Nfs4Xattr

end TruenasRos.Acl
