import TruenasRos.Acl.Shape

/-! # What a new object inherits

A child takes its parent's default list, narrowed by the mode it is created with, and the mode is
narrowed in turn by what is left of the list.
-/

namespace TruenasRos.Acl

open BitFlags BitVec PosixAce Option

def modeField (mode : BitVec 32) (shift : ℕ) : PosixPerm := (mode >>> shift).setWidth 16 &&& 0o7

def PosixPerm.fromBitsTruncate (bits : BitVec 16) : PosixPerm := bits &&& PosixPerm.all

/-- The loop of `createMasq`: the entries it has passed, the mode, and where the entries of the
group class are. -/
structure Masq where
  access : List PosixAce := []
  mode : BitVec 32
  group_obj : Option ℕ := none
  mask_obj : Option ℕ := none

def Masq.next (s : Masq) (a : PosixAce) : Masq :=
  match a.tag with
  | .userObj =>
    let perms := a.perms &&& .fromBitsTruncate (modeField s.mode 6)
    { s with
      access := s.access ++ [{ a with perms }]
      mode := s.mode &&& (perms.setWidth 32 <<< 6 ||| ~~~0o700) }
  | .other =>
    let perms := a.perms &&& .fromBitsTruncate (modeField s.mode 0)
    { s with
      access := s.access ++ [{ a with perms }]
      mode := s.mode &&& (perms.setWidth 32 ||| ~~~0o007) }
  | .groupObj => { s with access := s.access ++ [a], group_obj := some s.access.length }
  | .mask => { s with access := s.access ++ [a], mask_obj := some s.access.length }
  | .user | .group => { s with access := s.access ++ [a] }

def createMasq (access : List PosixAce) (mode : BitVec 32) :
    Except (Fault Error) (List PosixAce × BitVec 32) :=
  let s := access.foldl Masq.next { mode }
  match s.mask_obj <|> s.group_obj with
  | none => .error (.error (.validation "ACL has neither a MASK nor a GROUP_OBJ entry"))
  | some group_class =>
    match s.access[group_class]? with
    | none => .error .outOfBounds
    | some a =>
      let perms := a.perms &&& .fromBitsTruncate (modeField s.mode 3)
      let m := s.mode &&& (perms.setWidth 32 <<< 3 ||| ~~~0o070)
      .ok (s.access.set group_class { a with perms }, (mode &&& ~~~0o777) ||| (m &&& 0o777))

/-- The ACL of a new child, and the mode it is created with. -/
def PosixAcl.generateInheritedAcl (acl : PosixAcl) (is_dir : Bool) (mode : BitVec 32) :
    Except (Fault Error) (PosixAcl × BitVec 32) :=
  if acl.access.isEmpty && acl.default.isNone then
    .error (.error (.validation "cannot generate inherited ACL from trivial ACL"))
  else
    match acl.default with
    | none => .error (.error (.validation "cannot generate inherited ACL: no default ACL"))
    | some default => do
      let (access, new_mode) ← createMasq (default.map fun a => { a with default := false }) mode
      let new_default :=
        if is_dir then some (default.map fun a => { a with default := true }) else none
      .ok ({ access, default := new_default, synthesized := false }, new_mode)

section Fields

variable {mode m m' : BitVec 32} {p : PosixPerm} {j k shift : ℕ}

theorem getLsbD_ones {n w : ℕ} (hw : n ≤ w) (j : ℕ) :
    (BitVec.ofNat w (2 ^ n - 1)).getLsbD j = decide (j < n) := by
  rw [getLsbD_ofNat, Nat.testBit_two_pow_sub_one]
  by_cases hj : j < n
  · simp [hj.trans_le hw]
  · simp [hj]

theorem getLsbD_modeField (mode : BitVec 32) (shift j : ℕ) :
    (modeField mode shift).getLsbD j = (decide (j < 3) && mode.getLsbD (shift + j)) := by
  have hs : (0o7 : BitVec 16).getLsbD j = decide (j < 3) := getLsbD_ones (show 3 ≤ 16 by decide) j
  rw [modeField, getLsbD_and, hs, getLsbD_setWidth, getLsbD_ushiftRight]
  by_cases hj : j < 3
  · simp [hj, show j < 16 by omega]
  · simp [hj]

theorem fromBitsTruncate_modeField (mode : BitVec 32) (shift : ℕ) :
    PosixPerm.fromBitsTruncate (modeField mode shift) = modeField mode shift := by
  apply eq_of_getLsbD_eq
  intro j _
  have hs : PosixPerm.all.getLsbD j = decide (j < 3) := getLsbD_ones (show 3 ≤ 16 by decide) j
  rw [PosixPerm.fromBitsTruncate, getLsbD_and, hs, getLsbD_modeField]
  cases decide (j < 3) <;> simp

def narrowMode (m : BitVec 32) (p : PosixPerm) (shift : ℕ) : BitVec 32 :=
  m &&& (p.setWidth 32 <<< shift ||| ~~~((0o7 : BitVec 32) <<< shift))

theorem getLsbD_narrowMode (m : BitVec 32) (p : PosixPerm) (shift j : ℕ) :
    (narrowMode m p shift).getLsbD j =
      (m.getLsbD j && (decide (j < shift ∨ shift + 3 ≤ j) || p.getLsbD (j - shift))) := by
  have hs : (0o7 : BitVec 32).getLsbD (j - shift) = decide (j - shift < 3) :=
    getLsbD_ones (show 3 ≤ 32 by decide) _
  rw [narrowMode, getLsbD_and, getLsbD_or, getLsbD_not, getLsbD_shiftLeft, getLsbD_shiftLeft, hs,
    getLsbD_setWidth]
  by_cases hj : j < 32
  · by_cases hl : j < shift
    · simp [hj, hl]
    · by_cases hh : shift + 3 ≤ j
      · simp [hj, hl, hh, show ¬j - shift < 3 by omega]
      · simp [hj, hl, hh, show j - shift < 3 by omega, show j - shift < 32 by omega]
  · rw [getLsbD_of_ge m j (not_lt.1 hj), Bool.false_and, Bool.false_and]

theorem modeField_narrowMode (m : BitVec 32) (p : PosixPerm) (shift : ℕ) :
    modeField (narrowMode m p shift) shift = modeField m shift &&& p := by
  apply eq_of_getLsbD_eq
  intro j _
  rw [getLsbD_and, getLsbD_modeField, getLsbD_modeField, getLsbD_narrowMode]
  by_cases hj : j < 3
  · simp [hj, show ¬3 ≤ j by omega]
  · simp [hj]

theorem modeField_narrowMode_of_apart (m : BitVec 32) (p : PosixPerm)
    (h : shift + 3 ≤ k ∨ k + 3 ≤ shift) : modeField (narrowMode m p shift) k = modeField m k := by
  apply eq_of_getLsbD_eq
  intro j _
  rw [getLsbD_modeField, getLsbD_modeField, getLsbD_narrowMode]
  by_cases hj : j < 3
  · have ho : k + j < shift ∨ shift + 3 ≤ k + j := by omega
    simp [ho]
  · simp [hj]

theorem getLsbD_permissions (j : ℕ) : (0o777 : BitVec 32).getLsbD j = decide (j < 9) :=
  getLsbD_ones (show 9 ≤ 32 by decide) j

/-- What is kept of one mode, with the permissions of another. -/
def withPermissions (mode m : BitVec 32) : BitVec 32 := (mode &&& ~~~0o777) ||| (m &&& 0o777)

theorem getLsbD_withPermissions (mode m : BitVec 32) (j : ℕ) :
    (withPermissions mode m).getLsbD j = if j < 9 then m.getLsbD j else mode.getLsbD j := by
  rw [withPermissions, getLsbD_or, getLsbD_and, getLsbD_and, getLsbD_not, getLsbD_permissions]
  split_ifs with hj
  · simp [hj]
  · by_cases hlt : j < 32
    · simp [hj, hlt]
    · simp [hj, getLsbD_of_ge mode j (not_lt.1 hlt)]

theorem modeField_withPermissions (mode m : BitVec 32) (h : shift ≤ 6) :
    modeField (withPermissions mode m) shift = modeField m shift := by
  apply eq_of_getLsbD_eq
  intro j _
  rw [getLsbD_modeField, getLsbD_modeField, getLsbD_withPermissions]
  by_cases hj : j < 3
  · rw [if_pos (by omega)]
  · simp [hj]

theorem getLsbD_outside (m : BitVec 32) (hj : j < 32) :
    (m &&& ~~~0o777).getLsbD j = (m.getLsbD j && decide (9 ≤ j)) := by
  have hn : (!decide (j < 9)) = decide (9 ≤ j) := by simp [← decide_not]
  rw [getLsbD_and, getLsbD_not, getLsbD_permissions, decide_eq_true hj, hn, Bool.true_and]

theorem outside_withPermissions (mode m : BitVec 32) :
    withPermissions mode m &&& ~~~0o777 = mode &&& ~~~0o777 := by
  rw [withPermissions, BitVec.and_or_distrib_right, BitVec.and_assoc, BitVec.and_self,
    BitVec.and_assoc, BitVec.and_not_self]
  simp

theorem mode_ext (h : m &&& ~~~0o777 = m' &&& ~~~0o777) (hu : modeField m 6 = modeField m' 6)
    (hg : modeField m 3 = modeField m' 3) (ho : modeField m 0 = modeField m' 0) : m = m' := by
  have hf : ∀ {k i : ℕ}, i < 3 → modeField m k = modeField m' k →
      m.getLsbD (k + i) = m'.getLsbD (k + i) := by
    intro k i hi heq
    have hb := congrArg (fun p => p.getLsbD i) heq
    simpa [getLsbD_modeField, hi] using hb
  apply eq_of_getLsbD_eq
  intro j hj
  by_cases hl : j < 9
  · rcases (by omega : j = 0 + j ∧ j < 3 ∨ j = 3 + (j - 3) ∧ j - 3 < 3 ∨ j = 6 + (j - 6) ∧
      j - 6 < 3)
      with ⟨heq, hlt⟩ | ⟨heq, hlt⟩ | ⟨heq, hlt⟩
    · rw [heq]
      exact hf hlt ho
    · rw [heq]
      exact hf hlt hg
    · rw [heq]
      exact hf hlt hu
  · have hb := congrArg (fun p => p.getLsbD j) h
    simp only [getLsbD_outside _ hj, not_lt.1 hl, decide_true, Bool.and_true] at hb
    exact hb

end Fields

section Narrowing

variable {d acc : List PosixAce} {mode : BitVec 32}

/-- The entry that stands for the group class. -/
def classTag (aces : List PosixAce) : PosixTag :=
  if aces.any fun a => a.tag = .mask then .mask else .groupObj

/-- An entry narrowed by a mode, given the tag of the group class. -/
def narrow (mode : BitVec 32) (group_class : PosixTag) (a : PosixAce) : PosixAce :=
  { a with
    perms :=
      if a.tag = .userObj then a.perms &&& modeField mode 6
      else if a.tag = .other then a.perms &&& modeField mode 0
      else if a.tag = group_class then a.perms &&& modeField mode 3
      else a.perms }

variable {a : PosixAce} {gc : PosixTag} {f : PosixAce → PosixAce} {mode' : BitVec 32}

/-- The mode's fields are the permissions of the entries that stand for them. -/
structure Agrees (mode : BitVec 32) (aces : List PosixAce) : Prop where
  user : ∀ a ∈ aces, a.tag = .userObj → modeField mode 6 = a.perms
  group : ∀ a ∈ aces, a.tag = classTag aces → modeField mode 3 = a.perms
  other : ∀ a ∈ aces, a.tag = .other → modeField mode 0 = a.perms

/-- The entries of a list of the kernel's shape, class by class. -/
structure Parts where
  user_obj : PosixAce
  users : List PosixAce
  group_obj : PosixAce
  groups : List PosixAce
  mask : Option PosixAce
  other : PosixAce
  tag_user_obj : user_obj.tag = .userObj
  tag_users : ∀ a ∈ users, a.tag = .user
  tag_group_obj : group_obj.tag = .groupObj
  tag_groups : ∀ a ∈ groups, a.tag = .group
  tag_mask : ∀ a ∈ mask, a.tag = .mask
  tag_other : other.tag = .other

def Parts.toList (x : Parts) : List PosixAce :=
  x.user_obj :: (x.users ++ x.group_obj :: (x.groups ++ (x.mask.toList ++ [x.other])))

theorem Canonical.exists_parts (h : Canonical d) : ∃ x : Parts, d = x.toList := by
  have hs : ∀ {n : ℕ} {t : PosixTag} {l : List PosixAce},
      l.map tag = List.replicate n t → ∀ a ∈ l, a.tag = t := by
    intro n t l heq a ha
    exact List.eq_of_mem_replicate (heq ▸ List.mem_map_of_mem ha)
  obtain ⟨⟨nusers, ngroups, nmasks, ht, hle, -⟩, -⟩ := canonical_iff_shape.1 h
  simp only [tagsOf, List.append_assoc, List.map_eq_append_iff, List.map_eq_singleton_iff] at ht
  obtain ⟨_, _, rfl, ⟨u, rfl, hu⟩, users, _, rfl, hus, _, _, rfl, ⟨g, rfl, hg⟩, groups, _, rfl,
    hgp, m, _, rfl, hm, o, rfl, ho⟩ := ht
  have hma : ∃ mask : Option PosixAce, m = mask.toList := by
    have hl : m.length = nmasks := by
      rw [← List.length_map, hm, List.length_replicate]
    rcases m with - | ⟨a, - | ⟨b, m⟩⟩
    · exact ⟨none, rfl⟩
    · exact ⟨some a, rfl⟩
    · simp only [List.length_cons] at hl
      omega
  obtain ⟨mask, rfl⟩ := hma
  have htag : ∀ a ∈ mask, a.tag = .mask := fun a ha => hs hm a (mem_toList.2 ha)
  exact ⟨⟨u, users, g, groups, mask, o, hu, hs hus, hg, hs hgp, htag, ho⟩, rfl⟩

theorem narrow_of_isNamed (h : a.tag.isNamed = true) : narrow mode (classTag d) a = a := by
  obtain ⟨tag, perms, id, default⟩ := a
  unfold narrow classTag
  cases tag <;> split_ifs <;> simp_all [PosixTag.isNamed]

theorem foldl_next_named {l : List PosixAce} (h : ∀ a ∈ l, a.tag.isNamed = true) (s : Masq) :
    l.foldl Masq.next s = { s with access := s.access ++ l } := by
  induction l generalizing s with
  | nil => simp
  | cons a l ih =>
    rw [List.forall_mem_cons] at h
    have hn : s.next a = { s with access := s.access ++ [a] } := by
      unfold Masq.next
      cases ht : a.tag <;> simp_all [PosixTag.isNamed]
    rw [List.foldl_cons, hn, ih h.2]
    simp

theorem next_userObj (h : a.tag = .userObj) (s : Masq) : s.next a =
    { s with
      access := s.access ++ [{ a with perms := a.perms &&& modeField s.mode 6 }]
      mode := narrowMode s.mode (a.perms &&& modeField s.mode 6) 6 } := by
  unfold Masq.next
  rw [h]
  simp only [fromBitsTruncate_modeField]
  rfl

theorem next_other (h : a.tag = .other) (s : Masq) : s.next a =
    { s with
      access := s.access ++ [{ a with perms := a.perms &&& modeField s.mode 0 }]
      mode := narrowMode s.mode (a.perms &&& modeField s.mode 0) 0 } := by
  have hs : ∀ p : PosixPerm, narrowMode s.mode p 0 = s.mode &&& (p.setWidth 32 ||| ~~~0o007) := by
    intro p
    rw [narrowMode, shiftLeft_zero, shiftLeft_zero]
  unfold Masq.next
  rw [h]
  simp [fromBitsTruncate_modeField, hs]

theorem createMasq_of_fold {s : Masq} {i : ℕ} (pre : List PosixAce) (a : PosixAce)
    (post : List PosixAce) (hs : acc.foldl Masq.next { mode } = s)
    (hc : (s.mask_obj <|> s.group_obj) = some i)
    (ha : s.access = pre ++ a :: post) (hi : pre.length = i) :
    createMasq acc mode = .ok (pre ++ { a with perms := a.perms &&& modeField s.mode 3 } :: post,
      withPermissions mode (narrowMode s.mode (a.perms &&& modeField s.mode 3) 3)) := by
  have hg : s.access[i]? = some a := by
    rw [ha, ← hi]
    simp
  have hset : ∀ b, s.access.set i b = pre ++ b :: post := by
    rw [ha, ← hi]
    simp
  unfold createMasq
  simp only [hs, hc, hg, hset, fromBitsTruncate_modeField]
  rfl

namespace Parts

variable (x : Parts) (mode : BitVec 32)

def userPerms : PosixPerm := x.user_obj.perms &&& modeField mode 6

def classPerms : PosixPerm := (x.mask.getD x.group_obj).perms &&& modeField mode 3

def otherPerms : PosixPerm := x.other.perms &&& modeField mode 0

/-- The narrowed list, class by class. -/
def narrowed : Parts where
  user_obj := { x.user_obj with perms := x.userPerms mode }
  users := x.users
  group_obj :=
    if x.mask.isSome then x.group_obj else { x.group_obj with perms := x.classPerms mode }
  groups := x.groups
  mask := x.mask.map fun a => { a with perms := x.classPerms mode }
  other := { x.other with perms := x.otherPerms mode }
  tag_user_obj := x.tag_user_obj
  tag_users := x.tag_users
  tag_group_obj := by split_ifs <;> exact x.tag_group_obj
  tag_groups := x.tag_groups
  tag_mask a ha := by
    obtain ⟨b, hb, rfl⟩ := Option.mem_map.1 ha
    exact x.tag_mask b hb
  tag_other := x.tag_other

def narrowedMode : BitVec 32 :=
  withPermissions mode (narrowMode (narrowMode (narrowMode mode (x.userPerms mode) 6)
    (x.otherPerms mode) 0) (x.classPerms mode) 3)

theorem isNamed_users : ∀ a ∈ x.users, a.tag.isNamed = true := by
  intro a ha
  rw [x.tag_users a ha]
  rfl

theorem isNamed_groups : ∀ a ∈ x.groups, a.tag.isNamed = true := by
  intro a ha
  rw [x.tag_groups a ha]
  rfl

theorem foldl_next : x.toList.foldl Masq.next { mode } =
    { access := { x.user_obj with perms := x.userPerms mode } :: (x.users ++ x.group_obj ::
        (x.groups ++ (x.mask.toList ++ [{ x.other with perms := x.otherPerms mode }])))
      mode := narrowMode (narrowMode mode (x.userPerms mode) 6) (x.otherPerms mode) 0
      group_obj := some (x.users.length + 1)
      mask_obj := x.mask.map fun _ => x.users.length + x.groups.length + 2 } := by
  have hg : ∀ s : Masq, s.next x.group_obj =
      { s with access := s.access ++ [x.group_obj], group_obj := some s.access.length } := by
    intro s
    unfold Masq.next
    rw [x.tag_group_obj]
  have hm : ∀ s : Masq, x.mask.toList.foldl Masq.next s =
      { s with
        access := s.access ++ x.mask.toList
        mask_obj := (x.mask.map fun _ => s.access.length) <|> s.mask_obj } := by
    intro s
    cases hm : x.mask with
    | none => simp
    | some a =>
      simp only [toList_some, List.foldl_cons, List.foldl_nil, Masq.next, x.tag_mask a hm]
      rfl
  have ho : modeField (narrowMode mode (x.userPerms mode) 6) 0 = modeField mode 0 :=
    modeField_narrowMode_of_apart _ _ (by omega)
  rw [toList, List.foldl_cons, next_userObj x.tag_user_obj, List.foldl_append,
    foldl_next_named x.isNamed_users, List.foldl_cons, hg, List.foldl_append,
    foldl_next_named x.isNamed_groups, List.foldl_append, hm, List.foldl_cons, List.foldl_nil,
    next_other x.tag_other]
  have hu : x.user_obj.perms &&& modeField mode 6 = x.userPerms mode := rfl
  have hpe : x.other.perms &&& modeField mode 0 = x.otherPerms mode := rfl
  have hin : x.users.length + (x.groups.length + 1) + 1 = x.users.length + x.groups.length + 2 := by
    omega
  simp only [hu, ho, hpe, List.nil_append, List.append_assoc, List.cons_append,
    List.length_append, List.length_cons, hin]
  cases x.mask <;> rfl

theorem createMasq_toList : createMasq x.toList mode =
    .ok ((x.narrowed mode).toList, x.narrowedMode mode) := by
  have hf : modeField (narrowMode (narrowMode mode (x.userPerms mode) 6) (x.otherPerms mode) 0) 3 =
      modeField mode 3 := by
    rw [modeField_narrowMode_of_apart _ _ (by omega), modeField_narrowMode_of_apart _ _ (by omega)]
  cases hm : x.mask with
  | none =>
    have hpe : x.group_obj.perms &&& modeField mode 3 = x.classPerms mode := by
      rw [classPerms, hm, getD_none]
    have hr := createMasq_of_fold ({ x.user_obj with perms := x.userPerms mode } :: x.users)
      x.group_obj _ (x.foldl_next mode) (by rw [hm]; rfl) rfl rfl
    rw [hr, narrowedMode, toList, narrowed]
    simp only [hf, hpe, hm]
    rfl
  | some k =>
    have hpe : k.perms &&& modeField mode 3 = x.classPerms mode := by
      rw [classPerms, hm, getD_some]
    have hr := createMasq_of_fold
      ({ x.user_obj with perms := x.userPerms mode } :: (x.users ++ x.group_obj :: x.groups)) k
      [{ x.other with perms := x.otherPerms mode }] (x.foldl_next mode)
      (by rw [hm]; rfl) (by simp [hm]) (by simp; omega)
    rw [hr, narrowedMode, toList, narrowed]
    simp only [hf, hpe, hm]
    simp

theorem classTag_toList : classTag x.toList = if x.mask.isSome then .mask else .groupObj := by
  have hs : ∀ {l : List PosixAce} {t : PosixTag}, (∀ a ∈ l, a.tag = t) → t ≠ .mask →
      (l.any fun a => a.tag = .mask) = false := by
    intro l t hl ht
    simpa using fun a ha => hl a ha ▸ ht
  have hm : (x.mask.toList.any fun a => a.tag = .mask) = x.mask.isSome := by
    cases hm : x.mask with
    | none => rfl
    | some a => simp [x.tag_mask a hm]
  simp [classTag, toList, hs x.tag_users, hs x.tag_groups, hm, x.tag_user_obj, x.tag_group_obj,
    x.tag_other]

theorem eq_of_mem_toList (h : a ∈ x.toList) : match a.tag with
    | .userObj => a = x.user_obj
    | .user => a ∈ x.users
    | .groupObj => a = x.group_obj
    | .group => a ∈ x.groups
    | .mask => x.mask = some a
    | .other => a = x.other := by
  have hmem : a = x.user_obj ∨ a ∈ x.users ∨ a = x.group_obj ∨ a ∈ x.groups ∨ a ∈ x.mask ∨
      a = x.other := by
    simpa [toList] using h
  rcases hmem with rfl | h | rfl | h | h | rfl
  · rw [x.tag_user_obj]
  · rwa [x.tag_users a h]
  · rw [x.tag_group_obj]
  · rwa [x.tag_groups a h]
  · rwa [x.tag_mask a h]
  · rw [x.tag_other]

theorem agrees_toList (hu : modeField mode 6 = x.user_obj.perms)
    (hc : modeField mode 3 = (x.mask.getD x.group_obj).perms)
    (ho : modeField mode 0 = x.other.perms) : Agrees mode x.toList := by
  constructor
  · intro a ha ht
    have hf := x.eq_of_mem_toList ha
    rw [ht] at hf
    exact hf ▸ hu
  · intro a ha ht
    have hf := x.eq_of_mem_toList ha
    rw [ht, classTag_toList] at hf
    cases hm : x.mask with
    | none =>
      rw [hm] at hc hf
      exact hf ▸ hc
    | some k =>
      rw [hm] at hc hf
      cases hf
      exact hc
  · intro a ha ht
    have hf := x.eq_of_mem_toList ha
    rw [ht] at hf
    exact hf ▸ ho

theorem agrees_narrowed : Agrees (x.narrowedMode mode) (x.narrowed mode).toList := by
  have hs : ∀ p q : PosixPerm, q &&& (p &&& q) = p &&& q := by
    intro p q
    rw [BitVec.and_comm p q, ← BitVec.and_assoc, BitVec.and_self]
  have hc : ((x.narrowed mode).mask.getD (x.narrowed mode).group_obj).perms =
      x.classPerms mode := by
    cases hm : x.mask with
    | none => simp [narrowed, hm]
    | some k => simp [narrowed, hm]
  apply agrees_toList
  · rw [narrowedMode, modeField_withPermissions _ _ le_rfl,
      modeField_narrowMode_of_apart _ _ (by omega), modeField_narrowMode_of_apart _ _ (by omega),
      modeField_narrowMode]
    exact hs _ _
  · rw [hc, narrowedMode, modeField_withPermissions _ _ (by omega), modeField_narrowMode,
      modeField_narrowMode_of_apart _ _ (by omega), modeField_narrowMode_of_apart _ _ (by omega)]
    exact hs _ _
  · rw [narrowedMode, modeField_withPermissions _ _ (by omega),
      modeField_narrowMode_of_apart _ _ (by omega), modeField_narrowMode,
      modeField_narrowMode_of_apart _ _ (by omega)]
    exact hs _ _

theorem toList_narrowed :
    (x.narrowed mode).toList = x.toList.map (narrow mode (classTag x.toList)) := by
  have hs : ∀ {l : List PosixAce}, (∀ a ∈ l, a.tag.isNamed = true) →
      l.map (narrow mode (classTag x.toList)) = l := by
    intro l hl
    rw [List.map_congr_left fun a ha => narrow_of_isNamed (hl a ha), List.map_id']
  have hu := hs x.isNamed_users
  have hg := hs x.isNamed_groups
  rw [classTag_toList] at hu hg ⊢
  cases hm : x.mask with
  | none =>
    simp only [hm, isSome_none, Bool.false_eq_true, if_false] at hu hg
    simp [toList, narrowed, narrow, userPerms, classPerms, otherPerms, hm, hu, hg,
      x.tag_user_obj, x.tag_group_obj, x.tag_other]
  | some k =>
    simp only [hm, isSome_some, if_true] at hu hg
    simp [toList, narrowed, narrow, userPerms, classPerms, otherPerms, hm, hu, hg,
      x.tag_user_obj, x.tag_group_obj, x.tag_other, x.tag_mask k hm]
    rw [← x.tag_group_obj]

end Parts

theorem Canonical.map (h : Canonical d)
    (hf : ∀ a, (f a).tag = a.tag ∧ (f a).id = a.id ∧ contains a.perms (f a).perms = true) :
    Canonical (d.map f) := by
  obtain ⟨hs, hr⟩ := canonical_iff_shape.1 h
  rw [canonical_iff_shape, List.map_map, List.forall_mem_map]
  constructor
  · have hta : tag ∘ f = tag := funext fun a => (hf a).1
    rwa [hta]
  · intro a ha
    obtain ⟨ht, hid, hpe⟩ := hf a
    constructor
    · rw [contains_iff] at hpe ⊢
      exact fun i hi => contains_iff.1 (hr a ha).rwx i (hpe i hi)
    · rw [ht, hid]
      exact (hr a ha).id

theorem narrow_keeps (mode : BitVec 32) (gc : PosixTag) (a : PosixAce) :
    (narrow mode gc a).tag = a.tag ∧ (narrow mode gc a).id = a.id ∧
      contains a.perms (narrow mode gc a).perms = true := by
  refine ⟨rfl, rfl, ?_⟩
  rw [contains_iff]
  intro i hi
  unfold narrow at hi
  split_ifs at hi <;> simp_all

theorem createMasq_spec (h : Canonical acc) (mode : BitVec 32) :
    ∃ mode', createMasq acc mode = .ok (acc.map (narrow mode (classTag acc)), mode') ∧
      mode' &&& ~~~0o777 = mode &&& ~~~0o777 ∧
      Agrees mode' (acc.map (narrow mode (classTag acc))) := by
  obtain ⟨x, rfl⟩ := h.exists_parts
  refine ⟨x.narrowedMode mode, ?_, outside_withPermissions _ _, ?_⟩
  · rw [← x.toList_narrowed]
    exact x.createMasq_toList mode
  · rw [← x.toList_narrowed]
    exact x.agrees_narrowed mode

theorem classTag_map (hf : ∀ a, (f a).tag = a.tag) (d : List PosixAce) :
    classTag (d.map f) = classTag d := by
  unfold classTag
  simp [hf]

theorem Agrees.mode_eq {m m' : BitVec 32} (hd : Canonical d) (h : Agrees m d) (h' : Agrees m' d)
    (hou : m &&& ~~~0o777 = m' &&& ~~~0o777) : m = m' := by
  obtain ⟨x, rfl⟩ := hd.exists_parts
  have hc : ∃ a ∈ x.toList, a.tag = classTag x.toList := by
    rw [x.classTag_toList]
    cases hm : x.mask with
    | none => exact ⟨x.group_obj, by simp [Parts.toList], x.tag_group_obj⟩
    | some k => exact ⟨k, by simp [Parts.toList, hm], x.tag_mask k hm⟩
  obtain ⟨a, ha, ht⟩ := hc
  have hu : x.user_obj ∈ x.toList := by simp [Parts.toList]
  have ho : x.other ∈ x.toList := by simp [Parts.toList]
  apply mode_ext hou
  · exact (h.user _ hu x.tag_user_obj).trans (h'.user _ hu x.tag_user_obj).symm
  · exact (h.group a ha ht).trans (h'.group a ha ht).symm
  · exact (h.other _ ho x.tag_other).trans (h'.other _ ho x.tag_other).symm

theorem narrow_of_agrees (ha : a ∈ d) (h : Agrees mode' (d.map (narrow mode (classTag d)))) :
    narrow mode' (classTag d) a = narrow mode (classTag d) a := by
  have hmem : narrow mode (classTag d) a ∈ d.map (narrow mode (classTag d)) :=
    List.mem_map_of_mem ha
  have hs : ∀ p q : PosixPerm, p &&& (p &&& q) = p &&& q := by
    intro p q
    rw [← BitVec.and_assoc, BitVec.and_self]
  have hu := h.user _ hmem
  have hg := h.group _ hmem
  have ho := h.other _ hmem
  rw [classTag_map fun a => (narrow_keeps mode _ a).1] at hg
  unfold narrow at hu hg ho ⊢
  split_ifs with h₁ h₂ h₃
  · rw [hu h₁, if_pos h₁, hs]
  · rw [ho h₂, if_neg h₁, if_pos h₂, hs]
  · rw [hg h₃, if_neg h₁, if_neg h₂, if_pos h₃, hs]
  · rfl

theorem createMasq_again (h : Canonical acc)
    (har : Agrees mode' (acc.map (narrow mode (classTag acc)))) :
    createMasq acc mode' = .ok (acc.map (narrow mode (classTag acc)), mode') := by
  obtain ⟨mode'', hr, ho, ha'⟩ := createMasq_spec h mode'
  have hm : acc.map (narrow mode' (classTag acc)) =
      acc.map (narrow mode (classTag acc)) :=
    List.map_congr_left fun a ha => narrow_of_agrees ha har
  rw [hm] at hr ha'
  rw [hr, ha'.mode_eq (h.map (narrow_keeps mode _)) har ho]

end Narrowing

def PosixAce.marked (default : Bool) (a : PosixAce) : PosixAce := { a with default }

theorem Canonical.marked {d : List PosixAce} (h : Canonical d) (default : Bool) :
    Canonical (d.map (PosixAce.marked default)) :=
  h.map fun a => ⟨rfl, rfl, by simp [contains, PosixAce.marked]⟩

theorem generateInheritedAcl_of_createMasq {acl : PosixAcl} {d acc : List PosixAce}
    {is_dir : Bool} {mode mode' : BitVec 32} (hd : acl.default = some d)
    (hr : createMasq (d.map (PosixAce.marked false)) mode = .ok (acc, mode')) :
    acl.generateInheritedAcl is_dir mode = .ok
      ({ access := acc
         default := if is_dir then some (d.map (marked true)) else none
         synthesized := false }, mode') := by
  have ht : ¬(acl.access.isEmpty && acl.default.isNone) = true := by simp [hd]
  rw [PosixAcl.generateInheritedAcl, if_neg ht, hd]
  exact bind_eq_ok_iff.2 ⟨_, hr, rfl⟩

/-- What a child inherits validates and agrees with the mode it is created with. -/
theorem generateInheritedAcl_agrees (acl : PosixAcl) (d : List PosixAce) (is_dir : Bool)
    (mode : BitVec 32) (hvalid : acl.validate true = .ok ()) (hdefault : acl.default = some d)
    (hlength : d.length < 2 ^ 32) :
    ∃ child mode', acl.generateInheritedAcl is_dir mode = .ok (child, mode') ∧
      child.validate is_dir = .ok () ∧
      child.access = d.map (fun a => (narrow mode (classTag d) a).marked false) ∧
      child.default = (if is_dir then some (d.map (PosixAce.marked true)) else none) ∧
      mode' &&& ~~~0o777 = mode &&& ~~~0o777 ∧ Agrees mode' child.access ∧
      acl.generateInheritedAcl is_dir mode' = .ok (child, mode') := by
  have hd : Canonical d := (PosixAcl.default_of_validate hvalid hdefault hlength).2
  have hac : (d.map (marked false)).map
      (narrow mode (classTag (d.map (marked false)))) =
        d.map fun a => (narrow mode (classTag d) a).marked false := by
    have hc : classTag (d.map (marked false)) = classTag d :=
      classTag_map (f := marked false) (fun _ => rfl) d
    rw [hc, List.map_map]
    rfl
  obtain ⟨mode', hr, ho, ha⟩ := createMasq_spec (hd.marked false) mode
  have hag := createMasq_again (hd.marked false) ha
  have hn := (hd.marked false).map (narrow_keeps mode (classTag (d.map
    (marked false))))
  rw [hac] at hr ha hag hn
  refine ⟨_, mode', generateInheritedAcl_of_createMasq hdefault hr, ?_, rfl, rfl, ho,
    ha, generateInheritedAcl_of_createMasq hdefault hag⟩
  apply PosixAcl.WellFormed.validate
  refine ⟨hn, ?_⟩
  intro d' hd'
  cases is_dir with
  | false => cases hd'
  | true =>
    cases hd'
    exact ⟨rfl, hd.marked true⟩

def sharedDirectory : PosixAcl where
  access := [⟨.userObj, 7, -1, false⟩, ⟨.groupObj, 7, -1, false⟩, ⟨.other, 5, -1, false⟩]
  default := some [⟨.userObj, 7, -1, true⟩, ⟨.user, 7, 1000, true⟩, ⟨.groupObj, 5, -1, true⟩,
    ⟨.mask, 7, -1, true⟩, ⟨.other, 5, -1, true⟩]
  synthesized := false

theorem generateInheritedAcl_agrees_sharedDirectory : sharedDirectory.validate true = .ok () ∧
    ∃ child mode', sharedDirectory.generateInheritedAcl false 0o100640 = .ok (child, mode') ∧
      Agrees mode' child.access ∧
      sharedDirectory.generateInheritedAcl false mode' = .ok (child, mode') := by
  have hv : sharedDirectory.validate true = .ok () := by decide
  obtain ⟨child, mode', hr, -, -, -, -, ha, hag⟩ :=
    generateInheritedAcl_agrees sharedDirectory _ false 0o100640 hv rfl (by decide)
  exact ⟨hv, child, mode', hr, ha, hag⟩

theorem foldl_next_replicate (n : ℕ) :
    (List.replicate n ⟨.userObj, 7, -1, false⟩).foldl Masq.next { mode := 0o777 } =
      { access := List.replicate n ⟨.userObj, 7, -1, false⟩, mode := 0o777 } := by
  have hp : PosixPerm.fromBitsTruncate 7#16 = 7#16 := by decide
  induction n with
  | zero => rfl
  | succ n ih =>
    rw [List.replicate_succ', List.foldl_append, ih]
    simp [Masq.next, modeField, hp]

theorem createMasq_owners (n : ℕ) :
    createMasq ((owners n).map (marked false)) 0o777 = .ok (owners n, 0o050) := by
  have hm : (owners n).map (marked false) = owners n := by simp [owners, marked]
  have hs : (owners n).foldl Masq.next { mode := 0o777 } =
      { access := owners n, mode := 0o070, group_obj := some (n + 1) } := by
    rw [owners, List.foldl_append, foldl_next_replicate]
    simp [Masq.next, modeField]
  rw [hm, createMasq_of_fold
    (List.replicate n ⟨.userObj, 7, -1, false⟩ ++ [⟨.userObj, 0, -1, false⟩])
    ⟨.groupObj, 5, -1, false⟩ [⟨.other, 0, -1, false⟩] hs rfl (by simp [owners]) (by simp)]
  simp [owners, modeField, narrowMode, withPermissions]

theorem not_agrees_owners {n : ℕ} (hn : n ≠ 0) : ¬Agrees 0o050 (owners n) := by
  obtain ⟨n, rfl⟩ := Nat.exists_eq_succ_of_ne_zero hn
  exact fun h => absurd (h.user ⟨.userObj, 7, -1, false⟩ List.mem_cons_self rfl) (by decide)

/-- Past 2³² owners' entries the first of them keeps what the last takes from the mode. -/
theorem generateInheritedAcl_disagrees :
    let acl : PosixAcl := ⟨owners 0, some (owners (2 ^ 32)), false⟩
    acl.validate true = .ok () ∧
      ∃ child mode', acl.generateInheritedAcl false 0o777 = .ok (child, mode') ∧
        ¬Agrees mode' child.access :=
  ⟨bind_unit_eq_ok_iff.2 ⟨rfl, validateEntries_owners (by decide)⟩, _, _,
    generateInheritedAcl_of_createMasq rfl (createMasq_owners (2 ^ 32)),
    not_agrees_owners (by decide)⟩

section Descent

variable {acl child : PosixAcl} {d : List PosixAce}

/-- A child directory hands down what its parent does: its default list is its parent's. -/
theorem generateInheritedAcl_of_default (hd : acl.default = some d)
    (hc : child.default = some (d.map (marked true))) (is_dir : Bool) (mode : BitVec 32) :
    child.generateInheritedAcl is_dir mode = acl.generateInheritedAcl is_dir mode := by
  simp [PosixAcl.generateInheritedAcl, hd, hc, marked, Function.comp_def]

theorem exists_childDirectory (hv : acl.validate true = .ok ()) (hd : acl.default = some d)
    (hl : d.length < 2 ^ 32) (mode : BitVec 32) :
    ∃ child mode', acl.generateInheritedAcl true mode = .ok (child, mode') ∧
      child.validate true = .ok () ∧ child.default = some (d.map (marked true)) := by
  have hc : Canonical d := (PosixAcl.default_of_validate hv hd hl).2
  obtain ⟨mode', hr, -, -⟩ := createMasq_spec (hc.marked false) mode
  refine ⟨_, mode', generateInheritedAcl_of_createMasq hd hr, ?_, rfl⟩
  apply PosixAcl.WellFormed.validate
  constructor
  · exact (hc.marked false).map (narrow_keeps mode _)
  · rintro d' ⟨⟩
    exact ⟨rfl, hc.marked true⟩

/-- The ACL of the last of some new directories, each made in the one before it. -/
def PosixAcl.descend (acl : PosixAcl) (modes : List (BitVec 32)) : Except (Fault Error) PosixAcl :=
  modes.foldlM (fun acl mode => (acl.generateInheritedAcl true mode).map Prod.fst) acl

/-- However deep and with whatever modes directories are made, the last one hands down exactly
what the first one does. -/
theorem descend_hands_down (acl : PosixAcl) (d : List PosixAce) (modes : List (BitVec 32))
    (hvalid : acl.validate true = .ok ()) (hdefault : acl.default = some d)
    (hlength : d.length < 2 ^ 32) :
    ∃ last, acl.descend modes = .ok last ∧ last.validate true = .ok () ∧ ∀ is_dir mode,
      last.generateInheritedAcl is_dir mode = acl.generateInheritedAcl is_dir mode := by
  induction modes generalizing acl d with
  | nil => exact ⟨acl, rfl, hvalid, fun _ _ => rfl⟩
  | cons mode modes ih =>
    obtain ⟨child, mode', hr, hv, hc⟩ := exists_childDirectory hvalid hdefault hlength mode
    obtain ⟨last, hl, hlv, hi⟩ := ih child _ hv hc (by rwa [List.length_map])
    refine ⟨last, ?_, hlv, fun is_dir m => ?_⟩
    · rw [PosixAcl.descend, List.foldlM_cons, hr]
      exact hl
    · rw [hi, generateInheritedAcl_of_default hdefault hc]

theorem descend_hands_down_sharedDirectory : sharedDirectory.validate true = .ok () ∧
    ∃ last, sharedDirectory.descend [0o40700, 0o40755] = .ok last ∧
      last.generateInheritedAcl false 0o100640 =
        sharedDirectory.generateInheritedAcl false 0o100640 := by
  have hv : sharedDirectory.validate true = .ok () := by decide
  obtain ⟨last, hl, -, hi⟩ := descend_hands_down sharedDirectory _ [0o40700, 0o40755] hv rfl
    (by decide)
  exact ⟨hv, last, hl, hi false _⟩

end Descent

end TruenasRos.Acl
