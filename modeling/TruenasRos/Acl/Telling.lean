import TruenasRos.Acl.ToNfs4
import TruenasRos.Acl.ToPosix

/-! # Reading back the ACEs of a POSIX list

The ACEs a POSIX list becomes, folded into the state of the reverse conversion,
tell every entity exactly what it holds. A denial they carry spills into other
entities; it only ever reaches one that has already been allowed all it holds.
-/

namespace TruenasRos.Acl

open BitFlags FirstMatch List Nfs4Ace PosixPerm PosixTag BitVec Prod

section Rights

variable {is_dir : Bool} {p q : PosixPerm} {x y : Nfs4Perm}

theorem PosixPerm.ext (hp : contains all p = true) (hq : contains all q = true)
    (h : ∀ r : Right, contains p r.posix = contains q r.posix) : p = q := by
  have hk : ∀ i < 16, all.getLsbD i = true → ∃ r : Right,
      r.posix = twoPow 16 i := by
    intro i hi hall
    have hs : i = 0 ∨ i = 1 ∨ i = 2 := by
      revert i
      decide
    rcases hs with rfl | rfl | rfl
    · exact ⟨.execute, rfl⟩
    · exact ⟨.write, rfl⟩
    · exact ⟨.read, rfl⟩
  apply eq_of_getLsbD_eq
  intro i hi
  by_cases hall : all.getLsbD i = true
  · obtain ⟨r, hr⟩ := hk i hi hall
    have hb := h r
    rwa [hr, contains_twoPow _ hi, contains_twoPow _ hi] at hb
  · have hpi := mt (contains_iff.1 hp i) hall
    have hqi := mt (contains_iff.1 hq i) hall
    simp_all

theorem contains_all_and (h : contains all p = true) (q : PosixPerm) :
    contains all (p &&& q) = true := by
  rw [contains_iff] at h ⊢
  intro i hi
  rw [getLsbD_and, Bool.and_eq_true] at hi
  exact h i hi.1

theorem contains_all_lowMode (x : Nfs4Perm) (is_dir : Bool) :
    contains all (lowModeFromNfs4 x is_dir) = true := by
  have hr : ∀ read write execute : Bool, contains all
      (let mode := if read then PosixPerm.READ else 0
       let mode := if write then mode ||| PosixPerm.WRITE else mode
       if execute then mode ||| PosixPerm.EXECUTE else mode) = true := by
    decide
  exact hr _ _ _

/-- Every bit a right stands for is in `x` exactly when the right is in `p`. -/
def Spells (is_dir : Bool) (x : Nfs4Perm) (p : PosixPerm) : Prop :=
  ∀ (r : Right), ∀ bit ∈ r.nfs4 is_dir, contains x bit = contains p r.posix

theorem Spells.lowMode (h : Spells is_dir x p) (hp : contains all p = true) :
    lowModeFromNfs4 x is_dir = p := by
  apply ext (contains_all_lowMode x is_dir) hp
  intro r
  rw [Bool.eq_iff_iff, contains_lowModeFromNfs4_iff]
  constructor
  · intro hall
    obtain ⟨bit, hb⟩ := exists_mem_of_ne_nil _ (r.nfs4_ne_nil is_dir)
    exact (h r bit hb).symm.trans (hall bit hb)
  · exact fun hr bit hb => (h r bit hb).trans hr

end Rights

namespace Tally

variable {t : Tally} {ace : Nfs4Ace} {aces : List Nfs4Ace} {tag : PosixTag} {id : ℤ} {i : ℕ}
  {holds last : Bool}

def read (t : Tally) (tag : PosixTag) (id : ℤ) : Option Bool :=
  match tag with
  | .userObj => t.owner
  | .user => t.users id
  | .groupObj => t.group
  | .group => t.groups id
  | .other => t.other
  | .mask => none

def process (i : ℕ) (t : Tally) (ace : Nfs4Ace) : Tally :=
  t.step (ace2tag ace) ace.who_id ace.isAllow (ace.access_mask.getLsbD i)

theorem tally_run (aces : List Nfs4Ace) (i : ℕ) :
    (AclState.run aces).tally i = aces.foldl (process i) .new := by
  induction aces using reverseRecOn with
  | nil => exact AclState.tally_new i
  | append_singleton aces ace ih =>
    rw [AclState.run_append_singleton, AclState.tally_process, ih, foldl_append]
    rfl

def Addresses (ace : Nfs4Ace) (tag : PosixTag) (id : ℤ) : Prop :=
  ace2tag ace = tag ∧ (tag.isNamed = true → id = ace.who_id)

theorem read_process_of_addresses (h : Addresses ace tag id) (ht : tag ≠ .mask) :
    (process i t ace).read tag id =
      (t.read tag id).or (say (ace.access_mask.getLsbD i) ace.isAllow) := by
  obtain ⟨rfl, hid⟩ := h
  unfold process read
  cases ha : ace2tag ace <;> cases hal : ace.isAllow <;>
    simp_all [step, isNamed]

/-- The ACE is for another entity, and not for everyone. -/
def Skips (ace : Nfs4Ace) (tag : PosixTag) (id : ℤ) : Prop :=
  ¬ Addresses ace tag id ∧ ace2tag ace ≠ .other

/-- An ACE that does not reach another entity below the owner: an allow, or a denial to the owner
or a named user. None reaches everyone else. -/
def Quiet (ace : Nfs4Ace) (tag : PosixTag) : Prop :=
  tag = .other ∨ ace.isAllow = true ∨ ace2tag ace = .userObj ∨ ace2tag ace = .user

theorem read_process_of_quiet (hs : Skips ace tag id) (hq : Quiet ace tag)
    (ht : tag ≠ .userObj) : (process i t ace).read tag id = t.read tag id := by
  unfold Skips Addresses at hs
  unfold Quiet at hq
  unfold process read
  cases ha : ace2tag ace <;> cases hal : ace.isAllow <;> cases tag <;>
    simp_all [step, isNamed]

theorem told_process (h : Told (t.read tag id) holds last) (hs : Skips ace tag id) :
    Told ((process i t ace).read tag id) holds last := by
  unfold Skips Addresses at hs
  unfold process read
  unfold read at h
  cases hc : ace2tag ace <;> cases ha : ace.isAllow <;> cases tag <;>
    simp_all [step, isNamed, Told.spill]

theorem told_foldl (h : Told (t.read tag id) holds last) (hac : ∀ ace ∈ aces, Skips ace tag id) :
    Told ((aces.foldl (process i) t).read tag id) holds last := by
  induction aces generalizing t with
  | nil => exact h
  | cons ace aces ih =>
    obtain ⟨ha, hr⟩ := forall_mem_cons.1 hac
    exact ih (told_process h ha) hr

theorem read_foldl_of_quiet (ht : tag ≠ .userObj)
    (hs : ∀ ace ∈ aces, Skips ace tag id) (hq : ∀ ace ∈ aces, Quiet ace tag) :
    (aces.foldl (process i) t).read tag id = t.read tag id := by
  induction aces generalizing t with
  | nil => rfl
  | cons ace aces ih =>
    obtain ⟨hsk, hs⟩ := forall_mem_cons.1 hs
    obtain ⟨ha, hq⟩ := forall_mem_cons.1 hq
    exact (ih hs hq).trans (read_process_of_quiet hsk ha ht)

theorem read_process_everyone (ha : ace2tag ace = .other) (ht : tag ≠ .mask) :
    (process i t ace).read tag id =
      (t.read tag id).or (say (ace.access_mask.getLsbD i) ace.isAllow) := by
  unfold process read
  cases tag <;> simp_all [step]

end Tally

section Parts

variable (aces : List PosixAce) (is_dir inherit_only : Bool)

/-- The rights an entry of the group class is left with. -/
def PosixAce.eff (a : PosixAce) : PosixPerm :=
  a.perms &&& (summarize aces).mask

def ownerPart : List Nfs4Ace :=
  denyAce (eflag inherit_only) .owner (-1) ((summarize aces).owner.compl &&&
      ((summarize aces).users ||| (summarize aces).group ||| (summarize aces).groups |||
        (summarize aces).other)) is_dir ++
    [new .allow (eflag inherit_only) (maskFromPosix (summarize aces).owner is_dir true)
      .owner (-1)]

def userPart (a : PosixAce) : List Nfs4Ace :=
  denyAce (eflag inherit_only) .named a.id ((a.eff aces).compl &&&
      ((summarize aces).groups ||| (summarize aces).group ||| (summarize aces).other)) is_dir ++
    [new .allow (eflag inherit_only) (maskFromPosix (a.eff aces) is_dir false) .named a.id]

def groupAllow : Nfs4Ace :=
  new .allow (eflag inherit_only) (maskFromPosix (summarize aces).group is_dir false)
    .group (-1)

def namedGroupAllow (a : PosixAce) : Nfs4Ace :=
  new .allow (gflag inherit_only) (maskFromPosix (a.eff aces) is_dir false) .named a.id

def groupDeny : List Nfs4Ace :=
  denyAce (eflag inherit_only) .group (-1)
    ((summarize aces).group.compl &&& (summarize aces).other) is_dir

def namedGroupDeny (a : PosixAce) : List Nfs4Ace :=
  denyAce (gflag inherit_only) .named a.id ((a.eff aces).compl &&& (summarize aces).other) is_dir

def everyoneAllow : Nfs4Ace :=
  new .allow (eflag inherit_only) (maskFromPosix (summarize aces).other is_dir false)
    .everyone (-1)

theorem translateOne_eq_parts : translateOne aces is_dir inherit_only =
      ownerPart aces is_dir inherit_only ++
        (tagged .user aces).flatMap (userPart aces is_dir inherit_only) ++
        [groupAllow aces is_dir inherit_only] ++
        (tagged .group aces).map (namedGroupAllow aces is_dir inherit_only) ++
        groupDeny aces is_dir inherit_only ++
        (tagged .group aces).flatMap (namedGroupDeny aces is_dir inherit_only) ++
        [everyoneAllow aces is_dir inherit_only] :=
  rfl

variable {aces} {dir io : Bool} {a : PosixAce} {ace : Nfs4Ace} (ty : Nfs4AceType)

theorem ace2tag_user (mask : Nfs4Perm) (id : ℤ) :
    ace2tag (new ty (eflag io) mask .named id) = .user := by
  simp [ace2tag, new, contains_eflag]

theorem ace2tag_group (mask : Nfs4Perm) (id : ℤ) :
    ace2tag (new ty (gflag io) mask .named id) = .group := by
  simp [ace2tag, new, contains_gflag]

theorem addresses_owner (flags : Nfs4Flag) (mask : Nfs4Perm) (id : ℤ) :
    Tally.Addresses (new ty flags mask .owner (-1)) .userObj id :=
  ⟨rfl, by simp [isNamed]⟩

theorem addresses_group (flags : Nfs4Flag) (mask : Nfs4Perm) (id : ℤ) :
    Tally.Addresses (new ty flags mask .group (-1)) .groupObj id :=
  ⟨rfl, by simp [isNamed]⟩

theorem addresses_user (mask : Nfs4Perm) (id : ℤ) :
    Tally.Addresses (new ty (eflag io) mask .named id) .user id :=
  ⟨ace2tag_user ty mask id, fun _ => rfl⟩

theorem addresses_namedGroup (mask : Nfs4Perm) (id : ℤ) :
    Tally.Addresses (new ty (gflag io) mask .named id) .group id :=
  ⟨ace2tag_group ty mask id, fun _ => rfl⟩

open Tally

variable {tag : PosixTag} {id : ℤ} {es : List PosixAce}

/-- The ACEs of a run speak for one class, and where it has names for these ids. -/
def SpeaksFor (tag : PosixTag) (ids : List ℤ) (run : List Nfs4Ace) : Prop :=
  ∀ ace ∈ run, ace2tag ace = tag ∧ (tag.isNamed = true → ace.who_id ∈ ids)

theorem speaks_ownerPart : SpeaksFor .userObj [] (ownerPart aces dir io) := by
  intro ace h
  rcases mem_append.1 h with h | h
  · rw [eq_of_mem_denyAce h]
    exact ⟨rfl, nofun⟩
  · rw [mem_singleton.1 h]
    exact ⟨rfl, nofun⟩

theorem userPart_tag (h : ace ∈ userPart aces dir io a) :
    ace2tag ace = .user ∧ ace.who_id = a.id := by
  rcases mem_append.1 h with h | h
  · rw [eq_of_mem_denyAce h]
    exact ⟨ace2tag_user _ _ _, rfl⟩
  · rw [mem_singleton.1 h]
    exact ⟨ace2tag_user _ _ _, rfl⟩

theorem speaks_flatMap {part : PosixAce → List Nfs4Ace}
    (h : ∀ a ∈ es, ∀ ace ∈ part a, ace2tag ace = tag ∧ ace.who_id = a.id) :
    SpeaksFor tag (es.map PosixAce.id) (es.flatMap part) := by
  intro ace hace
  obtain ⟨a, ha, hace⟩ := mem_flatMap.1 hace
  obtain ⟨ht, hid⟩ := h a ha ace hace
  exact ⟨ht, fun _ => hid ▸ mem_map_of_mem ha⟩

theorem speaks_userParts : SpeaksFor .user (es.map PosixAce.id)
    (es.flatMap (userPart aces dir io)) :=
  speaks_flatMap fun _ _ _ ha => userPart_tag ha

theorem speaks_groupAllow : SpeaksFor .groupObj [] [groupAllow aces dir io] := by
  simp [SpeaksFor, groupAllow, Nfs4Ace.new, ace2tag, isNamed]

theorem namedGroupAllow_tag : ace2tag (namedGroupAllow aces dir io a) = .group :=
  ace2tag_group _ _ _

theorem speaks_namedGroupAllows : SpeaksFor .group (es.map PosixAce.id)
    (es.map (namedGroupAllow aces dir io)) := by
  intro ace hace
  obtain ⟨a, ha, rfl⟩ := mem_map.1 hace
  exact ⟨namedGroupAllow_tag, fun _ => mem_map_of_mem ha⟩

theorem speaks_groupDeny : SpeaksFor .groupObj [] (groupDeny aces dir io) := by
  intro ace h
  rw [eq_of_mem_denyAce h]
  exact ⟨rfl, nofun⟩

theorem speaks_namedGroupDenies : SpeaksFor .group (es.map PosixAce.id)
    (es.flatMap (namedGroupDeny aces dir io)) := by
  apply speaks_flatMap
  intro a _ ace h
  rw [eq_of_mem_denyAce h]
  exact ⟨ace2tag_group _ _ _, rfl⟩

variable {cls : PosixTag} {ids : List ℤ} {run : List Nfs4Ace}

theorem SpeaksFor.skips (h : SpeaksFor cls ids run) (hc : cls ≠ .other)
    (hne : tag = cls → tag.isNamed = true ∧ id ∉ ids) : ∀ ace ∈ run, Skips ace tag id := by
  intro ace hace
  obtain ⟨rfl, hid⟩ := h ace hace
  refine ⟨fun ha => ?_, hc⟩
  obtain ⟨hn, hmem⟩ := hne ha.1.symm
  rw [ha.2 hn] at hmem
  exact hmem (hid (ha.1 ▸ hn))

theorem skips_groupAllow (ht : tag ≠ .groupObj) : Skips (groupAllow aces dir io) tag id :=
  speaks_groupAllow.skips nofun (fun h => absurd h ht) _ (mem_singleton_self _)

theorem quiet_ownerPart : ∀ ace ∈ ownerPart aces dir io, Quiet ace tag :=
  fun ace ha => .inr (.inr (.inl (speaks_ownerPart ace ha).1))

theorem quiet_userParts : ∀ ace ∈ es.flatMap (userPart aces dir io), Quiet ace tag :=
  fun ace ha => .inr (.inr (.inr (speaks_userParts ace ha).1))

theorem quiet_namedGroupAllows : ∀ ace ∈ es.map (namedGroupAllow aces dir io), Quiet ace tag := by
  intro ace ha
  obtain ⟨a, -, rfl⟩ := mem_map.1 ha
  exact .inr (.inl rfl)

end Parts

section Telling

open Tally

variable {aces : List PosixAce} {dir io : Bool} {r : Right} {i : ℕ} {t : Tally}
  {tag : PosixTag} {flags : Nfs4Flag} {who : Nfs4Who} {id id' : ℤ} {perm : PosixPerm}

theorem read_denyAce (hi : i < 32) (hb : twoPow 32 i ∈ r.nfs4 dir)
    (ha : Addresses (new .deny flags (denyMaskFromPosix perm dir) who id) tag id')
    (ht : tag ≠ .mask) : ((denyAce flags who id perm dir).foldl (process i) t).read tag id' =
      (t.read tag id').or (say (contains perm r.posix) false) := by
  unfold denyAce
  split_ifs with hz
  · simp [hz]
  · rw [foldl_cons, foldl_nil, read_process_of_addresses ha ht,
      ← contains_denyMaskFromPosix hb, contains_twoPow _ hi]
    rfl

theorem read_allow (hi : i < 32) (hb : twoPow 32 i ∈ r.nfs4 dir) {is_owner : Bool}
    (ha : Addresses (new .allow flags (maskFromPosix perm dir is_owner) who id) tag id')
    (ht : tag ≠ .mask) :
    (process i t (new .allow flags (maskFromPosix perm dir is_owner) who id)).read tag id' =
      (t.read tag id').or (say (contains perm r.posix) true) := by
  rw [read_process_of_addresses ha ht, ← contains_maskFromPosix hb, contains_twoPow _ hi]
  rfl

/-- What the ACEs tell the entity `tag`, `id` about bit `i`. -/
def verdictOn (aces : List PosixAce) (dir io : Bool) (i : ℕ) (tag : PosixTag)
    (id : ℤ) : Option Bool :=
  ((translateOne aces dir io).foldl (process i) .new).read tag id

section

variable (hi : i < 32) (hb : twoPow 32 i ∈ r.nfs4 dir) {a : PosixAce}
include hi hb

theorem read_everyoneAllow (ht : tag ≠ .mask) :
    (process i t (everyoneAllow aces dir io)).read tag id =
      (t.read tag id).or (say (contains (summarize aces).other r.posix) true) := by
  rw [read_process_everyone rfl ht, ← contains_maskFromPosix hb, contains_twoPow _ hi]
  rfl

theorem told_everyoneAllow {holds : Bool} (ht : tag ≠ .mask)
    (h : Told (t.read tag id) holds (contains (summarize aces).other r.posix)) :
    Told ((process i t (everyoneAllow aces dir io)).read tag id) holds
      (contains (summarize aces).other r.posix) := by
  rw [read_everyoneAllow hi hb ht]
  exact h.or_last

theorem told_owner : Told (verdictOn aces dir io i .userObj id)
      (contains (summarize aces).owner r.posix) (contains (summarize aces).other r.posix) := by
  rw [verdictOn, translateOne_eq_parts]
  simp only [foldl_append, foldl_cons, foldl_nil]
  apply told_everyoneAllow hi hb (by simp)
  apply told_foldl _ (speaks_namedGroupDenies.skips nofun (by simp))
  apply told_foldl _ (speaks_groupDeny.skips nofun (by simp))
  apply told_foldl _ (speaks_namedGroupAllows.skips nofun (by simp))
  apply told_process _ (skips_groupAllow (by simp))
  apply told_foldl _ (speaks_userParts.skips nofun (by simp))
  rw [ownerPart, foldl_append, foldl_cons, foldl_nil,
    read_allow hi hb (addresses_owner _ _ _ _) (by simp),
    read_denyAce hi hb (addresses_owner _ _ _ _) (by simp)]
  simp only [contains_posix_and, contains_posix_compl, contains_posix_or]
  refine Told.of_deny_allow fun ho => ?_
  simp [ho]

theorem told_user (hd : ((tagged .user aces).map PosixAce.id).Nodup) (ha : a ∈ tagged .user aces) :
    Told (verdictOn aces dir io i .user a.id)
      (contains (a.eff aces) r.posix) (contains (summarize aces).other r.posix) := by
  obtain ⟨before, after, hs⟩ := append_of_mem ha
  rw [hs, map_append, map_cons, nodup_append, nodup_cons] at hd
  obtain ⟨-, ⟨haf, -⟩, hbe⟩ := hd
  rw [verdictOn, translateOne_eq_parts, hs]
  simp only [flatMap_append, flatMap_cons, foldl_append, foldl_cons, foldl_nil]
  apply told_everyoneAllow hi hb (by simp)
  apply told_foldl _ (speaks_namedGroupDenies.skips nofun (by simp))
  apply told_foldl _ (speaks_groupDeny.skips nofun (by simp))
  apply told_foldl _ (speaks_namedGroupAllows.skips nofun (by simp))
  apply told_process _ (skips_groupAllow (by simp))
  apply told_foldl _ (speaks_userParts.skips nofun fun _ => ⟨rfl, haf⟩)
  have hn : ((before.flatMap (userPart aces dir io)).foldl (process i)
      ((ownerPart aces dir io).foldl (process i) .new)).read .user a.id = none := by
    rw [read_foldl_of_quiet (by simp) _ quiet_userParts,
      read_foldl_of_quiet (by simp) (speaks_ownerPart.skips nofun (by simp)) quiet_ownerPart]
    · rfl
    · exact speaks_userParts.skips nofun fun _ => ⟨rfl, fun hmem => hbe _ hmem _ (by simp) rfl⟩
  rw [userPart, foldl_append, foldl_cons, foldl_nil,
    read_allow hi hb (addresses_user _ _ _) (by simp),
    read_denyAce hi hb (addresses_user _ _ _) (by simp), hn]
  simp only [contains_posix_and, contains_posix_compl, contains_posix_or]
  refine Told.of_deny_allow fun ho => ?_
  simp [ho]

theorem told_group : Told (verdictOn aces dir io i .groupObj id)
      (contains (summarize aces).group r.posix) (contains (summarize aces).other r.posix) := by
  rw [verdictOn, translateOne_eq_parts]
  simp only [foldl_append, foldl_cons, foldl_nil]
  apply told_everyoneAllow hi hb (by simp)
  apply told_foldl _ (speaks_namedGroupDenies.skips nofun (by simp))
  rw [groupDeny, read_denyAce hi hb (addresses_group _ _ _ _) (by simp), contains_posix_and,
    contains_posix_compl]
  apply Told.deny
  apply told_foldl _ (speaks_namedGroupAllows.skips nofun (by simp))
  rw [groupAllow, read_allow hi hb (addresses_group _ _ _ _) (by simp),
    read_foldl_of_quiet (by simp) (speaks_userParts.skips nofun (by simp)) quiet_userParts,
    read_foldl_of_quiet (by simp) (speaks_ownerPart.skips nofun (by simp)) quiet_ownerPart]
  exact Told.of_allow _

theorem told_namedGroup (hd : ((tagged .group aces).map PosixAce.id).Nodup)
    (ha : a ∈ tagged .group aces) : Told (verdictOn aces dir io i .group a.id)
      (contains (a.eff aces) r.posix) (contains (summarize aces).other r.posix) := by
  obtain ⟨before, after, hs⟩ := append_of_mem ha
  rw [hs, map_append, map_cons, nodup_append, nodup_cons] at hd
  obtain ⟨-, ⟨haf, -⟩, hds⟩ := hd
  have hbe : a.id ∉ before.map PosixAce.id := fun hmem => hds _ hmem _ (by simp) rfl
  rw [verdictOn, translateOne_eq_parts, hs]
  simp only [flatMap_append, flatMap_cons, map_append, map_cons,
    foldl_append, foldl_cons, foldl_nil]
  apply told_everyoneAllow hi hb (by simp)
  apply told_foldl _ (speaks_namedGroupDenies.skips nofun fun _ => ⟨rfl, haf⟩)
  rw [namedGroupDeny, read_denyAce hi hb (addresses_namedGroup _ _ _) (by simp),
    contains_posix_and, contains_posix_compl]
  apply Told.deny
  apply told_foldl _ (speaks_namedGroupDenies.skips nofun fun _ => ⟨rfl, hbe⟩)
  apply told_foldl _ (speaks_groupDeny.skips nofun (by simp))
  apply told_foldl _ (speaks_namedGroupAllows.skips nofun fun _ => ⟨rfl, haf⟩)
  rw [namedGroupAllow, read_allow hi hb (addresses_namedGroup _ _ _) (by simp),
    read_foldl_of_quiet (by simp) (speaks_namedGroupAllows.skips nofun fun _ => ⟨rfl, hbe⟩)
      quiet_namedGroupAllows,
    read_process_of_quiet (skips_groupAllow (by simp)) (.inr (.inl rfl)) (by simp),
    read_foldl_of_quiet (by simp) (speaks_userParts.skips nofun (by simp)) quiet_userParts,
    read_foldl_of_quiet (by simp) (speaks_ownerPart.skips nofun (by simp)) quiet_ownerPart]
  exact Told.of_allow _

theorem told_other : Told (verdictOn aces dir io i .other id)
      (contains (summarize aces).other r.posix) false := by
  rw [verdictOn, translateOne_eq_parts]
  rw [foldl_append, foldl_cons, foldl_nil, read_everyoneAllow hi hb (by simp),
    read_foldl_of_quiet (by simp) _ fun _ _ => .inl rfl]
  · exact Told.of_allow _
  · simp only [mem_append, or_imp, forall_and]
    exact ⟨⟨⟨⟨⟨speaks_ownerPart.skips nofun (by simp), speaks_userParts.skips nofun (by simp)⟩,
      speaks_groupAllow.skips nofun (by simp)⟩, speaks_namedGroupAllows.skips nofun (by simp)⟩,
      speaks_groupDeny.skips nofun (by simp)⟩, speaks_namedGroupDenies.skips nofun (by simp)⟩

end

end Telling

section Slots

variable {aces : List PosixAce} {dir io : Bool}

/-- The ids the ACEs of one class file, in the order they came. -/
def filedIds (tag : PosixTag) (run : List Nfs4Ace) (ids : List ℤ) : List ℤ :=
  run.foldl (fun ids ace => AclState.fileId ids (ace2tag ace = tag) ace.who_id) ids

variable {tag : PosixTag} {run : List Nfs4Ace} {ids : List ℤ}

/-- What a list of the state files, when it files the ids of one class. -/
theorem ids_foldl {list : AclState → AceSlots}
    (h : ∀ (s : AclState) (ace : Nfs4Ace), (list (s.process ace)).map fst =
      AclState.fileId ((list s).map fst) (ace2tag ace = tag) ace.who_id)
    (run : List Nfs4Ace) (s : AclState) : (list (run.foldl AclState.process s)).map fst =
      filedIds tag run ((list s).map fst) := by
  induction run generalizing s with
  | nil => rfl
  | cons ace run ih =>
    rw [foldl_cons, ih, h]
    rfl

theorem filedIds_append (run₁ run₂ : List Nfs4Ace) :
    filedIds tag (run₁ ++ run₂) ids = filedIds tag run₂ (filedIds tag run₁ ids) :=
  foldl_append

theorem filedIds_eq_self (h : ∀ ace ∈ run, ace2tag ace = tag → ace.who_id ∈ ids) :
    filedIds tag run ids = ids := by
  induction run with
  | nil => rfl
  | cons ace run ih =>
    obtain ⟨ha, hr⟩ := forall_mem_cons.1 h
    have hs : AclState.fileId ids (ace2tag ace = tag) ace.who_id = ids :=
      if_neg fun hn => hn.2 (ha hn.1)
    rw [filedIds, foldl_cons, hs]
    exact ih hr

theorem filedIds_flatMap {es : List PosixAce} {part : PosixAce → List Nfs4Ace}
    (hne : ∀ a ∈ es, part a ≠ [])
    (hpr : ∀ a ∈ es, ∀ ace ∈ part a, ace2tag ace = tag ∧ ace.who_id = a.id)
    (hd : (ids ++ es.map PosixAce.id).Nodup) :
    filedIds tag (es.flatMap part) ids = ids ++ es.map PosixAce.id := by
  induction es generalizing ids with
  | nil => simp [filedIds]
  | cons a es ih =>
    obtain ⟨hn, hne⟩ := forall_mem_cons.1 hne
    obtain ⟨hpa, hpr⟩ := forall_mem_cons.1 hpr
    have hnew : a.id ∉ ids := by
      intro hmem
      exact (nodup_append.1 hd).2.2 _ hmem _ (by simp) rfl
    have hf : filedIds tag (part a) ids = ids ++ [a.id] := by
      obtain ⟨ace, rest, hr⟩ := exists_cons_of_ne_nil hn
      rw [hr] at hpa ⊢
      obtain ⟨⟨ha, hid⟩, hpa⟩ := forall_mem_cons.1 hpa
      have hfi : AclState.fileId ids (ace2tag ace = tag) ace.who_id = ids ++ [a.id] := by
        rw [hid]
        exact if_pos ⟨ha, hnew⟩
      rw [filedIds, foldl_cons, hfi]
      exact filedIds_eq_self fun b hb _ => by simp [(hpa b hb).2]
    rw [flatMap_cons, filedIds_append, hf, ih hne hpr (by simpa using hd)]
    simp

theorem SpeaksFor.filedIds {cls : PosixTag} {names : List ℤ} (h : SpeaksFor cls names run)
    (hne : cls ≠ tag) : filedIds tag run ids = ids :=
  filedIds_eq_self fun ace ha ht => absurd ((h ace ha).1.symm.trans ht) hne

theorem speaks_everyoneAllow : SpeaksFor .other [] [everyoneAllow aces dir io] := by
  simp [SpeaksFor, everyoneAllow, new, ace2tag, isNamed]

theorem filedIds_users (hd : ((tagged .user aces).map PosixAce.id).Nodup) :
    filedIds .user (translateOne aces dir io) [] =
      (tagged .user aces).map PosixAce.id := by
  rw [translateOne_eq_parts]
  simp only [filedIds_append]
  rw [speaks_ownerPart.filedIds (by decide), filedIds_flatMap (fun a _ => by simp [userPart])
    (fun a _ ace ha => userPart_tag ha) (by simpa using hd),
    speaks_groupAllow.filedIds (by decide), speaks_namedGroupAllows.filedIds (by decide),
    speaks_groupDeny.filedIds (by decide), speaks_namedGroupDenies.filedIds (by decide),
    speaks_everyoneAllow.filedIds (by decide), nil_append]

theorem filedIds_groups (hd : ((tagged .group aces).map PosixAce.id).Nodup) :
    filedIds .group (translateOne aces dir io) [] =
      (tagged .group aces).map PosixAce.id := by
  have hal : filedIds .group
      ((tagged .group aces).map (namedGroupAllow aces dir io)) [] =
        (tagged .group aces).map PosixAce.id := by
    rw [map_eq_flatMap]
    refine filedIds_flatMap (fun a _ => by simp) (fun a _ ace ha => ?_) (by simpa using hd)
    rw [mem_singleton.1 ha]
    exact ⟨namedGroupAllow_tag, rfl⟩
  have hdn : ∀ ace ∈ (tagged .group aces).flatMap (namedGroupDeny aces dir io),
      ace2tag ace = .group → ace.who_id ∈ (tagged .group aces).map PosixAce.id :=
    fun ace ha _ => (speaks_namedGroupDenies ace ha).2 rfl
  rw [translateOne_eq_parts]
  simp only [filedIds_append]
  rw [speaks_ownerPart.filedIds (by decide), speaks_userParts.filedIds (by decide),
    speaks_groupAllow.filedIds (by decide), hal, speaks_groupDeny.filedIds (by decide),
    filedIds_eq_self hdn, speaks_everyoneAllow.filedIds (by decide)]

end Slots

section OneList

variable {aces : List PosixAce} {dir io : Bool} {x : AceState} {p : PosixPerm}

def halfState (aces : List PosixAce) (dir io : Bool) : AclState :=
  AclState.run (translateOne aces dir io)

theorem spells_of_told (h : ∀ (r : Right) (i : ℕ), i < 32 → twoPow 32 i ∈ r.nfs4 dir →
      ∃ last, Told (x.verdict i) (contains p r.posix) last) : Spells dir x.allow p := by
  intro r bit hb
  obtain ⟨i, hi, rfl⟩ := Right.exists_twoPow_of_mem_nfs4 hb
  obtain ⟨_, ht⟩ := h r i hi hb
  rw [Bool.eq_iff_iff, contains_twoPow _ hi, ← AceState.verdict_eq_allowed_iff]
  exact ht.allowed

/-- A slot of the state allows what its entity was told. -/
theorem spells_of_read (tag : PosixTag) (id : ℤ)
    (hx : ∀ i, ((halfState aces dir io).tally i).read tag id = x.verdict i)
    (h : ∀ {r : Right} {i : ℕ}, i < 32 → twoPow 32 i ∈ r.nfs4 dir →
      ∃ last, Told (verdictOn aces dir io i tag id) (contains p r.posix) last) :
    Spells dir x.allow p := by
  apply spells_of_told
  intro r i hi hb
  rw [← hx, halfState, Tally.tally_run]
  exact h hi hb

theorem spells_owner : Spells dir (halfState aces dir io).owner.allow (summarize aces).owner :=
  spells_of_read .userObj 0 (fun _ => rfl) fun hi hb => ⟨_, told_owner hi hb⟩

theorem spells_group : Spells dir (halfState aces dir io).group.allow (summarize aces).group :=
  spells_of_read .groupObj 0 (fun _ => rfl) fun hi hb => ⟨_, told_group hi hb⟩

theorem spells_other : Spells dir (halfState aces dir io).other.allow (summarize aces).other :=
  spells_of_read .other 0 (fun _ => rfl) fun hi hb => ⟨_, told_other hi hb⟩

theorem forall₂_slots {slots : AceSlots} {es : List PosixAce}
    {R : AceState → PosixAce → Prop} (hids : slots.map fst = es.map PosixAce.id)
    (hs : ∀ p ∈ slots, ∀ a ∈ es, p.1 = a.id → R p.2 a) :
    List.Forall₂ (fun p a => p.1 = a.id ∧ R p.2 a) slots es := by
  induction slots generalizing es with
  | nil =>
    obtain rfl := map_eq_nil_iff.1 hids.symm
    exact .nil
  | cons p slots ih =>
    cases es with
    | nil => simp at hids
    | cons a es =>
      obtain ⟨hid, hids⟩ := List.cons.inj hids
      refine .cons ⟨hid, hs p (by simp) a (by simp) hid⟩ (ih hids fun q hq b hb => ?_)
      exact hs q (mem_cons_of_mem p hq) b (mem_cons_of_mem a hb)

theorem users_spell (hd : DistinctIds aces) :
    List.Forall₂ (fun p a => p.1 = a.id ∧ Spells dir p.2.allow (a.eff aces))
      (halfState aces dir io).users (tagged .user aces) := by
  have hids : (halfState aces dir io).users.map fst = _ :=
    (ids_foldl (fun s ace => (s.ids_process ace).1) _ _).trans (filedIds_users hd.1)
  refine forall₂_slots (R := fun x a => Spells dir x.allow (a.eff aces)) hids
    fun p hp a ha hid => spells_of_read .user p.1 (verdict_slot (hids ▸ hd.1) hp) ?_
  rw [hid]
  exact fun hi hb => ⟨_, told_user hi hb hd.1 ha⟩

theorem groups_spell (hd : DistinctIds aces) :
    List.Forall₂ (fun p a => p.1 = a.id ∧ Spells dir p.2.allow (a.eff aces))
      (halfState aces dir io).groups (tagged .group aces) := by
  have hids : (halfState aces dir io).groups.map fst = _ :=
    (ids_foldl (fun s ace => (s.ids_process ace).2) _ _).trans (filedIds_groups hd.2)
  refine forall₂_slots (R := fun x a => Spells dir x.allow (a.eff aces)) hids
    fun p hp a ha hid => spells_of_read .group p.1 (verdict_slot (hids ▸ hd.2) hp) ?_
  rw [hid]
  exact fun hi hb => ⟨_, told_namedGroup hi hb hd.2 ha⟩

end OneList

end TruenasRos.Acl
