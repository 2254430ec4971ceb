import TruenasRos.Acl.Tally

/-! # NFS4 to POSIX never widens access

Every class of callers has an entity whose verdict is cautious for it: the
owner's, the slot of a named user, the owning group's or a named group's, and
the one for others. The entries of the converted list are read off those
verdicts, so what the list grants the source ACEs grant.
-/

namespace TruenasRos.Acl

open AclState BitFlags Caller FirstMatch Nfs4Acl PosixAcl BitVec Prod

def Caller.inClass (c : Caller) (tag : PosixTag) (id : ℤ) : Bool :=
  match tag with
  | .userObj => c.owner
  | .user => id = c.uid
  | .groupObj => c.in_group
  | .group => id ∈ c.gids
  | .other => true
  | .mask => false

theorem appliesTo_eq_inClass (c : Caller) (ace : Nfs4Ace) :
    ace.appliesTo c = c.inClass (ace2tag ace) ace.who_id := by
  unfold Nfs4Ace.appliesTo ace2tag
  cases ace.who_type with
  | named => cases contains ace.ace_flags Nfs4Flag.IDENTIFIER_GROUP <;> simp [inClass]
  | owner => rfl
  | group => rfl
  | everyone => rfl

namespace Tally

/-- The verdicts guard a caller about whom the ACEs so far settled `f`. The first five
fields say which entity's verdict is cautious for the caller, the other three that
what an entity was allowed is settled for its members. `unnamed` and `ungrouped` say
that no ACE names the caller's uid, or one of its gids. -/
structure Guards (t : Tally) (c : Caller) (unnamed ungrouped : Prop) (f : Option Bool) :
    Prop where
  owner : c.owner = true → Cautious t.owner f
  user : c.owner = false → Cautious (t.users c.uid) f
  group : c.owner = false → unnamed → c.in_group = true → Cautious t.group f
  groups : c.owner = false → unnamed → ∀ g ∈ c.gids, Cautious (t.groups g) f
  other : c.owner = false → unnamed → c.in_group = false → ungrouped → Cautious t.other f
  user_settled : t.users c.uid = some true → f ≠ none
  group_settled : c.in_group = true → t.group = some true → f ≠ none
  groups_settled : ∀ g ∈ c.gids, t.groups g = some true → f ≠ none

variable {t : Tally} {c : Caller} {un ug : Prop} {f : Option Bool} {id : ℤ}
  {allow names : Bool}

theorem guards_new : new.Guards c un ug none := by
  constructor <;> simp [new, cautious_none]

section

variable (h : t.Guards c un ug f)
include h

theorem Guards.step_userObj : (t.step .userObj id allow names).Guards c un ug
      (f.or (say (c.inClass .userObj id && names) allow)) := by
  simp only [step, inClass]
  refine ⟨fun ho => ?_, fun ho => ?_, fun ho hu hg => ?_, fun ho hu g hg => ?_,
    fun ho hu hg hn => ?_, fun hs => ?_, fun hg hs => ?_, fun g hg hs => ?_⟩
  · simpa [ho] using (h.owner ho).or _
  · simpa [ho] using h.user ho
  · simpa [ho] using h.group ho hu hg
  · simpa [ho] using h.groups ho hu g hg
  · simpa [ho] using h.other ho hu hg hn
  · simp [h.user_settled hs]
  · simp [h.group_settled hg hs]
  · simp [h.groups_settled g hg hs]

theorem Guards.step_user (hu : un → id ≠ c.uid) : (t.step .user id allow names).Guards c un ug
      (f.or (say (c.inClass .user id && names) allow)) := by
  have hus : c.owner = false → Cautious (Function.update t.users id
      ((t.users id).or (say names allow)) c.uid)
      (f.or (say (c.inClass .user id && names) allow)) := by
    intro ho
    by_cases hid : id = c.uid
    · simpa [inClass, hid] using (h.user ho).or _
    · simpa [inClass, hid, Ne.symm hid] using h.user ho
  have hsl : Function.update t.users id
      ((t.users id).or (say names allow)) c.uid = some true →
      f.or (say (c.inClass .user id && names) allow) ≠ none := by
    by_cases hid : id = c.uid
    · simpa [inClass, hid] using or_ne_none_of_allowed h.user_settled
    · simpa [inClass, hid, Ne.symm hid] using h.user_settled
  have hme : c.inClass .user id = true → t.users id = some true → f ≠ none := by
    intro hid
    obtain rfl : id = c.uid := by simpa [inClass] using hid
    exact h.user_settled
  have hm : un → c.inClass .user id = false := by
    intro hn
    simp [inClass, hu hn]
  rw [Tally.step_user]
  exact
    { owner := fun ho => (h.owner ho).heard hme
      user := hus
      group := fun ho hn hg => by simpa [hm hn] using h.group ho hn hg
      groups := fun ho hn g hg => by simpa [hm hn] using h.groups ho hn g hg
      other := fun ho hn hg hgs => by simpa [hm hn] using h.other ho hn hg hgs
      user_settled := hsl
      group_settled := fun hg hs => by simp [h.group_settled hg hs]
      groups_settled := fun g hg hs => by simp [h.groups_settled g hg hs] }

theorem Guards.step_groupObj : (t.step .groupObj id allow names).Guards c un ug
      (f.or (say (c.inClass .groupObj id && names) allow)) := by
  rw [Tally.step_groupObj]
  exact
    { owner := fun ho => (h.owner ho).heard h.group_settled
      user := fun ho => (h.user ho).heard h.group_settled
      group := fun ho hn hg => by simpa [inClass, hg] using (h.group ho hn hg).or _
      groups := fun ho hn g hg => (h.groups ho hn g hg).heard h.group_settled
      other := fun ho hn hg hgs => by simpa [inClass, hg] using h.other ho hn hg hgs
      user_settled := fun hs => by simp [h.user_settled (heard_eq_allowed_iff.1 hs)]
      group_settled := fun hg => by
        simpa [inClass, hg] using or_ne_none_of_allowed (h.group_settled hg)
      groups_settled := fun g hg hs => by
        simp [h.groups_settled g hg (heard_eq_allowed_iff.1 hs)] }

theorem Guards.step_group (hg : ug → id ∉ c.gids) : (t.step .group id allow names).Guards c un ug
      (f.or (say (c.inClass .group id && names) allow)) := by
  have hm : c.inClass .group id = true → t.groups id = some true → f ≠ none := by
    intro hid
    exact h.groups_settled id (by simpa [inClass] using hid)
  rw [Tally.step_group]
  exact
    { owner := fun ho => (h.owner ho).heard hm
      user := fun ho => (h.user ho).heard hm
      group := fun ho hn hin => (h.group ho hn hin).heard hm
      groups := fun ho hn g hgid => by
        by_cases hid : g = id
        · subst hid
          simpa [inClass, hgid] using (h.groups ho hn g hgid).or _
        · simpa [hid] using (h.groups ho hn g hgid).heard hm
      other := fun ho hn hin hgs => by
        simpa [inClass, hg hgs] using h.other ho hn hin hgs
      user_settled := fun hs => by simp [h.user_settled (heard_eq_allowed_iff.1 hs)]
      group_settled := fun hin hs => by simp [h.group_settled hin (heard_eq_allowed_iff.1 hs)]
      groups_settled := fun g hgid hs => by
        by_cases hid : g = id
        · subst hid
          simpa [inClass, hgid] using
            or_ne_none_of_allowed (h.groups_settled g hgid) (by simpa using hs)
        · simp [h.groups_settled g hgid (by simpa [hid] using hs)] }

theorem Guards.step_other : (t.step .other id allow names).Guards c un ug
      (f.or (say (c.inClass .other id && names) allow)) := by
  exact
    { owner := fun ho => (h.owner ho).or _
      user := fun ho => (h.user ho).or _
      group := fun ho hn hg => (h.group ho hn hg).or _
      groups := fun ho hn g hg => (h.groups ho hn g hg).or _
      other := fun ho hn hg hgs => (h.other ho hn hg hgs).or _
      user_settled := or_ne_none_of_allowed h.user_settled
      group_settled := fun hg => or_ne_none_of_allowed (h.group_settled hg)
      groups_settled := fun g hg => or_ne_none_of_allowed (h.groups_settled g hg) }

theorem Guards.step {tag : PosixTag}
    (hu : un → tag = .user → id ≠ c.uid) (hg : ug → tag = .group → id ∉ c.gids) :
    (t.step tag id allow names).Guards c un ug (f.or (say (c.inClass tag id && names) allow)) := by
  cases tag with
  | userObj => exact h.step_userObj
  | user => exact h.step_user fun hn => hu hn rfl
  | groupObj => exact h.step_groupObj
  | group => exact h.step_group fun hn => hg hn rfl
  | other => exact h.step_other
  | mask => simpa [Tally.step, inClass] using h

end

end Tally

namespace AclState

def run (aces : List Nfs4Ace) : AclState :=
  aces.foldl process new

@[simp] theorem run_append_singleton (aces : List Nfs4Ace) (ace : Nfs4Ace) :
    run (aces ++ [ace]) = (run aces).process ace := by
  simp [run]

theorem guards_run (aces : List Nfs4Ace) (c : Caller) {i : ℕ} (hi : i < 32) :
    ((run aces).tally i).Guards c (∀ a ∈ aces, ace2tag a = .user → a.who_id ≠ c.uid)
      (∀ a ∈ aces, ace2tag a = .group → a.who_id ∉ c.gids)
      (nfs4Settles aces c (twoPow 32 i)) := by
  suffices h : ∀ {un ug : Prop}, (un → ∀ a ∈ aces, ace2tag a = .user →
      a.who_id ≠ c.uid) → (ug → ∀ a ∈ aces, ace2tag a = .group → a.who_id ∉ c.gids) →
      ((run aces).tally i).Guards c un ug (nfs4Settles aces c (twoPow 32 i)) from
    h id id
  intro un ug hu hg
  induction aces using List.reverseRecOn with
  | nil =>
    rw [show run [] = new from rfl, tally_new]
    exact Tally.guards_new
  | append_singleton aces ace ih =>
    have hl : ace ∈ aces ++ [ace] := by simp
    have hin : ∀ a ∈ aces, a ∈ aces ++ [ace] := fun a ha => List.mem_append_left _ ha
    have hs : nfs4Settles (aces ++ [ace]) c (twoPow 32 i) =
        (nfs4Settles aces c (twoPow 32 i)).or
          (say (c.inClass (ace2tag ace) ace.who_id && ace.access_mask.getLsbD i) ace.isAllow) := by
      simp [nfs4Settles, Nfs4Ace.hits, contains_twoPow _ hi, appliesTo_eq_inClass]
    rw [run_append_singleton, tally_process, hs]
    refine (ih (fun hn a ha => ?_) fun hn a ha => ?_).step (fun hn => ?_) fun hn => ?_
    · exact hu hn a (hin a ha)
    · exact hg hn a (hin a ha)
    · exact hu hn ace hl
    · exact hg hn ace hl

/-- Which classes and ids the ACEs have been filed under. -/
structure Filed (s : AclState) (aces : List Nfs4Ace) : Prop where
  saw : ∀ tag, s.saw tag = true ↔ ∃ a ∈ aces, ace2tag a = tag
  users_nodup : (s.users.map fst).Nodup
  groups_nodup : (s.groups.map fst).Nodup
  users : ∀ u, u ∈ s.users.map fst ↔ ∃ a ∈ aces, ace2tag a = .user ∧ a.who_id = u
  groups : ∀ g, g ∈ s.groups.map fst ↔ ∃ a ∈ aces, ace2tag a = .group ∧ a.who_id = g

theorem valid_process (s : AclState) (ace : Nfs4Ace) :
    (s.process ace).valid = s.valid ||| BitVec.ofNat 16 (ace2tag ace).toNat := by
  unfold process
  cases ace2tag ace <;> by_cases ha : ace.ace_type = .allow <;> simp [ha]

theorem saw_process (s : AclState) (ace : Nfs4Ace) (tag : PosixTag) :
    (s.process ace).saw tag = (s.saw tag || decide (ace2tag ace = tag)) := by
  have hb : intersects (BitVec.ofNat 16 (ace2tag ace).toNat) (BitVec.ofNat 16 tag.toNat) =
      decide (ace2tag ace = tag) := by
    cases ace2tag ace <;> cases tag <;> decide
  rw [← hb]
  unfold saw
  rw [valid_process]
  exact intersects_or_left _ _ _

/-- The ids with a slot: a named ACE adds its own the first time. -/
def fileId (ids : List ℤ) (filed : Prop) [Decidable filed] (id : ℤ) : List ℤ :=
  if filed ∧ id ∉ ids then ids ++ [id] else ids

variable {ids : List ℤ} {filed : Prop}

theorem mem_fileId [Decidable filed] {id u : ℤ} :
    u ∈ fileId ids filed id ↔ u ∈ ids ∨ filed ∧ id = u := by
  unfold fileId
  split_ifs with h
  · simp [h.1, eq_comm]
  · constructor
    · exact .inl
    · rintro (hu | ⟨hf, rfl⟩)
      · exact hu
      · exact Classical.not_not.1 fun hu => h ⟨hf, hu⟩

theorem nodup_fileId [Decidable filed] {id : ℤ} (h : ids.Nodup) : (fileId ids filed id).Nodup := by
  unfold fileId
  split_ifs with hf
  · exact h.append (List.nodup_singleton id) (List.disjoint_singleton.2 hf.2)
  · exact h

theorem ids_process (s : AclState) (ace : Nfs4Ace) : (s.process ace).users.map fst =
        fileId (s.users.map fst) (ace2tag ace = .user) ace.who_id ∧
      (s.process ace).groups.map fst =
        fileId (s.groups.map fst) (ace2tag ace = .group) ace.who_id := by
  unfold process fileId
  cases ace2tag ace <;> by_cases ha : ace.ace_type = .allow <;>
    simp only [ha, if_true, if_false, allowAt, denyAt, fst_modify_slot, fst_allowBitsAll,
      fst_denyBitsAll, implies_true, reduceCtorEq, false_and, true_and, ite_not]

theorem filed_run (aces : List Nfs4Ace) : (run aces).Filed aces := by
  induction aces using List.reverseRecOn with
  | nil => constructor <;> simp [run, new, saw]
  | append_singleton aces ace ih =>
    rw [run_append_singleton]
    refine ⟨fun tag => ?_, ?_, ?_, fun u => ?_, fun g => ?_⟩
    · simp [saw_process, ih.saw]
    · rw [(ids_process _ _).1]
      exact nodup_fileId ih.users_nodup
    · rw [(ids_process _ _).2]
      exact nodup_fileId ih.groups_nodup
    · simp [ids_process, mem_fileId, ih.users]
    · simp [ids_process, mem_fileId, ih.groups]

end AclState

section Entries

variable {s : AclState} {dir default : Bool} {a : PosixAce} {r : Right} {c : Caller}
  {aces : List Nfs4Ace} {entries : List PosixAce}

theorem of_mem_stateToEntries (h : a ∈ stateToEntries s dir default) :
    a.default = default ∧ match a.tag with
    | .userObj => a.perms = lowModeFromNfs4 s.owner.allow dir
    | .user => ∃ p ∈ s.users, p.1 = a.id ∧ a.perms = lowModeFromNfs4 p.2.allow dir
    | .groupObj => a.perms = lowModeFromNfs4 s.group.allow dir
    | .group => ∃ p ∈ s.groups, p.1 = a.id ∧ a.perms = lowModeFromNfs4 p.2.allow dir
    | .mask => True
    | .other => a.perms = lowModeFromNfs4 s.other.allow dir := by
  simp only [stateToEntries, List.mem_append, List.mem_singleton, List.mem_map] at h
  rcases h with (((((rfl | ⟨p, hp, rfl⟩) | rfl) | ⟨p, hp, rfl⟩) | h) | rfl)
  · exact ⟨rfl, rfl⟩
  · exact ⟨rfl, p, hp, rfl, rfl⟩
  · exact ⟨rfl, rfl⟩
  · exact ⟨rfl, p, hp, rfl, rfl⟩
  · split_ifs at h
    · obtain rfl := List.mem_singleton.1 h
      exact ⟨rfl, trivial⟩
    · simp at h
  · exact ⟨rfl, rfl⟩

theorem named_mem_stateToEntries (s : AclState) (dir default : Bool) :
    (∀ p ∈ s.users,
        ⟨.user, lowModeFromNfs4 p.2.allow dir, p.1, default⟩ ∈ stateToEntries s dir default) ∧
      ∀ p ∈ s.groups,
        ⟨.group, lowModeFromNfs4 p.2.allow dir, p.1, default⟩ ∈ stateToEntries s dir default := by
  simp only [stateToEntries, List.mem_append, List.mem_map]
  constructor
  · exact fun p hp => .inl (.inl (.inl (.inl (.inr ⟨p, hp, rfl⟩))))
  · exact fun p hp => .inl (.inl (.inr ⟨p, hp, rfl⟩))

theorem verdict_of_has {x : AceState} {i : ℕ} (hi : i < 32)
    (hb : twoPow 32 i ∈ r.nfs4 dir) (hpe : a.perms = lowModeFromNfs4 x.allow dir)
    (hh : a.has r = true) : x.verdict i = some true := by
  rw [PosixAce.has, hpe, contains_lowModeFromNfs4_iff] at hh
  rw [x.verdict_eq_allowed_iff, ← contains_twoPow _ hi]
  exact hh _ hb

theorem nfs4Grants_of_posixGrants_run
    (he : ∀ a, a ∈ entries ↔ a ∈ stateToEntries (run aces) dir default)
    (h : posixGrants entries c r = true) {bit : Nfs4Perm} (hbit : bit ∈ r.nfs4 dir) :
    nfs4Grants aces c bit = true := by
  obtain ⟨i, hi, rfl⟩ := Right.exists_twoPow_of_mem_nfs4 hbit
  have hg := guards_run aces c hi
  have hfl := filed_run aces
  generalize run aces = s at he hg hfl
  rw [nfs4Grants, decide_eq_true_eq]
  have hs {a : PosixAce} {tag : PosixTag} (ha : a ∈ entries) (ht : a.tag = tag) :=
    ht ▸ (of_mem_stateToEntries ((he a).1 ha)).2
  obtain ⟨hus, hgs⟩ := named_mem_stateToEntries s dir default
  unfold posixGrants at h
  cases ho : c.owner with
  | true =>
    rw [if_pos ho, Option.any_eq_true] at h
    obtain ⟨a, hf, hh⟩ := h
    have ht : a.tag = .userObj := by simpa using List.find?_some hf
    have hpe := hs (List.mem_of_find?_eq_some hf) ht
    exact (hg.owner ho).1 (verdict_of_has hi hbit hpe hh)
  | false =>
    rw [if_neg (by simp [ho])] at h
    split at h
    next a hf =>
      obtain ⟨ht, hid⟩ : a.tag = .user ∧ a.id = c.uid := by simpa using List.find?_some hf
      obtain ⟨p, hp, hpid, hpe⟩ := hs (List.mem_of_find?_eq_some hf) ht
      refine (hg.user ho).1 ?_
      rw [← hid, ← hpid]
      exact (verdict_slot hfl.users_nodup hp i).trans
        (verdict_of_has hi hbit hpe (Bool.and_eq_true_iff.1 h).1)
    next hf =>
      have hu : ∀ a ∈ aces, ace2tag a = .user → a.who_id ≠ c.uid := by
        intro a ha ht hid
        obtain ⟨p, hp, hpid⟩ := List.mem_map.1 ((hfl.users _).2 ⟨a, ha, ht, hid⟩)
        simpa [hpid] using List.find?_eq_none.1 hf _ ((he _).2 (hus p hp))
      split_ifs at h with hma
      · obtain ⟨a, ha, hgn⟩ := List.any_eq_true.1 h
        simp only [Bool.and_eq_true, PosixAce.groupMatches, effective, decide_eq_true_eq] at hgn
        obtain ⟨⟨ht, hin⟩ | ⟨ht, hin⟩, hh, _⟩ := hgn
        · exact (hg.group ho hu hin).1 (verdict_of_has hi hbit (hs ha ht) hh)
        · obtain ⟨p, hp, hpid, hpe⟩ := hs ha ht
          refine (hg.groups ho hu a.id hin).1 ?_
          rw [← hpid]
          exact (verdict_slot hfl.groups_nodup hp i).trans (verdict_of_has hi hbit hpe hh)
      · have hm : ∀ a ∈ entries, a.groupMatches c = false := by simpa using hma
        have hin : c.in_group = false := by
          have hb : ⟨.groupObj, lowModeFromNfs4 s.group.allow dir, -1, default⟩ ∈ entries :=
            (he _).2 (by simp [stateToEntries])
          simpa [PosixAce.groupMatches] using hm _ hb
        have hug : ∀ a ∈ aces, ace2tag a = .group → a.who_id ∉ c.gids := by
          intro a ha ht hid
          obtain ⟨p, hp, hpid⟩ := List.mem_map.1 ((hfl.groups _).2 ⟨a, ha, ht, rfl⟩)
          simpa [PosixAce.groupMatches, hpid, hid] using hm _ ((he _).2 (hgs p hp))
        obtain ⟨a, hf, hh⟩ := (Option.any_eq_true _ _).1 h
        have ht : a.tag = .other := by simpa using List.find?_some hf
        have hpe := hs (List.mem_of_find?_eq_some hf) ht
        exact (hg.other ho hu hin hug).1 (verdict_of_has hi hbit hpe hh)

end Entries

section Conversion

variable {acl : Nfs4Acl} {dir : Bool} {posix : PosixAcl} {aces d : List PosixAce} {a : PosixAce}

theorem foldAces_eq (dir : Bool) (aces : List Nfs4Ace) (s t : AclState) :
    aces.foldl (foldAces dir) (s, t) =
      ((aces.filter fun a => a.settlesAccess && !contains a.ace_flags Nfs4Flag.INHERIT_ONLY).foldl
          process s, (aces.filter fun a => dir && (a.settlesAccess &&
          intersects a.ace_flags INHERITABLE)).foldl process t) := by
  induction aces generalizing s t with
  | nil => rfl
  | cons a aces ih =>
    rw [List.foldl_cons, foldAces]
    split_ifs with ht hd ho ho
    all_goals simp_all [Nfs4Ace.settlesAccess]

theorem mem_fromAces_access : a ∈ (fromAces aces).access ↔ a ∈ aces ∧ a.default = false := by
  simp [fromAces]

theorem mem_fromAces_default (h : (fromAces aces).default = some d) :
    a ∈ d ↔ a ∈ aces ∧ a.default = true := by
  unfold fromAces at h
  dsimp only at h
  split_ifs at h
  obtain rfl := Option.some.inj h
  simp

theorem exists_default_of_fromAces
    (h : (fromAces aces).default = some d) : ∃ a ∈ aces, a.default = true := by
  unfold fromAces at h
  dsimp only at h
  split_ifs at h with he
  simpa using he

/-- The inheritable ACEs as the conversion sees them: only a directory has any. -/
def Nfs4Acl.inheritedAces (acl : Nfs4Acl) (is_dir : Bool) : List Nfs4Ace :=
  if is_dir then acl.inheritableAces else []

def Nfs4Acl.defaultState (acl : Nfs4Acl) (is_dir : Bool) : AclState :=
  borrowMissing (run acl.effectiveAces) (run (acl.inheritedAces is_dir))

/-- The lists the conversion builds, before it validates them. -/
def Nfs4Acl.builtLists (acl : Nfs4Acl) (is_dir : Bool) : PosixAcl :=
  PosixAcl.fromAces (stateToEntries (run acl.effectiveAces) is_dir false ++
    if (acl.defaultState is_dir).valid ≠ 0 then stateToEntries (acl.defaultState is_dir) is_dir true
    else [])

theorem toPosixLossy_eq (acl : Nfs4Acl) (dir : Bool) : acl.toPosixLossy dir =
      ((acl.builtLists dir).validate dir >>= fun _ => .ok (acl.builtLists dir)) := by
  have hin : (acl.aces.filter fun a => dir && (a.settlesAccess &&
      intersects a.ace_flags INHERITABLE)) = acl.inheritedAces dir := by
    cases dir <;> simp [inheritedAces, inheritableAces]
  rw [toPosixLossy, foldAces_eq, hin]
  unfold builtLists defaultState run effectiveAces
  split_ifs with hv
  · simp only [if_pos hv]
  · simp only [if_neg hv, List.append_nil]

theorem fromAces_of_toPosixLossy (h : acl.toPosixLossy dir = .ok posix) :
    posix = acl.builtLists dir := by
  rw [toPosixLossy_eq] at h
  obtain ⟨_, _, hpo⟩ := bind_eq_ok_iff.1 h
  exact (Except.ok.inj hpo).symm

theorem mem_access_iff (h : acl.toPosixLossy dir = .ok posix) (a : PosixAce) :
    a ∈ posix.access ↔ a ∈ stateToEntries (run acl.effectiveAces) dir false := by
  rw [fromAces_of_toPosixLossy h, builtLists, mem_fromAces_access, List.mem_append]
  constructor
  · rintro ⟨ha | ha, hd⟩
    · exact ha
    · split_ifs at ha
      · simp [(of_mem_stateToEntries ha).1] at hd
      · simp at ha
  · exact fun ha => ⟨.inl ha, (of_mem_stateToEntries ha).1⟩

theorem defaultState_of_named (hn : ∀ who ∈ [Nfs4Who.owner, .group, .everyone],
    ∃ a ∈ acl.inheritableAces, a.who_type = who) : acl.defaultState true = run acl.inheritableAces ∧
      (acl.defaultState true).valid ≠ 0 := by
  have hf := filed_run acl.inheritableAces
  have hs : ∀ tag ∈ [PosixTag.userObj, .groupObj, .other],
      (run acl.inheritableAces).saw tag = true := by
    intro tag ht
    obtain ⟨a, ha, hw⟩ : ∃ a ∈ acl.inheritableAces, ace2tag a = tag := by
      simp only [List.mem_cons, List.not_mem_nil, or_false] at ht
      rcases ht with rfl | rfl | rfl
      · obtain ⟨a, ha, hw⟩ := hn .owner (by simp)
        exact ⟨a, ha, by simp [ace2tag, hw]⟩
      · obtain ⟨a, ha, hw⟩ := hn .group (by simp)
        exact ⟨a, ha, by simp [ace2tag, hw]⟩
      · obtain ⟨a, ha, hw⟩ := hn .everyone (by simp)
        exact ⟨a, ha, by simp [ace2tag, hw]⟩
    exact (hf.saw tag).2 ⟨a, ha, hw⟩
  have hb : acl.defaultState true = run acl.inheritableAces := by
    simp [defaultState, borrowMissing, inheritedAces, hs]
  refine ⟨hb, fun hz => ?_⟩
  rw [hb] at hz
  simpa [saw, hz] using hs .userObj (by simp)

theorem mem_default_iff (h : acl.toPosixLossy dir = .ok posix) (hd : posix.default = some d)
    (hn : ∀ who ∈ [Nfs4Who.owner, .group, .everyone], ∃ a ∈ acl.inheritableAces,
      a.who_type = who) (a : PosixAce) :
    a ∈ d ↔ a ∈ stateToEntries (run acl.inheritableAces) dir true := by
  have hpo := fromAces_of_toPosixLossy h
  unfold builtLists at hpo
  cases dir with
  | false =>
    -- A file has no inheritable half, so no entry is marked as a default one.
    have hno : (acl.defaultState false).valid = 0 := rfl
    rw [hpo] at hd
    obtain ⟨b, hb, hbd⟩ := exists_default_of_fromAces hd
    simp only [hno, ne_eq, not_true, if_false, List.append_nil] at hb
    simp [(of_mem_stateToEntries hb).1] at hbd
  | true =>
    obtain ⟨hbo, hv⟩ := defaultState_of_named hn
    rw [if_pos hv, hbo] at hpo
    rw [mem_fromAces_default (hpo ▸ hd), List.mem_append]
    constructor
    · rintro ⟨ha | ha, hdef⟩
      · simp [(of_mem_stateToEntries ha).1] at hdef
      · exact ha
    · exact fun ha => ⟨.inr ha, (of_mem_stateToEntries ha).1⟩

/-- What the converted list grants a caller the source ACEs grant, bit by bit; the same
for the default list when the inheritable ACEs name all three special principals. -/
theorem toPosixLossy_never_widens (acl : Nfs4Acl) (is_dir : Bool) (posix : PosixAcl)
    (h : acl.toPosixLossy is_dir = .ok posix) (c : Caller) (r : Right) :
    (posixGrants posix.access c r = true →
      ∀ bit ∈ r.nfs4 is_dir, nfs4Grants acl.effectiveAces c bit = true) ∧
    ∀ d, posix.default = some d →
      (∀ who ∈ [Nfs4Who.owner, .group, .everyone], ∃ a ∈ acl.inheritableAces, a.who_type = who) →
      posixGrants d c r = true →
        ∀ bit ∈ r.nfs4 is_dir, nfs4Grants acl.inheritableAces c bit = true := by
  constructor
  · intro hg bit hb
    exact nfs4Grants_of_posixGrants_run (mem_access_iff h) hg hb
  · intro d hd hn hg bit hb
    exact nfs4Grants_of_posixGrants_run (mem_default_iff h hd hn) hg hb

/-- A directory shared read-only with its group, with a denial for one user. -/
def sharedDir : Nfs4Acl where
  acl_flags := Nfs4AclFlag.ACL_IS_DIR
  aces :=
    [Nfs4Ace.new .deny 0 WRITE_MODE .named 1000,
      Nfs4Ace.new .allow INHERITABLE
        (READ_MODE ||| WRITE_MODE ||| Nfs4Perm.DELETE_CHILD ||| EXECUTE_MODE) .owner (-1),
      Nfs4Ace.new .allow INHERITABLE (READ_MODE ||| EXECUTE_MODE) .group (-1),
      Nfs4Ace.new .allow INHERITABLE 0 .everyone (-1)]

theorem toPosixLossy_never_widens_sharedDir :
    ∃ posix d, sharedDir.toPosixLossy true = .ok posix ∧ posix.default = some d ∧
      posixGrants posix.access ⟨false, 7, ∅, true⟩ .read = true ∧
      nfs4Grants sharedDir.effectiveAces ⟨false, 7, ∅, true⟩ Nfs4Perm.READ_DATA = true ∧
      posixGrants d ⟨true, 1000, ∅, false⟩ .write = true ∧
      nfs4Grants sharedDir.inheritableAces ⟨true, 1000, ∅, false⟩ Nfs4Perm.DELETE_CHILD = true := by
  refine ⟨_, _, rfl, rfl, by decide, ?_, by decide, ?_⟩
  · exact (toPosixLossy_never_widens sharedDir true _ rfl _ .read).1 (by decide) _ (by decide)
  · exact (toPosixLossy_never_widens sharedDir true _ rfl _ .write).2 _ rfl (by decide) (by decide)
      _ (by decide)

end Conversion

end TruenasRos.Acl
