import TruenasRos.Acl.Access
import TruenasRos.Acl.Validation

/-! # POSIX to NFS4 preserves access

Evaluated for one caller and one right, the ACEs a POSIX list becomes are a
fixed sequence of answers: the owner's, the named user's, the groups' allows,
their denies, and everyone's. Read in that order they are the POSIX check.
-/

namespace TruenasRos.Acl

open BitFlags FirstMatch PosixAce Nfs4Ace PosixSummary Function Option

section Summary

variable {aces : List PosixAce} {r : Right}

theorem find?_tag (tag : PosixTag) :
    (aces.find? fun a => a.tag = tag) = (tagged tag aces).head? := by
  rw [tagged, List.head?_filter]

/-- Each field of the summary is a fold over the entries of its own tag. -/
theorem foldl_add (aces : List PosixAce) (s : PosixSummary) : aces.foldl add s =
      { owner := (tagged .userObj aces).foldl (fun _ a => a.perms) s.owner
        users := (tagged .user aces).foldl (fun p a => p ||| a.perms) s.users
        group := (tagged .groupObj aces).foldl (fun _ a => a.perms) s.group
        groups := (tagged .group aces).foldl (fun p a => p ||| a.perms) s.groups
        other := (tagged .other aces).foldl (fun _ a => a.perms) s.other
        mask := (tagged .mask aces).foldl (fun _ a => a.perms) s.mask } := by
  induction aces generalizing s with
  | nil => rfl
  | cons a aces ih =>
    rw [List.foldl_cons, ih]
    cases ht : a.tag <;> simp [add, tagged, ht]

theorem contains_foldl_perms (es : List PosixAce) (p : PosixPerm) :
    contains (es.foldl (fun p a => p ||| a.perms) p) r.posix =
      (contains p r.posix || es.any (has r)) := by
  obtain ⟨i, hi, h⟩ := r.exists_twoPow_posix
  unfold has
  rw [h]
  exact contains_foldl_or perms es p hi

theorem any_effective (es : List PosixAce) :
    es.any (effective aces r) = (es.any (has r) && underMask aces r) := by
  induction es with
  | nil => simp
  | cons a es ih => simp [ih, effective, Bool.and_or_distrib_right]

theorem contains_summarize_mask (h : OneOfEach aces) :
    contains (summarize aces).mask r.posix = underMask aces r := by
  have hm := h.mask
  rw [summarize, foldl_add, underMask, find?_tag]
  match ht : tagged .mask aces with
  | [] => simp [empty]
  | [m] => simp [has]
  | _ :: _ :: _ => simp [ht] at hm

variable {a : PosixAce}

theorem contains_summarize_owner (ha : tagged .userObj aces = [a]) :
    contains (summarize aces).owner r.posix = a.has r := by
  simp [summarize, foldl_add, ha, has]

theorem contains_summarize_other (ha : tagged .other aces = [a]) :
    contains (summarize aces).other r.posix = a.has r := by
  simp [summarize, foldl_add, ha, has]

theorem contains_summarize_group (h : OneOfEach aces) (ha : tagged .groupObj aces = [a]) :
    contains (summarize aces).group r.posix = effective aces r a := by
  rw [effective, ← contains_summarize_mask h]
  simp [summarize, foldl_add, ha, has]

theorem contains_summarize_users (h : OneOfEach aces) :
    contains (summarize aces).users r.posix = (tagged .user aces).any (effective aces r) := by
  rw [any_effective, ← contains_summarize_mask h]
  simp [summarize, foldl_add, contains_foldl_perms, empty]

theorem contains_summarize_groups (h : OneOfEach aces) :
    contains (summarize aces).groups r.posix = (tagged .group aces).any (effective aces r) := by
  rw [any_effective, ← contains_summarize_mask h]
  simp [summarize, foldl_add, contains_foldl_perms, empty]

end Summary

section Evaluation

variable {aces : List PosixAce} {r : Right} {dir io : Bool} {c : Caller}
  {bit : Nfs4Perm} {flags : Nfs4Flag} {who : Nfs4Who} {id : ℤ}

def describes (c : Caller) (flags : Nfs4Flag) (who : Nfs4Who) (id : ℤ) : Bool :=
  (Nfs4Ace.new .allow flags 0 who id).appliesTo c

@[simp] theorem describes_owner : describes c flags .owner id = c.owner := rfl

@[simp] theorem describes_group : describes c flags .group id = c.in_group := rfl

@[simp] theorem describes_everyone : describes c flags .everyone id = true := rfl

theorem describes_named : describes c flags .named id =
      if contains flags Nfs4Flag.IDENTIFIER_GROUP then decide (id ∈ c.gids)
      else decide (id = c.uid) := rfl

theorem hits_new (ty : Nfs4AceType) (mask : Nfs4Perm) : (new ty flags mask who id).hits c bit =
      (describes c flags who id && contains mask bit) := rfl

theorem nfs4Settles_allow (hb : bit ∈ r.nfs4 dir) (perm : PosixPerm) (is_owner : Bool) :
    nfs4Settles [new .allow flags (maskFromPosix perm dir is_owner) who id] c bit =
      say (describes c flags who id && contains perm r.posix) true := by
  rw [nfs4Settles, settle_cons, settle_nil, or_none, hits_new, contains_maskFromPosix hb]
  rfl

theorem nfs4Settles_denyAce (hb : bit ∈ r.nfs4 dir) (deny : PosixPerm) :
    nfs4Settles (denyAce flags who id deny dir) c bit =
      say (describes c flags who id && contains deny r.posix) false := by
  unfold denyAce
  split_ifs with hz
  · simp [nfs4Settles, hz]
  · rw [nfs4Settles, settle_cons, settle_nil, or_none, hits_new,
      contains_denyMaskFromPosix hb]
    rfl

/-- The named ids of a list are distinct, the users' and the groups'. -/
def DistinctIds (aces : List PosixAce) : Prop :=
  ((tagged .user aces).map PosixAce.id).Nodup ∧ ((tagged .group aces).map PosixAce.id).Nodup

instance : DecidablePred DistinctIds :=
  fun _ => inferInstanceAs (Decidable (_ ∧ _))

/-- Where a caller stands in a list for one right: the five classes, the caller's own
named entry, and the named groups the caller is in. -/
structure Standing where
  own : Bool
  users : Bool
  group : Bool
  groups : Bool
  other : Bool
  user : Option Bool
  named : List Bool

def standing (aces : List PosixAce) (c : Caller) (r : Right) : Standing where
  own := contains (summarize aces).owner r.posix
  users := contains (summarize aces).users r.posix
  group := contains (summarize aces).group r.posix
  groups := contains (summarize aces).groups r.posix
  other := contains (summarize aces).other r.posix
  user := ((tagged .user aces).find? fun a => a.id = c.uid).map (effective aces r)
  named := ((tagged .group aces).filter fun a => a.id ∈ c.gids).map (effective aces r)

namespace Standing

def nfs4 (s : Standing) (c : Caller) : Option Bool :=
  (say (c.owner && (!s.own && (s.users || s.group || s.groups || s.other))) false).or <|
  (say (c.owner && s.own) true).or <|
  (s.user.elim none fun e =>
    (say (!e && (s.groups || s.group || s.other)) false).or (say e true)).or <|
  (say (c.in_group && s.group) true).or <|
  (say (s.named.any fun e => e) true).or <|
  (say (c.in_group && (!s.group && s.other)) false).or <|
  (say (s.named.any fun e => !e && s.other) false).or <|
  say s.other true

def posix (s : Standing) (c : Caller) : Bool :=
  if c.owner then s.own
  else
    match s.user with
    | some e => e
    | none =>
      if c.in_group || !s.named.isEmpty then c.in_group && s.group || s.named.any fun e => e
      else s.other

theorem any_refused {named : List Bool} (h : (named.any fun e => e) = false) (other : Bool) :
    (named.any fun e => !e && other) = (!named.isEmpty && other) := by
  induction named with
  | nil => rfl
  | cons e named ih =>
    obtain ⟨rfl, ht⟩ : e = false ∧ (named.any fun e => e) = false := by simpa using h
    simp

/-- The answers in order are the POSIX check: `users` and `groups` are unions over the named
entries, so they have what any one of them has. -/
theorem nfs4_iff_posix (s : Standing) (c : Caller) (hus : s.user = some true → s.users = true)
    (hg : (s.named.any fun e => e) = true → s.groups = true) :
    s.nfs4 c = some true ↔ s.posix c = true := by
  obtain ⟨own, users, group, groups, other, user, named⟩ := s
  simp only at hus hg
  -- With no class left to grant the right, no later ACE allows it.
  have hn (hall : (groups || group || other) = false) : (say (c.in_group && group) true).or (
        (say (named.any fun e => e) true).or (
        (say (c.in_group && (!group && other)) false).or (
        (say (named.any fun e => !e && other) false).or (
        say other true)))) = none := by
    obtain ⟨⟨hgs, rfl⟩, rfl⟩ : (groups = false ∧ group = false) ∧ other = false := by
      simpa using hall
    have hm : (named.any fun e => e) = false :=
      Bool.eq_false_iff.2 fun h => by simp [hg h] at hgs
    rw [any_refused hm, hm]
    simp
  unfold nfs4 posix
  cases ho : c.owner with
  | true =>
    cases own with
    | true => simp
    | false =>
      cases hall : users || group || groups || other with
      | true => simp
      | false =>
        obtain ⟨hu, hl⟩ : users = false ∧ (groups || group || other) = false := by
          revert hall
          cases users <;> cases group <;> cases groups <;> simp
        have ha : user ≠ some true := fun h => by simp [hus h] at hu
        rcases user with _ | _ | _
        · simp [hn hl]
        · simp [hl, hn hl]
        · exact absurd rfl ha
  | false =>
    rcases user with _ | _ | _
    · cases hm : named.any fun e => e with
      | true =>
        have hne : named.isEmpty = false := by
          cases named with
          | nil => simp at hm
          | cons e named => rfl
        cases c.in_group && group <;> simp [hne]
      | false =>
        rw [any_refused hm]
        cases c.in_group <;> cases group <;> cases other <;> cases named.isEmpty <;> simp
    · cases hl : groups || group || other with
      | true => simp
      | false => simp [hn hl]
    · simp

end Standing

variable {es : List PosixAce}

/-- The named users' blocks: at most one is for the caller. -/
theorem nfs4Settles_users (hbit : bit ∈ r.nfs4 dir)
    (hf : contains flags Nfs4Flag.IDENTIFIER_GROUP = false) (hd : (es.map PosixAce.id).Nodup)
    (deny allow : PosixAce → PosixPerm) :
    nfs4Settles (es.flatMap fun a => denyAce flags .named a.id (deny a) dir ++
        [new .allow flags (maskFromPosix (allow a) dir false) .named a.id]) c bit =
      (es.find? fun a => a.id = c.uid).elim none fun a =>
        (say (contains (deny a) r.posix) false).or (say (contains (allow a) r.posix) true) := by
  have hbl (a : PosixAce) : nfs4Settles (denyAce flags .named a.id (deny a) dir ++
      [new .allow flags (maskFromPosix (allow a) dir false) .named a.id]) c bit =
      (say (decide (a.id = c.uid) && contains (deny a) r.posix) false).or
        (say (decide (a.id = c.uid) && contains (allow a) r.posix) true) := by
    rw [nfs4Settles_append, nfs4Settles_denyAce hbit, nfs4Settles_allow hbit, describes_named, hf]
    rfl
  rw [nfs4Settles, settle_flatMap]
  · cases hfi : es.find? fun a => decide (a.id = c.uid) with
    | none => rfl
    | some a =>
      have hid := List.find?_some hfi
      rw [elim_some, elim_some, ← nfs4Settles, hbl, hid, Bool.true_and, Bool.true_and]
  · intro a ha
    rw [← nfs4Settles, hbl, ha]
    rfl
  · refine (List.pairwise_map.1 hd).imp fun {a b} hne hid => ?_
    simp only [decide_eq_true_eq, decide_eq_false_iff_not] at hid ⊢
    exact fun hb => hne (hid.trans hb.symm)

theorem nfs4Settles_groups_allow (hb : bit ∈ r.nfs4 dir)
    (hf : contains flags Nfs4Flag.IDENTIFIER_GROUP = true) (allow : PosixAce → PosixPerm) :
    nfs4Settles (es.map fun a =>
        new .allow flags (maskFromPosix (allow a) dir false) .named a.id) c bit =
      say (es.any fun a => decide (a.id ∈ c.gids) && contains (allow a) r.posix) true := by
  have hh (a : PosixAce) : (new .allow flags (maskFromPosix (allow a) dir false)
      .named a.id).hits c bit = (decide (a.id ∈ c.gids) && contains (allow a) r.posix) := by
    rw [hits_new, describes_named, hf, contains_maskFromPosix hb, if_pos rfl]
  rw [nfs4Settles, settle_of_forall (v := true) (by simp [isAllow, new]), List.any_map]
  simp [comp_def, hh]

theorem nfs4Settles_groups_deny (hb : bit ∈ r.nfs4 dir)
    (hf : contains flags Nfs4Flag.IDENTIFIER_GROUP = true) (deny : PosixAce → PosixPerm) :
    nfs4Settles (es.flatMap fun a => denyAce flags .named a.id (deny a) dir) c bit =
      say (es.any fun a => decide (a.id ∈ c.gids) && contains (deny a) r.posix) false := by
  induction es with
  | nil => rfl
  | cons a es ih =>
    rw [List.flatMap_cons, nfs4Settles_append, ih, nfs4Settles_denyAce hb, describes_named,
      hf, if_pos rfl, List.any_cons]
    cases decide (a.id ∈ c.gids) && contains (deny a) r.posix <;> simp

def eflag (inherit_only : Bool) : Nfs4Flag :=
  if inherit_only then INHERITABLE ||| Nfs4Flag.INHERIT_ONLY else 0

def gflag (inherit_only : Bool) : Nfs4Flag :=
  eflag inherit_only ||| Nfs4Flag.IDENTIFIER_GROUP

theorem contains_eflag (io : Bool) : contains (eflag io) Nfs4Flag.IDENTIFIER_GROUP = false := by
  cases io <;> decide

theorem contains_gflag (io : Bool) : contains (gflag io) Nfs4Flag.IDENTIFIER_GROUP = true :=
  contains_or_left _ _

theorem nfs4Settles_translateOne (hb : bit ∈ r.nfs4 dir) (hs : OneOfEach aces)
    (hd : DistinctIds aces) :
    nfs4Settles (translateOne aces dir io) c bit = (standing aces c r).nfs4 c := by
  have he (a : PosixAce) : contains (a.perms &&& (summarize aces).mask) r.posix =
      effective aces r a := by
    rw [contains_posix_and, contains_summarize_mask hs, effective, PosixAce.has]
  simp only [translateOne, Standing.nfs4, nfs4Settles_append, Option.or_assoc,
    nfs4Settles_denyAce hb, nfs4Settles_allow hb, describes_owner, describes_group,
    describes_everyone, Bool.true_and, contains_posix_and, contains_posix_compl, contains_posix_or]
  congr 1
  congr 1
  congr 1
  · refine (nfs4Settles_users hb (contains_eflag io) hd.1 _ _).trans ?_
    simp [he, standing, comp_def]
  congr 1
  congr 1
  · refine (nfs4Settles_groups_allow hb (contains_gflag io) _).trans ?_
    simp only [he, standing, tagged, List.any_map, List.any_filter, comp_def]
  congr 1
  congr 1
  · refine (nfs4Settles_groups_deny hb (contains_gflag io) _).trans ?_
    simp only [he, contains_posix_and, contains_posix_compl, standing, tagged, List.any_map,
      List.any_filter, comp_def]

theorem any_groupMatches (aces : List PosixAce) (c : Caller) (f : PosixAce → Bool) :
    (aces.any fun a => a.groupMatches c && f a) =
      (((tagged .groupObj aces).any fun a => c.in_group && f a) ||
        ((tagged .group aces).filter fun a => a.id ∈ c.gids).any f) := by
  induction aces with
  | nil => rfl
  | cons a aces ih =>
    cases ht : a.tag <;> cases hin : decide (a.id ∈ c.gids) <;>
      simp_all [tagged, groupMatches, Bool.or_assoc, Bool.or_left_comm]

theorem posixGrants_eq (h : OneOfEach aces) :
    posixGrants aces c r = (standing aces c r).posix c := by
  obtain ⟨owner, ho⟩ := h.user_obj
  obtain ⟨group, hg⟩ := h.group_obj
  obtain ⟨other, hoh⟩ := h.other
  have hu : (aces.find? fun a => decide (a.tag = .user ∧ a.id = c.uid)) =
      (tagged .user aces).find? fun a => decide (a.id = c.uid) := by
    rw [tagged, List.find?_filter]
    simp
  have hm := any_groupMatches aces c fun _ => true
  have hgn := any_groupMatches aces c (effective aces r)
  simp only [Bool.and_true, hg, List.any_cons, List.any_nil, Bool.or_false] at hm hgn
  rw [posixGrants, find?_tag, find?_tag, ho, hoh, hu, hm, hgn]
  simp only [Standing.posix, standing, contains_summarize_owner ho, contains_summarize_group h hg,
    contains_summarize_other hoh, List.any_map, List.isEmpty_map]
  cases (tagged .user aces).find? fun a => decide (a.id = c.uid) with
  | some a => rfl
  | none =>
    cases (tagged .group aces).filter fun a => decide (a.id ∈ c.gids) <;>
      simp [comp_def]

theorem nfs4Grants_translateOne (hs : OneOfEach aces) (hd : DistinctIds aces)
    (hb : bit ∈ r.nfs4 dir) :
    nfs4Grants (translateOne aces dir io) c bit = posixGrants aces c r := by
  rw [Bool.eq_iff_iff, nfs4Grants, decide_eq_true_eq,
    nfs4Settles_translateOne hb hs hd, posixGrants_eq hs]
  apply Standing.nfs4_iff_posix
  · intro h
    obtain ⟨a, ha, he⟩ := map_eq_some_iff.1 h
    refine (contains_summarize_users hs).trans ?_
    exact List.any_eq_true.2 ⟨a, List.mem_of_find?_eq_some ha, he⟩
  · intro h
    refine (contains_summarize_groups hs).trans ?_
    obtain ⟨a, ha, he⟩ := List.any_eq_true.1 ((List.any_map).symm.trans h)
    exact List.any_eq_true.2 ⟨a, (List.mem_filter.1 ha).1, he⟩

end Evaluation

section Conversion

variable {acl : PosixAcl} {dir : Bool} {ace : Nfs4Ace} {aces : List PosixAce}

theorem eq_of_mem_denyAce {flags : Nfs4Flag} {who : Nfs4Who} {id : ℤ} {deny : PosixPerm}
    (h : ace ∈ denyAce flags who id deny dir) :
    ace = new .deny flags (denyMaskFromPosix deny dir) who id := by
  unfold denyAce at h
  split_ifs at h
  · simp at h
  · exact List.mem_singleton.1 h

/-- How the ACEs of each half are marked: those of the default half are for children, and
for children only. -/
def ofHalf (inherit_only : Bool) (ace : Nfs4Ace) : Prop :=
  ace.settlesAccess = true ∧ contains ace.ace_flags Nfs4Flag.INHERIT_ONLY = inherit_only ∧
    intersects ace.ace_flags INHERITABLE = inherit_only

theorem ofHalf_of_mem_translateOne {io : Bool}
    (h : ace ∈ translateOne aces dir io) : ofHalf io ace := by
  have he : contains (eflag io) Nfs4Flag.INHERIT_ONLY = io ∧
      intersects (eflag io) INHERITABLE = io := by
    cases io <;> decide
  have hg : contains (gflag io) Nfs4Flag.INHERIT_ONLY = io ∧
      intersects (gflag io) INHERITABLE = io := by
    cases io <;> decide
  simp only [translateOne, List.mem_append, List.mem_flatMap, List.mem_map, List.mem_singleton] at h
  rcases h with (((((((h | rfl) | ⟨a, _, h | rfl⟩) | rfl) | ⟨a, _, rfl⟩) | h) | ⟨a, _, h⟩) | rfl)
  · exact eq_of_mem_denyAce h ▸ ⟨rfl, he⟩
  · exact ⟨rfl, he⟩
  · exact eq_of_mem_denyAce h ▸ ⟨rfl, he⟩
  · exact ⟨rfl, he⟩
  · exact ⟨rfl, he⟩
  · exact ⟨rfl, hg⟩
  · exact eq_of_mem_denyAce h ▸ ⟨rfl, he⟩
  · exact eq_of_mem_denyAce h ▸ ⟨rfl, hg⟩
  · exact ⟨rfl, he⟩

theorem filter_translateOne {p : Nfs4Ace → Bool} (keep : Bool → Bool)
    (h : ∀ io ace, ofHalf io ace → p ace = keep io) (dir : Bool)
    (aces : List PosixAce) (io : Bool) : (translateOne aces dir io).filter p =
      if keep io then translateOne aces dir io else [] := by
  have hp : ∀ ace ∈ translateOne aces dir io, p ace = keep io :=
    fun ace ha => h _ ace (ofHalf_of_mem_translateOne ha)
  rw [List.filter_congr hp]
  cases keep io <;> simp

/-- The runs of ACEs, for the object and for its children. -/
theorem toNfs4Lossy_eq (h : acl.validate dir = .ok ()) : ∃ nfs4, acl.toNfs4Lossy dir = .ok nfs4 ∧
      nfs4.effectiveAces = translateOne acl.access dir false ∧
      nfs4.inheritableAces = acl.default.elim [] (translateOne · dir true) ∧
      ∀ d, acl.default = some d → nfs4.inheritOnlyAces = translateOne d dir true := by
  rw [PosixAcl.toNfs4Lossy, h]
  have he (aces : List PosixAce) (io : Bool) :
      (translateOne aces dir io).filter (fun a => a.settlesAccess &&
        !contains a.ace_flags Nfs4Flag.INHERIT_ONLY) = _ :=
    filter_translateOne not (fun _ ace h => by simp [h.1, h.2.1]) dir aces io
  have hin (aces : List PosixAce) (io : Bool) :
      (translateOne aces dir io).filter (fun a => a.settlesAccess &&
        intersects a.ace_flags INHERITABLE) = _ :=
    filter_translateOne id (fun _ ace h => by simp [h.1, h.2.2]) dir aces io
  have ho (aces : List PosixAce) (io : Bool) :
      (translateOne aces dir io).filter (fun a => a.settlesAccess &&
        contains a.ace_flags Nfs4Flag.INHERIT_ONLY) = _ :=
    filter_translateOne id (fun _ ace h => by simp [h.1, h.2.1]) dir aces io
  refine ⟨_, rfl, ?_, ?_, ?_⟩
  · cases acl.default <;>
      simp [Nfs4Acl.effectiveAces, he]
  · cases acl.default <;>
      simp [Nfs4Acl.inheritableAces, hin]
  · intro d hd
    simp [hd, Nfs4Acl.inheritOnlyAces, ho]

/-- A right is granted on a run of ACEs when all of its bits are, and when any of them is. -/
def SameAccess (aces : List PosixAce) (run : List Nfs4Ace) (is_dir : Bool) (c : Caller)
    (r : Right) : Prop :=
  (posixGrants aces c r = true ↔ ∀ bit ∈ r.nfs4 is_dir, nfs4Grants run c bit = true) ∧
    (posixGrants aces c r = true ↔ ∃ bit ∈ r.nfs4 is_dir, nfs4Grants run c bit = true)

theorem sameAccess_translateOne (hs : OneOfEach aces)
    (hd : DistinctIds aces) (io : Bool) (c : Caller) (r : Right) :
    SameAccess aces (translateOne aces dir io) dir c r := by
  obtain ⟨bit, hb⟩ := List.exists_mem_of_ne_nil _ (r.nfs4_ne_nil dir)
  have heq {bit : Nfs4Perm} (hb : bit ∈ r.nfs4 dir) :
      nfs4Grants (translateOne aces dir io) c bit = posixGrants aces c r :=
    nfs4Grants_translateOne hs hd hb
  refine ⟨⟨fun h bit hb => (heq hb).trans h, fun h => ?_⟩, ⟨fun h => ?_, ?_⟩⟩
  · exact (heq hb).symm.trans (h bit hb)
  · exact ⟨bit, hb, (heq hb).trans h⟩
  · rintro ⟨bit, hb, h⟩
    exact (heq hb).symm.trans h

/-- For every caller and right, the POSIX check on a valid ACL and the converted ACEs agree:
on the object itself, and for its children on the default list. -/
theorem toNfs4Lossy_preserves_access (acl : PosixAcl) (is_dir : Bool)
    (hlength : acl.Countable) (hvalid : acl.validate is_dir = .ok ())
    (haccess : DistinctIds acl.access) (hdefault : ∀ d ∈ acl.default, DistinctIds d) :
    ∃ nfs4, acl.toNfs4Lossy is_dir = .ok nfs4 ∧ ∀ (c : Caller) (r : Right),
      SameAccess acl.access nfs4.effectiveAces is_dir c r ∧
      ∀ d, acl.default = some d → SameAccess d nfs4.inheritOnlyAces is_dir c r := by
  obtain ⟨nfs4, ho, he, -, hin⟩ := toNfs4Lossy_eq hvalid
  obtain ⟨hc, hdf⟩ := PosixAcl.wellFormed_of_validate hlength hvalid
  refine ⟨nfs4, ho, fun c r => ⟨?_, fun d hd => ?_⟩⟩
  · rw [he]
    exact sameAccess_translateOne hc.toOneOfEach haccess false c r
  · rw [hin d hd]
    exact sameAccess_translateOne (hdf d hd).2.toOneOfEach (hdefault d hd) true c r

/-- A directory whose mask holds back the write its group-class entries store. -/
def maskedDir : PosixAcl where
  access := [⟨.userObj, 5, -1, false⟩, ⟨.user, 7, 1000, false⟩, ⟨.groupObj, 7, -1, false⟩,
    ⟨.mask, 5, -1, false⟩, ⟨.other, 0, -1, false⟩]
  default := some [⟨.userObj, 7, -1, true⟩, ⟨.groupObj, 5, -1, true⟩, ⟨.other, 5, -1, true⟩]
  synthesized := false

theorem toNfs4Lossy_preserves_access_maskedDir :
    maskedDir.validate true = .ok () ∧ DistinctIds maskedDir.access ∧
      ∃ nfs4, maskedDir.toNfs4Lossy true = .ok nfs4 ∧
        SameAccess maskedDir.access nfs4.effectiveAces true ⟨false, 1000, ∅, true⟩ .write := by
  have hd : ∀ d ∈ maskedDir.default, DistinctIds d := by
    rintro d ⟨⟩
    decide
  obtain ⟨nfs4, ho, hs⟩ := toNfs4Lossy_preserves_access maskedDir true (by decide) rfl
    (by decide) hd
  exact ⟨rfl, by decide, nfs4, ho, (hs _ _).1⟩

theorem translateOne_owners (n : ℕ) (dir io : Bool) :
    translateOne (owners n) dir io = translateOne (owners 0) dir io := by
  have hs : summarize (owners n) = summarize (owners 0) := by
    simp [summarize, owners, foldl_add, add, tagged]
  have hf (tag : PosixTag) (h : tag ≠ .userObj) :
      (owners n).filter (fun a => a.tag = tag) = (owners 0).filter (fun a => a.tag = tag) := by
    simp [owners, h.symm]
  rw [translateOne, hs, hf .user (by decide), hf .group (by decide), translateOne]

theorem distinctIds_owners (n : ℕ) : DistinctIds (owners n) := by
  simp [DistinctIds, tagged, owners]

theorem not_sameAccess_owners {n : ℕ} (hn : n ≠ 0) :
    ¬SameAccess (owners n) (translateOne (owners n) false false) false ⟨true, 0, ∅, false⟩
      .read := by
  obtain ⟨n, rfl⟩ := Nat.exists_eq_succ_of_ne_zero hn
  have hg : posixGrants (owners (n + 1)) ⟨true, 0, ∅, false⟩ .read = true := rfl
  rw [translateOne_owners]
  have hno : nfs4Grants (translateOne (owners 0) false false) ⟨true, 0, ∅, false⟩
      Nfs4Perm.READ_DATA ≠ true := by decide
  exact fun h => hno (h.1.1 hg _ (by decide))

/-- Past 2³² owners' entries the first decides who is granted what, and the last is converted. -/
theorem toNfs4Lossy_takes_last_owner :
    let acl : PosixAcl := ⟨owners (2 ^ 32), none, false⟩
    acl.validate false = .ok () ∧ DistinctIds acl.access ∧
      ∃ nfs4, acl.toNfs4Lossy false = .ok nfs4 ∧
        ¬SameAccess acl.access nfs4.effectiveAces false ⟨true, 0, ∅, false⟩ .read := by
  intro acl
  have hvalid : acl.validate false = .ok () :=
    bind_unit_eq_ok_iff.2 ⟨validateEntries_owners (by decide), rfl⟩
  obtain ⟨nfs4, ho, he, -⟩ := toNfs4Lossy_eq hvalid
  refine ⟨hvalid, distinctIds_owners _, nfs4, ho, ?_⟩
  rw [he]
  exact not_sameAccess_owners (by decide)

end Conversion

end TruenasRos.Acl
