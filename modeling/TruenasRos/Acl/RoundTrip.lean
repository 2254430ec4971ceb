import TruenasRos.Acl.Telling

/-! # The round trip through NFS4

A POSIX list converted to ACEs and back comes out with its mask folded into the
entries the mask limits, and a second round trip changes nothing.
-/

namespace TruenasRos.Acl

open BitFlags List PosixAce PosixTag

section Folding

/-- The entries a MASK limits. -/
def PosixTag.inGroupClass : PosixTag → Bool
  | .user | .groupObj | .group => true
  | _ => false

variable (aces : List PosixAce)

/-- What a list's MASK leaves of the group class: everything without one. -/
def ceiling : PosixPerm :=
  (aces.find? fun a => a.tag = .mask).elim PosixPerm.all perms

def groupClass : PosixPerm :=
  (aces.filter fun a => a.tag.inGroupClass).foldl (fun p a => p ||| (a.perms &&& ceiling aces)) 0

/-- An entry with the mask of its list folded in. Special entries carry the id -1, and a
MASK stays only where there are named entries to limit. -/
def foldEntry (default : Bool) (a : PosixAce) : Option PosixAce :=
  match a.tag with
  | .userObj | .other => some { a with id := -1, default }
  | .groupObj => some { a with perms := a.perms &&& ceiling aces, id := -1, default }
  | .user | .group => some { a with perms := a.perms &&& ceiling aces, default }
  | .mask =>
    if aces.any fun b => b.tag.isNamed then
      some { a with perms := groupClass aces, id := -1, default }
    else none

/-- A list with its mask folded in, each named run in the order of its ids. -/
def foldMask (default : Bool) (aces : List PosixAce) : List PosixAce :=
  (aces.filterMap (foldEntry aces default)).insertionSort keyLe

def PosixAcl.foldMasks (acl : PosixAcl) : PosixAcl where
  access := foldMask false acl.access
  default := acl.default.map (foldMask true)
  synthesized := false

def PosixAcl.roundTrip (acl : PosixAcl) (is_dir : Bool) : Except Error PosixAcl := do
  let nfs4 ← acl.toNfs4Lossy is_dir
  nfs4.toPosixLossy is_dir

end Folding

section OneList

variable {aces es : List PosixAce} {dir io : Bool} {slots : AceSlots}

theorem eq_classes (h : aces.Pairwise fun a b => a.tag.toNat ≤ b.tag.toNat) :
    aces = tagged .userObj aces ++ tagged .user aces ++ tagged .groupObj aces ++
      tagged .group aces ++ tagged .mask aces ++ tagged .other aces := by
  induction aces with
  | nil => rfl
  | cons a aces ih =>
    obtain ⟨ha, hr⟩ := pairwise_cons.1 h
    have he (tag : PosixTag) (hlt : tag.toNat < a.tag.toNat) : tagged tag aces = [] := by
      refine filter_eq_nil_iff.2 fun b hb ht => ?_
      have hle := ha b hb
      rw [of_decide_eq_true ht] at hle
      omega
    have hc (tag : PosixTag) : tagged tag (a :: aces) =
        if a.tag = tag then a :: tagged tag aces else tagged tag aces := by
      simp [tagged, filter_cons]
    refine (congrArg (a :: ·) (ih hr)).trans ?_
    -- The entries after this one have tags no smaller than its own.
    cases ht : a.tag <;> rw [ht] at he <;> simp +decide [hc, ht, he]

theorem summarize_mask (h : OneOfEach aces) : (summarize aces).mask = ceiling aces := by
  have hm := h.mask
  rw [summarize, foldl_add, ceiling, find?_tag]
  rcases ht : tagged .mask aces with - | ⟨m, - | ⟨m', l⟩⟩
  · simp [PosixSummary.empty]
  · simp
  · simp [ht] at hm

theorem eff_eq (h : OneOfEach aces) (a : PosixAce) : a.eff aces = a.perms &&& ceiling aces := by
  rw [eff, summarize_mask h]

theorem summarize_group (h : OneOfEach aces) {g : PosixAce} (hg : tagged .groupObj aces = [g]) :
    (summarize aces).group = g.perms &&& ceiling aces := by
  rw [← summarize_mask h]
  simp [summarize, foldl_add, hg]

theorem any_inGroupClass (aces : List PosixAce) (f : PosixAce → Bool) :
    (aces.filter fun a => a.tag.inGroupClass).any f = ((tagged .groupObj aces).any f ||
        ((tagged .user aces).any f || (tagged .group aces).any f)) := by
  induction aces with
  | nil => rfl
  | cons a aces ih =>
    cases ht : a.tag <;>
      simp [tagged, ht, inGroupClass] at ih ⊢ <;>
      simp [ih, Bool.or_assoc, Bool.or_left_comm]

theorem contains_groupClass (r : Right) : contains (groupClass aces) r.posix =
      (aces.filter fun a => a.tag.inGroupClass).any fun a =>
        contains (a.perms &&& ceiling aces) r.posix := by
  obtain ⟨i, hi, hr⟩ := r.exists_twoPow_posix
  rw [groupClass, hr, contains_foldl_or (fun a : PosixAce => a.perms &&& ceiling aces) _ _ hi, ← hr]
  simp

theorem any_slots {r : Right}
    {bit : Nfs4Perm} (hb : bit ∈ r.nfs4 dir)
    (h : List.Forall₂ (fun p a => p.1 = a.id ∧ Spells dir p.2.allow (a.eff aces)) slots es) :
    (slots.any fun p => contains p.2.allow bit) =
      es.any fun a => contains (a.eff aces) r.posix := by
  induction h with
  | nil => rfl
  | cons hh _ ih => rw [any_cons, any_cons, ih, hh.2 r bit hb]

theorem spells_mask (hs : OneOfEach aces) (hd : DistinctIds aces) :
    Spells dir (((halfState aces dir io).users ++
        (halfState aces dir io).groups).foldl (fun acc p => acc ||| p.2.allow)
        (halfState aces dir io).group.allow) (groupClass aces) := by
  intro r bit hb
  obtain ⟨i, hi, rfl⟩ := Right.exists_twoPow_of_mem_nfs4 hb
  obtain ⟨g, hg⟩ := hs.group_obj
  rw [contains_foldl_or (fun p : ℤ × AceState => p.2.allow) _ _ hi, any_append,
    any_slots hb (users_spell hd), any_slots hb (groups_spell hd),
    spells_group r _ hb, summarize_group hs hg, contains_groupClass, any_inGroupClass, hg]
  simp [eff_eq hs]

theorem contains_all_groupClass (h : ∀ a ∈ aces, a.Admissible) :
    contains PosixPerm.all (groupClass aces) = true := by
  have hf : ∀ (l : List PosixAce) (p : PosixPerm), (∀ a ∈ l, a.Admissible) →
      contains PosixPerm.all p = true → contains PosixPerm.all
        (l.foldl (fun p a => p ||| (a.perms &&& ceiling aces)) p) = true := by
    intro l
    induction l with
    | nil => exact fun p _ hp => hp
    | cons a l ih =>
      intro p hl hp
      obtain ⟨ha, hl⟩ := forall_mem_cons.1 hl
      apply ih _ hl
      rw [contains_or_right, hp, contains_all_and ha.rwx, Bool.and_true]
  exact hf _ 0 (fun a ha => h a (mem_filter.1 ha).1) (by decide)

theorem map_slots (tag : PosixTag)
    (default : Bool) (hsh : OneOfEach aces) (had : ∀ a ∈ es, a.Admissible)
    (h : List.Forall₂ (fun p a => p.1 = a.id ∧ Spells dir p.2.allow (a.eff aces)) slots es) :
    (slots.map fun p => (⟨tag, lowModeFromNfs4 p.2.allow dir, p.1, default⟩ : PosixAce)) =
      es.map fun a => ⟨tag, a.perms &&& ceiling aces, a.id, default⟩ := by
  induction h with
  | nil => rfl
  | cons hh _ ih =>
    obtain ⟨ha, hr⟩ := forall_mem_cons.1 had
    have hs := hh.2
    rw [eff_eq hsh] at hs
    rw [map_cons, map_cons, ih hr, hs.lowMode (contains_all_and ha.rwx _), hh.1]

theorem tag_of_mem_tagged {tag : PosixTag} {a : PosixAce} (h : a ∈ tagged tag aces) :
    a ∈ aces ∧ a.tag = tag := by
  simpa [tagged] using h

theorem any_isNamed (aces : List PosixAce) : (aces.any fun a => a.tag.isNamed) =
      decide (0 < (tagged .user aces).length + (tagged .group aces).length) := by
  induction aces with
  | nil => rfl
  | cons a aces ih =>
    rw [any_cons, ih]
    cases ht : a.tag <;> simp [tagged, ht, isNamed]

theorem filterMap_tagged (tag : PosixTag) (ht : tag.isNamed = true) (default : Bool) :
    (tagged tag aces).filterMap (foldEntry aces default) =
      (tagged tag aces).map fun a => ⟨tag, a.perms &&& ceiling aces, a.id, default⟩ := by
  rw [← filterMap_eq_map]
  refine filterMap_congr fun a ha => ?_
  have hc := (tag_of_mem_tagged ha).2
  cases tag <;> simp_all [foldEntry, isNamed]

theorem filterMap_tagged_mask (h : Canonical aces) (default : Bool) :
    (tagged .mask aces).filterMap (foldEntry aces default) =
      if aces.any fun a => a.tag.isNamed then [⟨.mask, groupClass aces, -1, default⟩] else [] := by
  split_ifs with hn
  · obtain ⟨a, ha, hna⟩ := any_eq_true.1 hn
    obtain ⟨m, hm⟩ := length_eq_one_iff.1 (h.masked ⟨a, ha, hna⟩)
    have ht : m.tag = .mask := (tag_of_mem_tagged (hm ▸ mem_singleton_self m)).2
    rw [hm]
    simp [foldEntry, ht, hn]
  · refine filterMap_eq_nil_iff.2 fun m hm => ?_
    simp [foldEntry, (tag_of_mem_tagged hm).2, hn]

theorem stateToEntries_halfState (h : Canonical aces) (hd : DistinctIds aces) (default : Bool) :
    stateToEntries (halfState aces dir io) dir default =
      aces.filterMap (foldEntry aces default) := by
  obtain ⟨o, ho⟩ := h.user_obj
  obtain ⟨g, hg⟩ := h.group_obj
  obtain ⟨t, ht⟩ := h.other
  have hmem {a : PosixAce} {tag : PosixTag} (ha : tagged tag aces = [a]) : a ∈ aces ∧ a.tag = tag :=
    tag_of_mem_tagged (ha ▸ mem_singleton_self a)
  have had (tag : PosixTag) : ∀ a ∈ tagged tag aces, a.Admissible :=
    fun a ha => h.admissible a (tag_of_mem_tagged ha).1
  have hsh := h.toOneOfEach
  have hor : lowModeFromNfs4 (halfState aces dir io).owner.allow dir =
      o.perms := by
    have hs : (summarize aces).owner = o.perms := by simp [summarize, foldl_add, ho]
    exact (hs ▸ spells_owner).lowMode (h.admissible o (hmem ho).1).rwx
  have hgr : lowModeFromNfs4 (halfState aces dir io).group.allow dir =
      g.perms &&& ceiling aces := by
    refine (summarize_group hsh hg ▸ spells_group).lowMode ?_
    exact contains_all_and (h.admissible g (hmem hg).1).rwx _
  have hoh : lowModeFromNfs4 (halfState aces dir io).other.allow dir =
      t.perms := by
    have hs : (summarize aces).other = t.perms := by simp [summarize, foldl_add, ht]
    exact (hs ▸ spells_other).lowMode (h.admissible t (hmem ht).1).rwx
  have hu : List.Forall₂ _ (halfState aces dir io).users _ :=
    users_spell hd
  have hgp : List.Forall₂ _ (halfState aces dir io).groups _ :=
    groups_spell hd
  have hn : (0 < (halfState aces dir io).users.length +
      (halfState aces dir io).groups.length) ↔
        (aces.any fun a => a.tag.isNamed) = true := by
    rw [any_isNamed, decide_eq_true_eq, hu.length_eq, hgp.length_eq]
  have hc := congrArg (filterMap (foldEntry aces default)) (eq_classes h.ordered)
  simp only [filterMap_append, filterMap_tagged_mask h, ho, hg, ht,
    filterMap_tagged .user rfl, filterMap_tagged .group rfl] at hc
  rw [hc]
  simp only [stateToEntries, hor, hgr, hoh, map_slots .user default hsh (had _) hu,
    map_slots .group default hsh (had _) hgp, hn,
    (spells_mask hsh hd).lowMode (contains_all_groupClass h.admissible)]
  simp [foldEntry, (hmem ho).2, (hmem hg).2, (hmem ht).2]

end OneList

section Folded

variable {aces : List PosixAce} {default : Bool} {a b : PosixAce}

instance : Std.Total keyLe where
  total a b := by
    unfold keyLe
    omega

instance : IsTrans PosixAce keyLe where
  trans a b c := by
    unfold keyLe
    omega

/-- What becomes of an entry that is kept. -/
@[mk_iff] structure FoldsTo (aces : List PosixAce) (default : Bool) (a b : PosixAce) : Prop where
  tag : b.tag = a.tag
  default : b.default = default
  id : b.id = if a.tag.isNamed then a.id else -1
  perms : b.perms =
    if a.tag = .mask then groupClass aces
    else if a.tag.inGroupClass then a.perms &&& ceiling aces else a.perms
  named : a.tag = .mask → (aces.any fun c => c.tag.isNamed) = true

theorem foldEntry_eq_some_iff : foldEntry aces default a = some b ↔ FoldsTo aces default a b := by
  obtain ⟨btag, bperms, bid, bdefault⟩ := b
  rw [foldsTo_iff, foldEntry]
  cases ht : a.tag <;>
    simp only [isNamed, inGroupClass, Option.some.injEq, mk.injEq, Bool.false_eq_true, if_true,
      if_false, reduceCtorEq, false_implies, and_true, forall_const] <;>
    grind

theorem tagged_filterMap (tag : PosixTag) (l : List PosixAce) :
    tagged tag (l.filterMap (foldEntry aces default)) =
      (tagged tag l).filterMap (foldEntry aces default) := by
  unfold tagged
  rw [filter_filterMap, filterMap_filter]
  refine filterMap_congr fun a _ => ?_
  cases hf : foldEntry aces default a with
  | none => simp
  | some b => simp [Option.filter, (foldEntry_eq_some_iff.1 hf).tag]

theorem perm_foldMask : (foldMask default aces).Perm (aces.filterMap (foldEntry aces default)) :=
  perm_insertionSort _ _

theorem perm_tagged_foldMask (aces : List PosixAce) (default : Bool) (tag : PosixTag) :
    (tagged tag (foldMask default aces)).Perm
      ((tagged tag aces).filterMap (foldEntry aces default)) := by
  rw [← tagged_filterMap]
  exact perm_foldMask.filter _

theorem mem_foldMask : b ∈ foldMask default aces ↔ ∃ a ∈ aces, FoldsTo aces default a b := by
  simp [perm_foldMask.mem_iff, foldEntry_eq_some_iff]

theorem exists_tagged_foldMask {tag : PosixTag} (h : ∃ a, tagged tag aces = [a])
    (ht : tag ≠ .mask) : ∃ b, tagged tag (foldMask default aces) = [b] := by
  obtain ⟨a, ha⟩ := h
  have hc : a.tag = tag := (tag_of_mem_tagged (ha ▸ mem_singleton_self a)).2
  have hk : ∃ b, foldEntry aces default a = some b := by
    unfold foldEntry
    cases hca : a.tag <;> simp_all
  obtain ⟨b, hb⟩ := hk
  have hpe := perm_tagged_foldMask aces default tag
  rw [ha, filterMap_cons_some hb, filterMap_nil] at hpe
  exact ⟨b, hpe.eq_singleton⟩

theorem tagged_mask_foldMask (h : Canonical aces) : tagged .mask (foldMask default aces) =
      if aces.any fun a => a.tag.isNamed then [⟨.mask, groupClass aces, -1, default⟩] else [] := by
  have hpe := perm_tagged_foldMask aces default .mask
  rw [filterMap_tagged_mask h] at hpe
  split_ifs at hpe ⊢
  · exact hpe.eq_singleton
  · exact hpe.eq_nil

theorem exists_mem_foldMask (ha : a ∈ aces) (hc : a.tag.inGroupClass = true) :
    ∃ b ∈ foldMask default aces, b.tag = a.tag ∧ b.perms = a.perms &&& ceiling aces := by
  refine ⟨⟨a.tag, a.perms &&& ceiling aces, if a.tag.isNamed then a.id else -1, default⟩,
    mem_foldMask.2 ⟨a, ha, ?_⟩, rfl, rfl⟩
  constructor <;> cases ht : a.tag <;> simp_all [inGroupClass]

theorem exists_of_mem_foldMask (hb : b ∈ foldMask default aces) (hc : b.tag.inGroupClass = true) :
    ∃ a ∈ aces, b.tag = a.tag ∧ b.perms = a.perms &&& ceiling aces := by
  obtain ⟨a, ha, hf⟩ := mem_foldMask.1 hb
  refine ⟨a, ha, hf.tag, ?_⟩
  rw [hf.tag] at hc
  have hne : a.tag ≠ .mask := by
    intro hm
    rw [hm] at hc
    exact Bool.false_ne_true hc
  rw [hf.perms, if_neg hne, if_pos hc]

theorem any_isNamed_foldMask (aces : List PosixAce) (default : Bool) :
    ((foldMask default aces).any fun a => a.tag.isNamed) = aces.any fun a => a.tag.isNamed := by
  have hc {tag : PosixTag} (h : tag.isNamed = true) : tag.inGroupClass = true := by
    cases tag <;> simp_all [isNamed, inGroupClass]
  rw [Bool.eq_iff_iff, any_eq_true, any_eq_true]
  constructor
  · rintro ⟨b, hb, hn⟩
    obtain ⟨a, ha, ht, -⟩ := exists_of_mem_foldMask hb (hc hn)
    exact ⟨a, ha, ht ▸ hn⟩
  · rintro ⟨a, ha, hn⟩
    obtain ⟨b, hb, ht, -⟩ := exists_mem_foldMask ha (hc hn)
    exact ⟨b, hb, ht ▸ hn⟩

theorem canonical_foldMask (h : Canonical aces) : Canonical (foldMask default aces) where
  user_obj := exists_tagged_foldMask h.user_obj (by simp)
  group_obj := exists_tagged_foldMask h.group_obj (by simp)
  other := exists_tagged_foldMask h.other (by simp)
  mask := by
    rw [tagged_mask_foldMask h]
    split_ifs <;> simp
  admissible := by
    intro b hb
    obtain ⟨a, ha, hf⟩ := mem_foldMask.1 hb
    have had := h.admissible a ha
    constructor
    · rw [hf.perms]
      split_ifs
      · exact contains_all_groupClass h.admissible
      · exact contains_all_and had.rwx _
      · exact had.rwx
    · intro hn
      rw [hf.tag] at hn
      rw [hf.id, if_pos hn]
      exact had.id hn
  ordered := by
    refine (pairwise_insertionSort keyLe _).imp fun {a b} hle => ?_
    unfold keyLe at hle
    omega
  masked := by
    rintro ⟨b, hb, hn⟩
    have hany := any_isNamed_foldMask aces default
    rw [any_eq_true.2 ⟨b, hb, hn⟩] at hany
    rw [tagged_mask_foldMask h, ← hany]
    rfl

theorem distinctIds_foldMask (h : DistinctIds aces) : DistinctIds (foldMask default aces) := by
  have hids (tag : PosixTag) (ht : tag.isNamed = true) :
      ((tagged tag (foldMask default aces)).map PosixAce.id).Perm
        ((tagged tag aces).map PosixAce.id) := by
    have hpe := (perm_tagged_foldMask aces default tag).map PosixAce.id
    rwa [filterMap_tagged tag ht, map_map] at hpe
  exact ⟨(hids .user rfl).nodup_iff.2 h.1, (hids .group rfl).nodup_iff.2 h.2⟩

theorem and_ceiling_foldMask (h : Canonical aces) (hb : b ∈ foldMask default aces)
    (hc : b.tag.inGroupClass = true) : b.perms &&& ceiling (foldMask default aces) = b.perms := by
  have hrwx := ((canonical_foldMask h).admissible b hb).rwx
  apply PosixPerm.ext (contains_all_and hrwx _) hrwx
  intro r
  rw [contains_posix_and, ceiling, find?_tag, tagged_mask_foldMask h]
  split_ifs
  · cases hr : contains b.perms r.posix with
    | false => rfl
    | true =>
      obtain ⟨a, ha, ht, hpe⟩ := exists_of_mem_foldMask hb hc
      refine (contains_groupClass r).trans (any_eq_true.2 ⟨a, ?_, hpe ▸ hr⟩)
      exact mem_filter.2 ⟨ha, ht ▸ hc⟩
  · simp

theorem groupClass_foldMask (h : Canonical aces) (default : Bool) :
    groupClass (foldMask default aces) = groupClass aces := by
  have hf : Canonical (foldMask default aces) := canonical_foldMask h
  apply PosixPerm.ext (contains_all_groupClass hf.admissible)
    (contains_all_groupClass h.admissible)
  intro r
  rw [contains_groupClass, contains_groupClass, Bool.eq_iff_iff, any_eq_true, any_eq_true]
  simp only [mem_filter]
  constructor
  · rintro ⟨b, ⟨hb, hc⟩, hr⟩
    rw [and_ceiling_foldMask h hb hc] at hr
    obtain ⟨a, ha, ht, hpe⟩ := exists_of_mem_foldMask hb hc
    exact ⟨a, ⟨ha, ht ▸ hc⟩, hpe ▸ hr⟩
  · rintro ⟨a, ⟨ha, hc⟩, hr⟩
    obtain ⟨b, hb, ht, hpe⟩ := exists_mem_foldMask ha hc
    have hc' : b.tag.inGroupClass = true := ht ▸ hc
    refine ⟨b, ⟨hb, hc'⟩, ?_⟩
    rw [and_ceiling_foldMask h hb hc', hpe]
    exact hr

theorem foldMask_foldMask (h : Canonical aces) :
    foldMask default (foldMask default aces) = foldMask default aces := by
  have hk : ∀ b ∈ foldMask default aces, foldEntry (foldMask default aces) default b = some b := by
    intro b hb
    obtain ⟨a, ha, hf⟩ := mem_foldMask.1 hb
    refine foldEntry_eq_some_iff.2 ⟨rfl, hf.default, ?_, ?_, fun hm => ?_⟩
    · split_ifs with hn
      · rfl
      · rw [hf.tag] at hn
        rw [hf.id, if_neg hn]
    · split_ifs with hm hc
      · rw [hf.tag] at hm
        rw [hf.perms, if_pos hm, groupClass_foldMask h default]
      · exact (and_ceiling_foldMask h hb hc).symm
      · rfl
    · rw [any_isNamed_foldMask]
      exact hf.named (hf.tag ▸ hm)
  have hs : (foldMask default aces).filterMap (foldEntry (foldMask default aces) default) =
      foldMask default aces := by
    rw [filterMap_congr hk, filterMap_some]
  conv_lhs => rw [foldMask, hs]
  exact (pairwise_insertionSort keyLe _).insertionSort_eq

end Folded

section Trip

variable {acl : PosixAcl} {dir : Bool}

theorem fromAces_halves {access default : List PosixAce} (ha : ∀ a ∈ access, a.default = false)
    (hd : ∀ a ∈ default, a.default = true) :
    PosixAcl.fromAces (access ++ default) =
      { access := access.insertionSort keyLe
        default := if default.isEmpty then none else some (default.insertionSort keyLe)
        synthesized := false } := by
  have hl : (access ++ default).filter (fun a => !a.default) = access := by
    rw [filter_append, filter_eq_self.2 (by simpa using ha),
      filter_eq_nil_iff.2 (by simpa using hd), append_nil]
  have hr : (access ++ default).filter (fun a => a.default) = default := by
    rw [filter_append, filter_eq_nil_iff.2 (by simpa using ha),
      filter_eq_self.2 (by simpa using hd), nil_append]
  unfold PosixAcl.fromAces
  simp [hl, hr]

theorem exists_special_translateOne (aces : List PosixAce) (dir io : Bool) :
    ∀ who ∈ [Nfs4Who.owner, .group, .everyone],
      ∃ ace ∈ translateOne aces dir io, ace.who_type = who := by
  rw [translateOne_eq_parts]
  simp only [forall_mem_cons, not_mem_nil, false_implies, implies_true, and_true]
  refine ⟨⟨Nfs4Ace.new .allow (eflag io)
    (maskFromPosix (summarize aces).owner dir true) .owner (-1), ?_, rfl⟩,
    ⟨groupAllow aces dir io, ?_, rfl⟩,
    ⟨everyoneAllow aces dir io, ?_, rfl⟩⟩
  · simp [ownerPart]
  · simp
  · simp

section

variable (h : acl.WellFormed dir)
include h

theorem builtLists_eq {nfs4 : Nfs4Acl}
    (hac : DistinctIds acl.access) (hde : ∀ d ∈ acl.default, DistinctIds d)
    (he : nfs4.effectiveAces = translateOne acl.access dir false)
    (hin : nfs4.inheritableAces = acl.default.elim [] (translateOne · dir true)) :
    nfs4.builtLists dir = acl.foldMasks := by
  obtain ⟨hca, hdf⟩ := h
  have hf : stateToEntries (AclState.run nfs4.effectiveAces) dir false =
      acl.access.filterMap (foldEntry acl.access false) := by
    rw [he]
    exact stateToEntries_halfState hca hac false
  have hse : ((if (nfs4.defaultState dir).valid ≠ 0 then
      stateToEntries (nfs4.defaultState dir) dir true else []) : List PosixAce) =
      acl.default.elim [] fun d => d.filterMap (foldEntry d true) := by
    cases hd : acl.default with
    | none =>
      rw [hd] at hin
      have hn : nfs4.inheritedAces dir = [] := by
        cases dir
        · rfl
        · exact hin
      have hs : nfs4.defaultState dir = AclState.new := by
        rw [Nfs4Acl.defaultState, hn]
        rfl
      rw [hs]
      rfl
    | some d =>
      obtain ⟨rfl, hcn⟩ := hdf d hd
      have hd' : nfs4.inheritableAces = translateOne d true true := by
        rw [hin, hd]
        rfl
      have hsp := exists_special_translateOne d true true
      rw [← hd'] at hsp
      obtain ⟨hs, hv⟩ := defaultState_of_named hsp
      rw [if_pos hv, hs, hd']
      exact stateToEntries_halfState hcn (hde d hd) true
  have hem (d : List PosixAce) (hc : Canonical d) :
      (d.filterMap (foldEntry d true)).isEmpty = false := by
    have hfo : Canonical (foldMask true d) := canonical_foldMask hc
    obtain ⟨b, hb⟩ := hfo.user_obj
    have hmem := (tag_of_mem_tagged (hb ▸ mem_singleton_self b)).1
    rw [isEmpty_eq_false_iff_exists_mem]
    exact ⟨b, perm_foldMask.mem_iff.1 hmem⟩
  rw [Nfs4Acl.builtLists, fromAces_halves, hf, hse]
  · unfold PosixAcl.foldMasks
    cases hd : acl.default with
    | none => rfl
    | some d =>
      simp only [Option.elim_some, hem d (hdf d hd).2, Bool.false_eq_true, if_false]
      rfl
  · exact fun a ha => (of_mem_stateToEntries ha).1
  · intro a ha
    split_ifs at ha
    · exact (of_mem_stateToEntries ha).1
    · simp at ha

theorem wellFormed_foldMasks : acl.foldMasks.WellFormed dir := by
  refine ⟨canonical_foldMask h.1, fun d hd => ?_⟩
  obtain ⟨e, he, rfl⟩ := Option.map_eq_some_iff.1 hd
  exact ⟨(h.2 e he).1, canonical_foldMask (h.2 e he).2⟩

theorem roundTrip_eq (ha : DistinctIds acl.access) (hd : ∀ d ∈ acl.default, DistinctIds d) :
    acl.roundTrip dir = .ok acl.foldMasks := by
  obtain ⟨nfs4, ho, he, hin, -⟩ := toNfs4Lossy_eq h.validate
  have hb := builtLists_eq h ha hd he hin
  rw [PosixAcl.roundTrip, ho]
  refine (toPosixLossy_eq nfs4 dir).trans ?_
  rw [hb, (wellFormed_foldMasks h).validate]
  rfl

theorem foldMasks_foldMasks : acl.foldMasks.foldMasks = acl.foldMasks := by
  unfold PosixAcl.foldMasks
  simp only [foldMask_foldMask h.1, Option.map_map, PosixAcl.mk.injEq, true_and, and_true]
  cases hd : acl.default with
  | none => rfl
  | some d => exact congrArg some (foldMask_foldMask (h.2 d hd).2)

end

/-- The round trip of a valid ACL with distinct named ids succeeds, folds the masks and
changes nothing else but the ids of special entries and the marks of the two lists, which
come out as they are documented. A second round trip is the identity. -/
theorem roundTrip_folds_masks (acl : PosixAcl) (is_dir : Bool) (hlength : acl.Countable)
    (hvalid : acl.validate is_dir = .ok ())
    (haccess : DistinctIds acl.access) (hdefault : ∀ d ∈ acl.default, DistinctIds d) :
    acl.roundTrip is_dir = .ok acl.foldMasks ∧
      acl.foldMasks.roundTrip is_dir = .ok acl.foldMasks := by
  have h := PosixAcl.wellFormed_of_validate hlength hvalid
  refine ⟨roundTrip_eq h haccess hdefault, ?_⟩
  refine (roundTrip_eq (wellFormed_foldMasks h) (distinctIds_foldMask haccess) ?_).trans ?_
  · intro d hd
    obtain ⟨e, he, rfl⟩ := Option.map_eq_some_iff.1 hd
    exact distinctIds_foldMask (hdefault e he)
  · rw [foldMasks_foldMasks h]

theorem roundTrip_folds_masks_maskedDir : maskedDir.roundTrip true = .ok maskedDir.foldMasks ∧
      maskedDir.foldMasks.access =
        [⟨.userObj, 5, -1, false⟩, ⟨.user, 5, 1000, false⟩, ⟨.groupObj, 5, -1, false⟩,
          ⟨.mask, 5, -1, false⟩, ⟨.other, 0, -1, false⟩] ∧
      maskedDir.foldMasks.default = maskedDir.default := by
  have hd : ∀ d ∈ maskedDir.default, DistinctIds d := by
    rintro d ⟨⟩
    decide
  have h := roundTrip_folds_masks maskedDir true (by decide) rfl (by decide) hd
  exact ⟨h.1, by decide, by decide⟩

/-- An ACL whose USER_OBJ entry carries an id, which validation does not look at. -/
def ownedFile : PosixAcl where
  access := [⟨.userObj, 6, 0, false⟩, ⟨.groupObj, 4, -1, false⟩, ⟨.other, 4, -1, false⟩]
  default := none
  synthesized := false

/-- Its USER_OBJ entry does not come back unchanged. -/
theorem roundTrip_drops_special_id :
    ownedFile.validate false = .ok () ∧ DistinctIds ownedFile.access ∧
      ∃ posix, ownedFile.roundTrip false = .ok posix ∧
        ⟨.userObj, 6, 0, false⟩ ∈ ownedFile.access ∧ ⟨.userObj, 6, 0, false⟩ ∉ posix.access := by
  refine ⟨rfl, by decide, _, rfl, by decide, by decide⟩

end Trip

end TruenasRos.Acl
