import TruenasRos.Acl.Posix

/-! # What validation accepts

`validateEntries` walks a list once and checks its counts at the end. A canonical list passes:
entries within rwx, in tag order, with usable named ids, and one entry of each class that must
be there. No other list passes that is too short for a count to wrap.
-/

namespace TruenasRos.Acl

open List BitFlags

def PosixTag.isNamed : PosixTag → Bool
  | .user | .group => true
  | _ => false

def tagged (tag : PosixTag) (aces : List PosixAce) : List PosixAce :=
  aces.filter fun a => a.tag = tag

/-- What validation ensures of a list: one entry of each required class, and at most
one mask. -/
structure OneOfEach (aces : List PosixAce) : Prop where
  user_obj : ∃ a, tagged .userObj aces = [a]
  group_obj : ∃ a, tagged .groupObj aces = [a]
  other : ∃ a, tagged .other aces = [a]
  mask : (tagged .mask aces).length ≤ 1

/-- What one entry has to satisfy, whatever surrounds it. -/
structure PosixAce.Admissible (a : PosixAce) : Prop where
  rwx : contains PosixPerm.all a.perms = true
  id : a.tag.isNamed = true → 0 ≤ a.id ∧ a.id < 2 ^ 32 ∧ a.id ≠ SPECIAL_ID

/-- The lists validation is to accept. -/
structure Canonical (aces : List PosixAce) : Prop extends OneOfEach aces where
  admissible : ∀ a ∈ aces, a.Admissible
  ordered : aces.Pairwise fun a b => a.tag.toNat ≤ b.tag.toNat
  masked : (∃ a ∈ aces, a.tag.isNamed = true) → (tagged .mask aces).length = 1

section Counting

variable {aces : List PosixAce} {label : String} {n m : TagCounts} {a : PosixAce}

def TagCounts.count (n : TagCounts) (a : PosixAce) : TagCounts :=
  let n := { n with prev_tag := a.tag.toNat }
  match a.tag with
  | .userObj => { n with user_obj := n.user_obj + 1 }
  | .groupObj => { n with group_obj := n.group_obj + 1 }
  | .other => { n with other := n.other + 1 }
  | .mask => { n with mask := n.mask + 1 }
  | .user | .group => { n with named := n.named + 1 }

theorem validateNamedId_eq_ok_iff {id : ℤ} {tag kind : String} :
    validateNamedId id label tag kind = .ok () ↔ 0 ≤ id ∧ id < 2 ^ 32 ∧ id ≠ SPECIAL_ID := by
  unfold validateNamedId
  split_ifs with hn hb
  all_goals
    simp only [false_iff, true_iff]
    omega

theorem countEntry_eq_ok_iff :
    countEntry label n a = .ok m ↔ a.Admissible ∧ n.prev_tag ≤ a.tag.toNat ∧ m = n.count a := by
  have ha (hr : contains PosixPerm.all a.perms = true) : a.Admissible ↔
      (a.tag.isNamed = true → 0 ≤ a.id ∧ a.id < 2 ^ 32 ∧ a.id ≠ SPECIAL_ID) :=
    ⟨fun h => h.id, fun h => ⟨hr, h⟩⟩
  unfold countEntry
  split_ifs with hr ho
  · simp only [false_iff]
    rintro ⟨h, -⟩
    simp [h.rwx] at hr
  · simp only [false_iff]
    rintro ⟨-, h, -⟩
    omega
  · rw [ha (by simpa using hr)]
    have hn {tag kind : String} {k : TagCounts} :
        ((do validateNamedId a.id label tag kind; .ok k) = Except.ok m) ↔
          (0 ≤ a.id ∧ a.id < 2 ^ 32 ∧ a.id ≠ SPECIAL_ID) ∧ m = k := by
      rw [bind_unit_eq_ok_iff, validateNamedId_eq_ok_iff, Except.ok.injEq, eq_comm]
    cases ht : a.tag <;> rw [ht] at ho <;>
      simp [TagCounts.count, ht, PosixTag.isNamed, hn, not_lt.1 ho, eq_comm]

theorem foldlM_countEntry_eq_ok_iff :
    aces.foldlM (countEntry label) n = .ok m ↔ (∀ a ∈ aces, a.Admissible) ∧
      (∀ a ∈ aces, n.prev_tag ≤ a.tag.toNat) ∧
      aces.Pairwise (fun a b => a.tag.toNat ≤ b.tag.toNat) ∧ m = aces.foldl TagCounts.count n := by
  induction aces generalizing n with
  | nil => simp [pure, Except.pure, eq_comm]
  | cons a aces ih =>
    have hpr : (n.count a).prev_tag = a.tag.toNat := by
      unfold TagCounts.count
      cases a.tag <;> rfl
    simp only [foldlM_cons, bind_eq_ok_iff, countEntry_eq_ok_iff, forall_mem_cons,
      pairwise_cons, foldl_cons]
    constructor
    · rintro ⟨_, ⟨ha, hle, rfl⟩, h⟩
      obtain ⟨had, haf, ho, hm⟩ := ih.1 h
      rw [hpr] at haf
      exact ⟨⟨ha, had⟩, ⟨hle, fun b hb => hle.trans (haf b hb)⟩, ⟨haf, ho⟩, hm⟩
    · rintro ⟨⟨ha, had⟩, ⟨hle, _⟩, ⟨haf, ho⟩, hm⟩
      exact ⟨_, ⟨ha, hle, rfl⟩, ih.2 ⟨had, hpr ▸ haf, ho, hm⟩⟩

/-- How many entries have a tag of `p`, as a word counts them. -/
def counted (p : PosixTag → Bool) (aces : List PosixAce) : UInt32 :=
  .ofNat (aces.filter fun a => p a.tag).length

theorem counted_cons (p : PosixTag → Bool) (a : PosixAce) (aces : List PosixAce) :
    counted p (a :: aces) = (if p a.tag then 1 else 0) + counted p aces := by
  cases h : p a.tag <;> simp [counted, h, UInt32.ofNat_add, UInt32.add_comm]

theorem foldl_count (aces : List PosixAce) (n : TagCounts) : let m := aces.foldl TagCounts.count n
    m.user_obj = n.user_obj + counted (· = .userObj) aces ∧
      m.group_obj = n.group_obj + counted (· = .groupObj) aces ∧
      m.other = n.other + counted (· = .other) aces ∧
      m.mask = n.mask + counted (· = .mask) aces ∧
      m.named = n.named + counted PosixTag.isNamed aces := by
  induction aces generalizing n with
  | nil => simp [counted]
  | cons a aces ih =>
    have ht := ih (n.count a)
    simp only [foldl_cons, counted_cons] at ht ⊢
    cases htag : a.tag <;>
      simpa [TagCounts.count, htag, PosixTag.isNamed, UInt32.add_assoc] using ht

theorem checkCounts_eq_ok_iff :
    checkCounts label n = .ok () ↔ n.user_obj = 1 ∧ n.group_obj = 1 ∧ n.other = 1 ∧
      ¬1 < n.mask ∧ (0 < n.named → n.mask = 1) := by
  unfold checkCounts
  split_ifs <;> simp_all

theorem validateEntries_eq_ok_iff : validateEntries aces label = .ok () ↔
    (∀ a ∈ aces, a.Admissible) ∧ aces.Pairwise (fun a b => a.tag.toNat ≤ b.tag.toNat) ∧
      counted (· = .userObj) aces = 1 ∧ counted (· = .groupObj) aces = 1 ∧
      counted (· = .other) aces = 1 ∧ ¬1 < counted (· = .mask) aces ∧
      (0 < counted PosixTag.isNamed aces → counted (· = .mask) aces = 1) := by
  obtain ⟨hu, hg, ho, hma, hn⟩ := foldl_count aces .zero
  simp only [TagCounts.zero, UInt32.zero_add] at hu hg ho hma hn
  rw [validateEntries, bind_eq_ok_iff, ← hu, ← hg, ← ho, ← hma, ← hn, ← TagCounts.zero,
    ← checkCounts_eq_ok_iff]
  constructor
  · rintro ⟨m, hm, hc⟩
    obtain ⟨ha, -, hor, rfl⟩ := foldlM_countEntry_eq_ok_iff.1 hm
    exact ⟨ha, hor, hc⟩
  · rintro ⟨ha, hor, hc⟩
    exact ⟨_, foldlM_countEntry_eq_ok_iff.2 ⟨ha, fun _ _ => Nat.zero_le _, hor, rfl⟩, hc⟩

/-- A list too short for a count to wrap is accepted only if it is canonical. -/
theorem canonical_of_validateEntries (hl : aces.length < 2 ^ 32)
    (h : validateEntries aces label = .ok ()) : Canonical aces := by
  have hw (p : PosixTag → Bool) :
      (counted p aces).toNat = (aces.filter fun a => p a.tag).length :=
    UInt32.toNat_ofNat_of_lt' ((length_filter_le _ _).trans_lt hl)
  obtain ⟨ha, hor, hu, hg, ho, hm, hn⟩ := validateEntries_eq_ok_iff.1 h
  have hone {p : PosixTag → Bool} (h : counted p aces = 1) :
      (aces.filter fun a => p a.tag).length = 1 := by
    rw [← hw, h]
    rfl
  refine ⟨⟨length_eq_one_iff.1 (hone hu), length_eq_one_iff.1 (hone hg),
    length_eq_one_iff.1 (hone ho), ?_⟩, ha, hor, ?_⟩
  · rw [tagged, ← hw fun t => t = .mask]
    exact not_lt.1 fun hlt => hm (UInt32.lt_iff_toNat_lt.2 hlt)
  · rintro ⟨a, hmem, hna⟩
    refine hone (hn ?_)
    rw [UInt32.lt_iff_toNat_lt, hw]
    exact length_pos_of_mem (mem_filter.2 ⟨hmem, hna⟩)

theorem validateEntries_of_canonical (h : Canonical aces) :
    validateEntries aces label = .ok () := by
  have hn {tag : PosixTag} {n : ℕ} (h : (tagged tag aces).length = n) :
      counted (· = tag) aces = .ofNat n := congrArg UInt32.ofNat h
  refine validateEntries_eq_ok_iff.2 ⟨h.admissible, h.ordered, hn ?_, hn ?_, hn ?_, ?_, ?_⟩
  · exact length_eq_one_iff.2 h.user_obj
  · exact length_eq_one_iff.2 h.group_obj
  · exact length_eq_one_iff.2 h.other
  · rcases Nat.le_one_iff_eq_zero_or_eq_one.1 h.mask with hm | hm
    all_goals
      rw [hn hm]
      decide
  · intro hpos
    refine hn (h.masked ?_)
    by_contra hno
    have hz : aces.filter (fun a => a.tag.isNamed) = [] := by simpa using hno
    rw [counted, hz] at hpos
    exact absurd hpos (by decide)

/-- `n` owners' entries before the three of a minimal list. -/
def owners (n : ℕ) : List PosixAce :=
  replicate n ⟨.userObj, 7, -1, false⟩ ++
    [⟨.userObj, 0, -1, false⟩, ⟨.groupObj, 5, -1, false⟩, ⟨.other, 0, -1, false⟩]

theorem validateEntries_owners {n : ℕ} (hw : UInt32.ofNat n = 0) :
    validateEntries (owners n) label = .ok () := by
  have hc (p : PosixTag → Bool) : counted p (owners n) = counted p (owners 0) := by
    cases h : p .userObj <;> simp [counted, owners, h, UInt32.ofNat_add, hw]
  obtain ⟨ha, -, hk⟩ :=
    validateEntries_eq_ok_iff.1 (show validateEntries (owners 0) label = .ok () from rfl)
  refine validateEntries_eq_ok_iff.2 ⟨fun a hmem => ?_, ?_, ?_⟩
  · rcases mem_append.1 hmem with h | h
    · rw [eq_of_mem_replicate h]
      exact ⟨by decide, nofun⟩
    · exact ha a h
  · simp [owners, pairwise_append, PosixTag.toNat]
  · simpa only [hc] using hk

end Counting

/-- Both lists are canonical, and a default list belongs to a directory. -/
def PosixAcl.WellFormed (acl : PosixAcl) (is_dir : Bool) : Prop :=
  Canonical acl.access ∧ ∀ d ∈ acl.default, is_dir = true ∧ Canonical d

/-- Both lists are too short for a count of validation to wrap. -/
abbrev PosixAcl.Countable (acl : PosixAcl) : Prop :=
  acl.access.length < 2 ^ 32 ∧ ∀ d ∈ acl.default, d.length < 2 ^ 32

variable {acl : PosixAcl} {is_dir : Bool}

theorem PosixAcl.default_of_validate (h : acl.validate is_dir = .ok ()) {d : List PosixAce}
    (hd : acl.default = some d) (hl : d.length < 2 ^ 32) : is_dir = true ∧ Canonical d := by
  rw [PosixAcl.validate, bind_unit_eq_ok_iff, hd] at h
  cases is_dir with
  | false => cases h.2
  | true => exact ⟨rfl, canonical_of_validateEntries hl h.2⟩

theorem PosixAcl.wellFormed_of_validate (hl : acl.Countable) (h : acl.validate is_dir = .ok ()) :
    acl.WellFormed is_dir := by
  refine ⟨canonical_of_validateEntries hl.1 (bind_unit_eq_ok_iff.1 h).1, fun d hd => ?_⟩
  exact default_of_validate h hd (hl.2 d hd)

theorem PosixAcl.WellFormed.validate (h : acl.WellFormed is_dir) :
    acl.validate is_dir = .ok () := by
  refine bind_unit_eq_ok_iff.2 ⟨validateEntries_of_canonical h.1, ?_⟩
  cases hd : acl.default with
  | none => rfl
  | some d =>
    obtain ⟨rfl, hc⟩ := h.2 d hd
    exact validateEntries_of_canonical hc

end TruenasRos.Acl
