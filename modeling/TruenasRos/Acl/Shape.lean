import TruenasRos.Acl.PosixXattr

/-! # The shape of a POSIX1E list

The kernel reads the tags of a list with a state machine. Validation compares neighbouring tags
and counts instead, and accepts the same lists unless a count wraps.
-/

namespace TruenasRos.Acl

open BitFlags List PosixXattr

variable {aces : List PosixAce} {label : String}

/-- The tags in the kernel's order: `USER_OBJ USER* GROUP_OBJ GROUP* MASK? OTHER`. -/
def tagsOf (users groups masks : ℕ) : List PosixTag :=
  [.userObj] ++ replicate users .user ++ [.groupObj] ++ replicate groups .group ++
    replicate masks .mask ++ [.other]

/-- The sequences of tags that the kernel accepts. -/
def Shape (tags : List PosixTag) : Prop :=
  ∃ users groups masks, tags = tagsOf users groups masks ∧ masks ≤ 1 ∧
    (0 < users + groups → masks = 1)

/-- What an entry has to be like wherever it stands. -/
structure PosixAce.WithinRange (a : PosixAce) : Prop where
  rwx : contains PosixPerm.all a.perms = true
  id : a.tag = .user ∨ a.tag = .group → 0 ≤ a.id ∧ a.id ≤ 0xFFFFFFFE

theorem PosixTag.toNat_injective : Function.Injective PosixTag.toNat := by
  intro s t h
  cases s <;> cases t <;> first | rfl | cases h

theorem PosixAce.admissible_iff {a : PosixAce} : a.Admissible ↔ a.WithinRange := by
  have hn : a.tag.isNamed = true ↔ a.tag = .user ∨ a.tag = .group := by
    cases a.tag <;> simp [PosixTag.isNamed]
  have hr : (0 ≤ a.id ∧ a.id < 2 ^ 32 ∧ a.id ≠ SPECIAL_ID) ↔ 0 ≤ a.id ∧ a.id ≤ 0xFFFFFFFE := by
    unfold SPECIAL_ID
    omega
  constructor
  · intro h
    exact ⟨h.rwx, fun hid => hr.1 (h.id (hn.2 hid))⟩
  · intro h
    exact ⟨h.rwx, fun hid => hr.2 (h.id (hn.1 hid))⟩

theorem length_tagged (tag : PosixTag) (aces : List PosixAce) :
    (tagged tag aces).length = (aces.map PosixAce.tag).count tag := by
  rw [tagged, ← countP_eq_length_filter, count, countP_map]
  congr 1

theorem count_tagsOf (users groups masks : ℕ) (tag : PosixTag) :
    (tagsOf users groups masks).count tag = match tag with
      | .userObj | .groupObj | .other => 1
      | .user => users
      | .group => groups
      | .mask => masks := by
  cases tag <;> simp [tagsOf, count_replicate]

theorem pairwise_tagsOf (users groups masks : ℕ) :
    (tagsOf users groups masks).Pairwise fun s t => s.toNat ≤ t.toNat := by
  simp only [tagsOf, pairwise_append, pairwise_replicate, mem_append,
    mem_replicate, mem_singleton, pairwise_singleton]
  grind [PosixTag.toNat]

theorem eq_tagsOf {tags : List PosixTag} (ho : tags.Pairwise fun s t => s.toNat ≤ t.toNat)
    (hu : tags.count .userObj = 1) (hg : tags.count .groupObj = 1) (hoh : tags.count .other = 1) :
    tags = tagsOf (tags.count .user) (tags.count .group) (tags.count .mask) := by
  apply List.Perm.eq_of_pairwise _ ho (pairwise_tagsOf _ _ _)
  · rw [perm_iff_count]
    intro tag
    rw [count_tagsOf]
    cases tag <;> simp [hu, hg, hoh]
  · intro s t _ _ hle hge
    exact PosixTag.toNat_injective (Nat.le_antisymm hle hge)

theorem canonical_iff_shape :
    Canonical aces ↔ Shape (aces.map PosixAce.tag) ∧ ∀ a ∈ aces, a.WithinRange := by
  have hn : (∃ a ∈ aces, a.tag.isNamed = true) ↔
      0 < (aces.map PosixAce.tag).count .user + (aces.map PosixAce.tag).count .group := by
    rw [Nat.add_pos_iff_pos_or_pos, count_pos_iff, count_pos_iff]
    simp only [mem_map, ← exists_or, ← and_or_left]
    refine exists_congr fun a => and_congr_right fun _ => ?_
    cases a.tag <;> simp [PosixTag.isNamed]
  constructor
  · intro h
    refine ⟨⟨_, _, _, eq_tagsOf (pairwise_map.2 h.ordered) ?_ ?_ ?_, ?_, ?_⟩, ?_⟩
    · rw [← length_tagged, length_eq_one_iff]
      exact h.user_obj
    · rw [← length_tagged, length_eq_one_iff]
      exact h.group_obj
    · rw [← length_tagged, length_eq_one_iff]
      exact h.other
    · rw [← length_tagged]
      exact h.mask
    · rw [← length_tagged .mask, ← hn]
      exact h.masked
    · exact fun a ha => PosixAce.admissible_iff.1 (h.admissible a ha)
  · rintro ⟨⟨users, groups, masks, ht, hm, hms⟩, hr⟩
    have hl : ∀ tag, (tagged tag aces).length = _ := fun tag =>
      (length_tagged tag aces).trans (ht ▸ count_tagsOf users groups masks tag)
    refine ⟨⟨?_, ?_, ?_, ?_⟩, ?_, ?_, ?_⟩
    · exact length_eq_one_iff.1 (hl .userObj)
    · exact length_eq_one_iff.1 (hl .groupObj)
    · exact length_eq_one_iff.1 (hl .other)
    · exact (hl .mask).trans_le hm
    · exact fun a ha => PosixAce.admissible_iff.2 (hr a ha)
    · have ho := pairwise_tagsOf users groups masks
      rwa [← ht, pairwise_map] at ho
    · rw [hn, ht, count_tagsOf, count_tagsOf, hl]
      exact hms

/-- Validation accepts the lists of the kernel's shape, and of those too short for a count to wrap
no others. Each list it accepts is read back from its encoding. -/
theorem validateEntries_shape (aces : List PosixAce) (label : String) :
    (Shape (aces.map PosixAce.tag) ∧ (∀ a ∈ aces, a.WithinRange) →
        validateEntries aces label = .ok ()) ∧
      (validateEntries aces label = .ok () → (∀ a ∈ aces, a.WithinRange) ∧
        (aces.length < 2 ^ 32 → Shape (aces.map PosixAce.tag)) ∧
        ∀ is_default, ∃ data, encodeAces aces = .ok data ∧
          parseAces data is_default = .ok (aces.map (decoded is_default))) := by
  constructor
  · exact fun h => validateEntries_of_canonical (canonical_iff_shape.2 h)
  · intro h
    have ha := (validateEntries_eq_ok_iff.1 h).1
    refine ⟨fun a hm => PosixAce.admissible_iff.1 (ha a hm), fun hl => ?_, fun is_default => ?_⟩
    · exact (canonical_iff_shape.1 (canonical_of_validateEntries hl h)).1
    · obtain ⟨data, hd⟩ := exists_encodeAces ha
      exact ⟨data, hd, parseAces_encodeAces hd is_default⟩

theorem length_tagged_owners (n : ℕ) : (tagged .userObj (owners n)).length = n + 1 := by
  simp [tagged, owners]

/-- Past 2³² owners' entries the count is taken for one, and the list is accepted. -/
theorem owner_count_wraps : validateEntries (owners (2 ^ 32)) "access" = .ok () ∧
    ¬Shape ((owners (2 ^ 32)).map PosixAce.tag) := by
  refine ⟨validateEntries_owners (by decide), ?_⟩
  rintro ⟨users, groups, masks, ht, -⟩
  have hc := (length_tagged .userObj _).trans (ht ▸ count_tagsOf users groups masks .userObj)
  rw [length_tagged_owners] at hc
  cases hc

end TruenasRos.Acl
