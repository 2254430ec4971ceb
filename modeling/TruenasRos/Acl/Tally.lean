import TruenasRos.Acl.Access

/-! # The conversion state one bit at a time

Seen at a single bit, the state that `process` folds holds one verdict per
entity. An id without a slot reads as `EVERYONE@`, which is what its slot would
be seeded from, so slots need not be created. Folding an ACE is then a step on
verdicts, and each entity's verdict is a cautious one for its callers.
-/

namespace TruenasRos.Acl

open List AceState AclState BitFlags FirstMatch Function Prod

def AceState.verdict (s : AceState) (i : ℕ) : Option Bool :=
  if s.allow.getLsbD i then some true else if s.deny.getLsbD i then some false else none

namespace AceState

variable (s : AceState) (mask : Nfs4Perm) (i : ℕ)

@[simp] theorem verdict_EMPTY : EMPTY.verdict i = none := by simp [verdict, EMPTY]

theorem verdict_eq_allowed_iff : s.verdict i = some true ↔ s.allow.getLsbD i = true := by
  unfold verdict
  split_ifs with ha hd <;> simp [ha]

theorem getLsbD_deny : s.deny.getLsbD i = decide (s.verdict i = some false) := by
  have hds := s.disjoint i
  unfold verdict
  split_ifs with ha hd <;> simp_all

theorem verdict_allowBits :
    (s.allowBits mask).verdict i = (s.verdict i).or (say (mask.getLsbD i) true) := by
  simp only [verdict, allowBits, say, BitVec.getLsbD_or, getLsbD_difference]
  by_cases ha : s.allow.getLsbD i = true
  · simp [ha]
  · by_cases hd : s.deny.getLsbD i = true <;> simp [ha, hd]

theorem verdict_denyBits :
    (s.denyBits mask).verdict i = (s.verdict i).or (say (mask.getLsbD i) false) := by
  simp only [verdict, denyBits, say, BitVec.getLsbD_or, getLsbD_difference]
  by_cases ha : s.allow.getLsbD i = true
  · simp [ha]
  · by_cases hd : s.deny.getLsbD i = true <;> simp [ha, hd]

end AceState

section Slots

def slotOf (list : AceSlots) (id : ℤ) : Option AceState :=
  (list.find? fun p => p.1 == id).map snd

variable {list : AceSlots} {ev : AceState} {id u : ℤ}

@[simp] theorem slotOf_cons (p : ℤ × AceState) :
    slotOf (p :: list) u = if p.1 = u then some p.2 else slotOf list u := by
  by_cases h : p.1 = u <;> simp [slotOf, h]

@[simp] theorem slotOf_map (f : AceState → AceState) :
    slotOf (list.map fun p => (p.1, f p.2)) u = (slotOf list u).map f := by
  induction list with
  | nil => rfl
  | cons p list ih =>
    rw [map_cons, slotOf_cons, slotOf_cons, ih]
    split_ifs <;> rfl

theorem slotOf_of_mem (hn : (list.map fst).Nodup) {p : ℤ × AceState} (hp : p ∈ list) :
    slotOf list p.1 = some p.2 := by
  induction list with
  | nil => simp at hp
  | cons q list ih =>
    rw [map_cons, nodup_cons] at hn
    rcases mem_cons.1 hp with rfl | hp
    · simp
    · have hne : q.1 ≠ p.1 := fun h => hn.1 (h ▸ mem_map_of_mem hp)
      simp [hne, ih hn.2 hp]

theorem slot_cons (p : ℤ × AceState) : slot (p :: list) ev id =
      if p.1 = id then (p :: list, 0) else (p :: (slot list ev id).1, (slot list ev id).2 + 1) := by
  unfold slot
  rw [findIdx?_cons]
  by_cases h : p.1 = id
  · simp [h]
  · simp only [beq_iff_eq, h, if_false]
    cases list.findIdx? fun p => p.1 == id <;> simp

theorem slotOf_modify_slot (f : AceState → AceState) :
    slotOf ((slot list ev id).1.modify (slot list ev id).2 fun p => (p.1, f p.2)) u =
      if u = id then some (f ((slotOf list id).getD ev)) else slotOf list u := by
  induction list with
  | nil =>
    by_cases h : u = id
    · simp [slot, slotOf, h]
    · simp [slot, h, Ne.symm h]
  | cons p list ih =>
    rw [slot_cons]
    by_cases hp : p.1 = id
    · by_cases hu : u = id
      · simp [hp, hu]
      · simp [hp, hu, Ne.symm hu]
    · by_cases hu : u = id
      · subst hu
        simp [hp, ih]
      · simp [hp, ih, hu]

theorem deniedAt_modify_slot (f : AceState → AceState) : deniedAt ((slot list ev id).1.modify
        (slot list ev id).2 fun p => (p.1, f p.2)) (slot list ev id).2 =
      (f ((slotOf list id).getD ev)).deny := by
  induction list with
  | nil => simp [slot, deniedAt, slotOf]
  | cons p list ih =>
    rw [slot_cons]
    by_cases hp : p.1 = id
    · simp [hp, deniedAt]
    · simp only [hp, if_false, modify_succ_cons, slotOf_cons]
      exact ih

theorem fst_modify_slot {g : ℤ × AceState → ℤ × AceState} (hg : ∀ p, (g p).1 = p.1) :
    ((slot list ev id).1.modify (slot list ev id).2 g).map fst =
      if id ∈ list.map fst then list.map fst else list.map fst ++ [id] := by
  induction list with
  | nil => simp [slot, hg]
  | cons p list ih =>
    rw [slot_cons]
    by_cases hp : p.1 = id
    · simp [hp, hg]
    · simp only [hp, if_false, modify_succ_cons, map_cons, ih, mem_cons, Ne.symm hp, false_or]
      split_ifs <;> rfl

end Slots

/-- The verdicts on one bit, entity by entity. -/
@[ext] structure Tally where
  owner : Option Bool
  group : Option Bool
  other : Option Bool
  users : ℤ → Option Bool
  groups : ℤ → Option Bool

namespace Tally

def new : Tally := ⟨none, none, none, fun _ => none, fun _ => none⟩

/-- Fold in an ACE for the class `tag` that allows or denies, and names the bit or not. -/
def step (t : Tally) (tag : PosixTag) (id : ℤ) (allow names : Bool) : Tally :=
  let v := say names allow
  match tag, allow with
  | .userObj, _ => { t with owner := t.owner.or v }
  | .user, true => { t with users := update t.users id ((t.users id).or v) }
  | .user, false =>
    { t with
      users := update t.users id ((t.users id).or v)
      owner := spill ((t.users id).or v) t.owner }
  | .groupObj, true => { t with group := t.group.or v }
  | .groupObj, false =>
    { t with
      group := t.group.or v
      owner := spill (t.group.or v) t.owner
      users := fun u => spill (t.group.or v) (t.users u)
      groups := fun g => spill (t.group.or v) (t.groups g) }
  | .group, true => { t with groups := update t.groups id ((t.groups id).or v) }
  | .group, false =>
    { t with
      owner := spill ((t.groups id).or v) t.owner
      group := spill ((t.groups id).or v) t.group
      users := fun u => spill ((t.groups id).or v) (t.users u)
      groups := fun g => spill ((t.groups id).or v)
        (update t.groups id ((t.groups id).or v) g) }
  | .other, _ =>
    { owner := t.owner.or v
      group := t.group.or v
      other := t.other.or v
      users := fun u => (t.users u).or v
      groups := fun g => (t.groups g).or v }
  | .mask, _ => t

variable {t : Tally} {id : ℤ} {allow names : Bool}

theorem step_user : t.step .user id allow names =
    { t with
      users := update t.users id ((t.users id).or (say names allow))
      owner := heard allow ((t.users id).or (say names allow)) t.owner } := by
  cases allow <;> rfl

theorem step_groupObj : t.step .groupObj id allow names =
    { t with
      group := t.group.or (say names allow)
      owner := heard allow (t.group.or (say names allow)) t.owner
      users := fun u => heard allow (t.group.or (say names allow)) (t.users u)
      groups := fun g => heard allow (t.group.or (say names allow)) (t.groups g) } := by
  cases allow <;> rfl

theorem step_group : t.step .group id allow names =
    { t with
      owner := heard allow ((t.groups id).or (say names allow)) t.owner
      group := heard allow ((t.groups id).or (say names allow)) t.group
      users := fun u => heard allow ((t.groups id).or (say names allow)) (t.users u)
      groups := fun g => heard allow ((t.groups id).or (say names allow))
        (update t.groups id ((t.groups id).or (say names allow)) g) } := by
  cases allow <;> rfl

end Tally

namespace AclState

variable (s : AclState) (ace : Nfs4Ace) (i : ℕ)

/-- The verdict kept for an id: its slot's, or the one a new slot would be seeded with. -/
def named (s : AclState) (list : AceSlots) (id : ℤ) : AceState :=
  (slotOf list id).getD s.everyone

def tally (s : AclState) (i : ℕ) : Tally where
  owner := s.owner.verdict i
  group := s.group.verdict i
  other := s.other.verdict i
  users := fun u => (s.named s.users u).verdict i
  groups := fun g => (s.named s.groups g).verdict i

@[simp] theorem tally_new : new.tally i = Tally.new := by
  simp [tally, new, Tally.new, named, slotOf]

variable (list : AceSlots) (mask : Nfs4Perm) (id u : ℤ)

theorem verdict_modify_slot (f : AceState → AceState) :
    ((slotOf ((slot list s.everyone id).1.modify (slot list s.everyone id).2
        fun p => (p.1, f p.2)) u).getD s.everyone).verdict i =
      update (fun v => (s.named list v).verdict i) id ((f (s.named list id)).verdict i)
        u := by
  rw [slotOf_modify_slot]
  by_cases h : u = id
  · subst h
    simp [named]
  · simp [h, named]

theorem fst_allowBitsAll : (allowBitsAll list mask).map fst = list.map fst := by
  simp [allowBitsAll]

theorem fst_denyBitsAll : (denyBitsAll list mask).map fst = list.map fst := by
  simp [denyBitsAll]

/-- One bit of `process` is a step on verdicts. -/
theorem tally_process : (s.process ace).tally i =
      (s.tally i).step (ace2tag ace) ace.who_id ace.isAllow (ace.access_mask.getLsbD i) := by
  have hal := fun list id u => s.verdict_modify_slot i list id u (·.allowBits ace.access_mask)
  have hde := fun list id u => s.verdict_modify_slot i list id u (·.denyBits ace.access_mask)
  have hda := fun list =>
    @deniedAt_modify_slot list s.everyone ace.who_id (·.denyBits ace.access_mask)
  have hma := fun list mask u => @slotOf_map list u (·.denyBits mask)
  unfold Nfs4Ace.isAllow
  by_cases ha : ace.ace_type = .allow
  · cases ht : ace2tag ace <;>
      simp [process, ht, ha, Tally.step, tally, named, allowAt, hal, verdict_allowBits,
        allowBitsAll, slotOf_map (·.allowBits ace.access_mask)]
  · cases ht : ace2tag ace <;>
      simp [process, ht, ha, Tally.step, tally, named, denyAt, hde, hda, denyBitsAll, hma,
        getLsbD_deny, verdict_denyBits, spill]

end AclState

theorem verdict_slot {s : AclState} {list : AceSlots} {p : ℤ × AceState}
    (hn : (list.map fst).Nodup) (hp : p ∈ list) (i : ℕ) :
    (s.named list p.1).verdict i = p.2.verdict i := by
  simp [named, slotOf_of_mem hn hp]

end TruenasRos.Acl
