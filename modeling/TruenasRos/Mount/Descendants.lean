import Mathlib.Data.List.Sigma
import Mathlib.Data.List.Sort
import TruenasRos.Error

/-! # Unmounting children before parents

A recursive unmount sorts the mounts beneath one by their depth, counted along
the parent links of the listing. The links of a listing may break off or run in
a circle; where they do not, a child is always deeper than its parent.
-/

namespace TruenasRos.Mount

open List Nat
open Relation (TransGen)

structure Statmount where
  mnt_id : Option ℕ
  mnt_parent_id : Option ℕ
  mnt_point : Option Bytes
  fs_type : Option String
  sb_source : Option String

def isZfsSnapshot (sm : Statmount) : Bool :=
  sm.fs_type = some "zfs" && sm.sb_source.any fun s => s.contains '@'

inductive InfoMask
  | FULL
  | BASE

/-- The answers of the two system calls. -/
structure Kernel where
  listmount : ℕ → Bool → Except Errno (List ℕ)
  statmount : ℕ → InfoMask → Except Errno Statmount

section Listing

variable (k : Kernel)

def statmountInfo (mnt_id : ℕ) : Except Errno Statmount :=
  match k.statmount mnt_id .FULL with
  | .error .EINVAL => k.statmount mnt_id .BASE
  | other => other

def iterIds (include_snapshots : Bool) : List ℕ → Except Error (List Statmount)
  | [] => .ok []
  | id :: ids =>
    match statmountInfo k id with
    | .error .ENOENT => iterIds include_snapshots ids
    | .error e => .error (.errno e)
    | .ok sm => (iterIds include_snapshots ids).map fun out =>
        if include_snapshots || !isZfsSnapshot sm then sm :: out else out

def iterMountinfo (mnt_id : ℕ) (reverse include_snapshots : Bool) : Except Error (List Statmount) :=
  match k.listmount mnt_id reverse with
  | .error e => .error (.errno e)
  | .ok ids => iterIds k include_snapshots ids

end Listing

section Depth

variable (mnt_id : ℕ) (mounts : List Statmount)

/-- The entries of the map, the last one first: it is the one that counts. -/
def parentOf : List (Σ _ : ℕ, ℕ) :=
  (mounts.filterMap fun m => do return ⟨← m.mnt_id, ← m.mnt_parent_id⟩).reverse

def depthFrom (id d : ℕ) : ℕ :=
  if id ≠ mnt_id ∧ d ≤ mounts.length then
    match dlookup id (parentOf mounts) with
    | some parent => depthFrom parent (d + 1)
    | none => d
  else d
termination_by mounts.length + 1 - d

def depthOf (start : ℕ) : ℕ :=
  depthFrom mnt_id mounts start 0

def deepestFirst : List Bytes :=
  let ordered := mounts.filterMap fun m =>
    do return (depthOf mnt_id mounts (← m.mnt_id), ← m.mnt_point)
  (ordered.insertionSort fun a b => b.1 ≤ a.1).map Prod.snd

def descendantsDeepestFirst (k : Kernel) : Except Error (List Bytes) := do
  return deepestFirst mnt_id (← iterMountinfo k mnt_id false true)

def Link (id parent : ℕ) : Prop :=
  ∃ m ∈ mounts, m.mnt_id = some id ∧ m.mnt_parent_id = some parent

/-- A listing of mounts beneath `mnt_id`. -/
structure Beneath : Prop where
  named : ∀ m ∈ mounts, ∃ id ≠ mnt_id, m.mnt_id = some id
  distinct : mounts.Pairwise fun a b => a.mnt_id ≠ b.mnt_id
  acyclic : ∀ id, ¬ TransGen (Link mounts) id id

/-- The mounts a climb has left, on its way to `id`. -/
structure Climbed (id : ℕ) (seen : List ℕ) : Prop where
  nodup : seen.Nodup
  links : ∀ i ∈ seen, TransGen (Link mounts) i id

/-- `a` lies no higher than `b`. -/
def NoHigher (a b : Statmount) : Prop :=
  depthOf mnt_id mounts (b.mnt_id.getD 0) ≤ depthOf mnt_id mounts (a.mnt_id.getD 0)
  deriving Decidable

instance : IsTrans Statmount (NoHigher mnt_id mounts) :=
  ⟨fun _ _ _ hab hbc => le_trans hbc hab⟩

instance : Std.Total (NoHigher mnt_id mounts) :=
  ⟨fun _ _ => le_total _ _⟩

variable {mnt_id mounts} {id d parent : ℕ} {seen : List ℕ}

theorem mem_parentOf_iff : ⟨id, parent⟩ ∈ parentOf mounts ↔ Link mounts id parent := by
  simp [parentOf, Link, bind, Option.bind_eq_some_iff]

/-- The count started one later ends one later, unless it runs into its bound. -/
theorem depthFrom_succ (hd : d ≤ mounts.length) : depthFrom mnt_id mounts id (d + 1) =
    min (depthFrom mnt_id mounts id d + 1) (mounts.length + 1) := by
  fun_induction depthFrom mnt_id mounts id d with
  | case1 id d hc parent hp ih =>
    rw [depthFrom]
    by_cases hl : d + 1 ≤ mounts.length
    · rw [if_pos ⟨hc.1, hl⟩, hp]
      exact ih hl
    · rw [if_neg fun h => hl h.2, depthFrom, if_neg fun h => hl h.2]
      omega
  | case2 id d hc hp =>
    rw [depthFrom, hp]
    simp [hd]
  | case3 id d hc =>
    rw [depthFrom, if_neg fun h => hc ⟨h.1, hd⟩]
    omega

theorem depthFrom_le_succ (hd : d ≤ mounts.length + 1) :
    depthFrom mnt_id mounts id d ≤ mounts.length + 1 := by
  fun_induction depthFrom mnt_id mounts id d with
  | case1 id d hc parent hp ih => exact ih (succ_le_succ hc.2)
  | case2 | case3 => exact hd

theorem Climbed.length_le (h : Climbed mounts id seen) : seen.length ≤ mounts.length := by
  have hs : seen ⊆ mounts.filterMap Statmount.mnt_id := by
    intro i hi
    obtain ⟨_, ⟨m, hm, hid, -⟩, -⟩ := TransGen.head'_iff.1 (h.links i hi)
    exact mem_filterMap.2 ⟨m, hm, hid⟩
  exact (h.nodup.subperm hs).length_le.trans (length_filterMap_le _ _)

variable (hb : Beneath mnt_id mounts)
include hb

theorem nodupKeys_parentOf : (parentOf mounts).NodupKeys := by
  apply (perm_nodupKeys (reverse_perm _)).2
  rw [nodupKeys_iff_pairwise, pairwise_filterMap]
  apply hb.distinct.imp
  intro a b hne x hx y hy hxy
  simp only [bind, pure, Option.bind_eq_some_iff, Option.some.injEq] at hx hy
  obtain ⟨i, hi, _, _, rfl⟩ := hx
  obtain ⟨j, hj, _, _, rfl⟩ := hy
  obtain rfl : i = j := hxy
  exact hne (hi.trans hj.symm)

/-- Without a cycle a climb ends before the bound: it never leaves a mount twice. -/
theorem depthFrom_le (h : Climbed mounts id seen) (hd : seen.length = d) :
    depthFrom mnt_id mounts id d ≤ mounts.length := by
  fun_induction depthFrom mnt_id mounts id d generalizing seen with
  | case1 id d hc parent hp ih =>
    have hl := mem_parentOf_iff.1 (of_mem_dlookup hp)
    apply @ih (id :: seen) _ (congrArg (· + 1) hd)
    constructor
    · exact nodup_cons.2 ⟨fun hi => hb.acyclic id (h.links id hi), h.nodup⟩
    · intro i hi
      rcases mem_cons.1 hi with rfl | hi
      · exact .single hl
      · exact (h.links i hi).tail hl
  | case2 | case3 => exact hd ▸ h.length_le

theorem depthOf_lt (h : Link mounts id parent) :
    depthOf mnt_id mounts parent < depthOf mnt_id mounts id := by
  have hle : depthFrom mnt_id mounts parent 0 ≤ mounts.length :=
    depthFrom_le hb ⟨nodup_nil, by simp⟩ rfl
  have hp : dlookup id (parentOf mounts) = some parent :=
    mem_dlookup (nodupKeys_parentOf hb) (mem_parentOf_iff.2 h)
  obtain ⟨m, hm, hid, -⟩ := h
  obtain ⟨_, hne, hid'⟩ := hb.named m hm
  obtain rfl := Option.some.inj (hid.symm.trans hid')
  have hs : depthOf mnt_id mounts id = depthFrom mnt_id mounts parent 1 := by
    rw [depthOf, depthFrom, if_pos ⟨hne, zero_le _⟩, hp]
  rw [hs, depthFrom_succ (zero_le _), depthOf]
  omega

/-- The sorted pairs are the sorted mounts. -/
theorem deepestFirst_eq : deepestFirst mnt_id mounts =
    ((mounts.filter (·.mnt_point.isSome)).insertionSort (NoHigher mnt_id mounts)).map
      fun m => m.mnt_point.getD [] := by
  have hf : (mounts.filterMap fun m => do
      return (depthOf mnt_id mounts (← m.mnt_id), ← m.mnt_point)) =
        (mounts.filter (·.mnt_point.isSome)).map fun m =>
          (depthOf mnt_id mounts (m.mnt_id.getD 0), m.mnt_point.getD []) := by
    rw [← filterMap_eq_map, filterMap_filter]
    apply filterMap_congr
    intro m hm
    obtain ⟨id, -, hid⟩ := hb.named m hm
    cases hp : m.mnt_point <;> simp [hid, hp]
  rw [deepestFirst, hf, ← map_insertionSort (NoHigher mnt_id mounts), map_map]
  · rfl
  · exact fun _ _ _ _ => Iff.rfl

end Depth

/-- Every mount point is returned once, and no parent before a listed child of it. -/
theorem descendants_deepest_first (k : Kernel) (mnt_id : ℕ) (mounts : List Statmount)
    (hk : iterMountinfo k mnt_id false true = .ok mounts) :
    ∃ points, descendantsDeepestFirst mnt_id k = .ok points ∧
      (∀ start, depthOf mnt_id mounts start ≤ mounts.length + 1) ∧
      (Beneath mnt_id mounts → ∃ ordered : List Statmount,
        ordered.Perm (mounts.filter (·.mnt_point.isSome)) ∧
        ordered.map Statmount.mnt_point = points.map some ∧
        ordered.Pairwise fun a b => b.mnt_parent_id ≠ a.mnt_id) := by
  have hd : descendantsDeepestFirst mnt_id k = .ok (deepestFirst mnt_id mounts) := by
    rw [descendantsDeepestFirst, hk]
    rfl
  refine ⟨_, hd, fun _ => depthFrom_le_succ (zero_le _), fun hb => ?_⟩
  have hp := perm_insertionSort (NoHigher mnt_id mounts) (mounts.filter (·.mnt_point.isSome))
  refine ⟨_, hp, ?_, ?_⟩
  · rw [deepestFirst_eq hb, map_map]
    apply map_congr_left
    intro m hm
    obtain ⟨p, hpt⟩ := Option.isSome_iff_exists.1 (mem_filter.1 (hp.mem_iff.1 hm)).2
    simp [hpt]
  · apply (pairwise_insertionSort (NoHigher mnt_id mounts) _).imp_of_mem
    intro a b ha hmb hle he
    obtain ⟨i, -, hi⟩ := hb.named a (mem_filter.1 (hp.mem_iff.1 ha)).1
    have hm := (mem_filter.1 (hp.mem_iff.1 hmb)).1
    obtain ⟨j, -, hj⟩ := hb.named b hm
    have hlt := depthOf_lt hb ⟨b, hm, hj, he.trans hi⟩
    rw [NoHigher, hi, hj] at hle
    exact hle.not_gt hlt

def stacked : List Statmount :=
  [⟨some 1, some 0, some [1], none, none⟩, ⟨some 2, some 1, some [2], none, none⟩]

theorem descendants_deepest_first_stacked : Beneath 0 stacked ∧ ∃ ordered : List Statmount,
    ordered.Perm stacked ∧ ordered.Pairwise fun a b => b.mnt_parent_id ≠ a.mnt_id := by
  have hlt : Link stacked ≤ (· > ·) := by
    rintro a b ⟨m, hm, ha, hb⟩
    simp only [stacked, mem_cons, not_mem_nil, or_false] at hm
    rcases hm with rfl | rfl <;> cases ha <;> cases hb <;> decide
  have hb : Beneath 0 stacked := by
    refine ⟨by simp [stacked], by simp [stacked], fun id h => lt_irrefl id ?_⟩
    exact Relation.transGen_minimal hlt id id h
  obtain ⟨_, -, -, h⟩ := descendants_deepest_first
    ⟨fun _ _ => .ok [0, 1], fun id _ => .ok (stacked.getD id ⟨none, none, none, none, none⟩)⟩
    0 stacked rfl
  obtain ⟨ordered, hp, -, ho⟩ := h hb
  exact ⟨hb, ordered, hp, ho⟩

end TruenasRos.Mount
