import TruenasRos.Acl.Inherit
import TruenasRos.Acl.Nfs4

/-! # What NFS4 entries hand down

A new object takes the inheritable entries of its directory, with their flags rewritten. An entry
not to be propagated reaches one level and is stripped there; any other reaches every level alike.
-/

namespace TruenasRos.Acl

open BitFlags BitVec Nfs4Flag List

def Nfs4Flag.INHERIT_MASK : Nfs4Flag :=
  FILE_INHERIT ||| DIRECTORY_INHERIT ||| NO_PROPAGATE_INHERIT ||| INHERIT_ONLY

def aceIsInheritable (flags : Nfs4Flag) (is_dir : Bool) : Bool :=
  if is_dir && contains flags DIRECTORY_INHERIT then true
  else if contains flags FILE_INHERIT then !(is_dir && contains flags NO_PROPAGATE_INHERIT)
  else false

def inheritedFlags (f : Nfs4Flag) (is_dir : Bool) : Nfs4Flag :=
  if is_dir && !contains f NO_PROPAGATE_INHERIT then
    if contains f DIRECTORY_INHERIT then difference f INHERIT_ONLY ||| INHERITED
    else f ||| INHERIT_ONLY ||| INHERITED
  else difference f INHERIT_MASK ||| INHERITED

/-- The entries that a new object takes from those of its directory. -/
def heirs (is_dir : Bool) (aces : List Nfs4Ace) : List Nfs4Ace :=
  (aces.filter fun a => aceIsInheritable a.ace_flags is_dir).map fun a =>
    { a with ace_flags := inheritedFlags a.ace_flags is_dir }

namespace Nfs4Acl

def generateInheritedAcl (acl : Nfs4Acl) (is_dir : Bool) : Except Error Nfs4Acl :=
  let aces := heirs is_dir acl.aces
  if aces.isEmpty then
    .error (.validation "parent ACL has no inheritable ACEs for this object type")
  else .ok { acl_flags := if is_dir then Nfs4AclFlag.ACL_IS_DIR else 0, aces }

/-- The ACL of the last of `n` new directories, each made in the one before it. -/
def descend (acl : Nfs4Acl) : ℕ → Except Error Nfs4Acl
  | 0 => .ok acl
  | n + 1 => acl.descend n >>= (·.generateInheritedAcl true)

/-- The ACL without the entries that reach one level only. -/
def propagated (acl : Nfs4Acl) : Nfs4Acl :=
  { acl with aces := acl.aces.filter fun a => !contains a.ace_flags NO_PROPAGATE_INHERIT }

end Nfs4Acl

section Flags

variable (f : Nfs4Flag) (is_dir : Bool)

theorem contains_fileInherit : contains f FILE_INHERIT = f.getLsbD 0 :=
  contains_twoPow f (by decide : 0 < 32)

theorem contains_directoryInherit : contains f DIRECTORY_INHERIT = f.getLsbD 1 :=
  contains_twoPow f (by decide : 1 < 32)

theorem contains_noPropagateInherit : contains f NO_PROPAGATE_INHERIT = f.getLsbD 2 :=
  contains_twoPow f (by decide : 2 < 32)

theorem aceIsInheritable_eq : aceIsInheritable f is_dir =
    (is_dir && f.getLsbD 1 || f.getLsbD 0 && !(is_dir && f.getLsbD 2)) := by
  unfold aceIsInheritable
  rw [contains_fileInherit, contains_directoryInherit, contains_noPropagateInherit]
  cases is_dir <;> cases f.getLsbD 0 <;> cases f.getLsbD 1 <;> rfl

theorem getLsbD_inheritedFlags (i : ℕ) : (inheritedFlags f is_dir).getLsbD i =
    (decide (i = 7) || if is_dir && !f.getLsbD 2 then
        if i = 3 then !f.getLsbD 1 else f.getLsbD i
      else decide (4 ≤ i) && f.getLsbD i) := by
  have ho : INHERIT_ONLY.getLsbD i = decide (3 = i) := getLsbD_twoPow 3 i
  have hd : INHERITED.getLsbD i = decide (7 = i) := getLsbD_twoPow 7 i
  have hm : INHERIT_MASK.getLsbD i = decide (i < 4) := getLsbD_ones (show 4 ≤ 32 by decide) i
  unfold inheritedFlags
  rw [contains_noPropagateInherit, contains_directoryInherit]
  split_ifs <;> simp only [getLsbD_or, getLsbD_difference, ho, hd, hm] <;> grind

/-- An inherited entry hands down what the entry it comes from does, if that is propagated. -/
theorem heirs_heirs (aces : List Nfs4Ace) : heirs is_dir (heirs true aces) =
    heirs is_dir (aces.filter fun a => !contains a.ace_flags NO_PROPAGATE_INHERIT) := by
  have hp : ∀ a : Nfs4Ace, (aceIsInheritable (inheritedFlags a.ace_flags true) is_dir &&
      aceIsInheritable a.ace_flags true) =
        (aceIsInheritable a.ace_flags is_dir && !contains a.ace_flags NO_PROPAGATE_INHERIT) := by
    intro a
    simp only [aceIsInheritable_eq, getLsbD_inheritedFlags, contains_noPropagateInherit]
    grind
  simp only [heirs, filter_map, filter_filter, map_map, Function.comp_def, hp]
  apply map_congr_left
  intro a ha
  have hn : a.ace_flags.getLsbD 2 = false := by
    simpa [contains_noPropagateInherit] using (Bool.and_eq_true_iff.1 (mem_filter.1 ha).2).2
  congr 1
  apply eq_of_getLsbD_eq
  intro i _
  simp only [getLsbD_inheritedFlags, hn]
  grind

end Flags

namespace Nfs4Acl

theorem generateInheritedAcl_bind (acl : Nfs4Acl) (is_dir : Bool) :
    (acl.generateInheritedAcl true >>= (·.generateInheritedAcl is_dir)) =
      acl.propagated.generateInheritedAcl is_dir := by
  unfold generateInheritedAcl propagated
  dsimp only
  rw [← heirs_heirs]
  cases heirs true acl.aces <;> rfl

/-- At every level beneath the first, a new object gets what the directory at the top would give
it without the entries not to be propagated. -/
theorem descend_propagates (acl : Nfs4Acl) (n : ℕ) (is_dir : Bool) :
    (acl.descend (n + 1) >>= (·.generateInheritedAcl is_dir)) =
      acl.propagated.generateInheritedAcl is_dir := by
  have hp : acl.propagated.propagated = acl.propagated := by simp [propagated, filter_filter]
  induction n generalizing is_dir with
  | zero => exact acl.generateInheritedAcl_bind is_dir
  | succ n ih => rw [descend, ih, generateInheritedAcl_bind, hp]

end Nfs4Acl

end TruenasRos.Acl
