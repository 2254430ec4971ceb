import TruenasRos.Lib.BitFlags

/-! # Credentials of a process

The ids, groups and capability sets a Linux process carries, and the calls that change
them. An id argument of all ones leaves the id as it is, and a change of user id adjusts
the capability sets as the kernel does.
-/

namespace TruenasRos.Credentials

structure Ids where
  real : ℕ
  effective : ℕ
  saved : ℕ
  deriving DecidableEq

structure Creds where
  uid : Ids
  gid : Ids
  groups : List ℕ
  permitted : BitVec 64
  effective : BitVec 64
  deriving DecidableEq

/-- The id argument that changes nothing. -/
def UNCHANGED : ℕ := 2 ^ 32 - 1

def Ids.root : Ids := ⟨0, 0, 0⟩

/-- Some id of the three is the superuser's. -/
def Ids.anyRoot (ids : Ids) : Bool := ids.real == 0 || ids.effective == 0 || ids.saved == 0

def Ids.setres (ids : Ids) (real effective saved : ℕ) : Ids where
  real := if real = UNCHANGED then ids.real else real
  effective := if effective = UNCHANGED then ids.effective else effective
  saved := if saved = UNCHANGED then ids.saved else saved

def Creds.setgroups (c : Creds) (groups : List ℕ) : Creds := { c with groups := groups }

def Creds.setresgid (c : Creds) (real effective saved : ℕ) : Creds :=
  { c with gid := c.gid.setres real effective saved }

/-- Leaving the superuser with all three ids clears both sets, leaving it with the effective
id clears the effective set, and coming back to it fills that set again. -/
def Creds.setresuid (c : Creds) (real effective saved : ℕ) : Creds :=
  let uid := c.uid.setres real effective saved
  let left := c.uid.anyRoot && !uid.anyRoot
  let permitted := if left then 0 else c.permitted
  let set := if left then 0 else c.effective
  { c with
    uid := uid
    permitted := permitted
    effective :=
      if c.uid.effective = 0 ∧ uid.effective ≠ 0 then 0
      else if c.uid.effective ≠ 0 ∧ uid.effective = 0 then permitted
      else set }

/-- Only capabilities of the permitted set can be made effective. -/
def Creds.capset (c : Creds) (effective : BitVec 64) : Option Creds :=
  if BitFlags.contains c.permitted effective then some { c with effective := effective } else none

variable {c c' : Creds} {u : ℕ}

theorem permitted_setresuid_zero (c : Creds) (real effective : ℕ) :
    (c.setresuid real effective 0).permitted = c.permitted := by
  have ha : (c.uid.setres real effective 0).anyRoot = true := by
    simp [Ids.anyRoot, Ids.setres, UNCHANGED]
  simp [Creds.setresuid, ha]

theorem effective_setresuid_drop (real saved : ℕ) (h0 : c.uid.effective = 0)
    (hu : (c.setresuid real u saved).uid.effective ≠ 0) :
    (c.setresuid real u saved).effective = 0 := if_pos ⟨h0, hu⟩

theorem effective_setresuid_root (h : c.uid.effective = 0 → c.effective = c.permitted) :
    (c.setresuid 0 0 0).effective = c.permitted := by
  have hr : c.uid.setres 0 0 0 = Ids.root := by simp [Ids.setres, UNCHANGED, Ids.root]
  by_cases h0 : c.uid.effective = 0
  · simp [Creds.setresuid, hr, Ids.root, Ids.anyRoot, h h0]
  · simp [Creds.setresuid, hr, h0, Ids.root, Ids.anyRoot]

theorem uid_setresuid_root (c : Creds) : (c.setresuid 0 0 0).uid = Ids.root := by
  simp [Creds.setresuid, Ids.setres, UNCHANGED, Ids.root]

theorem capset_eq_some {effective : BitVec 64} (h : c.capset effective = some c') :
    c' = { c with effective := effective } := by
  rw [Creds.capset] at h
  split_ifs at h
  exact (Option.some.inj h).symm

end TruenasRos.Credentials
