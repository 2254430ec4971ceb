import TruenasRos.Error

/-! # Writing a POSIX1E ACL

The two halves of an ACL are two attributes and cannot be written at once. The default half is
written first, and put back when the access half cannot be written. Every call can fail, and one
that fails leaves its attribute as it is.
-/

namespace TruenasRos.Acl

def ENODATA : Errno := .other 61
def EOPNOTSUPP : Errno := .other 95

abbrev Attribute := Option Bytes

structure Stored where
  access : Attribute
  default : Attribute
  deriving DecidableEq

section

variable (fails : Option Errno)

def fgetxattr (value : Attribute) : Except Errno Bytes :=
  match fails, value with
  | some e, _ => .error e
  | none, some bytes => .ok bytes
  | none, none => .error ENODATA

def fsetxattr (bytes : Bytes) (value : Attribute) : Except Errno Unit × Attribute :=
  match fails with
  | some e => (.error e, value)
  | none => (.ok (), some bytes)

def fremovexattr (value : Attribute) : Except Errno Unit × Attribute :=
  match fails, value with
  | some e, _ => (.error e, value)
  | none, some _ => (.ok (), none)
  | none, none => (.error ENODATA, none)

def ignoreEnodata (r : Except Errno Unit) : Except Errno Unit :=
  match r with
  | .ok () => .ok ()
  | .error e => if e = ENODATA then .ok () else .error e

def readPrior (value : Attribute) : Except Errno Attribute :=
  match fgetxattr fails value with
  | .ok bytes => .ok (some bytes)
  | .error e => if e = ENODATA ∨ e = EOPNOTSUPP then .ok none else .error e

def putDefault (default : Attribute) (s : Stored) : Except Errno Unit × Stored :=
  match default with
  | some d =>
    let (r, value) := fsetxattr fails d s.default
    (r, { s with default := value })
  | none =>
    let (r, value) := fremovexattr fails s.default
    (ignoreEnodata r, { s with default := value })

end

/-- How the calls of `writePosix` fail, those that do. -/
structure Failures where
  read : Option Errno
  write : Option Errno
  access : Option Errno
  restore : Option Errno
  deriving DecidableEq

def writePosix (f : Failures) (access : Bytes) (default : Attribute) (s : Stored) :
    Except Error Unit × Stored :=
  match readPrior f.read s.default with
  | .error e => (.error (.errno e), s)
  | .ok prior =>
    match putDefault f.write default s with
    | (.error e, s) => (.error (.errno e), s)
    | (.ok (), s) =>
      match fsetxattr f.access access s.access with
      | (.ok (), value) => (.ok (), { s with access := value })
      | (.error e, value) =>
        match putDefault f.restore prior { s with access := value } with
        | (.error e', s) => (.error (.errno e'), s)
        | (.ok (), s) => (.error (.errno e), s)

variable {f : Failures} {fails : Option Errno} {access : Bytes} {default prior : Attribute}
variable {s s' r : Stored} {e : Errno}

/-- A read that finds no default attribute does so where there is none. -/
def Failures.ReadsTruly (f : Failures) (s : Stored) : Prop :=
  f.read = some ENODATA ∨ f.read = some EOPNOTSUPP → s.default = none

/-- A removal that finds no default attribute does so where there is none. -/
def Failures.RemovesTruly (f : Failures) (default : Attribute) (s : Stored) : Prop :=
  default = none → f.write = some ENODATA → s.default = none

theorem readPrior_eq_ok (h : readPrior fails s.default = .ok prior)
    (ht : fails = some ENODATA ∨ fails = some EOPNOTSUPP → s.default = none) :
    prior = s.default := by
  cases fails with
  | none =>
    unfold readPrior fgetxattr at h
    cases hd : s.default with
    | none | some bytes => simpa [hd] using h.symm
  | some e =>
    have hr : readPrior (some e) s.default =
      if e = ENODATA ∨ e = EOPNOTSUPP then .ok none else .error e := rfl
    simp only [Option.some.injEq] at ht
    rw [hr] at h
    split_ifs at h with he
    rw [ht he]
    exact (Except.ok.inj h).symm

theorem putDefault_none (default : Attribute) (s : Stored) :
    putDefault none default s = (.ok (), { s with default }) := by
  cases default with
  | some d => rfl
  | none =>
    unfold putDefault fremovexattr
    cases s.default with
    | none => rfl
    | some d => rfl

theorem putDefault_some (e : Errno) (default : Attribute) (s : Stored) :
    putDefault (some e) default s =
      (if default = none ∧ e = ENODATA then .ok () else .error e, s) := by
  cases default with
  | some d => rfl
  | none => simp [putDefault, fremovexattr, ignoreEnodata]

theorem putDefault_eq_error (h : putDefault fails default s = (.error e, r)) :
    r = s ∧ fails.isSome := by
  cases fails with
  | none =>
    rw [putDefault_none] at h
    cases h
  | some e' =>
    rw [putDefault_some] at h
    exact ⟨(Prod.mk.inj h).2.symm, rfl⟩

theorem putDefault_eq_ok (h : putDefault fails default s = (.ok (), r)) : r.access = s.access ∧
      ((default = none → fails = some ENODATA → s.default = none) → r.default = default) := by
  cases fails with
  | none =>
    rw [putDefault_none] at h
    cases h
    exact ⟨rfl, fun _ => rfl⟩
  | some e =>
    rw [putDefault_some] at h
    obtain ⟨hr, rfl⟩ := Prod.mk.inj h
    split_ifs at hr with hg
    obtain ⟨rfl, rfl⟩ := hg
    exact ⟨rfl, fun ht => ht rfl rfl⟩

/-- A write that fails leaves the access half as it was, and the default half too unless putting
it back fails; a write that succeeds leaves both as they were to be. -/
theorem writePosix_restores (f : Failures) (access : Bytes) (default : Attribute)
    (s : Stored) : (∀ e, (writePosix f access default s).1 = .error e →
      (writePosix f access default s).2.access = s.access ∧
        (f.ReadsTruly s → f.restore = none →
          (writePosix f access default s).2.default = s.default)) ∧
      ((writePosix f access default s).1 = .ok () →
        (writePosix f access default s).2.access = some access ∧
          (f.RemovesTruly default s → (writePosix f access default s).2.default = default)) := by
  unfold writePosix
  split
  · exact ⟨fun _ _ => ⟨rfl, fun _ _ => rfl⟩, nofun⟩
  · rename_i prior hpr
    split
    · rename_i e r hput
      obtain ⟨rfl, -⟩ := putDefault_eq_error hput
      exact ⟨fun _ _ => ⟨rfl, fun _ _ => rfl⟩, nofun⟩
    · rename_i r hput
      obtain ⟨ha, hd⟩ := putDefault_eq_ok hput
      cases f.access with
      | none => exact ⟨nofun, fun _ => ⟨rfl, hd⟩⟩
      | some e =>
        -- the access half cannot be written, and the default half is put back
        dsimp only [fsetxattr]
        split
        · rename_i e' r' hr
          obtain ⟨rfl, hf⟩ := putDefault_eq_error hr
          refine ⟨fun _ _ => ⟨ha, fun _ hn => ?_⟩, nofun⟩
          rw [hn] at hf
          cases hf
        · rename_i r' hr
          refine ⟨fun _ _ => ⟨(putDefault_eq_ok hr).1.trans ha, ?_⟩, nofun⟩
          intro ht hn
          rw [hn, putDefault_none] at hr
          cases hr
          exact readPrior_eq_ok hpr ht

/-- The default attribute of an object is reported absent, and the access half cannot be written. -/
def deniedRead : Failures where
  read := some ENODATA
  write := none
  access := some .EPERM
  restore := none

/-- A default half that is there but is reported absent is lost. -/
theorem not_restored_deniedRead :
    (writePosix deniedRead [2] (some [3]) ⟨some [0], some [1]⟩).1 = .error (.errno .EPERM) ∧
      deniedRead.restore = none ∧
      (writePosix deniedRead [2] (some [3]) ⟨some [0], some [1]⟩).2.default ≠ some [1] := by
  decide

end TruenasRos.Acl
