import TruenasRos.Error
import TruenasRos.Lib.BitFlags
import Mathlib.Data.List.Sort

/-! # POSIX1E access-control lists

The entries of `acl/posix.rs`, the constructor that puts each list in
canonical order, and the structural validation the kernel would make.
-/

namespace TruenasRos.Acl

open BitFlags

inductive PosixTag
  | userObj
  | user
  | groupObj
  | group
  | mask
  | other
  deriving DecidableEq

namespace PosixTag

/-- The kernel's tag values, which ascend in the canonical entry order. -/
def toNat : PosixTag → ℕ
  | userObj => 0x01
  | user => 0x02
  | groupObj => 0x04
  | group => 0x08
  | mask => 0x10
  | other => 0x20

end PosixTag

abbrev PosixPerm := BitVec 16

namespace PosixPerm

def EXECUTE : PosixPerm := 0x1
def WRITE : PosixPerm := 0x2
def READ : PosixPerm := 0x4

def all : PosixPerm := READ ||| WRITE ||| EXECUTE

/-- The complement within the known bits. -/
def compl (p : PosixPerm) : PosixPerm := ~~~p &&& all

end PosixPerm

structure PosixAce where
  tag : PosixTag
  perms : PosixPerm
  id : ℤ
  default : Bool
  deriving DecidableEq

/-- An access list, and a default list on a directory that has one. -/
structure PosixAcl where
  access : List PosixAce
  default : Option (List PosixAce)
  synthesized : Bool
  deriving DecidableEq

/-- The canonical entry order: by tag, then by id. -/
def PosixAce.keyLe (a b : PosixAce) : Prop :=
  a.tag.toNat < b.tag.toNat ∨ a.tag.toNat = b.tag.toNat ∧ a.id ≤ b.id

instance : DecidableRel PosixAce.keyLe :=
  fun _ _ => inferInstanceAs (Decidable (_ ∨ _))

namespace PosixAcl

/-- Split the entries on their list and sort each list, stably. -/
def fromAces (aces : List PosixAce) : PosixAcl :=
  let access := aces.filter fun a => !a.default
  let default := aces.filter fun a => a.default
  { access := access.insertionSort PosixAce.keyLe
    default := if default.isEmpty then none else some (default.insertionSort PosixAce.keyLe)
    synthesized := false }

end PosixAcl

def SPECIAL_ID : ℤ := 0xFFFFFFFF

/-- A named entry must carry a 32-bit id other than the kernel's "no id" value. -/
def validateNamedId (id : ℤ) (label tag kind : String) : Except Error Unit :=
  if id < 0 then
    .error (.validation s!"{label} ACL: named {tag} entry has no {kind}")
  else if 2 ^ 32 ≤ id ∨ id = SPECIAL_ID then
    .error (.validation s!"{label} ACL: named {tag} entry {kind} {id} is not a valid {kind}")
  else
    .ok ()

/-- What the walk over a list has counted so far, in words that wrap. -/
structure TagCounts where
  user_obj : UInt32
  group_obj : UInt32
  other : UInt32
  mask : UInt32
  named : UInt32
  prev_tag : ℕ

def TagCounts.zero : TagCounts := ⟨0, 0, 0, 0, 0, 0⟩

def countEntry (label : String) (n : TagCounts) (a : PosixAce) : Except Error TagCounts :=
  if !contains PosixPerm.all a.perms then
    .error (.validation s!"{label} ACL: entry has permission bits outside rwx")
  else if a.tag.toNat < n.prev_tag then
    .error (.validation s!"{label} ACL entries are not in canonical tag order")
  else
    let n := { n with prev_tag := a.tag.toNat }
    match a.tag with
    | .userObj => .ok { n with user_obj := n.user_obj + 1 }
    | .groupObj => .ok { n with group_obj := n.group_obj + 1 }
    | .other => .ok { n with other := n.other + 1 }
    | .mask => .ok { n with mask := n.mask + 1 }
    | .user => do
      validateNamedId a.id label "USER" "uid"
      .ok { n with named := n.named + 1 }
    | .group => do
      validateNamedId a.id label "GROUP" "gid"
      .ok { n with named := n.named + 1 }

/-- The checks on the counts once the whole list has been read. -/
def checkCounts (label : String) (n : TagCounts) : Except Error Unit :=
  if n.user_obj ≠ 1 then
    .error (.validation s!"{label} ACL must have exactly one USER_OBJ entry")
  else if n.group_obj ≠ 1 then
    .error (.validation s!"{label} ACL must have exactly one GROUP_OBJ entry")
  else if n.other ≠ 1 then
    .error (.validation s!"{label} ACL must have exactly one OTHER entry")
  else if 0 < n.named ∧ n.mask ≠ 1 then
    .error (.validation <| s!"{label} ACL must have exactly one MASK entry when named USER " ++
      "or GROUP entries are present")
  else if 1 < n.mask then
    .error (.validation s!"{label} ACL has more than one MASK entry")
  else
    .ok ()

def validateEntries (aces : List PosixAce) (label : String) : Except Error Unit := do
  let n ← aces.foldlM (countEntry label) TagCounts.zero
  checkCounts label n

/-- Structural validation. A default list is valid on a directory only. -/
def PosixAcl.validate (acl : PosixAcl) (is_dir : Bool) : Except Error Unit := do
  validateEntries acl.access "access"
  match acl.default with
  | none => .ok ()
  | some default =>
    if !is_dir then
      .error (.validation "default ACL is only valid on directories")
    else
      validateEntries default "default"

end TruenasRos.Acl
