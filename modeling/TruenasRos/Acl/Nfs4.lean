import TruenasRos.Lib.BitFlags

/-! # NFS4 access-control lists

The ACE types of `acl/nfs4.rs`, with the flag words as bit vectors of their
wire width.
-/

namespace TruenasRos.Acl

open BitFlags

inductive Nfs4AceType
  | allow
  | deny
  | audit
  | alarm
  deriving DecidableEq

/-- The principal an ACE applies to: a numeric id, or a special principal. -/
inductive Nfs4Who
  | named
  | owner
  | group
  | everyone
  deriving DecidableEq

abbrev Nfs4Perm := BitVec 32

namespace Nfs4Perm

def READ_DATA : Nfs4Perm := 0x1
def WRITE_DATA : Nfs4Perm := 0x2
def APPEND_DATA : Nfs4Perm := 0x4
def EXECUTE : Nfs4Perm := 0x20
def DELETE_CHILD : Nfs4Perm := 0x40
def READ_ATTRIBUTES : Nfs4Perm := 0x80
def WRITE_ATTRIBUTES : Nfs4Perm := 0x100
def READ_ACL : Nfs4Perm := 0x20000
def WRITE_ACL : Nfs4Perm := 0x40000
def SYNCHRONIZE : Nfs4Perm := 0x100000

end Nfs4Perm

abbrev Nfs4Flag := BitVec 32

namespace Nfs4Flag

def FILE_INHERIT : Nfs4Flag := 0x1
def DIRECTORY_INHERIT : Nfs4Flag := 0x2
def NO_PROPAGATE_INHERIT : Nfs4Flag := 0x4
def INHERIT_ONLY : Nfs4Flag := 0x8
def IDENTIFIER_GROUP : Nfs4Flag := 0x40
def INHERITED : Nfs4Flag := 0x80

end Nfs4Flag

abbrev Nfs4AclFlag := BitVec 32

def Nfs4AclFlag.ACL_IS_DIR : Nfs4AclFlag := 0x20000

structure Nfs4Ace where
  ace_type : Nfs4AceType
  ace_flags : Nfs4Flag
  access_mask : Nfs4Perm
  who_type : Nfs4Who
  who_id : ℤ
  deriving DecidableEq

/-- An ACE, whose id is kept for a named principal only. -/
def Nfs4Ace.new (ace_type : Nfs4AceType) (ace_flags : Nfs4Flag) (access_mask : Nfs4Perm)
    (who_type : Nfs4Who) (who_id : ℤ) : Nfs4Ace :=
  { ace_type, ace_flags, access_mask, who_type
    who_id := if who_type = .named then who_id else -1 }

/-- A flag word and the ACEs in wire order, which is the order they are evaluated in. -/
structure Nfs4Acl where
  acl_flags : Nfs4AclFlag
  aces : List Nfs4Ace
  deriving DecidableEq

end TruenasRos.Acl
