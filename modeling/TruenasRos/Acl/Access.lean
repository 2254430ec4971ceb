import TruenasRos.Acl.Lossy
import TruenasRos.Lib.FirstMatch

/-! # Access decisions

What the two models grant a caller. POSIX picks one class and reads its entry
under the mask; NFS4 settles each bit at the first ACE that matches the caller
and names the bit.
-/

namespace TruenasRos.Acl

open BitFlags

structure Caller where
  owner : Bool
  uid : ℤ
  gids : Finset ℤ
  in_group : Bool

inductive Right
  | read
  | write
  | execute
  deriving DecidableEq

namespace Right

def posix : Right → PosixPerm
  | read => PosixPerm.READ
  | write => PosixPerm.WRITE
  | execute => PosixPerm.EXECUTE

/-- The NFS4 bits a right stands for. -/
def nfs4 (is_dir : Bool) : Right → List Nfs4Perm
  | read => [Nfs4Perm.READ_DATA]
  | write => [Nfs4Perm.WRITE_DATA, Nfs4Perm.APPEND_DATA] ++
      if is_dir then [Nfs4Perm.DELETE_CHILD] else []
  | execute => [Nfs4Perm.EXECUTE]

theorem nfs4_ne_nil (d : Bool) (r : Right) : r.nfs4 d ≠ [] := by
  cases r <;> simp [nfs4]

variable {bit : Nfs4Perm}

theorem mem_nfs4_iff {d : Bool} {r : Right} : bit ∈ r.nfs4 d ↔ r = read ∧ bit = Nfs4Perm.READ_DATA ∨
      r = write ∧ bit = Nfs4Perm.WRITE_DATA ∨ r = write ∧ bit = Nfs4Perm.APPEND_DATA ∨
      r = write ∧ d = true ∧ bit = Nfs4Perm.DELETE_CHILD ∨
      r = execute ∧ bit = Nfs4Perm.EXECUTE := by
  cases r <;> cases d <;> simp [nfs4]

theorem exists_twoPow_of_mem_nfs4 {d : Bool} {r : Right}
    (h : bit ∈ r.nfs4 d) : ∃ i < 32, bit = BitVec.twoPow 32 i := by
  rcases mem_nfs4_iff.1 h with ⟨_, rfl⟩ | ⟨_, rfl⟩ | ⟨_, rfl⟩ | ⟨_, _, rfl⟩ | ⟨_, rfl⟩
  · exact ⟨0, by omega, rfl⟩
  · exact ⟨1, by omega, rfl⟩
  · exact ⟨2, by omega, rfl⟩
  · exact ⟨6, by omega, rfl⟩
  · exact ⟨5, by omega, rfl⟩

theorem exists_twoPow_posix (r : Right) : ∃ i < 16, r.posix = BitVec.twoPow 16 i := by
  cases r with
  | read => exact ⟨2, by omega, rfl⟩
  | write => exact ⟨1, by omega, rfl⟩
  | execute => exact ⟨0, by omega, rfl⟩

end Right

section Posix

def PosixAce.has (r : Right) (a : PosixAce) : Bool :=
  contains a.perms r.posix

variable (aces : List PosixAce)

/-- The ceiling on the group class, when the list has one. -/
def underMask (r : Right) : Bool :=
  (aces.find? fun a => a.tag = .mask).all (PosixAce.has r)

def effective (r : Right) (a : PosixAce) : Bool :=
  a.has r && underMask aces r

def PosixAce.groupMatches (c : Caller) (a : PosixAce) : Bool :=
  a.tag = .groupObj ∧ c.in_group ∨ a.tag = .group ∧ a.id ∈ c.gids

def posixGrants (c : Caller) (r : Right) : Bool :=
  if c.owner then (aces.find? fun a => a.tag = .userObj).any (PosixAce.has r)
  else
    match aces.find? fun a => a.tag = .user ∧ a.id = c.uid with
    | some a => effective aces r a
    | none =>
      if aces.any (PosixAce.groupMatches c) then
        aces.any fun a => a.groupMatches c && effective aces r a
      else (aces.find? fun a => a.tag = .other).any (PosixAce.has r)

end Posix

section Nfs4

def Nfs4Ace.appliesTo (c : Caller) (ace : Nfs4Ace) : Bool :=
  match ace.who_type with
  | .owner => c.owner
  | .group => c.in_group
  | .everyone => true
  | .named =>
    if contains ace.ace_flags Nfs4Flag.IDENTIFIER_GROUP then decide (ace.who_id ∈ c.gids)
    else decide (ace.who_id = c.uid)

def Nfs4Ace.hits (c : Caller) (bit : Nfs4Perm) (ace : Nfs4Ace) : Bool :=
  ace.appliesTo c && contains ace.access_mask bit

def Nfs4Ace.isAllow (ace : Nfs4Ace) : Bool :=
  ace.ace_type = .allow

/-- Allow and deny ACEs settle access; the other two types do not. -/
def Nfs4Ace.settlesAccess (ace : Nfs4Ace) : Bool :=
  ace.ace_type = .allow ∨ ace.ace_type = .deny

/-- First-match evaluation: what the ACEs say about one bit. -/
def nfs4Settles (aces : List Nfs4Ace) (c : Caller) (bit : Nfs4Perm) : Option Bool :=
  FirstMatch.settle (Nfs4Ace.hits c bit) Nfs4Ace.isAllow aces

theorem nfs4Settles_append (xs ys : List Nfs4Ace) (c : Caller) (bit : Nfs4Perm) :
    nfs4Settles (xs ++ ys) c bit = (nfs4Settles xs c bit).or (nfs4Settles ys c bit) :=
  FirstMatch.settle_append xs ys

def nfs4Grants (aces : List Nfs4Ace) (c : Caller) (bit : Nfs4Perm) : Bool :=
  nfs4Settles aces c bit = some true

def Nfs4Acl.effectiveAces (acl : Nfs4Acl) : List Nfs4Ace :=
  acl.aces.filter fun a => a.settlesAccess && !contains a.ace_flags Nfs4Flag.INHERIT_ONLY

def Nfs4Acl.inheritableAces (acl : Nfs4Acl) : List Nfs4Ace :=
  acl.aces.filter fun a => a.settlesAccess && intersects a.ace_flags INHERITABLE

def Nfs4Acl.inheritOnlyAces (acl : Nfs4Acl) : List Nfs4Ace :=
  acl.aces.filter fun a => a.settlesAccess && contains a.ace_flags Nfs4Flag.INHERIT_ONLY

end Nfs4

section Translation

variable {d : Bool} {r : Right} {perm : PosixPerm} {bit : Nfs4Perm}

theorem contains_rwx (read write execute : Bool) : contains
      (let mode := if read then PosixPerm.READ else 0
       let mode := if write then mode ||| PosixPerm.WRITE else mode
       if execute then mode ||| PosixPerm.EXECUTE else mode) r.posix =
      match r with
      | .read => read
      | .write => write
      | .execute => execute := by
  revert read write execute
  cases r <;> decide

/-- The downward rounding: a POSIX right is every NFS4 bit it stands for. -/
theorem contains_lowModeFromNfs4_iff {perm : Nfs4Perm} :
    contains (lowModeFromNfs4 perm d) r.posix = true ↔
      ∀ bit ∈ r.nfs4 d, contains perm bit = true := by
  have hl : contains (lowModeFromNfs4 perm d) r.posix = _ := contains_rwx _ _ _
  rw [hl]
  cases r with
  | read => simp [Right.nfs4, READ_MODE]
  | write => cases d <;> simp [Right.nfs4, WRITE_MODE, and_assoc]
  | execute => simp [Right.nfs4, EXECUTE_MODE]

theorem contains_denyMaskFromPosix (h : bit ∈ r.nfs4 d) :
    contains (denyMaskFromPosix perm d) bit = contains perm r.posix := by
  unfold denyMaskFromPosix
  rcases Right.mem_nfs4_iff.1 h with ⟨rfl, rfl⟩ | ⟨rfl, rfl⟩ | ⟨rfl, rfl⟩ | ⟨rfl, rfl, rfl⟩ |
    ⟨rfl, rfl⟩ <;> simp only [Right.posix] <;> split_ifs <;> simp [*] <;> decide

/-- The rights POSIX grants unconditionally are none of the bits a right stands for. -/
theorem contains_maskFromPosix {is_owner : Bool} (h : bit ∈ r.nfs4 d) :
    contains (maskFromPosix perm d is_owner) bit = contains perm r.posix := by
  rw [← contains_denyMaskFromPosix h]
  have he : contains ANYONE_MODE bit = false ∧ contains OWNER_MODE bit = false := by
    rcases Right.mem_nfs4_iff.1 h with ⟨_, rfl⟩ | ⟨_, rfl⟩ | ⟨_, rfl⟩ | ⟨_, _, rfl⟩ | ⟨_, rfl⟩ <;>
      decide
  obtain ⟨i, hi, rfl⟩ := Right.exists_twoPow_of_mem_nfs4 h
  rw [contains_twoPow _ hi, contains_twoPow _ hi] at he
  unfold maskFromPosix
  cases is_owner <;> simp [contains_twoPow _ hi, he]

@[simp] theorem contains_posix_or (p q : PosixPerm) :
    contains (p ||| q) r.posix = (contains p r.posix || contains q r.posix) := by
  obtain ⟨i, hi, h⟩ := r.exists_twoPow_posix
  simp [h, contains_twoPow _ hi]

@[simp] theorem contains_posix_and (p q : PosixPerm) :
    contains (p &&& q) r.posix = (contains p r.posix && contains q r.posix) := by
  obtain ⟨i, hi, h⟩ := r.exists_twoPow_posix
  simp [h, contains_twoPow _ hi]

@[simp] theorem contains_posix_all : contains PosixPerm.all r.posix = true := by
  cases r <;> decide

@[simp] theorem contains_posix_zero : contains 0#16 r.posix = false := by
  cases r <;> decide

@[simp] theorem contains_posix_compl (p : PosixPerm) :
    contains p.compl r.posix = !contains p r.posix := by
  rw [PosixPerm.compl, contains_posix_and, contains_posix_all, Bool.and_true]
  obtain ⟨i, hi, h⟩ := r.exists_twoPow_posix
  simp [h, contains_twoPow _ hi, hi]

end Translation

end TruenasRos.Acl
