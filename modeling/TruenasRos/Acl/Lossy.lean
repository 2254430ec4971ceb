import TruenasRos.Acl.Nfs4
import TruenasRos.Acl.Posix

/-! # Lossy conversion between the two models

Both directions of `acl/lossy.rs`. A POSIX list becomes a run of NFS4 ACEs
whose order carries what the group-class mask said; NFS4 ACEs are folded into
per-entity allowed and denied sets, from which the POSIX entries are read.
-/

namespace TruenasRos.Acl

open BitFlags

section Modes

def READ_MODE : Nfs4Perm := Nfs4Perm.READ_DATA

def WRITE_MODE : Nfs4Perm := Nfs4Perm.WRITE_DATA ||| Nfs4Perm.APPEND_DATA

def EXECUTE_MODE : Nfs4Perm := Nfs4Perm.EXECUTE

def ANYONE_MODE : Nfs4Perm :=
  Nfs4Perm.READ_ATTRIBUTES ||| Nfs4Perm.READ_ACL ||| Nfs4Perm.SYNCHRONIZE

/-- What an owner holds in POSIX whatever the list says. -/
def OWNER_MODE : Nfs4Perm := Nfs4Perm.WRITE_ATTRIBUTES ||| Nfs4Perm.WRITE_ACL

def INHERITABLE : Nfs4Flag := Nfs4Flag.FILE_INHERIT ||| Nfs4Flag.DIRECTORY_INHERIT

/-- The NFS4 bits that stand for the POSIX rights in `perm`, and nothing else. -/
def denyMaskFromPosix (perm : PosixPerm) (is_dir : Bool) : Nfs4Perm :=
  let mask := if contains perm PosixPerm.READ then READ_MODE else 0
  let mask :=
    if contains perm PosixPerm.WRITE then
      let mask := mask ||| WRITE_MODE
      if is_dir then mask ||| Nfs4Perm.DELETE_CHILD else mask
    else mask
  if contains perm PosixPerm.EXECUTE then mask ||| EXECUTE_MODE else mask

def maskFromPosix (perm : PosixPerm) (is_dir is_owner : Bool) : Nfs4Perm :=
  let mask := ANYONE_MODE ||| denyMaskFromPosix perm is_dir
  if is_owner then mask ||| OWNER_MODE else mask

/-- The POSIX rights an allowed NFS4 mask amounts to: a right is there only when
every bit it stands for is. -/
def lowModeFromNfs4 (perm : Nfs4Perm) (is_dir : Bool) : PosixPerm :=
  let write_mode := if is_dir then WRITE_MODE ||| Nfs4Perm.DELETE_CHILD else WRITE_MODE
  let mode := if contains perm READ_MODE then PosixPerm.READ else 0
  let mode := if contains perm write_mode then mode ||| PosixPerm.WRITE else mode
  if contains perm EXECUTE_MODE then mode ||| PosixPerm.EXECUTE else mode

end Modes

section ToNfs4

/-- The class-wide rights a per-entry DENY has to account for. -/
structure PosixSummary where
  owner : PosixPerm
  users : PosixPerm
  group : PosixPerm
  groups : PosixPerm
  other : PosixPerm
  mask : PosixPerm

/-- With no MASK entry nothing is masked. -/
def PosixSummary.empty : PosixSummary := ⟨0, 0, 0, 0, 0, PosixPerm.all⟩

def PosixSummary.add (s : PosixSummary) (a : PosixAce) : PosixSummary :=
  match a.tag with
  | .userObj => { s with owner := a.perms }
  | .user => { s with users := s.users ||| a.perms }
  | .groupObj => { s with group := a.perms }
  | .group => { s with groups := s.groups ||| a.perms }
  | .mask => { s with mask := a.perms }
  | .other => { s with other := a.perms }

/-- The mask is applied once the whole list has been read. -/
def summarize (aces : List PosixAce) : PosixSummary :=
  let s := aces.foldl PosixSummary.add .empty
  { s with
    users := s.users &&& s.mask
    group := s.group &&& s.mask
    groups := s.groups &&& s.mask }

/-- The DENY for `deny`, left out when there is nothing to deny. -/
def denyAce (flags : Nfs4Flag) (who : Nfs4Who) (id : ℤ) (deny : PosixPerm) (is_dir : Bool) :
    List Nfs4Ace :=
  if deny = 0 then [] else [Nfs4Ace.new .deny flags (denyMaskFromPosix deny is_dir) who id]

/-- The ACEs for one POSIX list: the access half, or the default half marked
inherit-only. -/
def translateOne (aces : List PosixAce) (is_dir inherit_only : Bool) : List Nfs4Ace :=
  let pas := summarize aces
  let eflag := if inherit_only then INHERITABLE ||| Nfs4Flag.INHERIT_ONLY else 0
  let gflag := eflag ||| Nfs4Flag.IDENTIFIER_GROUP
  let users := aces.filter fun a => a.tag = .user
  let groups := aces.filter fun a => a.tag = .group
  denyAce eflag .owner (-1)
      (pas.owner.compl &&& (pas.users ||| pas.group ||| pas.groups ||| pas.other)) is_dir ++
    [Nfs4Ace.new .allow eflag (maskFromPosix pas.owner is_dir true) .owner (-1)] ++
    (users.flatMap fun a =>
      let eff := a.perms &&& pas.mask
      denyAce eflag .named a.id (eff.compl &&& (pas.groups ||| pas.group ||| pas.other)) is_dir ++
        [Nfs4Ace.new .allow eflag (maskFromPosix eff is_dir false) .named a.id]) ++
    -- Every group is allowed before any group is denied: a caller can be in several.
    [Nfs4Ace.new .allow eflag (maskFromPosix pas.group is_dir false) .group (-1)] ++
    (groups.map fun a =>
      Nfs4Ace.new .allow gflag (maskFromPosix (a.perms &&& pas.mask) is_dir false) .named a.id) ++
    denyAce eflag .group (-1) (pas.group.compl &&& pas.other) is_dir ++
    (groups.flatMap fun a =>
      denyAce gflag .named a.id ((a.perms &&& pas.mask).compl &&& pas.other) is_dir) ++
    [Nfs4Ace.new .allow eflag (maskFromPosix pas.other is_dir false) .everyone (-1)]

def PosixAcl.toNfs4Lossy (acl : PosixAcl) (is_dir : Bool) : Except Error Nfs4Acl := do
  acl.validate is_dir
  let aces := translateOne acl.access is_dir false
  let aces :=
    match acl.default with
    | some default => aces ++ translateOne default is_dir true
    | none => aces
  .ok { acl_flags := if is_dir then Nfs4AclFlag.ACL_IS_DIR else 0, aces }

end ToNfs4

section ToPosix

/-- The bits one entity has been allowed and denied so far. A bit is settled once,
so the two sets never meet. -/
structure AceState where
  allow : Nfs4Perm
  deny : Nfs4Perm
  disjoint : ∀ i, allow.getLsbD i = true → deny.getLsbD i = false

namespace AceState

def EMPTY : AceState := ⟨0, 0, by simp⟩

def allowBits (s : AceState) (mask : Nfs4Perm) : AceState where
  allow := s.allow ||| difference mask s.deny
  deny := s.deny
  disjoint := by
    intro i h
    simp only [BitVec.getLsbD_or, getLsbD_difference, Bool.or_eq_true, Bool.and_eq_true,
      Bool.not_eq_true'] at h
    rcases h with h | h
    · exact s.disjoint i h
    · exact h.2

def denyBits (s : AceState) (mask : Nfs4Perm) : AceState where
  allow := s.allow
  deny := s.deny ||| difference mask s.allow
  disjoint := by
    intro i h
    simp [s.disjoint i h, h]

end AceState

/-- The named entries of a state, by their ids. -/
abbrev AceSlots := List (ℤ × AceState)

def allowBitsAll (list : AceSlots) (mask : Nfs4Perm) : AceSlots :=
  list.map fun p => (p.1, p.2.allowBits mask)

def denyBitsAll (list : AceSlots) (mask : Nfs4Perm) : AceSlots :=
  list.map fun p => (p.1, p.2.denyBits mask)

def ace2tag (ace : Nfs4Ace) : PosixTag :=
  match ace.who_type with
  | .named => if contains ace.ace_flags Nfs4Flag.IDENTIFIER_GROUP then .group else .user
  | .owner => .userObj
  | .group => .groupObj
  | .everyone => .other

/-- One half, effective or inheritable, of the POSIX list being built. -/
structure AclState where
  valid : BitVec 16
  owner : AceState
  group : AceState
  other : AceState
  everyone : AceState
  users : AceSlots
  groups : AceSlots

namespace AclState

def new : AclState := ⟨0, .EMPTY, .EMPTY, .EMPTY, .EMPTY, [], []⟩

def saw (s : AclState) (tag : PosixTag) : Bool :=
  s.valid &&& BitVec.ofNat 16 tag.toNat != 0

variable (list : AceSlots)

/-- The slot for `id`, created on first sight seeded from `EVERYONE@`. -/
def slot (everyone : AceState) (id : ℤ) : AceSlots × ℕ :=
  match list.findIdx? fun p => p.1 == id with
  | some i => (list, i)
  | none => (list ++ [(id, everyone)], list.length)

def allowAt (i : ℕ) (mask : Nfs4Perm) : AceSlots :=
  list.modify i fun p => (p.1, p.2.allowBits mask)

def denyAt (i : ℕ) (mask : Nfs4Perm) : AceSlots :=
  list.modify i fun p => (p.1, p.2.denyBits mask)

def deniedAt (i : ℕ) : Nfs4Perm :=
  (list[i]?).elim 0 fun p => p.2.deny

/-- Fold one ACE in. A denial reaches every entity that might turn out to be the one
POSIX consults. -/
def process (s : AclState) (ace : Nfs4Ace) : AclState :=
  let mask := ace.access_mask
  let is_allow := ace.ace_type = .allow
  let tag := ace2tag ace
  let s := { s with valid := s.valid ||| BitVec.ofNat 16 tag.toNat }
  match tag with
  | .userObj =>
    if is_allow then { s with owner := s.owner.allowBits mask }
    else { s with owner := s.owner.denyBits mask }
  | .user =>
    let (users, i) := slot s.users s.everyone ace.who_id
    if is_allow then { s with users := allowAt users i mask }
    else
      let users := denyAt users i mask
      { s with users, owner := s.owner.denyBits (deniedAt users i) }
  | .groupObj =>
    if is_allow then { s with group := s.group.allowBits mask }
    else
      let group := s.group.denyBits mask
      let denied := group.deny
      { s with
        group
        owner := s.owner.denyBits denied
        everyone := s.everyone.denyBits denied
        users := denyBitsAll s.users denied
        groups := denyBitsAll s.groups denied }
  | .group =>
    let (groups, i) := slot s.groups s.everyone ace.who_id
    if is_allow then { s with groups := allowAt groups i mask }
    else
      let groups := denyAt groups i mask
      let denied := deniedAt groups i
      { s with
        owner := s.owner.denyBits denied
        group := s.group.denyBits denied
        everyone := s.everyone.denyBits denied
        users := denyBitsAll s.users denied
        groups := denyBitsAll groups denied }
  | .other =>
    if is_allow then
      { s with
        owner := s.owner.allowBits mask
        group := s.group.allowBits mask
        other := s.other.allowBits mask
        everyone := s.everyone.allowBits mask
        users := allowBitsAll s.users mask
        groups := allowBitsAll s.groups mask }
    else
      { s with
        owner := s.owner.denyBits mask
        group := s.group.denyBits mask
        other := s.other.denyBits mask
        everyone := s.everyone.denyBits mask
        users := denyBitsAll s.users mask
        groups := denyBitsAll s.groups mask }
  | .mask => s

end AclState

def stateToEntries (state : AclState) (is_dir default : Bool) : List PosixAce :=
  let entry tag perm id : PosixAce := ⟨tag, lowModeFromNfs4 perm is_dir, id, default⟩
  let named := state.users.length + state.groups.length
  [entry .userObj state.owner.allow (-1)] ++
    (state.users.map fun p => entry .user p.2.allow p.1) ++
    [entry .groupObj state.group.allow (-1)] ++
    (state.groups.map fun p => entry .group p.2.allow p.1) ++
    (if 0 < named then
      let m := (state.users ++ state.groups).foldl (fun acc p => acc ||| p.2.allow)
        state.group.allow
      [entry .mask m (-1)]
    else []) ++
    [entry .other state.other.allow (-1)]

def foldAces (is_dir : Bool) (st : AclState × AclState) (ace : Nfs4Ace) : AclState × AclState :=
  if ace.ace_type = .allow ∨ ace.ace_type = .deny then
    let inheritable :=
      if is_dir && intersects ace.ace_flags INHERITABLE then st.2.process ace else st.2
    let effective :=
      if !contains ace.ace_flags Nfs4Flag.INHERIT_ONLY then st.1.process ace else st.1
    (effective, inheritable)
  else st

/-- A default list missing one of the three required entries takes the effective one's. -/
def borrowMissing (effective inheritable : AclState) : AclState :=
  if inheritable.valid ≠ 0 then
    { inheritable with
      owner := if !inheritable.saw .userObj then effective.owner else inheritable.owner
      group := if !inheritable.saw .groupObj then effective.group else inheritable.group
      other := if !inheritable.saw .other then effective.other else inheritable.other }
  else inheritable

def Nfs4Acl.toPosixLossy (acl : Nfs4Acl) (is_dir : Bool) : Except Error PosixAcl := do
  let (effective, inheritable) := acl.aces.foldl (foldAces is_dir) (AclState.new, AclState.new)
  let inheritable := borrowMissing effective inheritable
  let aces := stateToEntries effective is_dir false
  let aces :=
    if inheritable.valid ≠ 0 then aces ++ stateToEntries inheritable is_dir true else aces
  let posix := PosixAcl.fromAces aces
  posix.validate is_dir
  .ok posix

end ToPosix

end TruenasRos.Acl
