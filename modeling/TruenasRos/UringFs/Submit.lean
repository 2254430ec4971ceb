import TruenasRos.UringFs.OpTable

/-! # Submissions to the fs core

Each submission screens its arguments, takes a slot, parks the op in it and stages it. What
cannot be hosted is refused: at a screen, for want of a slot, or because the ring did not take
the submission. An open with a deadline takes a second slot for the timer that guards it.
-/

namespace TruenasRos.UringFs

open Slots Uring

variable {κ : Type}

def UIO_MAXIOV : ℕ := 1024

def XATTR_SIZE_MAX : ℕ := 2 * 1024 * 1024

def maxRwCount (page_size : ℕ) : ℕ := (2 ^ 31 - 1) / page_size * page_size

def gatherFits (page_size windows total : ℕ) : Bool :=
  0 < windows ∧ windows ≤ UIO_MAXIOV ∧ total ≤ maxRwCount page_size

/-- The tags an opcode is known for among the ops on an open file. -/
def fdMetaTags : List Tag :=
  [.FTRUNCATE, .FALLOCATE, .FADVISE, .SPLICE, .FGETXATTR, .FSETXATTR, .GETXATTR_PROC]

/-- The tags an opcode is known for among the ops on paths. -/
def pathOpTags : List Tag := [.STATX, .MKDIRAT, .UNLINKAT, .SYMLINKAT, .RENAMEAT, .LINKAT]

/-- A held window of a receive buffer: the buffer's id and the window's length. -/
structure LeasedWindow where
  bid : ℕ
  len : ℕ
  deriving DecidableEq

inductive PumpDest
  | Owned (buf : Bytes) (capacity : ℕ)
  | Group (bgid : ℕ)

namespace PumpDest

def bufs : PumpDest → List Bytes
  | Owned buf _ => [buf]
  | Group _ => []

def selecting : PumpDest → Bool
  | Owned _ _ => false
  | Group _ => true

def fits (want : ℕ) : PumpDest → Bool
  | Owned buf capacity => buf = [] ∧ want ≤ capacity
  | Group _ => true

end PumpDest

namespace FsCore

variable (core : FsCore κ)

/-- Take a slot, park the op in it with what `fill` adds to the entry, and stage it. -/
def hostOp (tag : Tag) (waiter : FsWaiter κ)
    (fill : FsOpEntry κ → FsOpEntry κ) (bufs : List Bytes) (file : Option ℕ) : FsCore κ :=
  match core.popOp with
  | none => core.refuse waiter EBUSY true bufs file
  | some (op_slot, core) =>
    let generation := core.generation op_slot
    let core :=
      core.park op_slot fun e => fill { e with state := .InFlight tag, waiter := some waiter }
    match core.stage (opSqe tag op_slot generation waiter.callback) with
    | (some err, core) => core.failOp op_slot err
    | (none, core) => core

def submitRw (tag : Tag) (file : ℕ) (bufs : List Bytes) (waiter : FsWaiter κ) : FsCore κ :=
  core.hostOp tag waiter ({ · with bufs := bufs, file := some file }) bufs (some file)

def submitFsync (file : ℕ) (waiter : FsWaiter κ) : FsCore κ :=
  core.hostOp .FSYNC waiter ({ · with file := some file }) [] (some file)

def stageReopenProc (file how : ℕ) (guarded : Bool) (waiter : FsWaiter κ) : FsCore κ :=
  core.hostOp .OPEN waiter
    ({ · with file := some file, how := some how, strip_nonblock := guarded }) [] (some file)

def submitReopenProc (pers file how : ℕ) (guarded : Bool) (waiter : FsWaiter κ) : FsCore κ :=
  if pers = 0 then core.refuse waiter EINVAL true [] (some file)
  else core.stageReopenProc file how guarded waiter

def submitReopenProcAsRoot (file how : ℕ) (guarded : Bool) (waiter : FsWaiter κ) : FsCore κ :=
  core.stageReopenProc file how guarded waiter

/-- A value whose length the submission cannot carry. -/
def unrepresentable (tag : Tag) (value : Bytes) : Bool :=
  match tag with
  | .FSETXATTR => XATTR_SIZE_MAX < value.length
  | .FGETXATTR | .GETXATTR_PROC => 2 ^ 32 - 1 < value.length
  | _ => false

def stageFdMeta (tag : Tag) (file : ℕ) (value : Bytes) (waiter : FsWaiter κ) : FsCore κ :=
  if tag ∉ fdMetaTags then core.refuse waiter EINVAL true [value] (some file)
  else if unrepresentable tag value then core.refuse waiter E2BIG true [value] (some file)
  else core.hostOp tag waiter ({ · with file := some file, bufs := [value] }) [value] (some file)

def submitFdMeta (tag : Tag) (pers file : ℕ) (value : Bytes) (waiter : FsWaiter κ) : FsCore κ :=
  if pers = 0 then core.refuse waiter EINVAL true [value] (some file)
  else core.stageFdMeta tag file value waiter

def submitFgetxattrAsRoot (file : ℕ) (value : Bytes) (through_proc : Bool)
    (waiter : FsWaiter κ) : FsCore κ :=
  core.stageFdMeta (if through_proc then .GETXATTR_PROC else .FGETXATTR) file value waiter

def submitPathOp (tag : Tag) (pers : ℕ) (waiter : FsWaiter κ) : FsCore κ :=
  if pers = 0 then core.refuse waiter EINVAL true [] none
  else if tag ∉ pathOpTags then core.refuse waiter EINVAL true [] none
  else core.hostOp tag waiter id [] none

def submitLinkatFile (pers file : ℕ) (waiter : FsWaiter κ) : FsCore κ :=
  if pers = 0 then core.refuse waiter EINVAL true [] (some file)
  else core.hostOp .LINKAT waiter ({ · with file := some file }) [] (some file)

/-- The waiter is parked only once the ring has taken the write: `false` hands it back. -/
def submitPwritev2Gathered (file : ℕ) (windows : List LeasedWindow)
    (waiter : FsWaiter κ) : Bool × FsCore κ :=
  let total := (windows.map (·.len)).sum
  if ¬ gatherFits core.eng.page_size windows.length total then (false, core)
  else
    match core.popOp with
    | none => (false, core)
    | some (op_slot, core) =>
      let generation := core.generation op_slot
      let core := core.park op_slot
        ({ · with
          state := .InFlight .WRITEV, recv_leases := windows.map (·.bid), file := some file
          lease_want := total % 2 ^ 32 })
      match core.stage (opSqe .WRITEV op_slot generation waiter.callback) with
      | (none, core) => (true, core.park op_slot ({ · with waiter := some waiter }))
      | (some _, core) => (false, core.vacate op_slot)

def submitLeasedOrRefuse (file : ℕ) (windows : List LeasedWindow)
    (waiter : FsWaiter κ) : FsCore κ :=
  match core.submitPwritev2Gathered file windows waiter with
  | (true, core) => core
  | (false, core) => core.refuse waiter EBUSY true [] (some file)

def submitPumpRead (file : ℕ) (dest : PumpDest) (want : ℕ) (owner : Conn) :
    Except ℕ Unit × FsCore κ :=
  if ¬ dest.fits want then (.error EINVAL, core)
  else
    match core.popOp with
    | none => (.error EBUSY, core)
    | some (op_slot, core) =>
      let generation := core.generation op_slot
      let core := core.park op_slot
        ({ · with
          state := .InFlight .READV, waiter := some (.Pump owner), bufs := dest.bufs
          file := some file })
      match core.stage (opSqe .READV op_slot generation none) with
      | (some err, core) => (.error err, core.failOp op_slot err)
      | (none, core) =>
        (.ok (), { core with
          pump_selecting :=
            if dest.selecting then core.pump_selecting + 1 else core.pump_selecting })

def armClock (o : Conn) : FsCore κ :=
  { core with
    armed_timers :=
      Function.update core.armed_timers o (some ((core.armed_timers o).getD {}).arm) }

/-- The count of a hold that names its owner. -/
def armFor : Owner → FsCore κ
  | some o => core.armClock o
  | none => core

def submitTimeout (waiter : FsWaiter κ) : Option (ℕ × ℕ) × FsCore κ :=
  match core.refuseWallClockHold waiter with
  | some (err, marked) => (none, core.refuse waiter err marked [] none)
  | none =>
    match core.popOp with
    | none => (none, core.refuse waiter EBUSY true [] none)
    | some (op_slot, core) =>
      let generation := core.generation op_slot
      let core := core.park op_slot
        ({ · with state := .InFlight .TIMEOUT, waiter := some waiter })
      match core.stage (opSqe .TIMEOUT op_slot generation waiter.callback) with
      | (some err, core) => (none, core.failOp op_slot err)
      | (none, core) =>
        let core := core.armFor waiter.timerOwner
        (some (op_slot, core.generation op_slot), core)

/-- The timer that bounds an open already in flight. If the ring does not take it, the open is
cancelled. -/
def stageGuard (op_slot open_gen : ℕ) (timer_owner : Owner) : FsCore κ :=
  match core.popOp with
  | none => core.fault .ReservedBeforePop
  | some (guard_slot, core) =>
    let generation := core.generation guard_slot
    let core := core.park guard_slot
      ({ · with state := .InFlight .OPEN_DEADLINE, cancels := some (op_slot, open_gen) })
    match core.stage (opSqe .OPEN_DEADLINE guard_slot generation none) with
    | (none, core) =>
      let core :=
        core.park op_slot ({ · with guard := some (guard_slot, core.generation guard_slot) })
      core.armFor timer_owner
    | (some _, core) => ((core.failOp guard_slot ECANCELED).retractOp .OPEN op_slot open_gen).2

def submitOpen (pers how : ℕ) (guarded : Bool) (deadline : Option ℕ)
    (waiter : FsWaiter κ) : FsCore κ :=
  if pers = 0 then core.refuse waiter EINVAL true [] none
  else
    match if deadline.isSome then core.refuseWallClockHold waiter else none with
    | some (err, marked) => core.refuse waiter err marked [] none
    | none =>
      if deadline.isSome ∧ core.op_free.length < 2 then core.refuse waiter EBUSY true [] none
      else
        match core.popOp with
        | none => core.refuse waiter EBUSY true [] none
        | some (op_slot, core) =>
          let open_gen := core.generation op_slot
          let core := core.park op_slot
            ({ · with
              state := .InFlight .OPEN, waiter := some waiter, how := some how
              strip_nonblock := guarded })
          match core.stage (opSqe .OPEN op_slot open_gen waiter.callback) with
          | (some err, core) => core.failOp op_slot err
          | (none, core) =>
            if deadline.isSome then core.stageGuard op_slot open_gen waiter.timerOwner else core

end FsCore

/-- The submissions that carry a waiter. -/
inductive Request
  | Open (pers how : ℕ) (guarded : Bool) (deadline : Option ℕ)
  | Rw (write : Bool) (file : ℕ) (bufs : List Bytes)
  | Leased (file : ℕ) (windows : List LeasedWindow)
  | Fsync (file : ℕ)
  | Timeout
  | FdMeta (tag : Tag) (pers file : ℕ) (value : Bytes)
  | FgetxattrAsRoot (file : ℕ) (value : Bytes) (through_proc : Bool)
  | ReopenProc (pers file how : ℕ) (guarded : Bool)
  | ReopenProcAsRoot (file how : ℕ) (guarded : Bool)
  | PathOp (tag : Tag) (pers : ℕ)
  | LinkatFile (pers file : ℕ)
  deriving DecidableEq

inductive Call (κ : Type)
  | Submit (request : Request) (waiter : FsWaiter κ)
  | PumpRead (file : ℕ) (dest : PumpDest) (want : ℕ) (owner : Conn)
  | RetractTimeout (core_id slot generation : ℕ)
  | CancelOwnedBy (owners : List Conn)
  | Cqe (tag : Tag) (op_slot gen32 : ℕ) (res : ℤ)
  | DrainCqe (user_data : ℕ) (res : ℤ)
  | TakeRefusal

namespace FsCore

variable (core : FsCore κ)

def submit (request : Request) (waiter : FsWaiter κ) : FsCore κ :=
  match request with
  | .Open pers how guarded deadline => core.submitOpen pers how guarded deadline waiter
  | .Rw write file bufs => core.submitRw (if write then .WRITEV else .READV) file bufs waiter
  | .Leased file windows => core.submitLeasedOrRefuse file windows waiter
  | .Fsync file => core.submitFsync file waiter
  | .Timeout => (core.submitTimeout waiter).2
  | .FdMeta tag pers file value => core.submitFdMeta tag pers file value waiter
  | .FgetxattrAsRoot file value through_proc =>
    core.submitFgetxattrAsRoot file value through_proc waiter
  | .ReopenProc pers file how guarded => core.submitReopenProc pers file how guarded waiter
  | .ReopenProcAsRoot file how guarded => core.submitReopenProcAsRoot file how guarded waiter
  | .PathOp tag pers => core.submitPathOp tag pers waiter
  | .LinkatFile pers file => core.submitLinkatFile pers file waiter

/-- What the ring will answer to the submissions of the next call. -/
def withVerdicts (verdicts : List (Option ℕ)) : FsCore κ :=
  { core with eng := { core.eng with verdicts := verdicts } }

def call : Call κ → FsCore κ
  | .Submit request waiter => core.submit request waiter
  | .PumpRead file dest want owner => (core.submitPumpRead file dest want owner).2
  | .RetractTimeout core_id slot generation => core.retractTimeout core_id slot generation
  | .CancelOwnedBy owners => core.cancelOwnedBy owners
  | .Cqe tag op_slot gen32 res => (core.onCqe tag op_slot gen32 res).2
  | .DrainCqe user_data res => core.onDrainCqe user_data res
  | .TakeRefusal => core.takeRefusal.2

end FsCore

end TruenasRos.UringFs
