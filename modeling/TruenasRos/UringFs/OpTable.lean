import TruenasRos.Error
import TruenasRos.Lib.Slots
import TruenasRos.Uring.UserData

/-! # The op table of the fs core

Every fs op in flight on the ring has a slot of the table. An op is parked in a slot and
staged, its completion frees the slot and hands its outcome to whoever waits for it, and an
op the ring never hosted is refused. Timers and opens with a deadline hold their slots for
wall-clock time, which is counted for each owner.

The engine a call is handed stands beside the table, with what it will answer to the next
submissions. Assertions and expectations that fail are noted, and the call goes on as the
build without assertions does.
-/

namespace TruenasRos.UringFs

open Slots Uring Function

def EINTR : ℕ := 4
def EIO : ℕ := 5
def E2BIG : ℕ := 7
def EBUSY : ℕ := 16
def EINVAL : ℕ := 22
def ETIME : ℕ := 62
def ECANCELED : ℕ := 125

inductive Tag
  | OPEN
  | READV
  | WRITEV
  | FSYNC
  | STATX
  | FALLOCATE
  | FTRUNCATE
  | RENAMEAT
  | UNLINKAT
  | MKDIRAT
  | SYMLINKAT
  | LINKAT
  | FGETXATTR
  | FSETXATTR
  | FADVISE
  | SPLICE
  | TIMEOUT
  | OPEN_DEADLINE
  | GETXATTR_PROC
  | WAKE
  | CANCEL
  deriving DecidableEq

namespace Tag

def code : Tag → ℕ
  | OPEN => 0x80
  | READV => 0x81
  | WRITEV => 0x82
  | FSYNC => 0x83
  | STATX => 0x84
  | FALLOCATE => 0x87
  | FTRUNCATE => 0x88
  | RENAMEAT => 0x89
  | UNLINKAT => 0x8A
  | MKDIRAT => 0x8B
  | SYMLINKAT => 0x8C
  | LINKAT => 0x8D
  | FGETXATTR => 0x8E
  | FSETXATTR => 0x8F
  | FADVISE => 0x90
  | SPLICE => 0x91
  | TIMEOUT => 0x92
  | OPEN_DEADLINE => 0x93
  | GETXATTR_PROC => 0x94
  | WAKE => 0x9D
  | CANCEL => 0x9E

def all : List Tag :=
  [OPEN, READV, WRITEV, FSYNC, STATX, FALLOCATE, FTRUNCATE, RENAMEAT, UNLINKAT, MKDIRAT,
    SYMLINKAT, LINKAT, FGETXATTR, FSETXATTR, FADVISE, SPLICE, TIMEOUT, OPEN_DEADLINE,
    GETXATTR_PROC, WAKE, CANCEL]

/-- The tag of a byte; no entry of the table carries a byte that has none. -/
def ofCode (byte : ℕ) : Option Tag := all.find? (·.code = byte)

theorem ofCode_code (tag : Tag) : ofCode tag.code = some tag := by cases tag <;> rfl

theorem code_lt (tag : Tag) : tag.code < 2 ^ 8 := by cases tag <;> decide

end Tag

/-- A connection: its slot and the slot's generation. -/
abbrev Conn := ℕ × ℕ

abbrev Owner := Option Conn

/-- Where the outcome of an op goes. Closures and reply channels are known by their names. -/
inductive FsWaiter (κ : Type)
  | Channel (reply : κ)
  | Embedded (owner : Owner) (cb : κ) (on_fail : Option κ)
  | Pump (owner : Conn)
  deriving DecidableEq

structure FsDone where
  result : Except ℕ ℤ
  refused : Bool
  bufs : List Bytes
  file : Option ℕ
  deriving DecidableEq

structure FsOutcome where
  result : Except ℕ ℤ
  bufs : List Bytes
  file : Option ℕ
  deriving DecidableEq

inductive ReapedFs (κ : Type)
  | None
  | Embedded (cb : κ) (done : FsDone) (owner : Owner)
  | Pump (done : FsDone) (owner : Conn)
  deriving DecidableEq

inductive FsOpState
  | Free
  | InFlight (tag : Tag)
  deriving DecidableEq

structure FsOpEntry (κ : Type) where
  state : FsOpState
  waiter : Option (FsWaiter κ)
  bufs : List Bytes
  how : Option ℕ
  strip_nonblock : Bool
  retracted : Bool
  cancels : Option (ℕ × ℕ)
  guard : Option (ℕ × ℕ)
  wall_clock : Option Conn
  file : Option ℕ
  recv_leases : List ℕ
  lease_want : ℕ
  deriving DecidableEq

variable {κ : Type}

namespace FsOpEntry

def new : FsOpEntry κ where
  state := .Free
  waiter := none
  bufs := []
  how := none
  strip_nonblock := false
  retracted := false
  cancels := none
  guard := none
  wall_clock := none
  file := none
  recv_leases := []
  lease_want := 0

def clear (e : FsOpEntry κ) : FsOpEntry κ :=
  { e with
    waiter := none, bufs := [], strip_nonblock := false, how := none, retracted := false,
    cancels := none, guard := none, wall_clock := none, file := none, recv_leases := [],
    lease_want := 0, state := .Free }

end FsOpEntry

def saturatingAdd (a b : ℕ) : ℕ := min (a + b) (2 ^ 32 - 1)

def saturatingMul (a b : ℕ) : ℕ := min (a * b) (2 ^ 32 - 1)

@[ext]
structure WallClock where
  armed : ℕ := 0
  retiring : ℕ := 0
  deriving DecidableEq

namespace WallClock

variable (t : WallClock)

def arm : WallClock := { t with armed := saturatingAdd t.armed 1 }

/-- The half of the pair that the count of a hold sits on. -/
def half (retired : Bool) : ℕ := if retired then t.retiring else t.armed

def ended (retired : Bool) : WallClock :=
  if retired then { t with retiring := t.retiring - 1 } else { t with armed := t.armed - 1 }

def retract : WallClock where
  armed := t.armed - 1
  retiring := saturatingAdd t.retiring 1

def park : WallClock := { t with retiring := saturatingAdd t.retiring 1 }

def releasePark : WallClock := { t with retiring := t.retiring - 1 }

def isEmpty : Bool := t.armed = 0 && t.retiring = 0

end WallClock

/-- The assertions and expectations about the table and its counts. -/
inductive Fault
  | EndedNothingCounted
  | RetractedNothingArmed
  | ParkedReturnedTwice
  | RetractedNoArmedCount
  | ParkedNoCount
  | CompletedNoArmedCount
  | ReservedBeforePop
  | FreeListInFlight
  deriving DecidableEq

/-- A submission: its token and, for a cancel, the token of its target. The callback it was
staged for is kept for the statements only: nothing of the program reads it. -/
structure Sqe (κ : Type) where
  user_data : ℕ
  target : Option ℕ
  tenant : Option κ
  deriving DecidableEq

/-- The ring: what it will answer to the next submissions (`none`, or an exhausted list, takes
the submission) and what it took and has not completed. -/
structure Engine (κ : Type) where
  verdicts : List (Option ℕ)
  inflight : List (Sqe κ)
  pokes : ℕ
  page_size : ℕ

abbrev FsSlot (κ : Type) := SlotEntry (FsOpEntry κ)

structure FsCore (κ : Type) where
  ops : List (FsSlot κ)
  /-- The free slots, the next to be taken first. -/
  op_free : List ℕ
  pump_selecting : ℕ
  core_id : ℕ
  closed_owners : ℕ → Option ℕ
  armed_timers : Conn → Option WallClock
  timer_cap : Option ℕ
  refusals : List (Owner × κ × FsDone)
  /-- What was sent over the reply channels. -/
  sent : List (κ × FsOutcome)
  /-- What the reason sinks were filled with. -/
  filled : List (κ × ℕ)
  /-- The descriptors the guard's flag was taken off, with the flags they keep. -/
  stripped : List (ℤ × ℕ)
  faults : List Fault
  eng : Engine κ

namespace FsWaiter

def callback : FsWaiter κ → Option κ
  | Embedded _ cb _ => some cb
  | _ => none

def timerOwner : FsWaiter κ → Owner
  | Embedded owner _ _ => owner
  | _ => none

end FsWaiter

/-- What a completed op leaves behind when its slot is freed. -/
structure Completed (κ : Type) where
  waiter : Option (FsWaiter κ)
  bufs : List Bytes
  retracted : Bool
  guard : Option (ℕ × ℕ)
  strip_nonblock : Option ℕ
  leased : Bool
  lease_want : ℕ

def mapRes (res : ℤ) : Except ℕ ℤ :=
  if res = -512 ∨ res = -513 ∨ res = -514 ∨ res = -516 then .error EINTR
  else if res < 0 then .error res.natAbs
  else .ok res

namespace Completed

def of (e : FsOpEntry κ) : Completed κ where
  waiter := e.waiter
  bufs := e.bufs
  retracted := e.retracted
  guard := e.guard
  strip_nonblock := if e.strip_nonblock then e.how else none
  leased := e.recv_leases ≠ []
  lease_want := e.lease_want

variable (c : Completed κ)

/-- The result of a completion: the expiry of a timer is its success, unless it was retracted. -/
def outcome (tag : Tag) (res : ℤ) : Except ℕ ℤ :=
  if tag = .TIMEOUT ∧ mapRes res = .error ETIME then
    if c.retracted then .error ECANCELED else .ok 0
  else mapRes res

def leaseOutcome : Except ℕ ℤ → Except ℕ ℤ
  | .ok n => if c.leased ∧ n < c.lease_want then .error EIO else .ok n
  | .error err => .error err

def opened (tag : Tag) (res : ℤ) : Option ℕ :=
  if tag = .OPEN ∧ 0 ≤ res then some res.toNat else none

/-- The outcome of a completion; a cancellation that was asked for carries the mark. -/
def done (tag : Tag) (res : ℤ) : FsDone where
  result := c.leaseOutcome (c.outcome tag res)
  refused := c.retracted && c.outcome tag res = .error ECANCELED
  bufs := c.bufs
  file := opened tag res

end Completed

namespace FsCore

def new (op_slots : UInt32) (core_id page_size : ℕ) : FsCore κ where
  ops := List.replicate op_slots.toNat ⟨0, .new⟩
  op_free := List.range op_slots.toNat
  pump_selecting := 0
  core_id := core_id
  closed_owners := fun _ => none
  armed_timers := fun _ => none
  timer_cap := none
  refusals := []
  sent := []
  filled := []
  stripped := []
  faults := []
  eng := ⟨[], [], 0, page_size⟩

variable (core : FsCore κ)

def setTimerCap (per_owner : ℕ) : FsCore κ :=
  { core with timer_cap := some per_owner }

def fault (f : Fault) : FsCore κ := { core with faults := core.faults ++ [f] }

def debugAssert (cond : Bool) (f : Fault) : FsCore κ :=
  if cond then core else core.fault f

def ownerIsGone : Owner → Bool
  | none => false
  | some (slot, generation) => (core.closed_owners slot).any (generation ≤ ·)

def refuseWallClockHold (waiter : FsWaiter κ) : Option (ℕ × Bool) :=
  match waiter with
  | .Embedded (some o) _ _ =>
    if core.ownerIsGone (some o) then some (ECANCELED, false)
    else
      match core.timer_cap with
      | none => none
      | some cap =>
        let t := (core.armed_timers o).getD {}
        if cap ≤ t.armed ∨ saturatingMul cap 2 ≤ saturatingAdd t.armed t.retiring then
          some (EBUSY, true)
        else none
  | _ => none

def stage (sqe : Sqe κ) : Option ℕ × FsCore κ :=
  let eng := { core.eng with verdicts := core.eng.verdicts.tail }
  match core.eng.verdicts.head?.join with
  | some err => (some err, { core with eng := eng })
  | none => (none, { core with eng := { eng with inflight := eng.inflight ++ [sqe] } })

def opSqe (tag : Tag) (slot generation : ℕ) (tenant : Option κ) : Sqe κ :=
  ⟨packRaw tag.code slot (generation % 2 ^ 32), none, tenant⟩

def submitCancel (target_ud : ℕ) : FsCore κ :=
  (core.stage ⟨packRaw Tag.CANCEL.code 0 0, some target_ud, none⟩).2

def popOp : Option (ℕ × FsCore κ) :=
  match core.op_free with
  | [] => none
  | slot :: rest => some (slot, { core with op_free := rest })

def park (slot : ℕ) (f : FsOpEntry κ → FsOpEntry κ) : FsCore κ :=
  { core with ops := core.ops.modify slot fun x => { x with state := f x.state } }

def generation (slot : ℕ) : ℕ := (core.ops[slot]?.map (·.generation)).getD 0

def vacate (slot : ℕ) : FsCore κ :=
  { core with
    ops := core.ops.modify slot fun x => ⟨x.generation + 1, x.state.clear⟩
    op_free := slot :: core.op_free }

/-- Outside of the loop's normal turn an embedded callback is dropped unfired. -/
def deliver (waiter : Option (FsWaiter κ)) (res : Except ℕ ℤ)
    (bufs : List Bytes) (file : Option ℕ) : FsCore κ :=
  match waiter with
  | some (.Channel reply) => { core with sent := core.sent ++ [(reply, ⟨res, bufs, file⟩)] }
  | _ => core

def refuse (waiter : FsWaiter κ) (err : ℕ) (marked : Bool)
    (bufs : List Bytes) (file : Option ℕ) : FsCore κ :=
  match waiter with
  | .Embedded owner cb on_fail =>
    { core with
      filled := core.filled ++ if marked then (on_fail.map (·, err)).toList else []
      eng :=
        if core.refusals = [] then { core.eng with pokes := core.eng.pokes + 1 } else core.eng
      refusals := core.refusals ++ [(owner, cb, ⟨.error err, marked, bufs, file⟩)] }
  | other => core.deliver (some other) (.error err) bufs file

def takeRefusal : Option (Owner × κ × FsDone) × FsCore κ :=
  match core.refusals with
  | [] => (none, core)
  | r :: rest => (some r, { core with refusals := rest })

def failOp (op_slot err : ℕ) : FsCore κ :=
  match core.ops[op_slot]? with
  | none => core
  | some x =>
    match x.state.waiter with
    | some w => (core.vacate op_slot).refuse w err true x.state.bufs x.state.file
    | none => core.vacate op_slot

def retractOp (tag : Tag) (op_slot generation : ℕ) : Bool × FsCore κ :=
  match core.ops[op_slot]? with
  | none => (false, core)
  | some x =>
    if x.generation ≠ generation ∨ x.state.state ≠ .InFlight tag then (false, core)
    else if x.state.retracted then (false, core)
    else
      (true, (core.park op_slot ({ · with retracted := true })).submitCancel
        (packRaw tag.code op_slot (generation % 2 ^ 32)))

def storeClock (o : Conn) (t : WallClock) : FsCore κ :=
  { core with
    armed_timers := update core.armed_timers o (if t.isEmpty then none else some t) }

def retractTimeout (core_id slot generation : ℕ) : FsCore κ :=
  if core_id ≠ core.core_id then core
  else
    match core.retractOp .TIMEOUT slot generation with
    | (false, core) => core
    | (true, core) =>
      match (core.ops[slot]?.bind (·.state.waiter)).bind (·.timerOwner) with
      | none => core
      | some o =>
        match core.armed_timers o with
        | none => core.fault .RetractedNoArmedCount
        | some t =>
          let core := core.debugAssert (0 < t.armed) .RetractedNothingArmed
          { core with armed_timers := update core.armed_timers o (some t.retract) }

def sweepOwner : Option (FsWaiter κ) → Owner
  | some (.Embedded owner _ _) => owner
  | some (.Pump owner) => some owner
  | _ => none

/-- The tokens of the swept owners' ops, from slot `i` on; the scan ends when it has met as
many ops in flight as there are. -/
def sweepTargets (owners : List Conn) : ℕ → ℕ → List (FsSlot κ) → List ℕ
  | _, _, [] => []
  | 0, _, _ :: _ => []
  | in_flight + 1, i, x :: rest =>
    match x.state.state with
    | .Free => sweepTargets owners (in_flight + 1) (i + 1) rest
    | .InFlight tag =>
      let targets := sweepTargets owners in_flight (i + 1) rest
      if (sweepOwner x.state.waiter).any (· ∈ owners) then
        packRaw tag.code i (x.generation % 2 ^ 32) :: targets
      else targets

def recordClosed (closed : ℕ → Option ℕ) (owner : Conn) : ℕ → Option ℕ :=
  update closed owner.1
    (some (match closed owner.1 with | none => owner.2 | some swept => max swept owner.2))

def cancelOwnedBy (owners : List Conn) : FsCore κ :=
  let core := { core with closed_owners := owners.foldl recordClosed core.closed_owners }
  let in_flight := core.ops.length - core.op_free.length
  let census := core.ops.countP fun x => x.state.state ≠ .Free
  let core := core.debugAssert (census ≤ in_flight) .FreeListInFlight
  if in_flight = 0 then core
  else (sweepTargets owners in_flight 0 core.ops).foldl submitCancel core

def releaseRetiring (owner : Conn) : FsCore κ :=
  match core.armed_timers owner with
  | none => core.fault .ParkedNoCount
  | some t =>
    (core.debugAssert (0 < t.retiring) .ParkedReturnedTwice).storeClock owner t.releasePark

/-- The guard an open names still waits in its slot. -/
def guardInFlight (guard : ℕ × ℕ) : Bool :=
  core.ops[guard.1]?.any fun g =>
    g.generation = guard.2 ∧ g.state.state = .InFlight .OPEN_DEADLINE

/-- The owner a completion gives a count back to, and whether it was retracted before. -/
def charged (tag : Tag) (e : FsOpEntry κ) : Option (Conn × Bool) :=
  match tag, e.waiter with
  | .TIMEOUT, some (.Embedded (some o) _ _) => some (o, e.retracted)
  | .OPEN, some (.Embedded (some o) _ _) => if e.guard.isSome then some (o, false) else none
  | _, _ => none

/-- Give a count back, or move it to the guard's slot; `true` where it was moved. -/
def settle (charged : Option (Conn × Bool)) (on_guard : Bool) : Bool × FsCore κ :=
  match charged with
  | none => (false, core)
  | some (o, retired) =>
    match core.armed_timers o with
    | none => (false, core.fault .CompletedNoArmedCount)
    | some t =>
      let core := core.debugAssert (0 < t.half retired) .EndedNothingCounted
      let t := t.ended retired
      (on_guard, core.storeClock o (if on_guard then t.park else t))

def freeOp (tag : Tag) (op_slot : ℕ) (e : FsOpEntry κ) : FsCore κ :=
  let live_guard := if tag = .OPEN then e.guard.filter core.guardInFlight else none
  let charge := charged tag e
  let park_on_guard := charge.bind fun c => live_guard.map fun guard => (c.1, guard)
  let owed_here := if tag = .OPEN_DEADLINE then e.wall_clock else none
  let (parked, core) := core.settle charge park_on_guard.isSome
  let core := core.vacate op_slot
  let core :=
    match parked, park_on_guard with
    | true, some (o, guard) => core.park guard.1 ({ · with wall_clock := some o })
    | _, _ => core
  match owed_here with
  | some o => core.releaseRetiring o
  | none => core

def takeOp (tag : Tag) (op_slot gen32 : ℕ) : Option (Completed κ × FsCore κ) :=
  match core.ops[op_slot]? with
  | none => none
  | some x =>
    if x.generation % 2 ^ 32 ≠ gen32 then none
    else if x.state.state ≠ .InFlight tag then none
    else some (.of x.state, core.freeOp tag op_slot x.state)

def onDeadline (op_slot gen32 : ℕ) (res : ℤ) : FsCore κ :=
  match core.ops[op_slot]? with
  | none => core
  | some x =>
    if x.generation % 2 ^ 32 ≠ gen32 ∨ x.state.state ≠ .InFlight .OPEN_DEADLINE then core
    else
      let core := core.vacate op_slot
      let core :=
        match x.state.wall_clock with
        | some o => core.releaseRetiring o
        | none => core
      match x.state.cancels with
      | some (oslot, ogen) =>
        if ¬ x.state.retracted ∧ res ≠ -(ECANCELED : ℤ) then (core.retractOp .OPEN oslot ogen).2
        else core
      | none => core

def retireGuard : Option (ℕ × ℕ) → FsCore κ
  | some (gslot, ggen) => (core.retractOp .OPEN_DEADLINE gslot ggen).2
  | none => core

/-- Before anyone sees a descriptor the guard's flag is taken off it. -/
def stripGuardNonblock (completed : Completed κ) (tag : Tag) (res : ℤ) : FsCore κ :=
  if tag = .OPEN ∧ 0 ≤ res then
    { core with stripped := core.stripped ++ (completed.strip_nonblock.map (res, ·)).toList }
  else core

def hand (waiter : Option (FsWaiter κ)) (done : FsDone) : ReapedFs κ × FsCore κ :=
  match waiter with
  | some (.Channel reply) =>
    (.None, { core with sent := core.sent ++ [(reply, { done with })] })
  | some (.Embedded owner cb _) => (.Embedded cb done owner, core)
  | some (.Pump owner) =>
    (.Pump done owner,
      { core with
        pump_selecting :=
          if done.bufs = [] then core.pump_selecting - 1 else core.pump_selecting })
  | none => (.None, core)

def onCqe (tag : Tag) (op_slot gen32 : ℕ) (res : ℤ) : ReapedFs κ × FsCore κ :=
  if tag = .CANCEL then (.None, core)
  else if tag = .OPEN_DEADLINE then (.None, core.onDeadline op_slot gen32 res)
  else
    match core.takeOp tag op_slot gen32 with
    | none => (.None, core)
    | some (completed, core) =>
      ((core.retireGuard completed.guard).stripGuardNonblock completed tag res).hand
        completed.waiter (completed.done tag res)

def onDrainCqe (user_data : ℕ) (res : ℤ) : FsCore κ :=
  let (byte, op_slot, gen32) := unpackRaw user_data
  match Tag.ofCode byte with
  | none | some .CANCEL | some .WAKE => core
  | some tag =>
    match core.takeOp tag op_slot gen32 with
    | none => core
    | some (done, core) =>
      core.deliver done.waiter (done.leaseOutcome (mapRes res)) done.bufs
        (Completed.opened tag res)

end FsCore

end TruenasRos.UringFs
