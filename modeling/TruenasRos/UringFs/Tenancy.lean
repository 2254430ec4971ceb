import TruenasRos.UringFs.OpTable

/-! # Tenancy of the op table

What the table is for, apart from how the calls get there: slots with their tenants, the
counts of each owner, the ops the ring has taken and the callbacks queued for a refusal. A
move is the smallest change a call can make, and the invariants are proved of moves.
-/

namespace TruenasRos.UringFs

open FsOpEntry List Slots Uring Option Function Nat

variable {κ : Type}

namespace FsOpEntry

variable (e : FsOpEntry κ)

def callback (e : FsOpEntry κ) : Option κ := e.waiter.bind (·.callback)

def owner : Owner := e.waiter.bind (·.timerOwner)

def isTimer (o : Conn) (retracted : Bool) (e : FsOpEntry κ) : Bool :=
  e.state = .InFlight .TIMEOUT ∧ e.owner = some o ∧ e.retracted = retracted

/-- An open of `o` in flight that holds a guard. -/
def isGuardedOpen (o : Conn) (e : FsOpEntry κ) : Bool :=
  e.state = .InFlight .OPEN ∧ e.owner = some o ∧ e.guard.isSome

/-- A guard in flight that carries a hold of `o`, its open having answered. -/
def isParkedGuard (o : Conn) (e : FsOpEntry κ) : Bool :=
  e.state = .InFlight .OPEN_DEADLINE ∧ e.wall_clock = some o

end FsOpEntry

namespace WallClock

variable (t : WallClock)

/-- The map's entry for a pair of counts. -/
def keep : Option WallClock := if t.isEmpty then none else some t

def tally (ops : List (FsSlot κ)) (o : Conn) : WallClock where
  armed := ops.countP (·.state.isTimer o false) + ops.countP (·.state.isGuardedOpen o)
  retiring := ops.countP (·.state.isTimer o true) + ops.countP (·.state.isParkedGuard o)

theorem isEmpty_iff : t.isEmpty = true ↔ t.armed = 0 ∧ t.retiring = 0 := by
  simp [isEmpty]

theorem keep_eq_none_iff : t.keep = none ↔ t.armed = 0 ∧ t.retiring = 0 := by
  rw [← isEmpty_iff, keep]
  split_ifs with h <;> simp [h]

theorem getD_keep : t.keep.getD {} = t := by
  rw [keep]
  split_ifs with h
  · obtain ⟨ha, hr⟩ := (isEmpty_iff t).1 h
    cases t
    simp_all
  · rfl

theorem keep_of_pos {t : WallClock} (h : 0 < t.armed ∨ 0 < t.retiring) : t.keep = some t := by
  rw [keep, if_neg]
  rw [isEmpty_iff]
  omega

end WallClock

open WallClock

abbrev Clocks := Conn → Option WallClock

namespace Clocks

variable (clocks : Clocks)

/-- Change the counts of one owner, if there is one. -/
def adjust (o : Owner) (f : WallClock → WallClock) : Clocks :=
  match o with
  | none => clocks
  | some o => update clocks o (f ((clocks o).getD {})).keep

def Room (cap : Option ℕ) (o : Conn) : Prop :=
  ∀ c, cap = some c → ((clocks o).getD {}).armed < c ∧
    ((clocks o).getD {}).armed + ((clocks o).getD {}).retiring < 2 * c

def settled (e : FsOpEntry κ) : Clocks :=
  match e.state with
  | .InFlight .TIMEOUT => clocks.adjust e.owner (·.ended e.retracted)
  | .InFlight .OPEN => if e.guard.isSome then clocks.adjust e.owner (·.ended false) else clocks
  | .InFlight .OPEN_DEADLINE => clocks.adjust e.wall_clock (·.releasePark)
  | _ => clocks

end Clocks

structure View (κ : Type) where
  ops : List (FsSlot κ)
  op_free : List ℕ
  clocks : Clocks
  ring : List (Sqe κ)
  queue : List κ

def FsCore.view (core : FsCore κ) : View κ where
  ops := core.ops
  op_free := core.op_free
  clocks := core.armed_timers
  ring := core.eng.inflight.filter (·.target.isNone)
  queue := core.refusals.map (·.2.1)

/-- A fresh tenant of a slot: it is in flight, guards nothing and carries no hold. -/
structure FsOpEntry.Fresh (e : FsOpEntry κ) (tag : Tag) : Prop where
  state : e.state = .InFlight tag
  retracted : e.retracted = false
  guard : e.guard = none
  wall_clock : e.wall_clock = none

/-- The tags of the ops a waiter can wait for. -/
def Tag.Hosted (tag : Tag) : Prop := tag ≠ .OPEN_DEADLINE ∧ tag ≠ .CANCEL ∧ tag ≠ .WAKE

instance (tag : Tag) : Decidable tag.Hosted := inferInstanceAs (Decidable (_ ∧ _ ∧ _))

def FsOpEntry.guarding (slot g : ℕ) : FsOpEntry κ :=
  { new with state := .InFlight .OPEN_DEADLINE, cancels := some (slot, g) }

/-- The owner a fresh tenant is charged to. -/
def FsOpEntry.armOwner (e : FsOpEntry κ) : Owner :=
  if e.state = .InFlight .TIMEOUT then e.owner else none

/-- What `P` says of the callback of an op and of the entry parked for it. -/
def FsOpEntry.Tells (P : κ → FsOpEntry κ → Prop) (e : FsOpEntry κ) : Prop :=
  ∀ cb ∈ e.callback, P cb e

section

variable (P : κ → FsOpEntry κ → Prop) (cap : Option ℕ)

/-- The changes that end no tenancy, with the callbacks they take in. -/
inductive Move : View κ → List κ → View κ → Prop
  /-- A submission is refused. -/
  | refuse {v} (cb : κ) : Move v [cb] { v with queue := v.queue ++ [cb] }
  /-- The ring does not take a submission, and its slot is free again. -/
  | bounce {v slot g rest} (hfree : v.op_free = slot :: rest)
      (hslot : v.ops[slot]? = some ⟨g, .new⟩) :
      Move v [] { v with ops := v.ops.set slot ⟨g + 1, .new⟩ }
  /-- An op is parked and staged. -/
  | host {v slot g rest e tag} (hfree : v.op_free = slot :: rest)
      (hslot : v.ops[slot]? = some ⟨g, .new⟩) (he : e.Fresh tag) (htag : tag.Hosted)
      (hroom : ∀ o, e.armOwner = some o → v.clocks.Room cap o) (htells : e.Tells P) :
      Move v e.callback.toList
        { v with
          ops := v.ops.set slot ⟨g, e⟩, op_free := rest
          clocks := v.clocks.adjust e.armOwner arm
          ring := v.ring ++ [FsCore.opSqe tag slot g e.callback] }
  /-- An open in flight gets its guard. -/
  | guard {v slot g e gslot gg rest} (hslot : v.ops[slot]? = some ⟨g, e⟩) (he : e.Fresh .OPEN)
      (hfree : v.op_free = gslot :: rest) (hguard : v.ops[gslot]? = some ⟨gg, .new⟩)
      (hroom : ∀ o, e.owner = some o → v.clocks.Room cap o) :
      Move v []
        { v with
          ops := (v.ops.set gslot ⟨gg, .guarding slot g⟩).set slot
            ⟨g, { e with guard := some (gslot, gg) }⟩
          op_free := rest
          clocks := v.clocks.adjust e.owner arm
          ring := v.ring ++ [FsCore.opSqe .OPEN_DEADLINE gslot gg none] }
  /-- An open or a guard is marked as cancelled on request. -/
  | mark {v slot g e tag} (hslot : v.ops[slot]? = some ⟨g, e⟩) (hstate : e.state = .InFlight tag)
      (htag : tag ≠ .TIMEOUT) :
      Move v [] { v with ops := v.ops.set slot ⟨g, { e with retracted := true }⟩ }
  /-- A timer is retracted. -/
  | retract {v slot g e} (hslot : v.ops[slot]? = some ⟨g, e⟩)
      (hstate : e.state = .InFlight .TIMEOUT) (hmark : e.retracted = false) :
      Move v []
        { v with
          ops := v.ops.set slot ⟨g, { e with retracted := true }⟩
          clocks := v.clocks.adjust e.owner retract }

/-- The end of the tenancy of entry `e` in a slot. -/
inductive Reap : View κ → ℕ → FsOpEntry κ → View κ → Prop
  /-- The slot is freed and what was charged for it is given back. -/
  | vacate {v slot g e tag} (hslot : v.ops[slot]? = some ⟨g, e⟩)
      (hstate : e.state = .InFlight tag) :
      Reap v slot e
        { v with
          ops := v.ops.set slot ⟨g + 1, .new⟩, op_free := slot :: v.op_free
          clocks := v.clocks.settled e }
  /-- The open's slot is freed and its charge moves to the guard still in flight. -/
  | park {v slot g e o gslot gg ge} (hslot : v.ops[slot]? = some ⟨g, e⟩)
      (hstate : e.state = .InFlight .OPEN) (howner : e.owner = some o)
      (hguard : e.guard = some (gslot, gg)) (hlive : v.ops[gslot]? = some ⟨gg, ge⟩)
      (hge : ge.state = .InFlight .OPEN_DEADLINE) :
      Reap v slot e
        { v with
          ops := (v.ops.set slot ⟨g + 1, .new⟩).set gslot ⟨gg, { ge with wall_clock := some o }⟩
          op_free := slot :: v.op_free
          clocks := v.clocks.adjust (some o) fun t => (t.ended false).park }

inductive Moves : View κ → List κ → View κ → Prop
  | refl (v) : Moves v [] v
  | head {v v₁ v₂ cbs cbs'} (h : Move P cap v cbs v₁) (hs : Moves v₁ cbs' v₂) :
      Moves v (cbs ++ cbs') v₂

/-- A guard named by an open belongs to it as long as its slot has not been given on. -/
def Paired (ops : List (FsSlot κ)) : Prop :=
  ∀ (i : ℕ) (x : FsSlot κ) (gs gg : ℕ), ops[i]? = some x →
    x.state.guard = some (gs, gg) → x.state.state = .InFlight .OPEN ∧
      ∃ y : FsSlot κ, ops[gs]? = some y ∧ gg ≤ y.generation ∧
        (y.generation = gg → y.state.state = .InFlight .OPEN_DEADLINE ∧
          y.state.cancels = some (i, x.generation) ∧ y.state.wall_clock = none)

/-- An op in flight has a waiter's tag, or is a guard, which nobody waits for. -/
def Routed (ops : List (FsSlot κ)) : Prop :=
  ∀ (i : ℕ) (x : FsSlot κ) (tag : Tag), ops[i]? = some x →
    x.state.state = .InFlight tag → tag.Hosted ∨ tag = .OPEN_DEADLINE ∧ x.state.waiter = none

/-- A slot that is free has nothing left of its last tenant. -/
def Blank (ops : List (FsSlot κ)) : Prop :=
  ∀ (i : ℕ) (x : FsSlot κ), ops[i]? = some x → x.state.state = .Free → x.state = .new

/-- The counts of each owner are what it holds in the table, and within the cap. -/
structure Accounted (ops : List (FsSlot κ)) (clocks : Clocks) : Prop where
  clocks : ∀ o, clocks o = (tally ops o).keep
  capped : ∀ o c, cap = some c → (tally ops o).armed ≤ c ∧
    (tally ops o).armed + (tally ops o).retiring ≤ 2 * c

structure Sound (v : View κ) : Prop where
  exact : Exact (fun e : FsOpEntry κ => e.state = .Free) v.ops v.op_free
  blank : Blank v.ops
  small : v.ops.length < 2 ^ 32
  paired : Paired v.ops
  routed : Routed v.ops
  accounts : Accounted cap v.ops v.clocks

end

theorem Sound.of_table {cap : Option ℕ} {v v' : View κ} (h : Sound cap v) (ho : v'.ops = v.ops)
    (hf : v'.op_free = v.op_free) (hc : v'.clocks = v.clocks) : Sound cap v' := by
  obtain ⟨exact, blank, small, paired, routed, accounts⟩ := h
  rw [← ho] at exact blank small paired routed accounts
  exact ⟨hf ▸ exact, blank, small, paired, routed, hc ▸ accounts⟩

section Table

variable {ops : List (FsSlot κ)} {i k : ℕ} {x y : FsSlot κ}

theorem Blank.set (h : Blank ops) (hy : y.state.state = .Free → y.state = .new) :
    Blank (ops.set k y) := by
  intro i x hx hf
  rcases getElem?_set_cases hx with ⟨rfl, rfl⟩ | hx
  · exact hy hf
  · exact h i x hx hf

theorem Routed.set (h : Routed ops) (hy : ∀ tag, y.state.state = .InFlight tag →
      tag.Hosted ∨ tag = .OPEN_DEADLINE ∧ y.state.waiter = none) : Routed (ops.set k y) := by
  intro i x tag hx hs
  rcases getElem?_set_cases hx with ⟨rfl, rfl⟩ | hx
  · exact hy tag hs
  · exact h i x tag hx hs

theorem Routed.touch (h : Routed ops) (hx : ops[k]? = some x)
    (hs : y.state.state = x.state.state) (hw : y.state.waiter = x.state.waiter) :
    Routed (ops.set k y) :=
  h.set fun tag hst => hw ▸ h k x tag hx (hs ▸ hst)

theorem Routed.vacate (h : Routed ops) (g : ℕ) : Routed (ops.set k ⟨g, .new⟩) :=
  h.set fun _ hs => nomatch hs

/-- One entry changes: it names the guard it named, if any, and whoever names it as a guard
finds it as it was. -/
theorem Paired.set (h : Paired ops) (hx : ops[k]? = some x) (hgen : x.generation ≤ y.generation)
    (hgu : y.state.guard ≠ none → y.state.guard = x.state.guard ∧
      y.generation = x.generation ∧ y.state.state = x.state.state)
    (hs : ∀ (i : ℕ) (z : FsSlot κ), ops[i]? = some z →
      z.state.guard = some (k, y.generation) → y.generation = x.generation →
      y.state.state = x.state.state ∧ y.state.cancels = x.state.cancels ∧
        y.state.wall_clock = x.state.wall_clock) : Paired (ops.set k y) := by
  intro i z gs gg hz hzg
  -- the entry itself keeps its guard, state and generation; the others are the ones they were
  obtain ⟨w, hw, hwg, hwn, hwst⟩ : ∃ w, ops[i]? = some w ∧ w.state.guard = some (gs, gg) ∧
      w.generation = z.generation ∧ w.state.state = z.state.state := by
    rcases getElem?_set_cases hz with ⟨rfl, rfl⟩ | hz
    · obtain ⟨hg, hge, hst⟩ := hgu (by rw [hzg]; exact some_ne_none _)
      exact ⟨x, hx, hg ▸ hzg, hge.symm, hst.symm⟩
    · exact ⟨z, hz, hzg, rfl, rfl⟩
  obtain ⟨ho, y', hy', hle, hpa⟩ := h i w gs gg hw hwg
  refine ⟨hwst ▸ ho, ?_⟩
  rcases eq_or_ne gs k with rfl | hne
  · rw [hx, some.injEq] at hy'
    subst hy'
    refine ⟨y, getElem?_set_of_some hx, hle.trans hgen, fun heq => ?_⟩
    have hgg : y.generation = x.generation := by omega
    obtain ⟨h₁, h₂, h₃⟩ := hs i w hw (by rw [hwg, heq]) hgg
    obtain ⟨p₁, p₂, p₃⟩ := hpa (by omega)
    exact ⟨h₁.trans p₁, h₂.trans (hwn ▸ p₂), h₃.trans p₃⟩
  · exact ⟨y', by rwa [getElem?_set_ne hne.symm], hle, fun heq => hwn ▸ hpa heq⟩

end Table

section Counting

variable {ops ops' : List (FsSlot κ)} {k : ℕ} {x y : FsSlot κ}
variable {e : FsOpEntry κ} {o : Conn} {cl : Clocks}

/-- What one entry adds to the counts of `o`. -/
def FsOpEntry.weight (o : Conn) (e : FsOpEntry κ) : WallClock where
  armed := (if e.isTimer o false then 1 else 0) + (if e.isGuardedOpen o then 1 else 0)
  retiring := (if e.isTimer o true then 1 else 0) + (if e.isParkedGuard o then 1 else 0)

namespace FsOpEntry

/-- What an entry adds goes by its tag. -/
theorem weight_eq (e : FsOpEntry κ) (o : Conn) : e.weight o = match e.state with
    | .InFlight .TIMEOUT =>
      if e.owner = some o then (if e.retracted then ⟨0, 1⟩ else ⟨1, 0⟩) else {}
    | .InFlight .OPEN => if e.owner = some o ∧ e.guard.isSome then ⟨1, 0⟩ else {}
    | .InFlight .OPEN_DEADLINE => if e.wall_clock = some o then ⟨0, 1⟩ else {}
    | _ => {} := by
  cases hs : e.state with
  | Free => simp [weight, isTimer, isGuardedOpen, isParkedGuard, hs]
  | InFlight tag =>
    cases tag <;> simp only [weight, isTimer, isGuardedOpen, isParkedGuard, hs] <;>
      split_ifs <;> simp_all

theorem weight_timer (h : e.state = .InFlight .TIMEOUT) :
    e.weight o = if e.owner = some o then (if e.retracted then ⟨0, 1⟩ else ⟨1, 0⟩) else {} := by
  rw [weight_eq, h]

theorem weight_mark (h : e.state ≠ .InFlight .TIMEOUT) :
    ({ e with retracted := true } : FsOpEntry κ).weight o = e.weight o := by
  have ht : ∀ b, ({ e with retracted := true } : FsOpEntry κ).isTimer o b = e.isTimer o b :=
    fun b => by simp [isTimer, h]
  rw [weight, weight, ht, ht]
  rfl

theorem weight_new : (new : FsOpEntry κ).weight o = {} :=
  weight_eq _ o

theorem weight_le (e : FsOpEntry κ) (o : Conn) :
    (e.weight o).armed + (e.weight o).retiring ≤ 1 := by
  rw [weight_eq]
  split
  all_goals
    try split_ifs
    all_goals simp

end FsOpEntry

namespace WallClock

theorem tally_set (hx : ops[k]? = some x) (o : Conn) :
    (tally (ops.set k y) o).armed + (x.state.weight o).armed =
        (tally ops o).armed + (y.state.weight o).armed ∧
      (tally (ops.set k y) o).retiring + (x.state.weight o).retiring =
        (tally ops o).retiring + (y.state.weight o).retiring := by
  have h₁ := countP_set_add (y := y) hx (·.state.isTimer o false)
  have h₂ := countP_set_add (y := y) hx (·.state.isGuardedOpen o)
  have h₃ := countP_set_add (y := y) hx (·.state.isTimer o true)
  have h₄ := countP_set_add (y := y) hx (·.state.isParkedGuard o)
  simp only [tally, weight]
  grind

theorem tally_le (ops : List (FsSlot κ)) (o : Conn) :
    (tally ops o).armed + (tally ops o).retiring ≤ ops.length := by
  induction ops with
  | nil => simp [tally]
  | cons x ops ih =>
    have hw := x.state.weight_le o
    simp only [tally, weight, countP_cons, length_cons] at hw ih ⊢
    omega

theorem tally_set_eq (hx : ops[k]? = some x) (h : y.state.weight o = x.state.weight o) :
    tally (ops.set k y) o = tally ops o := by
  have ht := tally_set (y := y) hx o
  rw [h] at ht
  ext <;> omega

theorem weight_le_tally (hx : ops[k]? = some x) (o : Conn) :
    (x.state.weight o).armed ≤ (tally ops o).armed ∧
      (x.state.weight o).retiring ≤ (tally ops o).retiring := by
  have ht := tally_set (y := ⟨0, .new⟩) hx o
  simp only [weight_new, add_zero] at ht
  omega

end WallClock

variable {owner : Owner} {w w' : WallClock}

/-- Only the counts of `owner` change, by `w` less and `w'` more. -/
def Shifts (ops ops' : List (FsSlot κ)) (owner : Owner) (w w' : WallClock) : Prop :=
  ∀ o, (tally ops' o).armed + (if owner = some o then w else {}).armed =
      (tally ops o).armed + (if owner = some o then w' else {}).armed ∧
    (tally ops' o).retiring + (if owner = some o then w else {}).retiring =
      (tally ops o).retiring + (if owner = some o then w' else {}).retiring

namespace Shifts

theorem set (hx : ops[k]? = some x) (hw : ∀ o, x.state.weight o = if owner = some o then w else {})
    (hw' : ∀ o, y.state.weight o = if owner = some o then w' else {}) :
    Shifts ops (ops.set k y) owner w w' := by
  intro o
  rw [← hw, ← hw']
  exact tally_set hx o

theorem trans {ops₂ : List (FsSlot κ)} (h : Shifts ops ops' owner w {})
    (h' : Shifts ops' ops₂ owner {} w') : Shifts ops ops₂ owner w w' := by
  intro o
  have := h o
  have := h' o
  omega

theorem same (h : Shifts ops ops' owner w w') (ho : owner ≠ some o) :
    tally ops' o = tally ops o := by
  have := h o
  simp only [if_neg ho] at this
  ext <;> omega

theorem owned (h : Shifts ops ops' owner w w') (ho : owner = some o) :
    (tally ops' o).armed + w.armed = (tally ops o).armed + w'.armed ∧
      (tally ops' o).retiring + w.retiring = (tally ops o).retiring + w'.retiring := by
  simpa only [if_pos ho] using h o

end Shifts

namespace Accounted

variable {cap : Option ℕ} {f : WallClock → WallClock}

section

variable (h : Accounted cap ops cl)
include h

theorem same (ht : ∀ o, tally ops' o = tally ops o) : Accounted cap ops' cl where
  clocks := fun o => by rw [h.clocks, ht]
  capped := fun o => by rw [ht]; exact h.capped o

variable (hs : Shifts ops ops' owner w w')
include hs

theorem adjust (hf : ∀ o, owner = some o → f (tally ops o) = tally ops' o)
    (hcap : ∀ o, owner = some o → ∀ c, cap = some c → (tally ops' o).armed ≤ c ∧
      (tally ops' o).armed + (tally ops' o).retiring ≤ 2 * c) :
    Accounted cap ops' (cl.adjust owner f) := by
  cases owner with
  | none => exact h.same fun o => hs.same nofun
  | some o' =>
    have hne : ∀ o, o ≠ o' → tally ops' o = tally ops o := fun o hne =>
      hs.same fun heq => hne (some.inj heq).symm
    refine ⟨fun o => ?_, fun o c hc => ?_⟩
    · rw [Clocks.adjust]
      rcases eq_or_ne o o' with rfl | ho
      · rw [update_self, h.clocks, getD_keep, hf o rfl]
      · rw [update_of_ne ho, h.clocks, hne o ho]
    · rcases eq_or_ne o o' with rfl | ho
      · exact hcap o rfl c hc
      · rw [hne o ho]
        exact h.capped o c hc

/-- A change that gives back as much as it takes keeps within the cap. -/
theorem shrink (hsm : ops'.length < 2 ^ 32)
    (hw : w'.armed ≤ w.armed ∧ w'.armed + w'.retiring ≤ w.armed + w.retiring)
    (hf : ∀ t t' : WallClock, t'.armed + w.armed = t.armed + w'.armed →
      t'.retiring + w.retiring = t.retiring + w'.retiring → t'.armed + t'.retiring < 2 ^ 32 →
      f t = t') : Accounted cap ops' (cl.adjust owner f) := by
  refine h.adjust hs (fun o ho => ?_) fun o ho c hc => ?_
  · have hto := hs.owned ho
    exact hf _ _ hto.1 hto.2 ((tally_le ops' o).trans_lt hsm)
  · have hto := hs.owned ho
    have := h.capped o c hc
    omega

theorem arm (hsm : ops'.length < 2 ^ 32) (hw : w = {}) (hw' : w' = ⟨1, 0⟩)
    (hr : ∀ o, owner = some o → cl.Room cap o) :
    Accounted cap ops' (cl.adjust owner arm) := by
  subst hw hw'
  refine h.adjust hs (fun o ho => ?_) fun o ho c hc => ?_
  · have hto := hs.owned ho
    dsimp only at hto
    have := tally_le ops' o
    ext
    · simp only [arm, saturatingAdd]
      omega
    · simp only [arm]
      omega
  · have hto := hs.owned ho
    dsimp only at hto
    have hro := hr o ho
    rw [Clocks.Room, h.clocks, getD_keep] at hro
    have := hro c hc
    omega

end

end Accounted

end Counting

section Preserved

variable {cap : Option ℕ} {v v' : View κ} {cbs : List κ} {slot g : ℕ} {e e' : FsOpEntry κ}
variable {tag : Tag} {o : Conn} {P : κ → FsOpEntry κ → Prop}

namespace FsOpEntry

theorem weight_of_fresh (he : e.Fresh tag) (o : Conn) :
    e.weight o = if e.armOwner = some o then ⟨1, 0⟩ else {} := by
  rw [weight_eq, armOwner, he.state]
  cases tag <;> simp [he.retracted, he.guard, he.wall_clock]

theorem Fresh.inFlight (he : e.Fresh tag) : e.state ≠ .Free := by
  rw [he.state]
  exact nofun

end FsOpEntry

namespace Accounted

variable {ops : List (FsSlot κ)} {cl : Clocks}

section

variable (h : Accounted cap ops cl)
include h

theorem host (hsm : ops.length < 2 ^ 32) (hs : ops[slot]? = some ⟨g, .new⟩) (he : e.Fresh tag)
    (hr : ∀ o, e.armOwner = some o → cl.Room cap o) :
    Accounted cap (ops.set slot ⟨g, e⟩) (cl.adjust e.armOwner WallClock.arm) :=
  h.arm (.set hs (fun _ => by rw [weight_new, ite_self]) (weight_of_fresh he))
    (by rwa [length_set]) rfl rfl hr

theorem mark (hs : ops[slot]? = some ⟨g, e⟩)
    (hsta : e.state = .InFlight tag) (ht : tag ≠ .TIMEOUT) :
    Accounted cap (ops.set slot ⟨g, { e with retracted := true }⟩) cl := by
  refine h.same fun o => tally_set_eq hs (weight_mark ?_)
  rw [hsta]
  exact fun heq => ht (FsOpState.InFlight.inj heq)

theorem retract (hsm : ops.length < 2 ^ 32)
    (hslo : ops[slot]? = some ⟨g, e⟩) (hs : e.state = .InFlight .TIMEOUT)
    (hm : e.retracted = false) :
    Accounted cap (ops.set slot ⟨g, { e with retracted := true }⟩)
      (cl.adjust e.owner WallClock.retract) := by
  have hsh : Shifts ops (ops.set slot ⟨g, { e with retracted := true }⟩) e.owner ⟨1, 0⟩ ⟨0, 1⟩ :=
    .set hslo (fun o => by simp [weight_timer hs, hm]) fun o => weight_timer hs
  refine h.shrink hsh (by rwa [length_set]) (by decide) fun t t' ha hr hl => ?_
  dsimp only at ha hr
  ext
  · simp only [WallClock.retract]
    omega
  · simp only [WallClock.retract, saturatingAdd]
    omega

end

end Accounted

theorem Paired.not_guard {ops : List (FsSlot κ)} (h : Paired ops)
    (hs : ops[slot]? = some ⟨g, .new⟩) {i : ℕ} {z : FsSlot κ}
    (hz : ops[i]? = some z) : z.state.guard ≠ some (slot, g) := by
  intro hg
  obtain ⟨-, y, hy, -, hpa⟩ := h i z slot g hz hg
  rw [hs, some.injEq] at hy
  subst hy
  exact nomatch (hpa rfl).1

namespace Paired

variable {ops : List (FsSlot κ)}

theorem link {gslot gg : ℕ} (h : Paired ops) (hs : ops[slot]? = some ⟨g, e⟩)
    (he : e.Fresh .OPEN) (hg : ops[gslot]? = some ⟨gg, .guarding slot g⟩) :
    Paired (ops.set slot ⟨g, { e with guard := some (gslot, gg) }⟩) := by
  have hne : gslot ≠ slot := fun heq => by
    rw [heq, hs, some.injEq, SlotEntry.mk.injEq] at hg
    have := he.state
    rw [hg.2] at this
    cases this
  intro i z gs gg' hz hzg
  rcases getElem?_set_cases hz with ⟨rfl, rfl⟩ | hz'
  · obtain ⟨rfl, rfl⟩ := hzg
    exact ⟨he.state, _, by rwa [getElem?_set_ne hne.symm], le_rfl, fun _ => ⟨rfl, rfl, rfl⟩⟩
  · obtain ⟨ho, y, hy, hle, hpa⟩ := h i z gs gg' hz' hzg
    rcases eq_or_ne gs slot with rfl | hgs
    · -- the open is nobody's guard
      rw [hs, some.injEq] at hy
      subst hy
      refine ⟨ho, _, getElem?_set_of_some hs, hle, fun heq => ?_⟩
      have hst := (hpa heq).1
      rw [he.state] at hst
      cases hst
    · exact ⟨ho, y, by rwa [getElem?_set_ne hgs.symm], hle, hpa⟩

theorem vacate (h : Paired ops) (hs : ops[slot]? = some ⟨g, e⟩) :
    Paired (ops.set slot ⟨g + 1, .new⟩) :=
  h.set hs (le_succ g) (fun hne => absurd rfl hne)
    fun _ _ _ _ heq => absurd heq (succ_ne_self g)

variable {gslot gg : ℕ} {ge : FsOpEntry κ}

theorem live (h : Paired ops) (hs : ops[slot]? = some ⟨g, e⟩) (hg : e.guard = some (gslot, gg))
    (hl : ops[gslot]? = some ⟨gg, ge⟩) :
    ge.state = .InFlight .OPEN_DEADLINE ∧ ge.cancels = some (slot, g) ∧ ge.wall_clock = none := by
  obtain ⟨-, y, hy, -, hpa⟩ := h slot _ gslot gg hs hg
  rw [hl, some.injEq] at hy
  subst hy
  exact hpa rfl

/-- Once the open has gone nobody names its guard. -/
theorem park (h : Paired ops) (hs : ops[slot]? = some ⟨g, e⟩)
    (hgu : e.guard = some (gslot, gg)) (hl : ops[gslot]? = some ⟨gg, ge⟩) (hne : gslot ≠ slot) :
    Paired ((ops.set slot ⟨g + 1, .new⟩).set gslot ⟨gg, { ge with wall_clock := some o }⟩) := by
  have hl' : (ops.set slot ⟨g + 1, .new⟩)[gslot]? = some ⟨gg, ge⟩ := by
    rwa [getElem?_set_ne hne.symm]
  refine (h.vacate hs).set hl' le_rfl (fun hg => ⟨rfl, rfl, rfl⟩) fun i z hz hzg _ => ?_
  rcases getElem?_set_cases hz with ⟨rfl, rfl⟩ | hz'
  · cases hzg
  · have hc := (h.live hs hgu hl).2.1
    rw [(h.live hz' hzg hl).2.1, some.injEq, Prod.mk.injEq] at hc
    obtain ⟨rfl, hgen⟩ := hc
    rw [getElem?_set_of_some hs, some.injEq] at hz
    rw [← hz] at hgen
    exact absurd hgen (succ_ne_self g)

end Paired

namespace Accounted

variable {ops : List (FsSlot κ)} {cl : Clocks} {gslot gg : ℕ}

section

variable (h : Accounted cap ops cl)
include h

theorem guard (hsm : ops.length < 2 ^ 32)
    (hs : ops[slot]? = some ⟨g, e⟩) (hne : slot ≠ gslot) (he : e.Fresh .OPEN)
    (hg : ops[gslot]? = some ⟨gg, .new⟩) (hr : ∀ o, e.owner = some o → cl.Room cap o) :
    Accounted cap ((ops.set gslot ⟨gg, .guarding slot g⟩).set slot
      ⟨g, { e with guard := some (gslot, gg) }⟩) (cl.adjust e.owner WallClock.arm) := by
  have hs' : (ops.set gslot ⟨gg, .guarding slot g⟩)[slot]? = some ⟨g, e⟩ := by
    rwa [getElem?_set_ne hne.symm]
  have hgs : Shifts ops (ops.set gslot ⟨gg, .guarding slot g⟩) e.owner {} {} :=
    .set hg (fun _ => by rw [weight_new, ite_self]) fun _ => by rw [ite_self]; exact weight_eq _ _
  have hw : ∀ o, ({ e with guard := some (gslot, gg) } : FsOpEntry κ).weight o =
      if e.owner = some o then ⟨1, 0⟩ else {} := fun o => by
    have hor : ({ e with guard := some (gslot, gg) } : FsOpEntry κ).owner = e.owner := rfl
    rw [weight_eq, hor]
    simp [he.state]
  exact h.arm (hgs.trans (.set hs' (fun o => by simp [weight_eq, he.state, he.guard]) hw))
    (by rwa [length_set, length_set]) rfl rfl hr

theorem ended {owner : Owner} (retired : Bool) (hsm : ops.length < 2 ^ 32)
    (hs : ops[slot]? = some ⟨g, e⟩) (hw : ∀ o, e.weight o =
      if owner = some o then (if retired then ⟨0, 1⟩ else ⟨1, 0⟩) else {}) :
    Accounted cap (ops.set slot ⟨g + 1, .new⟩) (cl.adjust owner (·.ended retired)) := by
  have hsh : Shifts ops (ops.set slot ⟨g + 1, .new⟩) owner _ {} :=
    .set hs hw fun _ => by rw [weight_new, ite_self]
  refine h.shrink hsh (by rwa [length_set]) ⟨zero_le _, zero_le _⟩ fun t t' ha hr _ => ?_
  cases retired <;> ext <;> simp [WallClock.ended] at * <;> omega

theorem settled (hsm : ops.length < 2 ^ 32) (hslo : ops[slot]? = some ⟨g, e⟩) :
    Accounted cap (ops.set slot ⟨g + 1, .new⟩) (cl.settled e) := by
  have hw := weight_eq e
  rw [Clocks.settled]
  split
  · next hs => exact h.ended e.retracted hsm hslo fun o => weight_timer hs
  · rename_i hs
    split_ifs with hg
    · exact h.ended false hsm hslo fun o => by simp [hw, hs, hg]
    · exact h.same fun o => tally_set_eq hslo (by simp [hw, hs, hg, weight_new])
  · next hs => exact h.ended true hsm hslo fun o => by simp [hw, hs]
  · exact h.same fun o => tally_set_eq hslo (by
      rw [hw, weight_new]
      split <;> simp_all)

theorem park {ge : FsOpEntry κ} (hsm : ops.length < 2 ^ 32)
    (hs : ops[slot]? = some ⟨g, e⟩) (hsta : e.state = .InFlight .OPEN)
    (hor : e.owner = some o) (hgu : e.guard = some (gslot, gg))
    (hl : ops[gslot]? = some ⟨gg, ge⟩) (hne : gslot ≠ slot) (hc : ge.wall_clock = none)
    (hge : ge.state = .InFlight .OPEN_DEADLINE) :
    Accounted cap ((ops.set slot ⟨g + 1, .new⟩).set gslot ⟨gg, { ge with wall_clock := some o }⟩)
      (cl.adjust (some o) fun t => (t.ended false).park) := by
  have hl' : (ops.set slot ⟨g + 1, .new⟩)[gslot]? = some ⟨gg, ge⟩ := by
    rwa [getElem?_set_ne hne.symm]
  have hss : Shifts ops (ops.set slot ⟨g + 1, .new⟩) (some o) ⟨1, 0⟩ {} :=
    .set hs (fun o' => by simp [weight_eq, hsta, hor, hgu]) fun _ => by rw [weight_new, ite_self]
  have hw : ∀ o', ({ ge with wall_clock := some o } : FsOpEntry κ).weight o' =
      if some o = some o' then ⟨0, 1⟩ else {} := fun o' => by
    simp [weight_eq, hge]
  refine h.shrink (hss.trans (.set hl' (fun o' => by simp [weight_eq, hge, hc]) hw))
    (by rwa [length_set, length_set]) (by decide) fun t t' ha hr hl => ?_
  dsimp only at ha hr
  ext
  · simp [WallClock.ended, WallClock.park]
    omega
  · simp [WallClock.ended, WallClock.park, saturatingAdd]
    omega

end

end Accounted

namespace Sound

section

variable (h : Sound cap v) {rest : List ℕ}
include h

theorem host (ring : List (Sqe κ))
    (hfr : v.op_free = slot :: rest) (hs : v.ops[slot]? = some ⟨g, .new⟩) (he : e.Fresh tag)
    (hr : tag.Hosted ∨ tag = .OPEN_DEADLINE ∧ e.waiter = none)
    (hro : ∀ o, e.armOwner = some o → v.clocks.Room cap o) :
    Sound cap { v with
      ops := v.ops.set slot ⟨g, e⟩, op_free := rest
      clocks := v.clocks.adjust e.armOwner arm, ring := ring } where
  exact := (hfr ▸ h.exact).occupy he.inFlight
  blank := h.blank.set fun hf => absurd hf he.inFlight
  small := by rw [length_set]; exact h.small
  paired := h.paired.set hs le_rfl (fun hne => absurd he.guard hne)
    fun _ _ hz hg _ => absurd hg (h.paired.not_guard hs hz)
  routed := h.routed.set fun tag' hst => by
    rw [he.state, FsOpState.InFlight.injEq] at hst
    exact hst ▸ hr
  accounts := h.accounts.host h.small hs he hro

section

variable (hs : v.ops[slot]? = some ⟨g, e⟩)
include hs

theorem mark (hsta : e.state = .InFlight tag) {cl : Clocks}
    (ha : Accounted cap (v.ops.set slot ⟨g, { e with retracted := true }⟩) cl) :
    Sound cap { v with
      ops := v.ops.set slot ⟨g, { e with retracted := true }⟩, clocks := cl } where
  exact := h.exact.update hs (by rw [hsta])
  blank := h.blank.set fun hf => by rw [hsta] at hf; cases hf
  small := by rw [length_set]; exact h.small
  paired := h.paired.set hs le_rfl (fun _ => ⟨rfl, rfl, rfl⟩) fun _ _ _ _ _ => ⟨rfl, rfl, rfl⟩
  routed := h.routed.touch hs rfl rfl
  accounts := ha

end

end

end Sound

theorem tells_of_silent (h : e.callback = none) : e.Tells P := by
  intro cb hc
  rw [h] at hc
  cases hc

theorem Move.sound (hm : Move P cap v cbs v') (h : Sound cap v) : Sound cap v' := by
  cases hm with
  | refuse cb => exact { h with }
  | bounce hf hs =>
    exact
      { h with
        exact := h.exact.update hs Iff.rfl
        blank := h.blank.set fun _ => rfl
        small := by rw [length_set]; exact h.small
        paired := h.paired.vacate hs
        routed := h.routed.vacate _
        accounts := h.accounts.same fun _ => tally_set_eq hs rfl }
  | host hf hs he ht hr _ => exact h.host _ hf hs he (.inl ht) hr
  | @guard slot g e gslot gg rest hs he hfr hg hr =>
    have hne : slot ≠ gslot := fun heq => he.inFlight (by
      rw [heq, hg, some.injEq, SlotEntry.mk.injEq] at hs
      rw [← hs.2]
      rfl)
    have hge : (guarding slot g : FsOpEntry κ).Fresh .OPEN_DEADLINE := ⟨rfl, rfl, rfl, rfl⟩
    have hh := h.host v.ring hfr hg hge (.inr ⟨rfl, rfl⟩) nofun
    have hs' : (v.ops.set gslot ⟨gg, .guarding slot g⟩)[slot]? = some ⟨g, e⟩ := by
      rwa [getElem?_set_ne hne.symm]
    exact
      { exact := hh.exact.update hs' (iff_of_false he.inFlight he.inFlight)
        blank := hh.blank.set fun hf => absurd hf he.inFlight
        small := by rw [length_set]; exact hh.small
        paired := hh.paired.link hs' he (getElem?_set_of_some hg)
        routed := hh.routed.touch hs' rfl rfl
        accounts := h.accounts.guard h.small hs hne he hg hr }
  | mark hs hsta ht => exact h.mark hs hsta (h.accounts.mark hs hsta ht)
  | retract hs hsta hma => exact h.mark hs hsta (h.accounts.retract h.small hs hsta hma)

theorem Moves.sound (hm : Moves P cap v cbs v') (h : Sound cap v) : Sound cap v' := by
  induction hm with
  | refl => exact h
  | head hm _ ih => exact ih (hm.sound h)

theorem Reap.sound (hr : Reap v slot e v') (h : Sound cap v) : Sound cap v' := by
  cases hr with
  | vacate hs hsta =>
    exact
      { exact := h.exact.vacate hs (by rw [hsta]; exact nofun) rfl
        blank := h.blank.set fun _ => rfl
        small := by rw [length_set]; exact h.small
        paired := h.paired.vacate hs
        routed := h.routed.vacate _
        accounts := h.accounts.settled h.small hs }
  | @park g e o gslot gg ge hs hsta hor hg hl hge =>
    have hne : gslot ≠ slot := fun heq => by
      rw [heq, hs, some.injEq, SlotEntry.mk.injEq] at hl
      rw [← hl.2, hsta] at hge
      cases hge
    have hl' : (v.ops.set slot ⟨g + 1, .new⟩)[gslot]? = some ⟨gg, ge⟩ := by
      rwa [getElem?_set_ne hne.symm]
    have ho : ge.state ≠ .Free := by rw [hge]; exact nofun
    exact
      { exact := (h.exact.vacate hs (by rw [hsta]; exact nofun) rfl).update hl' (iff_of_false ho ho)
        blank := (h.blank.set fun _ => rfl).set fun hf => absurd hf ho
        small := by rw [length_set, length_set]; exact h.small
        paired := h.paired.park hs hg hl hne
        routed := (h.routed.vacate _).touch hl' rfl rfl
        accounts := h.accounts.park h.small hs hsta hor hg hl hne
          (h.paired.live hs hg hl).2.2 hge }

end Preserved

end TruenasRos.UringFs
