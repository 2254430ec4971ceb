import TruenasRos.Lib.Runs
import TruenasRos.Lib.Slots

/-! # The connection table, call by call

Handles name a connection by its slot and the slot's generation. The table moves the generation
on when it frees a slot, and at no other time, so a handle goes stale with its connection as
long as nothing else takes a connection out of its slot.
-/

namespace TruenasRos.Net

open List Slots Option

/-- The types of what slots hold: connections, known by their names, connects under way, landing
pads for the identity of a peer, and peer addresses. -/
structure Held where
  conn : Type
  pending : Type
  pad : Type
  peer : Type

namespace ConnTable

variable {κ : Held} {β : Type}

inductive SlotState (κ : Held)
  | Empty
  | Connecting (pending : κ.pending)
  | TlsConnecting (pending : κ.pending)
  | PeerFetch (pad : κ.pad)
  | TlsInstalling (listener : ℕ)
  | TlsParked (peer : κ.peer)
  | Serving (conn : κ.conn)
  | Detaching (conn : κ.conn)
  | Detached (conn : κ.conn)

namespace SlotState

def isEmpty : SlotState κ → Bool
  | Empty => true
  | _ => false

def isServing : SlotState κ → Bool
  | Serving _ => true
  | _ => false

def live : SlotState κ → Option κ.conn
  | Serving conn | Detaching conn | Detached conn => some conn
  | _ => none

def isLive (s : SlotState κ) : Bool := s.live.isSome

end SlotState

end ConnTable

open ConnTable SlotState

structure ConnTable (κ : Held) where
  slots : List (SlotEntry (SlotState κ))
  active : ℕ

namespace ConnTable

variable {κ : Held} {β : Type}

def new (pool_size : ℕ) : ConnTable κ := ⟨replicate pool_size ⟨0, Empty⟩, 0⟩

variable (t : ConnTable κ) (slot : ℕ)

def slotMatches (generation : ℕ) : Bool :=
  t.slots[slot]?.any fun e => e.generation == generation && e.state.isServing

def pushConnMut (generation : ℕ) : Option (κ.conn × Bool) := do
  let e ← t.slots[slot]?
  if e.generation ≠ generation then none else e.state.live.map (·, e.state.isServing)

def withState (s : SlotState κ) : ConnTable κ :=
  { t with slots := t.slots.modify slot ({ · with state := s }) }

/-- Overwrite the state of a slot; an index out of bounds is a panic. -/
def store (s : SlotState κ) : Option (ConnTable κ) :=
  if slot < t.slots.length then some (t.withState slot s) else none

/-- Move a slot on whose state `f` knows, and leave every other as it is. -/
def shift (f : SlotState κ → Option (SlotState κ × β)) : Option β × ConnTable κ :=
  match t.slots[slot]?.bind (f ·.state) with
  | none => (none, t)
  | some (s, x) => (some x, t.withState slot s)

def install (conn : κ.conn) : Option (ConnTable κ) := do
  let t ← t.store slot (Serving conn)
  some { t with active := (t.active + 1) % 2 ^ 32 }

def beginPeerFetch (pad : κ.pad) : Option (ConnTable κ) := t.store slot (PeerFetch pad)

def takePeerFetch : Option κ.pad × ConnTable κ :=
  t.shift slot fun
    | PeerFetch pad => some (Empty, pad)
    | _ => none

def reserveConnecting (pending : κ.pending) : Option ℕ × ConnTable κ :=
  match t.slots.findIdx? (·.state.isEmpty) with
  | none => (none, t)
  | some slot => (some slot, t.withState slot (Connecting pending))

def takeConnecting : Option κ.pending × ConnTable κ :=
  t.shift slot fun
    | Connecting pending => some (Empty, pending)
    | _ => none

def parkTlsConnecting (pending : κ.pending) : Option (ConnTable κ) :=
  t.store slot (TlsConnecting pending)

def takeTlsConnecting : Option κ.pending × ConnTable κ :=
  t.shift slot fun
    | TlsConnecting pending => some (Empty, pending)
    | _ => none

def beginTlsInstall (listener : ℕ) : Option (ConnTable κ) := t.store slot (TlsInstalling listener)

def takeTlsInstalling : Option ℕ × ConnTable κ :=
  t.shift slot fun
    | TlsInstalling listener => some (Empty, listener)
    | _ => none

def parkTls (peer : κ.peer) : Option (ConnTable κ) := t.store slot (TlsParked peer)

def takeTlsParked : Option κ.peer × ConnTable κ :=
  t.shift slot fun
    | TlsParked peer => some (Empty, peer)
    | _ => none

def beginDetach : Option (ConnTable κ) :=
  match t.slots[slot]? with
  | some ⟨_, Serving conn⟩ => t.store slot (Detaching conn)
  | _ => none

def parkDetachedInPlace : Option κ.conn × ConnTable κ :=
  t.shift slot fun
    | Detaching conn => some (Detached conn, conn)
    | _ => none

def reattach : Bool × ConnTable κ :=
  let r := t.shift slot fun
    | Detaching conn | Detached conn => some (Serving conn, ())
    | _ => none
  (r.1.isSome, r.2)

def free : Bool × ConnTable κ :=
  match t.slots[slot]? with
  | none => (false, t)
  | some e =>
    (e.state.isLive,
      { slots := t.slots.set slot ⟨(e.generation + 1) % 2 ^ 64, Empty⟩
        active := if e.state.isLive then t.active - 1 else t.active })

inductive Op (κ : Held)
  | install (slot : ℕ) (conn : κ.conn)
  | beginPeerFetch (slot : ℕ) (pad : κ.pad)
  | takePeerFetch (slot : ℕ)
  | reserveConnecting (pending : κ.pending)
  | takeConnecting (slot : ℕ)
  | parkTlsConnecting (slot : ℕ) (pending : κ.pending)
  | takeTlsConnecting (slot : ℕ)
  | beginTlsInstall (slot listener : ℕ)
  | takeTlsInstalling (slot : ℕ)
  | parkTls (slot : ℕ) (peer : κ.peer)
  | takeTlsParked (slot : ℕ)
  | beginDetach (slot : ℕ)
  | parkDetachedInPlace (slot : ℕ)
  | reattach (slot : ℕ)
  | free (slot : ℕ)
  | leak

namespace Op

def installs (slot : ℕ) : Op κ → Bool
  | install s _ => s == slot
  | _ => false

def frees (slot : ℕ) : Op κ → Bool
  | free s => s == slot
  | _ => false

/-- The operation neither installs nor frees a connection. -/
def Plain (op : Op κ) : Prop := ∀ slot, op.installs slot = false ∧ op.frees slot = false

end Op

def step : Op κ → Option (ConnTable κ)
  | .install slot conn => t.install slot conn
  | .beginPeerFetch slot pad => t.beginPeerFetch slot pad
  | .takePeerFetch slot => some (t.takePeerFetch slot).2
  | .reserveConnecting pending => some (t.reserveConnecting pending).2
  | .takeConnecting slot => some (t.takeConnecting slot).2
  | .parkTlsConnecting slot pending => t.parkTlsConnecting slot pending
  | .takeTlsConnecting slot => some (t.takeTlsConnecting slot).2
  | .beginTlsInstall slot listener => t.beginTlsInstall slot listener
  | .takeTlsInstalling slot => some (t.takeTlsInstalling slot).2
  | .parkTls slot peer => t.parkTls slot peer
  | .takeTlsParked slot => some (t.takeTlsParked slot).2
  | .beginDetach slot => t.beginDetach slot
  | .parkDetachedInPlace slot => some (t.parkDetachedInPlace slot).2
  | .reattach slot => some (t.reattach slot).2
  | .free slot => some (t.free slot).2
  | .leak => some ⟨[], 0⟩

/-- What callers keep to: a connection is installed in an empty slot, and nothing but a detach
overwrites one. -/
def admits : Op κ → Bool
  | .install slot _ => t.slots[slot]?.any (·.state.isEmpty)
  | .beginDetach slot => t.slots[slot]?.any (·.state.isServing)
  | .beginPeerFetch slot _ | .parkTlsConnecting slot _ | .beginTlsInstall slot _
  | .parkTls slot _ => t.slots[slot]?.all (!·.state.isLive)
  | _ => true

def call (op : Op κ) : Option (ConnTable κ) :=
  if t.admits op then t.step op else none

/-- What a call does. Only an install and a free change whether a slot has a connection, and only a
free moves its generation on. -/
inductive Effect : Op κ → ConnTable κ → Prop
  | same {op} (hp : op.Plain) : Effect op t
  | keep {op slot g s s'} (hp : op.Plain) (hs : t.slots[slot]? = some ⟨g, s⟩)
      (hl : s'.isLive = s.isLive) : Effect op { t with slots := t.slots.set slot ⟨g, s'⟩ }
  | install {slot g} (conn : κ.conn) (hs : t.slots[slot]? = some ⟨g, Empty⟩) :
      Effect (.install slot conn) ⟨t.slots.set slot ⟨g, Serving conn⟩, (t.active + 1) % 2 ^ 32⟩
  | free (slot : ℕ) : Effect (.free slot) (t.free slot).2
  | leak : Effect .leak ⟨[], 0⟩

section Effects

variable {t t' : ConnTable κ} {op : Op κ} {slot g n : ℕ} {s : SlotState κ}

theorem eq_empty_of_isEmpty (h : s.isEmpty = true) : s = .Empty := by
  cases s <;> first | rfl | cases h

theorem withState_eq (hs : t.slots[slot]? = some ⟨g, s⟩) (s' : SlotState κ) :
    t.withState slot s' = { t with slots := t.slots.set slot ⟨g, s'⟩ } := by
  rw [withState, modify_eq_set hs]

theorem effect_shift {f : SlotState κ → Option (SlotState κ × β)} (hp : op.Plain)
    (hf : ∀ s s' x, f s = some (s', x) → s'.isLive = s.isLive) :
    Effect t op (t.shift slot f).2 := by
  rw [shift]
  split
  · exact .same hp
  · rename_i s' x h
    obtain ⟨⟨g, s⟩, hs, hx⟩ := bind_eq_some_iff.1 h
    rw [withState_eq hs]
    exact .keep hp hs (hf s s' x hx)

theorem effect_store {s' : SlotState κ} (hp : op.Plain) (hs' : s'.isLive = false)
    (ha : (t.slots[slot]?.all (!·.state.isLive)) = true) (h : t.store slot s' = some t') :
    Effect t op t' := by
  rw [store, ite_none_right_eq_some] at h
  obtain ⟨hlt, h⟩ := h
  have hs := getElem?_eq_getElem hlt
  rw [withState_eq hs, some.injEq] at h
  rw [hs, all_some, Bool.not_eq_true'] at ha
  exact h ▸ .keep hp hs (hs'.trans ha.symm)

theorem reserveConnecting_cases (t : ConnTable κ) (pending : κ.pending) :
    t.reserveConnecting pending = (none, t) ∨ ∃ slot g, t.slots[slot]? = some ⟨g, Empty⟩ ∧
      t.reserveConnecting pending =
        (some slot, { t with slots := t.slots.set slot ⟨g, Connecting pending⟩ }) := by
  rw [reserveConnecting]
  split
  · exact .inl rfl
  · rename_i slot hi
    obtain ⟨hlt, he, -⟩ := findIdx?_eq_some_iff_getElem.1 hi
    have hs : t.slots[slot]? = some ⟨t.slots[slot].generation, Empty⟩ := by
      rw [getElem?_eq_getElem hlt, ← eq_empty_of_isEmpty he]
    exact .inr ⟨slot, _, hs, by rw [withState_eq hs]⟩

theorem effect_of_call (h : t.call op = some t') : Effect t op t' := by
  obtain ⟨ha, h⟩ := ite_none_right_eq_some.1 h
  cases op with
  | install slot conn =>
    obtain ⟨⟨g, s⟩, hs, he⟩ := (any_eq_true _ _).1 ha
    cases s <;> cases he
    have hlt := (List.getElem?_eq_some_iff.1 hs).1
    rw [step, ConnTable.install, store, if_pos hlt, withState_eq hs] at h
    exact some.inj h ▸ .install conn hs
  | beginDetach slot =>
    obtain ⟨⟨g, s⟩, hs, he⟩ := (any_eq_true _ _).1 ha
    cases s <;> cases he
    have hlt := (List.getElem?_eq_some_iff.1 hs).1
    rw [step, beginDetach, hs] at h
    simp only [store, if_pos hlt, withState_eq hs, some.injEq] at h
    exact h ▸ .keep (fun _ => ⟨rfl, rfl⟩) hs rfl
  | reserveConnecting pending =>
    rw [← some.inj h]
    rcases reserveConnecting_cases t pending with hr | ⟨slot, g, hs, hr⟩ <;> rw [hr]
    · exact .same fun _ => ⟨rfl, rfl⟩
    · exact .keep (fun _ => ⟨rfl, rfl⟩) hs rfl
  | free slot => exact some.inj h ▸ .free slot
  | leak => exact some.inj h ▸ .leak
  | beginPeerFetch | parkTlsConnecting | beginTlsInstall | parkTls =>
    exact effect_store (fun _ => ⟨rfl, rfl⟩) rfl ha h
  | _ =>
    cases h
    exact effect_shift (fun _ => ⟨rfl, rfl⟩) (by rintro ⟨⟩ _ _ h <;> cases h <;> rfl)

/-- The count is that of the connections in the table, and has room for one in every slot. -/
structure Sound (t : ConnTable κ) : Prop where
  active : t.active = t.slots.countP (·.state.isLive)
  small : t.slots.length < 2 ^ 32

theorem Effect.sound (h : Effect t op t') (hs : Sound t) : Sound t' := by
  obtain ⟨ha, hsm⟩ := hs
  cases h with
  | same => exact ⟨ha, hsm⟩
  | @keep _ slot g s s' hp hs hl =>
    have hc := countP_set_add (y := ⟨g, s'⟩) hs (·.state.isLive)
    rw [hl, Nat.add_right_cancel_iff] at hc
    exact ⟨ha.trans hc.symm, by rwa [length_set]⟩
  | @install slot g conn hs =>
    have hc : (t.slots.set slot ⟨g, Serving conn⟩).countP (·.state.isLive) = t.active + 1 :=
      ha ▸ countP_set_add hs (·.state.isLive)
    have hle := countP_le_length (p := (·.state.isLive)) (l := t.slots.set slot ⟨g, Serving conn⟩)
    rw [length_set, hc] at hle
    exact ⟨by rw [hc, Nat.mod_eq_of_lt (hle.trans_lt hsm)], by rwa [length_set]⟩
  | free slot =>
    rw [ConnTable.free]
    split
    · exact ⟨ha, hsm⟩
    · rename_i e hs
      have hc : _ + (if e.state.isLive then 1 else 0) = t.active :=
        ha ▸ countP_set_add (y := ⟨(e.generation + 1) % 2 ^ 64, SlotState.Empty⟩) hs
          (·.state.isLive)
      refine ⟨?_, by rwa [length_set]⟩
      dsimp only
      split_ifs at hc ⊢ <;> omega
  | leak => exact ⟨rfl, Nat.two_pow_pos 32⟩

/-- What has become of a slot since it held a connection at generation `g`: `n` frees have moved
the generation on, and without one the slot still has a connection. -/
def Since (slot g n : ℕ) (t : ConnTable κ) : Prop :=
  ∀ e, t.slots[slot]? = some e →
    e.generation % 2 ^ 64 = (g + n) % 2 ^ 64 ∧ (n = 0 → e.state.isLive = true)

theorem Effect.since (h : Effect t op t') (hs : Since slot g n t) :
    Since slot g (n + if op.frees slot then 1 else 0) t' ∧ (op.installs slot = true → 0 < n) := by
  cases h with
  | same hp => simpa [hp slot] using hs
  | @keep _ slot' g' s s' hp hs' hl =>
    simp only [hp slot, Bool.false_eq_true, if_false, add_zero, false_imp_iff, and_true]
    intro e he
    rcases getElem?_set_cases he with ⟨rfl, rfl⟩ | he
    · exact hl ▸ hs _ hs'
    · exact hs e he
  | @install slot' g' conn hs' =>
    have hn : slot = slot' → 0 < n := by
      rintro rfl
      exact pos_of_ne_zero fun h0 => nomatch (hs _ hs').2 h0
    refine ⟨fun e he => ?_, fun hi => hn (beq_iff_eq.1 hi).symm⟩
    rcases getElem?_set_cases he with ⟨rfl, rfl⟩ | he
    · exact ⟨(hs _ hs').1, fun _ => rfl⟩
    · exact hs e he
  | free slot' =>
    refine ⟨fun e he => ?_, nofun⟩
    rw [ConnTable.free] at he
    rcases eq_or_ne slot' slot with rfl | hne
    · cases hs' : t.slots[slot']? with
      | none => simp [hs'] at he
      | some x =>
        have hx := (hs x hs').1
        simp only [hs', getElem?_set_of_some hs', some.injEq] at he
        rw [← he, Op.frees, beq_self_eq_true, if_pos rfl]
        exact ⟨by dsimp only; omega, nofun⟩
    · have he' : t.slots[slot]? = some e := by
        split at he
        · exact he
        · rwa [getElem?_set_ne hne] at he
      simpa [Op.frees, hne] using hs e he'
  | leak => exact ⟨nofun, nofun⟩

theorem since_of_run {es : List (Op κ)} (hs : Since slot g n t)
    (h : Runs.run call t es = some t') : Since slot g (n + es.countP (·.frees slot)) t' ∧
      (es.any (·.installs slot) = true → 0 < n + es.countP (·.frees slot)) := by
  induction es generalizing t n with
  | nil => exact ⟨some.inj h ▸ hs, nofun⟩
  | cons op es ih =>
    obtain ⟨t₁, h₁, hr⟩ := bind_eq_some_iff.1 h
    obtain ⟨hs₁, hi⟩ := (effect_of_call h₁).since hs
    obtain ⟨hs₂, hi₂⟩ := ih hs₁ hr
    rw [countP_cons, add_comm (es.countP _), ← add_assoc, any_cons, Bool.or_eq_true]
    refine ⟨hs₂, ?_⟩
    rintro (ho | ho)
    · have := hi ho
      omega
    · exact hi₂ ho

end Effects

theorem shift_of_none {t : ConnTable κ} {slot : ℕ} {f : SlotState κ → Option (SlotState κ × β)}
    (h : ∀ e, t.slots[slot]? = some e → f e.state = none) : t.shift slot f = (none, t) := by
  rw [shift, bind_eq_none_iff.2 h]

theorem pushConnMut_eq_none_iff {t : ConnTable κ} {slot g : ℕ} : t.pushConnMut slot g = none ↔
    ∀ s, t.slots[slot]? = some ⟨g, s⟩ → s.isLive = false := by
  cases hs : t.slots[slot]? with
  | none => simp [pushConnMut, hs]
  | some e =>
    obtain ⟨g', s⟩ := e
    by_cases hg : g' = g <;> simp [pushConnMut, hs, isLive]

theorem slotMatches_eq (t : ConnTable κ) (slot g : ℕ) :
    t.slotMatches slot g = (t.pushConnMut slot g).any (·.2) := by
  cases hs : t.slots[slot]? with
  | none => simp [slotMatches, pushConnMut, hs]
  | some e =>
    obtain ⟨g', s⟩ := e
    by_cases hg : g' = g
    · cases s <;> simp [slotMatches, pushConnMut, hs, hg, isServing, live]
    · simp [slotMatches, pushConnMut, hs, hg]

/-- A handle of a connection names no connection that is installed in its slot later, unless the
generation has gone round in between. A move of a slot in another state changes nothing, a connect
takes an empty slot, and the count is that of the connections. -/
theorem stale_handle_names_nothing (pool_size : ℕ) (hp : pool_size < 2 ^ 32) (es : List (Op κ))
    (t : ConnTable κ) (h : Runs.run call (new pool_size) es = some t) :
    (∀ slot g es' t', t.pushConnMut slot g ≠ none → Runs.run call t es' = some t' →
      es'.any (·.installs slot) = true → es'.countP (·.frees slot) < 2 ^ 64 →
        t'.slotMatches slot g = false ∧ t'.pushConnMut slot g = none) ∧
    (∀ slot,
      ((∀ g pad, t.slots[slot]? ≠ some ⟨g, PeerFetch pad⟩) → t.takePeerFetch slot = (none, t)) ∧
      ((∀ g p, t.slots[slot]? ≠ some ⟨g, Connecting p⟩) → t.takeConnecting slot = (none, t)) ∧
      ((∀ g p, t.slots[slot]? ≠ some ⟨g, TlsConnecting p⟩) →
        t.takeTlsConnecting slot = (none, t)) ∧
      ((∀ g l, t.slots[slot]? ≠ some ⟨g, TlsInstalling l⟩) →
        t.takeTlsInstalling slot = (none, t)) ∧
      ((∀ g peer, t.slots[slot]? ≠ some ⟨g, TlsParked peer⟩) → t.takeTlsParked slot = (none, t)) ∧
      ((∀ g c, t.slots[slot]? ≠ some ⟨g, Detaching c⟩) →
        t.parkDetachedInPlace slot = (none, t) ∧
        ((∀ g c, t.slots[slot]? ≠ some ⟨g, Detached c⟩) → t.reattach slot = (false, t)))) ∧
    (∀ pending slot t', t.reserveConnecting pending = (some slot, t') →
      ∃ g, t.slots[slot]? = some ⟨g, .Empty⟩ ∧
        t' = { t with slots := t.slots.set slot ⟨g, Connecting pending⟩ }) ∧
    t.active = t.slots.countP (·.state.isLive) := by
  refine ⟨fun slot g es' t' hi hr hin hfr => ?_, fun slot => ⟨?_, ?_, ?_, ?_, ?_, ?_⟩,
    fun pending slot t' he => ?_, ?_⟩
  · have h0 : Since slot g 0 t := fun e he => by
      rw [Ne, pushConnMut_eq_none_iff] at hi
      push Not at hi
      obtain ⟨s, hs, hl⟩ := hi
      rw [hs, some.injEq] at he
      exact he ▸ ⟨rfl, fun _ => eq_true_of_ne_false hl⟩
    obtain ⟨hsi, hn⟩ := since_of_run h0 hr
    have hno : t'.pushConnMut slot g = none := pushConnMut_eq_none_iff.2 fun s hs => by
      have hg : g % 2 ^ 64 = _ := (hsi _ hs).1
      have := hn hin
      omega
    exact ⟨by rw [slotMatches_eq, hno]; rfl, hno⟩
  iterate 5
    exact fun hn => shift_of_none fun ⟨g, s⟩ hs => by
      cases s <;> first | rfl | exact absurd hs (hn _ _)
  · refine fun hn => ⟨shift_of_none fun ⟨g, s⟩ hs => ?_, fun hn' => ?_⟩
    · cases s <;> first | rfl | exact absurd hs (hn _ _)
    · rw [reattach, shift_of_none]
      · rfl
      rintro ⟨g, s⟩ hs
      cases s <;> first | rfl | exact absurd hs (hn _ _) | exact absurd hs (hn' _ _)
  · rcases reserveConnecting_cases t pending with hr | ⟨slot', g, hs, hr⟩ <;>
      rw [hr, Prod.mk.injEq] at he
    · cases he.1
    · exact ⟨g, some.inj he.1 ▸ hs, some.inj he.1 ▸ he.2.symm⟩
  · refine (Runs.invariant_of_run (fun s e s' hs he => (effect_of_call he).sound hs)
      ⟨?_, ?_⟩ h).active
    · simp [new, countP_replicate, isLive, live]
    · simpa [new] using hp

theorem stale_handle_names_nothing_freed : ∃ t t' : ConnTable ⟨Bool, Unit, Unit, Unit⟩,
    Runs.run call (new 2) [.install 0 true] = some t ∧
      Runs.run call t [.free 0, .install 0 false] = some t' ∧ t'.slotMatches 0 0 = false :=
  ⟨⟨[⟨0, Serving true⟩, ⟨0, .Empty⟩], 1⟩, _, rfl, rfl, ((stale_handle_names_nothing 2 (by decide)
    [.install 0 true] _ rfl).1 0 0 [.free 0, .install 0 false] _ (by decide) rfl rfl
    (by decide)).1⟩

/-- A fetch of a peer's identity that is begun on a connection takes it out of its slot, which keeps
its generation and is counted twice. -/
theorem overwritten_handle_names_another : ∃ t t' : ConnTable ⟨Bool, Unit, Unit, Unit⟩,
    Runs.run step (new 1) [.install 0 true, .beginPeerFetch 0 (), .takePeerFetch 0] = some t ∧
      t.slots = [⟨0, .Empty⟩] ∧ t.step (.install 0 false) = some t' ∧
      t'.pushConnMut 0 0 = some (false, true) ∧ t'.active = 2 ∧
      t'.slots.countP (·.state.isLive) = 1 :=
  ⟨_, _, rfl, rfl, rfl, rfl, rfl, rfl⟩

end ConnTable

end TruenasRos.Net
