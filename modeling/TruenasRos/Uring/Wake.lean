import TruenasRos.Lib.Runs

/-! # Waking a parked loop

Threads publish items and poke, and one loop parks, waits, unparks and drains. Each step
is one access to the shared state, so a list of events is a sequentially consistent
interleaving. The kernel completes the armed read of the eventfd at any moment after the
counter became positive.
-/

namespace TruenasRos.Uring.Wake

open Option Function

inductive State
  | legacy
  | active
  | parked
  | notified
  deriving DecidableEq

inductive Park
  | block
  | drain
  deriving DecidableEq

def compareExchange (state current new : State) : State × Except State State :=
  if state = current then (new, .ok state) else (state, .error state)

def activate (state : State) : State := (compareExchange state .legacy .active).1

/-- Parking up to the store that a refusal makes before it answers. -/
def park (state : State) : State × Park :=
  match compareExchange state .active .parked with
  | (state, .ok _) => (state, .block)
  | (state, .error .legacy) => (state, .block)
  | (state, .error _) => (state, .drain)

/-- Where a thread is that publishes an item and pokes. -/
inductive Poker
  | idle
  | published
  | exchange (cur : State)
  | write
  | returned
  deriving DecidableEq

/-- What a poke does with the state it has seen. -/
def observe : State → Poker
  | .legacy => .write
  | .notified => .returned
  | cur => .exchange cur

/-- Where the loop is. A drain takes the wake sources one after another; it was called for
the completed read, or else for a refused park. -/
inductive Loop
  | arm
  | activate
  | top
  | refused
  | waiting
  | unpark
  | unparked
  | reap
  | drain (woken : Bool) (source : ℕ)
  deriving DecidableEq

structure Sys where
  state : State
  counter : ℕ
  armed : Bool
  done : Bool
  loop : Loop
  poker : ℕ → Poker
  undrained : ℕ → Bool

inductive Event
  | poke (thread : ℕ) (spurious : Bool)
  | loop (other : Bool)
  | read
  deriving DecidableEq

def init : Sys where
  state := .legacy
  counter := 0
  armed := false
  done := false
  loop := .arm
  poker := fun _ => .idle
  undrained := fun _ => false

/-- The largest value of an eventfd, at which a write fails. -/
def COUNTER_MAX : ℕ := 2 ^ 64 - 2

def Sys.goto (s : Sys) (i : ℕ) (p : Poker) : Sys :=
  { s with poker := update s.poker i p }

/-- The next access of thread `i`. A weak exchange may fail without a reason. -/
def Sys.poke (s : Sys) (i : ℕ) (spurious : Bool) : Option Sys :=
  match s.poker i with
  | .idle => some ({ s with undrained := update s.undrained i true }.goto i .published)
  | .published => some (s.goto i (observe s.state))
  | .exchange cur =>
    match compareExchange s.state cur .notified, spurious with
    | (state, .ok seen), false =>
      some ({ s with state := state }.goto i (if seen = State.active then .returned else .write))
    | _, _ => some (s.goto i (observe s.state))
  | .write => some ({ s with counter := min (s.counter + 1) COUNTER_MAX }.goto i .returned)
  | .returned => none

section

variable {n : ℕ} (source : ℕ → Fin n)

/-- The next access of the loop. The wait ends at the read's completion or at another one. -/
def Sys.next (s : Sys) (other : Bool) : Option Sys :=
  match s.loop with
  | .arm => some { s with armed := true, loop := .activate }
  | .activate => some { s with state := activate s.state, loop := .top }
  | .top =>
    match park s.state with
    | (state, .block) => some { s with state := state, loop := .waiting }
    | (state, .drain) => some { s with state := state, loop := .refused }
  | .refused => some { s with state := .active, loop := .drain false 0 }
  | .waiting => if s.done || other then some { s with loop := .unpark } else none
  | .unpark => some { s with loop := if s.state = .legacy then .reap else .unparked }
  | .unparked => some { s with state := .active, loop := .reap }
  | .reap =>
    if s.done then some { s with done := false, loop := .drain true 0 }
    else some { s with loop := .top }
  | .drain woken k =>
    if k < n then
      some { s with
        undrained := fun i => s.undrained i && decide ((source i : ℕ) ≠ k)
        loop := .drain woken (k + 1) }
    else some { s with armed := s.armed || woken, loop := .reap }

def Sys.read (s : Sys) : Option Sys :=
  if s.armed = true ∧ 0 < s.counter then some { s with armed := false, counter := 0, done := true }
  else none

def step (s : Sys) : Event → Option Sys
  | .poke i spurious => s.poke i spurious
  | .loop other => s.next source other
  | .read => s.read

/-- The read has completed, will complete, or a poke is about to make it. -/
def Sys.Signal (s : Sys) : Prop := 0 < s.counter ∨ s.done = true ∨ ∃ i, s.poker i = .write

/-- The loop has parked and not unparked. -/
def Loop.Shut (l : Loop) : Prop := l = .waiting ∨ l = .unpark ∨ l = .unparked

/-- The loop drains source `k` before it parks next. -/
def Loop.Drains (k : ℕ) : Loop → Prop
  | .refused => True
  | .drain _ j => j ≤ k
  | _ => False

/-- Nothing can keep the loop from draining item `i`. -/
def Sys.Heard (s : Sys) (i : ℕ) : Prop :=
  s.Signal ∨ s.loop.Drains (source i) ∨ s.state = .notified ∧ ¬ s.loop.Shut

structure Inv (s : Sys) : Prop where
  start : s.loop = .arm ∨ s.loop = .activate → s.state = .legacy
  armed : s.loop ≠ .arm → (∀ k, s.loop ≠ .drain true k) → s.armed = true ∨ s.done = true
  shut : s.loop.Shut → s.state ≠ .active
  signalled : s.loop.Shut → s.state = .notified → s.Signal
  exchange : ∀ i, s.poker i ≠ .exchange .legacy ∧ s.poker i ≠ .exchange .notified
  heard : ∀ i, s.undrained i = true → s.poker i = .returned → s.Heard source i

variable {source} {s s' : Sys} {i j : ℕ} {p : Poker} {spurious : Bool}

@[simp] theorem poker_goto_self : (s.goto i p).poker i = p := update_self _ _ _

theorem poker_goto_of_ne (h : j ≠ i) : (s.goto i p).poker j = s.poker j :=
  update_of_ne h _ _

theorem Sys.Signal.goto (h : s.Signal) (hi : s.poker i ≠ .write) : (s.goto i p).Signal := by
  obtain hc | hd | ⟨j, hj⟩ := h
  · exact .inl hc
  · exact .inr (.inl hd)
  · refine .inr (.inr ⟨j, ?_⟩)
    have hne : j ≠ i := fun he => hi (he ▸ hj)
    rw [poker_goto_of_ne hne, hj]

theorem Sys.Heard.goto (h : s.Heard source j) (hi : s.poker i ≠ .write) :
    (s.goto i p).Heard source j := h.imp_left fun hs => hs.goto hi

theorem poke_cases (h : s.poke i spurious = some s') : s.poker i = .idle ∧
        s' = { s with undrained := update s.undrained i true }.goto i .published ∨
      s.poker i ≠ .write ∧ s' = s.goto i (observe s.state) ∨
      s.poker i = .exchange s.state ∧ s' = { s with state := .notified }.goto i
          (if s.state = State.active then .returned else .write) ∨
      s.poker i = .write ∧
        s' = { s with counter := min (s.counter + 1) COUNTER_MAX }.goto i .returned := by
  unfold Sys.poke at h
  cases hpo : s.poker i with
  | idle => simp only [hpo] at h; exact .inl ⟨rfl, (some.inj h).symm⟩
  | published =>
    simp only [hpo] at h
    exact .inr (.inl ⟨by simp, (some.inj h).symm⟩)
  | exchange cur =>
    simp only [hpo, compareExchange] at h
    by_cases hc : s.state = cur
    · rw [if_pos hc] at h
      cases spurious with
      | true => exact .inr (.inl ⟨by simp, (some.inj h).symm⟩)
      | false => exact .inr (.inr (.inl ⟨by rw [hc], (some.inj h).symm⟩))
    · rw [if_neg hc] at h
      exact .inr (.inl ⟨by simp, (some.inj h).symm⟩)
  | write => simp only [hpo] at h; exact .inr (.inr (.inr ⟨rfl, (some.inj h).symm⟩))
  | returned => simp only [hpo] at h; cases h

theorem not_shut_of (h : s.loop ≠ .waiting ∧ s.loop ≠ .unpark ∧ s.loop ≠ .unparked) :
    ¬ s.loop.Shut := by
  rintro (hs | hs | hs)
  · exact h.1 hs
  · exact h.2.1 hs
  · exact h.2.2 hs

theorem inv_init : Inv source init :=
  ⟨fun _ => rfl, fun h => absurd rfl h, fun _ => by decide, fun _ hn => absurd hn (by decide),
    fun _ => by simp [init], fun _ hi => absurd hi (by simp [init])⟩

namespace Inv

theorem exchange_goto (h : Inv source s)
    (hp : p ≠ .exchange .legacy ∧ p ≠ .exchange .notified) (j : ℕ) :
    (s.goto i p).poker j ≠ .exchange .legacy ∧ (s.goto i p).poker j ≠ .exchange .notified := by
  by_cases hj : j = i
  · rw [hj, poker_goto_self]
    exact hp
  · rw [poker_goto_of_ne hj]
    exact h.exchange j

theorem told (h : Inv source s) (hs : s.state = .notified) (i : ℕ) : s.Heard source i := by
  by_cases hsh : s.loop.Shut
  · exact .inl (h.signalled hsh hs)
  · exact .inr (.inr ⟨hs, hsh⟩)

theorem of_signal (hs : s'.Signal) (hsr : s'.loop = .arm ∨ s'.loop = .activate → s'.state = .legacy)
    (ha : s'.loop ≠ .arm → (∀ k, s'.loop ≠ .drain true k) → s'.armed = true ∨ s'.done = true)
    (hsh : s'.loop.Shut → s'.state ≠ .active)
    (he : ∀ i, s'.poker i ≠ .exchange .legacy ∧ s'.poker i ≠ .exchange .notified) : Inv source s' :=
  ⟨hsr, ha, hsh, fun _ _ => hs, he, fun _ _ _ => .inl hs⟩

section

variable (h : Inv source s)
include h

theorem publish (hid : s.poker i = .idle) :
    Inv source ({ s with undrained := update s.undrained i true }.goto i .published) := by
  have hi : s.poker i ≠ .write := by simp [hid]
  refine ⟨h.start, h.armed, h.shut, fun hs hn => (h.signalled hs hn).goto hi,
    h.exchange_goto (by decide), fun j hj hr => ?_⟩
  by_cases he : j = i
  · rw [he, poker_goto_self] at hr
    cases hr
  · have hu : s.undrained j = true := (update_of_ne he _ _).symm.trans hj
    exact (h.heard j hu ((poker_goto_of_ne he).symm.trans hr)).goto hi

theorem observe (hw : s.poker i ≠ .write) : Inv source (s.goto i (observe s.state)) := by
  refine ⟨h.start, h.armed, h.shut, fun hs hn => (h.signalled hs hn).goto hw,
    h.exchange_goto (by cases s.state <;> decide), fun j hj hr => ?_⟩
  by_cases he : j = i
  · have hse : Wake.observe s.state = .returned := by rwa [he, poker_goto_self] at hr
    have hno : s.state = .notified := by
      cases hsta : s.state <;> simp [hsta, Wake.observe] at hse ⊢
    exact (h.told hno j).goto hw
  · exact (h.heard j hj ((poker_goto_of_ne he).symm.trans hr)).goto hw

theorem swap (hsw : s.poker i = .exchange s.state) :
    Inv source ({ s with state := .notified }.goto i
      (if s.state = State.active then .returned else .write)) := by
  have hne := h.exchange i
  rw [hsw] at hne
  have hsr : ¬ (s.loop = .arm ∨ s.loop = .activate) := fun hs => hne.1 (by rw [h.start hs])
  split_ifs with hac
  · have ha : ¬ s.loop.Shut := fun hs => h.shut hs hac
    refine ⟨fun hs => absurd hs hsr, h.armed, fun hs => absurd hs ha,
      fun hs => absurd hs ha, h.exchange_goto (by decide), fun j _ _ => ?_⟩
    exact .inr (.inr ⟨rfl, ha⟩)
  · exact of_signal (.inr (.inr ⟨i, poker_goto_self⟩)) (fun hs => absurd hs hsr) h.armed
      (fun _ => by simp [Sys.goto]) (h.exchange_goto (by decide))

theorem poke (hs : s.poke i spurious = some s') : Inv source s' := by
  rcases poke_cases hs with ⟨hid, rfl⟩ | ⟨hw, rfl⟩ | ⟨hsw, rfl⟩ | ⟨-, rfl⟩
  · exact h.publish hid
  · exact h.observe hw
  · exact h.swap hsw
  · have hpos : 0 < min (s.counter + 1) COUNTER_MAX := lt_min (Nat.succ_pos _) (by decide)
    exact of_signal (.inl hpos) h.start h.armed h.shut (h.exchange_goto (by decide))

theorem read (hs : s.read = some s') : Inv source s' := by
  unfold Sys.read at hs
  split_ifs at hs
  obtain rfl := some.inj hs
  exact of_signal (.inr (.inl rfl)) h.start (fun _ _ => .inr rfl) h.shut h.exchange

theorem signal_of_heard (hdr : ¬ s.loop.Drains (source i))
    (hsta : s.state ≠ .notified ∨ s.loop.Shut) (hu : s.undrained i = true)
    (hr : s.poker i = .returned) : s.Signal := by
  rcases h.heard i hu hr with hsi | hd | ⟨hn, ha⟩
  · exact hsi
  · exact absurd hd hdr
  · exact hsta.elim (absurd hn) fun hs => absurd hs ha

end

theorem of_awake (hsr : s'.loop ≠ .arm ∧ s'.loop ≠ .activate)
    (ha : s'.loop ≠ .waiting ∧ s'.loop ≠ .unpark ∧ s'.loop ≠ .unparked)
    (har : (∀ k, s'.loop ≠ .drain true k) → s'.armed = true ∨ s'.done = true)
    (he : ∀ i, s'.poker i ≠ .exchange .legacy ∧ s'.poker i ≠ .exchange .notified)
    (hh : ∀ i, s'.undrained i = true → s'.poker i = .returned → s'.Heard source i) :
    Inv source s' :=
  ⟨fun hs => hs.elim (absurd · hsr.1) (absurd · hsr.2), fun _ => har,
    fun hs => absurd hs (not_shut_of ha), fun hs => absurd hs (not_shut_of ha), he, hh⟩

section

variable (h : Inv source s) {k : ℕ}
include h

theorem arm (hl : s.loop = .arm) : Inv source { s with armed := true, loop := .activate } := by
  have hle := h.start (.inl hl)
  refine ⟨fun _ => hle, fun _ _ => .inl rfl, fun _ => by simp [hle],
    fun _ hn => by simp [hle] at hn, h.exchange, fun i hi hr => .inl ?_⟩
  exact h.signal_of_heard (by simp [hl, Loop.Drains]) (.inl (by simp [hle])) hi hr

theorem activate (hl : s.loop = .activate) :
    Inv source { s with state := Wake.activate s.state, loop := .top } := by
  have hle := h.start (.inr hl)
  refine of_awake (by simp) (by simp) (fun _ => h.armed (by simp [hl]) (by simp [hl]))
    h.exchange fun i hi hr => .inl ?_
  exact h.signal_of_heard (by simp [hl, Loop.Drains]) (.inl (by simp [hle])) hi hr

theorem park (hl : s.loop = .top) {state : State} (hpa : Wake.park s.state = (state, .block)) :
    Inv source { s with state := state, loop := .waiting } := by
  have hsta : s.state ≠ .notified ∧ state ≠ .active ∧ state ≠ .notified := by
    cases hs : s.state <;> rw [hs] at hpa <;> cases hpa <;> decide
  refine ⟨by simp, fun _ _ => h.armed (by simp [hl]) (by simp [hl]), fun _ => hsta.2.1,
    fun _ hn => absurd hn hsta.2.2, h.exchange, fun i hi hr => .inl ?_⟩
  exact h.signal_of_heard (by simp [hl, Loop.Drains]) (.inl hsta.1) hi hr

theorem refused (hl : s.loop = .top) (state : State) :
    Inv source { s with state := state, loop := .refused } :=
  of_awake (by simp) (by simp) (fun _ => h.armed (by simp [hl]) (by simp [hl]))
    h.exchange fun _ _ _ => .inr (.inl trivial)

theorem signal_of_shut (hs : s.loop.Shut)
    (hu : s.undrained i = true) (hr : s.poker i = .returned) : s.Signal := by
  refine h.signal_of_heard ?_ (.inr hs) hu hr
  rcases hs with hl | hl | hl <;> simp [hl, Loop.Drains]

theorem armed_of_shut (hs : s.loop.Shut) : s.armed = true ∨ s.done = true := by
  rcases hs with hl | hl | hl <;> exact h.armed (by simp [hl]) (by simp [hl])

theorem shift (hsh : s.loop.Shut) {l : Loop} (hl : l.Shut) : Inv source { s with loop := l } := by
  refine ⟨fun hs => ?_, fun _ _ => h.armed_of_shut hsh, fun _ => h.shut hsh,
    fun _ hn => h.signalled hsh hn, h.exchange, fun i hi hr => ?_⟩
  · rcases hl with rfl | rfl | rfl <;> simp at hs
  · exact .inl (h.signal_of_shut hsh hi hr)

theorem reopen (hs : s.loop.Shut) (state : State) :
    Inv source { s with state := state, loop := .reap } :=
  of_awake (by simp) (by simp) (fun _ => h.armed_of_shut hs) h.exchange
    fun _ hi hr => .inl (h.signal_of_shut hs hi hr)

theorem woken : Inv source { s with done := false, loop := .drain true 0 } :=
  of_awake (by simp) (by simp) (fun hk => absurd rfl (hk 0)) h.exchange
    fun _ _ _ => .inr (.inl (Nat.zero_le _))

theorem again (hl : s.loop = .reap) : Inv source { s with loop := .top } := by
  refine of_awake (by simp) (by simp) (fun _ => h.armed (by simp [hl]) (by simp [hl]))
    h.exchange fun i hi hr => ?_
  rcases h.heard i hi hr with hs | hd | ⟨hn, -⟩
  · exact .inl hs
  · simp [hl, Loop.Drains] at hd
  · exact .inr (.inr ⟨hn, not_shut_of (by simp)⟩)

theorem drain {woken : Bool} (hl : s.loop = .drain woken k) :
    Inv source { s with
      undrained := fun i => s.undrained i && decide ((source i : ℕ) ≠ k)
      loop := .drain woken (k + 1) } := by
  refine of_awake (by simp) (by simp) (fun hk => h.armed (by simp [hl]) fun j => ?_)
    h.exchange fun i hi hr => ?_
  · intro hj
    rw [hl] at hj
    cases hj
    exact hk (k + 1) rfl
  · obtain ⟨hu, hne⟩ := Bool.and_eq_true_iff.1 hi
    have hne := of_decide_eq_true hne
    rcases h.heard i hu hr with hs | hd | ⟨hn, -⟩
    · exact .inl hs
    · rw [hl] at hd
      exact .inr (.inl (Nat.lt_of_le_of_ne hd (Ne.symm hne)))
    · exact .inr (.inr ⟨hn, not_shut_of (by simp)⟩)

theorem drained {woken : Bool} (hl : s.loop = .drain woken k)
    (hk : ¬ k < n) : Inv source { s with armed := s.armed || woken, loop := .reap } := by
  refine of_awake (by simp) (by simp) (fun _ => ?_) h.exchange fun i hi hr => ?_
  · cases woken with
    | true => simp
    | false =>
      have ha := h.armed (by simp [hl]) (by simp [hl])
      simpa using ha
  · rcases h.heard i hi hr with hs | hd | ⟨hn, -⟩
    · exact .inl hs
    · rw [hl] at hd
      exact absurd (lt_of_le_of_lt hd (source i).isLt) hk
    · exact .inr (.inr ⟨hn, not_shut_of (by simp)⟩)

theorem next {other : Bool} (hs : s.next source other = some s') : Inv source s' := by
  unfold Sys.next at hs
  cases hl : s.loop with simp only [hl] at hs
  | arm => exact some.inj hs ▸ h.arm hl
  | activate => exact some.inj hs ▸ h.activate hl
  | top =>
    split at hs
    · next state hpa => exact some.inj hs ▸ h.park hl hpa
    · next state hpa => exact some.inj hs ▸ h.refused hl state
  | refused =>
    obtain rfl := some.inj hs
    refine of_awake (by simp) (by simp) (fun _ => ?_) h.exchange fun _ _ _ => ?_
    · exact h.armed (by simp [hl]) (by simp [hl])
    · exact .inr (.inl (Nat.zero_le _))
  | waiting =>
    split_ifs at hs
    exact some.inj hs ▸ h.shift (.inl hl) (.inr (.inl rfl))
  | unpark =>
    obtain rfl := some.inj hs
    split_ifs
    · exact h.reopen (.inr (.inl hl)) s.state
    · exact h.shift (.inr (.inl hl)) (.inr (.inr rfl))
  | unparked => exact some.inj hs ▸ h.reopen (.inr (.inr hl)) .active
  | reap =>
    split_ifs at hs
    · exact some.inj hs ▸ h.woken
    · exact some.inj hs ▸ h.again hl
  | drain woken k =>
    split_ifs at hs with hk
    · exact some.inj hs ▸ h.drain hl
    · exact some.inj hs ▸ h.drained hl hk

theorem step (e : Event) (hs : Wake.step source s e = some s') : Inv source s' := by
  cases e with
  | poke i spurious => exact h.poke hs
  | loop other => exact h.next hs
  | read => exact h.read hs

end

end Inv

end

/-- The poke of a thread has made its first access. -/
def Poker.Started : Poker → Prop
  | .exchange _ => True
  | .write => True
  | .returned => True
  | _ => False

theorem no_lost_wakeup {n : ℕ} (source : ℕ → Fin n) (events : List Event) (s : Sys)
    (hrun : Runs.run (step source) init events = some s)
    (hblocked : s.loop = .waiting ∧ s.done = false)
    (hreturned : ∀ i, (s.poker i).Started → s.poker i = .returned) :
    (∀ i, (s.poker i).Started → s.undrained i = false) ∨
      0 < s.counter ∧ ∃ s', step source s .read = some s' ∧ (s'.next source false).isSome := by
  have hinv : Inv source s :=
    Runs.invariant_of_run (fun _ e _ h hst => h.step e hst) inv_init hrun
  have hsh : s.loop.Shut := .inl hblocked.1
  by_cases hso : ∃ i, (s.poker i).Started ∧ s.undrained i = true
  · obtain ⟨i, hs, hu⟩ := hso
    refine .inr ?_
    have hco : 0 < s.counter := by
      rcases hinv.signal_of_shut hsh hu (hreturned i hs) with hc | hd | ⟨j, hj⟩
      · exact hc
      · rw [hblocked.2] at hd
        cases hd
      · have hr := hreturned j (by rw [hj]; trivial)
        rw [hj] at hr
        cases hr
    have ha : s.armed = true :=
      (hinv.armed_of_shut hsh).resolve_right (by simp [hblocked.2])
    refine ⟨hco, _, if_pos ⟨ha, hco⟩, ?_⟩
    simp [Sys.next, hblocked.1]
  · refine .inl fun i hs => ?_
    by_contra hne
    exact hso ⟨i, hs, by simpa using hne⟩

/-- A poke finds the loop parked and writes the eventfd. -/
theorem no_lost_wakeup_parked : ∃ s, Runs.run (step fun _ => (0 : Fin 1)) init
        [.loop false, .loop false, .loop false, .poke 0 false, .poke 0 false, .poke 0 true,
          .poke 0 false, .poke 0 false] = some s ∧
      s.loop = .waiting ∧ s.undrained 0 = true ∧ 0 < s.counter := by
  refine ⟨_, rfl, rfl, rfl, ?_⟩
  have hw := no_lost_wakeup (fun _ => (0 : Fin 1))
    [.loop false, .loop false, .loop false, .poke 0 false, .poke 0 false, .poke 0 true,
      .poke 0 false, .poke 0 false] _ rfl ⟨rfl, rfl⟩ fun i hs => by
        by_cases hi : i = 0
        · rw [hi]
          rfl
        · simp [Sys.goto, hi, init, Poker.Started] at hs
  exact (hw.resolve_left fun h => absurd (h 0 trivial) (by decide)).1

/-- A thread that has published and not yet poked leaves its item to a blocked loop. -/
theorem published_item_waits_for_its_poke : ∃ s, Runs.run (step fun _ => (0 : Fin 1)) init
        [.loop false, .loop false, .loop false, .poke 0 false] = some s ∧
      s.loop = .waiting ∧ s.done = false ∧ (∀ i, (s.poker i).Started → s.poker i = .returned) ∧
      s.undrained 0 = true ∧ s.counter = 0 := by
  refine ⟨_, rfl, rfl, rfl, fun i hs => ?_, rfl, rfl⟩
  by_cases hi : i = 0
  · simp [hi, Poker.Started] at hs
  · simp [Sys.goto, hi, init, Poker.Started] at hs

end TruenasRos.Uring.Wake
