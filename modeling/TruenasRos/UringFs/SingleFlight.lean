import TruenasRos.Lib.Runs

/-! # A cache whose misses are minted once

Any number of calls race for the keys of one cache. Each step is one access to the map, to
a slot's cell or to a slot's gate, and invalidations come in between. A cell remembers the
call that minted its value.
-/

namespace TruenasRos.UringFs.SingleFlight

open Function Option Nat

/-- What a mint closure does. -/
inductive Outcome (V E : Type*)
  | ok (v : V)
  | err (e : E)
  | panic

/-- What a call gives back. A lock that a panic poisoned is answered with `EIO`. -/
inductive Result (V E : Type*)
  | value (minter : ℕ) (v : V)
  | failed (e : E)
  | poisoned
  | panicked

/-- Where a call of `get_or_try_init` is. -/
inductive Call (K V E : Type*)
  | idle
  | enter (key : K)
  | look (key : K) (slot : ℕ)
  | wait (key : K) (slot : ℕ)
  | recheck (key : K) (slot : ℕ)
  | confirm (key : K) (slot : ℕ)
  | checked (key : K) (slot : ℕ)
  | minting (key : K) (slot : ℕ)
  | publish (key : K) (slot : ℕ) (v : V)
  | evict (key : K) (slot : ℕ) (e : E)
  | retry (key : K) (slot : ℕ)
  | leave (key : K) (slot : ℕ) (r : Result V E)
  | returned (key : K) (r : Result V E)

/-- The map, the slots it has ever held with their cells and gates, and the calls. -/
structure Sys (K V E : Type*) where
  live : K → Option ℕ
  next : ℕ
  cell : ℕ → Option (ℕ × V)
  gate : ℕ → Option ℕ
  poisoned : ℕ → Bool
  call : ℕ → Call K V E

inductive Event (K V E : Type*)
  | start (call : ℕ) (key : K)
  | call (call : ℕ) (outcome : Outcome V E)
  | invalidate (key : K)
  | clear

variable {K V E : Type*}

def new : Sys K V E where
  live := fun _ => none
  next := 0
  cell := fun _ => none
  gate := fun _ => none
  poisoned := fun _ => false
  call := fun _ => .idle

def Sys.goto (s : Sys K V E) (i : ℕ) (c : Call K V E) : Sys K V E :=
  { s with call := update s.call i c }

def Sys.setGate (s : Sys K V E) (slot : ℕ) (holder : Option ℕ) : Sys K V E :=
  { s with gate := update s.gate slot holder }

section

variable [DecidableEq K]

variable (s : Sys K V E)

/-- The next access of call `i`. A call that waits for a gate cannot go on. -/
def Sys.getOrTryInit (i : ℕ) (outcome : Outcome V E) : Option (Sys K V E) :=
  match s.call i with
  | .idle => none
  | .enter key =>
    match s.live key with
    | some slot => some (s.goto i (.look key slot))
    | none =>
      some ({ s with
        live := update s.live key (some s.next)
        next := s.next + 1 }.goto i (.look key s.next))
  | .look key slot =>
    match s.cell slot with
    | some (m, v) => some (s.goto i (.returned key (.value m v)))
    | none => some (s.goto i (.wait key slot))
  | .wait key slot =>
    match s.gate slot with
    | some _ => none
    | none =>
      if s.poisoned slot then some (s.goto i (.returned key .poisoned))
      else some ((s.setGate slot (some i)).goto i (.recheck key slot))
  | .recheck key slot =>
    match s.cell slot with
    | some (m, v) => some (s.goto i (.leave key slot (.value m v)))
    | none => some (s.goto i (.confirm key slot))
  | .confirm key slot =>
    if s.live key = some slot then some (s.goto i (.checked key slot))
    else some (s.goto i (.retry key slot))
  | .checked key slot => some (s.goto i (.minting key slot))
  | .minting key slot =>
    match outcome with
    | .ok v => some (s.goto i (.publish key slot v))
    | .err e => some (s.goto i (.evict key slot e))
    | .panic =>
      -- the guard is dropped by the unwinding, which poisons the gate
      some (({ s with poisoned := update s.poisoned slot true }.setGate slot none).goto i
        (.returned key .panicked))
  | .publish key slot v =>
    some ({ s with cell := update s.cell slot (some ((s.cell slot).getD (i, v))) }.goto i
      (.leave key slot (.value i v)))
  | .evict key slot e =>
    some ({ s with
      live := if s.live key = some slot then update s.live key none else s.live }.goto i
        (.leave key slot (.failed e)))
  | .retry key slot => some ((s.setGate slot none).goto i (.enter key))
  | .leave key slot r => some ((s.setGate slot none).goto i (.returned key r))
  | .returned _ _ => none

def Sys.invalidate (key : K) : Sys K V E :=
  { s with live := update s.live key none }

def Sys.clear : Sys K V E := { s with live := fun _ => none }

def step : Event K V E → Option (Sys K V E)
  | .start i key =>
    match s.call i with
    | .idle => some (s.goto i (.enter key))
    | _ => none
  | .call i outcome => s.getOrTryInit i outcome
  | .invalidate key => some (s.invalidate key)
  | .clear => some s.clear

end

/-- The event is an invalidation that covers the key. -/
def Event.Covers (key : K) : Event K V E → Prop
  | .invalidate key' => key' = key
  | .clear => True
  | _ => False

/-- The way of one call, whatever the others do. -/
inductive Call.Next (i : ℕ) : Call K V E → Outcome V E → Call K V E → Prop
  | look {key slot o} : Next i (.enter key) o (.look key slot)
  | hit {key slot m v o} : Next i (.look key slot) o (.returned key (.value m v))
  | miss {key slot o} : Next i (.look key slot) o (.wait key slot)
  | refuse {key slot o} : Next i (.wait key slot) o (.returned key .poisoned)
  | lock {key slot o} : Next i (.wait key slot) o (.recheck key slot)
  | found {key slot m v o} : Next i (.recheck key slot) o (.leave key slot (.value m v))
  | empty {key slot o} : Next i (.recheck key slot) o (.confirm key slot)
  | confirm {key slot o} : Next i (.confirm key slot) o (.checked key slot)
  | orphan {key slot o} : Next i (.confirm key slot) o (.retry key slot)
  | mint {key slot o} : Next i (.checked key slot) o (.minting key slot)
  | minted {key slot v} : Next i (.minting key slot) (.ok v) (.publish key slot v)
  | fail {key slot e} : Next i (.minting key slot) (.err e) (.evict key slot e)
  | panic {key slot} : Next i (.minting key slot) .panic (.returned key .panicked)
  | publish {key slot v o} : Next i (.publish key slot v) o (.leave key slot (.value i v))
  | evict {key slot e o} : Next i (.evict key slot e) o (.leave key slot (.failed e))
  | retry {key slot o} : Next i (.retry key slot) o (.enter key)
  | leave {key slot r o} : Next i (.leave key slot r) o (.returned key r)

def Call.slot : Call K V E → Option ℕ
  | .look _ slot | .wait _ slot | .recheck _ slot | .confirm _ slot | .checked _ slot
  | .minting _ slot | .publish _ slot _ | .evict _ slot _ | .retry _ slot | .leave _ slot _ =>
    some slot
  | _ => none

def Call.held : Call K V E → Option ℕ
  | .recheck _ slot | .confirm _ slot | .checked _ slot | .minting _ slot | .publish _ slot _
  | .evict _ slot _ | .retry _ slot | .leave _ slot _ => some slot
  | _ => none

/-- The slot that a call has found empty and may fill. -/
def Call.vacant : Call K V E → Option ℕ
  | .confirm _ slot | .checked _ slot | .minting _ slot | .publish _ slot _ | .evict _ slot _ =>
    some slot
  | _ => none

/-- A call's slot is one of the map's, its gate is the call's own and its vacancy is real. -/
structure Placed (next : ℕ) (gate : ℕ → Option ℕ) (cell : ℕ → Option (ℕ × V)) (i : ℕ)
    (c : Call K V E) : Prop where
  slot : ∀ slot, c.slot = some slot → slot < next
  gate : ∀ slot, c.held = some slot → gate slot = some i
  vacant : ∀ slot, c.vacant = some slot → cell slot = none

structure Inv (s : Sys K V E) : Prop where
  live : ∀ key slot, s.live key = some slot → slot < s.next
  fresh : ∀ slot, s.next ≤ slot → s.cell slot = none ∧ s.gate slot = none
  placed : ∀ i, Placed s.next s.gate s.cell i (s.call i)

section

variable {s s' : Sys K V E} {i j : ℕ} {key : K} {slot : ℕ}

@[simp] theorem call_goto_self (c : Call K V E) : (s.goto i c).call i = c :=
  update_self _ _ _

theorem call_goto_of_ne (c : Call K V E) (h : j ≠ i) : (s.goto i c).call j = s.call j :=
  update_of_ne h _ _

variable {c : Call K V E}

theorem held_of_vacant (h : c.vacant = some slot) : c.held = some slot := by
  cases c <;> first | exact h | cases h

theorem slot_of_held (h : c.held = some slot) : c.slot = some slot := by
  cases c <;> first | exact h | cases h

theorem placed_of_slot_none {next : ℕ} {gate : ℕ → Option ℕ} {cell : ℕ → Option (ℕ × V)}
    (h : c.slot = none) : Placed next gate cell i c := by
  have hh : ∀ sl, c.held ≠ some sl := fun sl hs => by
    cases h.symm.trans (slot_of_held hs)
  exact ⟨fun sl hs => (by cases h.symm.trans hs), fun sl hs => absurd hs (hh sl),
    fun sl hs => absurd (held_of_vacant hs) (hh sl)⟩

theorem Inv.holder (h : Inv s) (hi : (s.call i).held = some slot)
    (hj : (s.call j).held = some slot) : i = j :=
  some.inj (((h.placed i).gate slot hi).symm.trans ((h.placed j).gate slot hj))

theorem inv_goto (hl : ∀ key slot, s.live key = some slot → slot < s.next)
    (hf : ∀ slot, s.next ≤ slot → s.cell slot = none ∧ s.gate slot = none)
    (hi : Placed s.next s.gate s.cell i c)
    (hj : ∀ j, j ≠ i → Placed s.next s.gate s.cell j (s.call j)) : Inv (s.goto i c) := by
  refine ⟨hl, hf, fun j => ?_⟩
  by_cases he : j = i
  · rw [he, call_goto_self]
    exact hi
  · rw [call_goto_of_ne c he]
    exact hj j he

section

variable (h : Inv s)
include h

theorem Inv.goto (hi : Placed s.next s.gate s.cell i c) :
    Inv (s.goto i c) := inv_goto h.live h.fresh hi fun j _ => h.placed j

theorem Inv.stay (hs : c.slot = (s.call i).slot) (hh : c.held = none ∨ c.held = (s.call i).held)
    (hva : c.vacant = none ∨ c.vacant = (s.call i).vacant) : Inv (s.goto i c) := by
  refine h.goto ⟨fun sl hc => (h.placed i).slot sl (hs ▸ hc), fun sl hc => ?_, fun sl hc => ?_⟩
  · rcases hh with hg | hg
    · cases hg.symm.trans hc
    · exact (h.placed i).gate sl (hg ▸ hc)
  · rcases hva with hv | hv
    · cases hv.symm.trans hc
    · exact (h.placed i).vacant sl (hv ▸ hc)

theorem Inv.unlock (hi : (s.call i).held = some slot) (hslo : c.slot = none) :
    Inv ((s.setGate slot none).goto i c) := by
  refine inv_goto h.live (fun sl hs => ⟨(h.fresh sl hs).1, ?_⟩) (placed_of_slot_none hslo)
    fun j hj => ⟨(h.placed j).slot, fun sl hs => ?_, (h.placed j).vacant⟩
  · by_cases he : sl = slot
    · rw [he]
      exact update_self _ _ _
    · exact (update_of_ne he _ _).trans (h.fresh sl hs).2
  · have hne : sl ≠ slot := fun he => hj (h.holder (he ▸ hs) hi)
    exact (update_of_ne hne _ _).trans ((h.placed j).gate sl hs)

theorem Inv.lock (hc : s.call i = .wait key slot) (hg : s.gate slot = none) :
    Inv ((s.setGate slot (some i)).goto i (.recheck key slot)) := by
  have hlt : slot < s.next := (h.placed i).slot slot (by rw [hc]; rfl)
  refine inv_goto h.live (fun sl hs => ⟨(h.fresh sl hs).1, ?_⟩)
    ⟨fun sl hs => some.inj hs ▸ hlt, fun sl hs => ?_, fun sl hs => (by cases hs)⟩
    fun j _ => ⟨(h.placed j).slot, fun sl hs => ?_, (h.placed j).vacant⟩
  · exact (update_of_ne (ne_of_gt (lt_of_lt_of_le hlt hs)) _ _).trans
      (h.fresh sl hs).2
  · obtain rfl := some.inj hs
    exact update_self _ _ _
  · have hh := (h.placed j).gate sl hs
    have hne : sl ≠ slot := fun he => by
      rw [he, hg] at hh
      cases hh
    exact (update_of_ne hne _ _).trans hh

theorem Inv.publish {v : V} (hc : s.call i = .publish key slot v) : Inv ({ s with
      cell := update s.cell slot (some ((s.cell slot).getD (i, v))) }.goto i
        (.leave key slot (.value i v))) := by
  have hh : (s.call i).held = some slot := by rw [hc]; rfl
  have hlt : slot < s.next := (h.placed i).slot slot (slot_of_held hh)
  refine inv_goto h.live (fun sl hs => ⟨?_, (h.fresh sl hs).2⟩)
    ⟨fun sl hs => some.inj hs ▸ hlt,
      fun sl hs => some.inj hs ▸ (h.placed i).gate slot hh, fun sl hs => (by cases hs)⟩
    fun j hj => ⟨(h.placed j).slot, (h.placed j).gate, fun sl hs => ?_⟩
  · exact (update_of_ne (ne_of_gt (lt_of_lt_of_le hlt hs)) _ _).trans
      (h.fresh sl hs).1
  · have hne : sl ≠ slot := fun he => hj (h.holder (held_of_vacant (he ▸ hs)) hh)
    exact (update_of_ne hne _ _).trans ((h.placed j).vacant sl hs)

theorem Inv.forget {live' : K → Option ℕ}
    (hl : ∀ key slot, live' key = some slot → s.live key = some slot) :
    Inv { s with live := live' } :=
  { h with live := fun key slot hs => h.live key slot (hl key slot hs) }

end

theorem inv_new : Inv (new : Sys K V E) :=
  ⟨fun _ _ h => (by cases h), fun _ _ => ⟨rfl, rfl⟩, fun _ => placed_of_slot_none rfl⟩

end

section

variable [DecidableEq K]

variable (s : Sys K V E) (i : ℕ)

/-- The steps of a call, one for each branch it can take. -/
inductive Moved : Outcome V E → Sys K V E → Prop
  | join {key slot outcome} (hc : s.call i = .enter key) (hlive : s.live key = some slot) :
    Moved outcome (s.goto i (.look key slot))
  | install {key outcome} (hc : s.call i = .enter key) (hlive : s.live key = none) :
    Moved outcome ({ s with
      live := update s.live key (some s.next)
      next := s.next + 1 }.goto i (.look key s.next))
  | hit {key slot m v outcome} (hc : s.call i = .look key slot)
    (hcell : s.cell slot = some (m, v)) :
    Moved outcome (s.goto i (.returned key (.value m v)))
  | miss {key slot outcome} (hc : s.call i = .look key slot) :
    Moved outcome (s.goto i (.wait key slot))
  | refuse {key slot outcome} (hc : s.call i = .wait key slot) :
    Moved outcome (s.goto i (.returned key .poisoned))
  | lock {key slot outcome} (hc : s.call i = .wait key slot) (hgate : s.gate slot = none) :
    Moved outcome ((s.setGate slot (some i)).goto i (.recheck key slot))
  | found {key slot m v outcome} (hc : s.call i = .recheck key slot)
    (hcell : s.cell slot = some (m, v)) :
    Moved outcome (s.goto i (.leave key slot (.value m v)))
  | empty {key slot outcome} (hc : s.call i = .recheck key slot) (hcell : s.cell slot = none) :
    Moved outcome (s.goto i (.confirm key slot))
  | confirm {key slot outcome} (hc : s.call i = .confirm key slot)
    (hlive : s.live key = some slot) : Moved outcome (s.goto i (.checked key slot))
  | orphan {key slot outcome} (hc : s.call i = .confirm key slot) :
    Moved outcome (s.goto i (.retry key slot))
  | mint {key slot outcome} (hc : s.call i = .checked key slot) :
    Moved outcome (s.goto i (.minting key slot))
  | minted {key slot v} (hc : s.call i = .minting key slot) :
    Moved (.ok v) (s.goto i (.publish key slot v))
  | fail {key slot e} (hc : s.call i = .minting key slot) :
    Moved (.err e) (s.goto i (.evict key slot e))
  | panic {key slot} (hc : s.call i = .minting key slot) :
    Moved .panic (({ s with poisoned := update s.poisoned slot true }.setGate slot
      none).goto i (.returned key .panicked))
  | publish {key slot v outcome} (hc : s.call i = .publish key slot v) :
    Moved outcome ({ s with
      cell := update s.cell slot (some ((s.cell slot).getD (i, v))) }.goto i
        (.leave key slot (.value i v)))
  | evict {key slot e outcome} (hc : s.call i = .evict key slot e) :
    Moved outcome ({ s with
      live := if s.live key = some slot then update s.live key none else s.live }.goto i
        (.leave key slot (.failed e)))
  | retry {key slot outcome} (hc : s.call i = .retry key slot) :
    Moved outcome ((s.setGate slot none).goto i (.enter key))
  | leave {key slot r outcome} (hc : s.call i = .leave key slot r) :
    Moved outcome ((s.setGate slot none).goto i (.returned key r))

variable {s i} {s' : Sys K V E} {j : ℕ} {outcome : Outcome V E}

theorem getOrTryInit_moved (h : s.getOrTryInit i outcome = some s') : Moved s i outcome s' := by
  unfold Sys.getOrTryInit at h
  cases hc : s.call i with simp only [hc] at h
  | idle => cases h
  | enter key =>
    cases hl : s.live key with simp only [hl] at h
    | some slot => exact some.inj h ▸ .join hc hl
    | none => exact some.inj h ▸ .install hc hl
  | look key slot =>
    cases hce : s.cell slot with simp only [hce] at h
    | some mv => exact some.inj h ▸ .hit hc hce
    | none => exact some.inj h ▸ .miss hc
  | wait key slot =>
    cases hg : s.gate slot with simp only [hg] at h
    | some holder => cases h
    | none =>
      split_ifs at h
      · exact some.inj h ▸ .refuse hc
      · exact some.inj h ▸ .lock hc hg
  | recheck key slot =>
    cases hce : s.cell slot with simp only [hce] at h
    | some mv => exact some.inj h ▸ .found hc hce
    | none => exact some.inj h ▸ .empty hc hce
  | confirm key slot =>
    split_ifs at h with hl
    · exact some.inj h ▸ .confirm hc hl
    · exact some.inj h ▸ .orphan hc
  | checked key slot => exact some.inj h ▸ .mint hc
  | minting key slot =>
    cases outcome with
    | ok v => exact some.inj h ▸ .minted hc
    | err e => exact some.inj h ▸ .fail hc
    | panic => exact some.inj h ▸ .panic hc
  | publish key slot v => exact some.inj h ▸ .publish hc
  | evict key slot e => exact some.inj h ▸ .evict hc
  | retry key slot => exact some.inj h ▸ .retry hc
  | leave key slot r => exact some.inj h ▸ .leave hc
  | returned key r => cases h

theorem Inv.install (h : Inv s) (key : K) : Inv ({ s with
      live := update s.live key (some s.next)
      next := s.next + 1 }.goto i (.look key s.next)) := by
  refine inv_goto (fun key' sl hs => ?_) (fun sl hs => h.fresh sl (le_of_succ_le hs))
    ⟨fun sl hs => some.inj hs ▸ lt_succ_self _, fun sl hs => (by cases hs),
      fun sl hs => (by cases hs)⟩
    fun j _ => ⟨fun sl hs => lt_succ_of_lt ((h.placed j).slot sl hs), (h.placed j).gate,
      (h.placed j).vacant⟩
  by_cases he : key' = key
  · have hn : s.next = sl := by simpa [he] using hs
    exact hn ▸ lt_succ_self _
  · exact lt_succ_of_lt (h.live key' sl ((update_of_ne he _ _).symm.trans hs))

section

variable (h : Moved s i outcome s')
include h

theorem Moved.call_of_ne (hj : j ≠ i) : s'.call j = s.call j := by
  cases h <;> exact call_goto_of_ne _ hj

theorem Moved.call : Call.Next i (s.call i) outcome (s'.call i) := by
  cases h <;> rw [call_goto_self, ‹s.call i = _›] <;> constructor

theorem Moved.cell : (∀ key slot v, s.call i ≠ .publish key slot v) ∧ s'.cell = s.cell ∨
      ∃ key slot v, s.call i = .publish key slot v ∧
        s'.cell = update s.cell slot (some ((s.cell slot).getD (i, v))) := by
  cases h with
  | publish hc => exact .inr ⟨_, _, _, hc, rfl⟩
  | _ => exact .inl ⟨by simp [*], rfl⟩

theorem Moved.live :
    s'.live = s.live ∧ s'.next = s.next ∨ (∃ key, s.call i = .enter key ∧ s.live key = none ∧
        s'.live = update s.live key (some s.next) ∧ s'.next = s.next + 1) ∨
      ∃ key slot e, s.call i = .evict key slot e ∧ s.live key = some slot ∧
        s'.live = update s.live key none ∧ s'.next = s.next := by
  cases h with
  | install hc hl => exact .inr (.inl ⟨_, hc, hl, rfl, rfl⟩)
  | @evict key slot e _ hc =>
    by_cases hl : s.live key = some slot
    · exact .inr (.inr ⟨key, slot, e, hc, hl, if_pos hl, rfl⟩)
    · exact .inl ⟨if_neg hl, rfl⟩
  | _ => exact .inl ⟨rfl, rfl⟩

end

theorem live_of_update_none {live : K → Option ℕ} {key key' : K} {slot : ℕ}
    (h : update live key none key' = some slot) : live key' = some slot := by
  by_cases he : key' = key
  · simp [he] at h
  · rwa [update_of_ne he] at h

theorem Inv.moved (h : Inv s) (hm : Moved s i outcome s') : Inv s' := by
  cases hm with
  | @join key slot _ hc hl =>
    exact h.goto ⟨fun sl hs => some.inj hs ▸ h.live key slot hl,
      fun sl hs => (by cases hs), fun sl hs => (by cases hs)⟩
  | install hc hl => exact h.install _
  | hit hc hce | refuse hc => exact h.goto (placed_of_slot_none rfl)
  | miss hc => exact h.stay (by rw [hc]; rfl) (.inl rfl) (.inl rfl)
  | lock hc hg => exact h.lock hc hg
  | found hc hce | orphan hc => exact h.stay (by rw [hc]; rfl) (.inr (by rw [hc]; rfl)) (.inl rfl)
  | @empty key slot _ hc hce =>
    have hh : (s.call i).held = some slot := by rw [hc]; rfl
    exact h.goto ⟨fun sl hs => some.inj hs ▸ (h.placed i).slot slot (slot_of_held hh),
      fun sl hs => some.inj hs ▸ (h.placed i).gate slot hh,
      fun sl hs => some.inj hs ▸ hce⟩
  | confirm hc hl | mint hc | minted hc | fail hc =>
    exact h.stay (by rw [hc]; rfl) (.inr (by rw [hc]; rfl)) (.inr (by rw [hc]; rfl))
  | @panic key slot hc =>
    have hpo : Inv { s with poisoned := update s.poisoned slot true } :=
      { h with }
    exact hpo.unlock (show (s.call i).held = some slot by rw [hc]; rfl) rfl
  | publish hc => exact h.publish hc
  | @evict key slot e _ hc =>
    refine (h.forget fun key' sl hs => ?_).stay (show _ = (s.call i).slot by rw [hc]; rfl)
      (.inr (show _ = (s.call i).held by rw [hc]; rfl)) (.inl rfl)
    split_ifs at hs
    · exact live_of_update_none hs
    · exact hs
  | retry hc | leave hc => exact h.unlock (by rw [hc]; rfl) rfl

theorem Inv.step (h : Inv s) (e : Event K V E) (hs : step s e = some s') : Inv s' := by
  cases e with
  | start i key =>
    simp only [SingleFlight.step] at hs
    split at hs
    · exact some.inj hs ▸ h.goto (placed_of_slot_none rfl)
    · cases hs
  | call i outcome => exact h.moved (getOrTryInit_moved hs)
  | invalidate key => exact some.inj hs ▸ h.forget fun _ _ => live_of_update_none
  | clear => exact some.inj hs ▸ h.forget fun _ _ hsl => by cases hsl

end

end TruenasRos.UringFs.SingleFlight
