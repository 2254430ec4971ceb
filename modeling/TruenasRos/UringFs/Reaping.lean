import TruenasRos.UringFs.Hosting

/-! # Completions as ends of tenancies

A completion whose token does not name a tenant changes nothing. One that does ends the
tenancy, gives the count of a wall-clock hold back, or moves it to the guard that is still in
flight, and at most marks the other op of its pair.
-/

namespace TruenasRos.UringFs

open FsCore Option Slots Uring WallClock FsOpEntry

variable {κ : Type} {core core₁ core₂ : FsCore κ} {slot g gen32 : ℕ} {x : FsSlot κ}
variable {e : FsOpEntry κ} {tag : Tag} {o : Conn} {t : WallClock} {done : Completed κ} {res : ℤ}
  {retired : Bool} {P : κ → FsOpEntry κ → Prop}

/-- One tenancy ends, and what follows is a run of moves. -/
structure Reaps (P : κ → FsOpEntry κ → Prop) (core : FsCore κ) (slot : ℕ) (e : FsOpEntry κ)
    (core₁ : FsCore κ) : Prop where
  reap : ∃ core₂ : FsCore κ, Reap core.view slot e core₂.view ∧
    core₂.timer_cap = core.timer_cap ∧ core₂.faults = core.faults ∧ Hosts P core₂ [] core₁

theorem Reaps.of_reap (hr : Reap core.view slot e core₁.view)
    (hc : core₁.timer_cap = core.timer_cap) (hf : core₁.faults = core.faults) :
    Reaps P core slot e core₁ :=
  ⟨core₁, hr, hc, hf, .of_same ⟨rfl, rfl, rfl⟩⟩

section

variable (h : Reaps P core slot e core₁)
include h

theorem Reaps.trans (h' : Hosts P core₁ [] core₂) : Reaps P core slot e core₂ := by
  obtain ⟨core₃, hr, hc, hf, hh⟩ := h.reap
  exact ⟨core₃, hr, hc, hf, hh.trans h'⟩

theorem Reaps.cap : core₁.timer_cap = core.timer_cap := by
  obtain ⟨core₃, -, hc, -, hh⟩ := h.reap
  exact hh.cap.trans hc

theorem Reaps.sound (hs : Sound core.timer_cap core.view) :
    Sound core₁.timer_cap core₁.view ∧ core₁.faults = core.faults := by
  obtain ⟨core₃, hr, hc, hf, hh⟩ := h.reap
  exact ⟨hh.sound (hc ▸ hr.sound hs), hh.faults.trans hf⟩

end

theorem clock_of_weight (hs : Sound core.timer_cap core.view) (hslo : core.ops[slot]? = some ⟨g, e⟩)
    (hw : 0 < (e.weight o).armed ∨ 0 < (e.weight o).retiring) :
    core.armed_timers o = some (tally core.ops o) := by
  have hle := weight_le_tally hslo o
  have hpos : 0 < (tally core.ops o).armed ∨ 0 < (tally core.ops o).retiring := by
    dsimp only at hle
    omega
  exact (hs.accounts.clocks o).trans (keep_of_pos hpos)

theorem storeClock_view (ht : core.armed_timers o = some t) (f : WallClock → WallClock) :
    (core.storeClock o (f t)).view =
      { core.view with clocks := core.view.clocks.adjust (some o) f } := by
  simp [view, storeClock, Clocks.adjust, ht, keep]

theorem settle_some {on_guard : Bool} (ht : core.armed_timers o = some t)
    (hpos : 0 < t.half retired) : core.settle (some (o, retired)) on_guard =
      (on_guard, core.storeClock o (
        if on_guard then (t.ended retired).park else t.ended retired)) := by
  simp [settle, ht, debugAssert, decide_eq_true hpos]

theorem vacate_view (core : FsCore κ) (h : core.ops[slot]? = some ⟨g, e⟩) :
    (core.vacate slot).view =
      { core.view with
        ops := core.ops.set slot ⟨g + 1, .new⟩
        op_free := slot :: core.op_free } := by
  simp [view, vacate, modify_eq_set h, clear, FsOpEntry.new]

theorem charged_timeout (e : FsOpEntry κ) : charged .TIMEOUT e = e.owner.map (·, e.retracted) := by
  unfold charged owner
  rcases e.waiter with - | (_ | ⟨_ | o, _, _⟩ | _) <;> rfl

theorem charged_open (e : FsOpEntry κ) :
    charged .OPEN e = if e.guard.isSome then e.owner.map (·, false) else none := by
  unfold charged owner
  rcases e.waiter with - | (_ | ⟨_ | o, _, _⟩ | _) <;> simp [FsWaiter.timerOwner]

theorem charged_of_ne (h₁ : tag ≠ .TIMEOUT) (h₂ : tag ≠ .OPEN) : charged tag e = none := by
  unfold charged
  split
  · exact absurd rfl h₁
  · exact absurd rfl h₂
  · rfl

/-- A token names the tenant of its slot. -/
structure Names (core : FsCore κ) (tag : Tag) (slot gen32 g : ℕ) (e : FsOpEntry κ) : Prop where
  slot : core.ops[slot]? = some ⟨g, e⟩
  gen : g % 2 ^ 32 = gen32
  state : e.state = .InFlight tag

theorem reaps_vacate (hs : core.ops[slot]? = some ⟨g, e⟩) (hsta : e.state = .InFlight tag)
    (hsl : core₁.view = { core.view with clocks := core.view.clocks.settled e })
    (hc : core₁.timer_cap = core.timer_cap) (hf : core₁.faults = core.faults) :
    Reaps P core slot e (core₁.vacate slot) := by
  have ho : core₁.ops = core.ops := congrArg View.ops hsl
  refine .of_reap ?_ hc hf
  rw [vacate_view core₁ (ho ▸ hs), hsl, ho,
    show core₁.op_free = core.op_free from congrArg View.op_free hsl]
  exact .vacate hs hsta

theorem settle_view (ht : core.armed_timers o = some t)
    (hpos : 0 < t.half retired) :
    ∃ core₁, core.settle (some (o, retired)) false = (false, core₁) ∧ core₁.view = { core.view with
        clocks := core.view.clocks.adjust (some o) (·.ended retired) } ∧
      core₁.timer_cap = core.timer_cap ∧ core₁.faults = core.faults :=
  ⟨_, settle_some ht hpos, storeClock_view ht (·.ended retired), rfl, rfl⟩

theorem freeOp_of_not_charged (h : charged tag e = none) : core.freeOp tag slot e =
    match if tag = .OPEN_DEADLINE then e.wall_clock else none with
    | some o => (core.vacate slot).releaseRetiring o
    | none => core.vacate slot := by
  unfold freeOp
  rw [h]
  rfl

theorem guardInFlight_iff {gslot gg : ℕ} : core.guardInFlight (gslot, gg) = true ↔
    ∃ ge, core.ops[gslot]? = some ⟨gg, ge⟩ ∧ ge.state = .InFlight .OPEN_DEADLINE := by
  rw [guardInFlight]
  rcases core.ops[gslot]? with - | ⟨gen, ge⟩
  · simp
  · simp only [any_some, decide_eq_true_eq, some.injEq, SlotEntry.mk.injEq]
    constructor
    · rintro ⟨rfl, hs⟩
      exact ⟨ge, ⟨rfl, rfl⟩, hs⟩
    · rintro ⟨_, ⟨rfl, rfl⟩, hs⟩
      exact ⟨rfl, hs⟩

section

variable (hs : Sound core.timer_cap core.view) (hslo : core.ops[slot]? = some ⟨g, e⟩)
include hs hslo

theorem freeOp_timeout (hsta : e.state = .InFlight .TIMEOUT) :
    Reaps P core slot e (core.freeOp .TIMEOUT slot e) := by
  have hsl : core.view.clocks.settled e =
      core.view.clocks.adjust e.owner (·.ended e.retracted) := by
    rw [Clocks.settled, hsta]
  simp only [freeOp, charged_timeout]
  cases ho : e.owner with
  | none => exact reaps_vacate hslo hsta (by rw [hsl, ho]; rfl) rfl rfl
  | some o =>
    have hle := weight_le_tally hslo o
    have hw := weight_timer hsta (o := o)
    rw [if_pos ho] at hw
    have hcl := clock_of_weight hs hslo (by rw [hw]; split_ifs <;> simp)
    have hpos : 0 < (tally core.ops o).half e.retracted := by
      rw [hw] at hle
      rw [half]
      split_ifs with hr
      · simp only [hr, if_true] at hle
        exact hle.2
      · simp only [hr, Bool.false_eq_true, if_false] at hle
        exact hle.1
    obtain ⟨core₁, hset, hv, hc, hf⟩ := settle_view hcl hpos
    simp only [map_some, bind_some, reduceCtorEq, if_false, map_none, isSome_none, hset]
    exact reaps_vacate hslo hsta (by rw [hv, hsl, ho]) hc hf

theorem freeOp_open (hsta : e.state = .InFlight .OPEN) :
    Reaps P core slot e (core.freeOp .OPEN slot e) := by
  have hsl : core.view.clocks.settled e =
      if e.guard.isSome then core.view.clocks.adjust e.owner (·.ended false)
      else core.view.clocks := by
    rw [Clocks.settled, hsta]
  simp only [freeOp, charged_open]
  cases hg : e.guard with
  | none => exact reaps_vacate hslo hsta (by rw [hsl, hg]; rfl) rfl rfl
  | some guard =>
    cases ho : e.owner with
    | none => exact reaps_vacate hslo hsta (by rw [hsl, hg, ho]; rfl) rfl rfl
    | some o =>
      have hw : e.weight o = ⟨1, 0⟩ := by simp [weight_eq, hsta, ho, hg]
      have hc := clock_of_weight hs hslo (.inl (by rw [hw]; exact one_pos))
      have hpos : 0 < (tally core.ops o).half false := by
        have hle := weight_le_tally hslo o
        rw [hw] at hle
        exact hle.1
      cases hl : core.guardInFlight guard with
      | false =>
        obtain ⟨core₁, hset, hvi, hcap, hf⟩ := settle_view hc hpos
        simp only [isSome_some, if_true, map_some, bind_some, filter_some, hl, Bool.false_eq_true,
          if_false, map_none, isSome_none, hset, reduceCtorEq]
        exact reaps_vacate hslo hsta (by rw [hvi, hsl, hg, ho]; rfl) hcap hf
      | true =>
        -- the guard outlives its open, and carries the count from here on
        obtain ⟨gslot, gg⟩ := guard
        obtain ⟨ge, hge, hgs⟩ := guardInFlight_iff.1 hl
        have hne : slot ≠ gslot := fun heq => by
          rw [← heq, hslo, some.injEq, SlotEntry.mk.injEq] at hge
          rw [← hge.2, hsta] at hgs
          cases hgs
        simp only [isSome_some, if_true, map_some, bind_some,
          filter_some, hl, settle_some hc hpos, reduceCtorEq, if_false]
        refine .of_reap ?_ rfl rfl
        have hv := vacate_view (core.storeClock o ((tally core.ops o).ended false).park) hslo
        rw [storeClock_view hc fun t => (t.ended false).park] at hv
        rw [park_view _ ((congrArg (·.ops[gslot]?) hv).trans
          ((List.getElem?_set_ne hne).trans hge)), hv]
        have hr := Reap.park (v := core.view) hslo hsta ho hg hge hgs
        rwa [show (vacate _ slot).ops = core.ops.set slot ⟨g + 1, .new⟩ from congrArg View.ops hv]

theorem freeOp_deadline (hsta : e.state = .InFlight .OPEN_DEADLINE) :
    Reaps P core slot e (core.freeOp .OPEN_DEADLINE slot e) := by
  have hsl : core.view.clocks.settled e = core.view.clocks.adjust e.wall_clock (·.releasePark) := by
    rw [Clocks.settled, hsta]
  have hch : charged .OPEN_DEADLINE e = none := charged_of_ne (by simp) (by simp)
  rw [freeOp_of_not_charged hch, if_pos rfl]
  cases hc : e.wall_clock with
  | none => exact reaps_vacate hslo hsta (by rw [hsl, hc]; rfl) rfl rfl
  | some o =>
    have hw : e.weight o = ⟨0, 1⟩ := by simp [weight_eq, hsta, hc]
    have ht := clock_of_weight hs hslo (.inr (by rw [hw]; exact one_pos))
    have hpos : 0 < (tally core.ops o).retiring := by
      have hle := weight_le_tally hslo o
      rw [hw] at hle
      exact hle.2
    have ht' : (core.vacate slot).armed_timers o = some (tally core.ops o) := ht
    simp only [releaseRetiring, ht', debugAssert, decide_eq_true hpos, if_true]
    refine .of_reap ?_ rfl rfl
    rw [storeClock_view ht' releasePark, vacate_view core hslo]
    have hr := Reap.vacate (v := core.view) hslo hsta
    rwa [hsl, hc] at hr

theorem reaps_freeOp
    (hsta : e.state = .InFlight tag) : Reaps P core slot e (core.freeOp tag slot e) := by
  by_cases h₁ : tag = .TIMEOUT
  · subst h₁
    exact freeOp_timeout hs hslo hsta
  by_cases h₂ : tag = .OPEN
  · subst h₂
    exact freeOp_open hs hslo hsta
  by_cases h₃ : tag = .OPEN_DEADLINE
  · subst h₃
    exact freeOp_deadline hs hslo hsta
  have hsl : core.view.clocks.settled e = core.view.clocks := by
    rw [Clocks.settled, hsta]
    split <;> simp_all
  rw [freeOp_of_not_charged (charged_of_ne h₁ h₂), if_neg h₃]
  exact reaps_vacate hslo hsta (by rw [hsl]) rfl rfl

end

theorem takeOp_cases (core : FsCore κ) (tag : Tag) (slot gen32 : ℕ) :
    core.takeOp tag slot gen32 = none ∧ (∀ g e, ¬ Names core tag slot gen32 g e) ∨
      ∃ g e, Names core tag slot gen32 g e ∧
        core.takeOp tag slot gen32 = some (.of e, core.freeOp tag slot e) := by
  rw [takeOp]
  rcases hs : core.ops[slot]? with - | ⟨g, e⟩
  · exact .inl ⟨rfl, fun g e hn => by rw [hn.slot] at hs; cases hs⟩
  by_cases hn : Names core tag slot gen32 g e
  · refine .inr ⟨g, e, hn, ?_⟩
    dsimp only
    rw [if_neg (not_not.2 hn.gen), if_neg (not_not.2 hn.state)]
  · refine .inl ⟨?_, fun g' e' hn' => hn ?_⟩
    · dsimp only
      split_ifs with hg hsta
      · rfl
      · rfl
      · exact absurd ⟨hs, not_not.1 hg, not_not.1 hsta⟩ hn
    · rw [hn'.slot, some.injEq, SlotEntry.mk.injEq] at hs
      exact hs.1 ▸ hs.2 ▸ hn'

theorem onDeadline_cases (hs : Sound core.timer_cap core.view) (slot gen32 : ℕ) (res : ℤ) :
    core.onDeadline slot gen32 res = core ∧ (∀ g e, ¬ Names core .OPEN_DEADLINE slot gen32 g e) ∨
      ∃ g e, Names core .OPEN_DEADLINE slot gen32 g e ∧
        Reaps P core slot e (core.onDeadline slot gen32 res) := by
  rw [onDeadline]
  rcases hslo : core.ops[slot]? with - | ⟨g, e⟩
  · exact .inl ⟨rfl, fun g e hn => by rw [hn.slot] at hslo; cases hslo⟩
  by_cases hn : Names core .OPEN_DEADLINE slot gen32 g e
  · refine .inr ⟨g, e, hn, ?_⟩
    dsimp only
    rw [if_neg (not_or.2 ⟨not_not.2 hn.gen, not_not.2 hn.state⟩)]
    -- the guard is freed as any other op is; only then may its open be cancelled
    have hf : Reaps P core slot e _ := reaps_freeOp hs hslo hn.state
    split
    · split_ifs
      · exact hf.trans (hosts_retractOp _ .OPEN nofun _ _)
      · exact hf
    · exact hf
  · refine .inl ⟨?_, fun g' e' hn' => hn ?_⟩
    · dsimp only
      rw [if_pos]
      by_contra hne
      rw [not_or, not_not, not_not] at hne
      exact hn ⟨hslo, hne.1, hne.2⟩
    · rw [hn'.slot, some.injEq, SlotEntry.mk.injEq] at hslo
      exact hslo.1 ▸ hslo.2 ▸ hn'

def ReapedFs.callback : ReapedFs κ → Option κ
  | Embedded cb _ _ => some cb
  | _ => none

/-- A callback is fired with the outcome that a completion has for its op. -/
def ReapedFs.Own (e : FsOpEntry κ) (tag : Tag) (res : ℤ) (reaped : ReapedFs κ) : Prop :=
  ∀ cb done owner, reaped = .Embedded cb done owner →
    e.callback = some cb ∧ done = (Completed.of e).done tag res

theorem hosts_retireGuard (core : FsCore κ) (guard : Option (ℕ × ℕ)) :
    Hosts P core [] (core.retireGuard guard) := by
  rcases guard with - | ⟨gslot, ggen⟩
  · exact .of_same ⟨rfl, rfl, rfl⟩
  · exact hosts_retractOp core .OPEN_DEADLINE nofun gslot ggen

theorem same_stripGuardNonblock (core : FsCore κ) (completed : Completed κ) (tag : Tag) (res : ℤ) :
    Same core (core.stripGuardNonblock completed tag res) := by
  rw [stripGuardNonblock]
  split_ifs <;> exact ⟨rfl, rfl, rfl⟩

theorem hand_spec (core : FsCore κ) (e : FsOpEntry κ) (tag : Tag) (res : ℤ) :
    Same core (core.hand e.waiter ((Completed.of e).done tag res)).2 ∧
      (core.hand e.waiter ((Completed.of e).done tag res)).1.callback = e.callback ∧
      (core.hand e.waiter ((Completed.of e).done tag res)).1.Own e tag res := by
  rcases hw : e.waiter with - | (reply | ⟨owner, cb, on_fail⟩ | owner)
  on_goal 3 =>
    have hc : e.callback = some cb := by rw [callback, hw]; rfl
    refine ⟨⟨rfl, rfl, rfl⟩, hc.symm, ?_⟩
    rintro _ _ _ ⟨⟩
    exact ⟨hc, rfl⟩
  all_goals exact ⟨⟨rfl, rfl, rfl⟩, by rw [callback, hw]; rfl, by rintro _ _ _ ⟨⟩⟩

/-- A completion that names no tenant changes nothing; the others end a tenancy, and fire the
callback of the op that ended. -/
theorem onCqe_cases (hs : Sound core.timer_cap core.view) (tag : Tag) (slot gen32 : ℕ) (res : ℤ) :
    core.onCqe tag slot gen32 res = (.None, core) ∧
        (tag = .CANCEL ∨ ∀ g e, ¬ Names core tag slot gen32 g e) ∨
      ∃ g e, Names core tag slot gen32 g e ∧ Reaps P core slot e (core.onCqe tag slot gen32 res).2 ∧
        (core.onCqe tag slot gen32 res).1.callback = e.callback ∧
        (core.onCqe tag slot gen32 res).1.Own e tag res := by
  rw [onCqe]
  split_ifs with h₁ h₂
  · exact .inl ⟨rfl, .inl h₁⟩
  · subst h₂
    obtain ⟨heq, hn⟩ | ⟨g, e, hn, hr⟩ := onDeadline_cases hs slot gen32 res
    · exact .inl ⟨by rw [heq], .inr hn⟩
    · -- nobody waits for a guard
      obtain hos | ⟨-, hw⟩ := hs.routed slot _ _ hn.slot hn.state
      · exact absurd rfl hos.1
      · exact .inr ⟨g, e, hn, hr, by rw [callback, hw]; rfl, nofun⟩
  · obtain ⟨heq, hn⟩ | ⟨g, e, hn, heq⟩ := takeOp_cases core tag slot gen32
    · rw [heq]
      exact .inl ⟨rfl, .inr hn⟩
    · rw [heq]
      obtain ⟨hsa, hc, ho⟩ := hand_spec
        (((core.freeOp tag slot e).retireGuard e.guard).stripGuardNonblock
          (.of e) tag res) e tag res
      refine .inr ⟨g, e, hn, (reaps_freeOp hs hn.slot hn.state).trans ?_, hc, ho⟩
      exact (hosts_retireGuard _ _).trans_nil
        (.of_same ((same_stripGuardNonblock _ _ _ _).trans hsa))

theorem same_deliver (core : FsCore κ) (waiter : Option (FsWaiter κ)) (res : Except ℕ ℤ)
    (bufs : List Bytes) (file : Option ℕ) :
    Same core (core.deliver waiter res bufs file) := by
  rcases waiter with - | (reply | ⟨owner, cb, on_fail⟩ | owner) <;> exact ⟨rfl, rfl, rfl⟩

theorem onDrainCqe_cases (hs : Sound core.timer_cap core.view) (user_data : ℕ) (res : ℤ) :
    core.onDrainCqe user_data res = core ∨
      ∃ slot e, Reaps P core slot e (core.onDrainCqe user_data res) := by
  rw [onDrainCqe]
  obtain ⟨byte, slot, gen32⟩ := unpackRaw user_data
  dsimp only
  split
  · exact .inl rfl
  · exact .inl rfl
  · exact .inl rfl
  · rename_i tag _ _ _
    obtain ⟨heq, -⟩ | ⟨g, e, hn, heq⟩ := takeOp_cases core tag slot gen32
    · rw [heq]
      exact .inl rfl
    · rw [heq]
      exact .inr ⟨slot, e,
        (reaps_freeOp hs hn.slot hn.state).trans (.of_same (same_deliver _ _ _ _ _))⟩

end TruenasRos.UringFs
