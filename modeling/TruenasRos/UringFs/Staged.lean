import TruenasRos.UringFs.Reaping

/-! # Tokens on the ring

The ops the ring has taken are the tenants of the table, each under its own token. A callback
that is taken in waits on the ring or in the queue of refusals, and a slot's generation grows
with every tenant.
-/

namespace TruenasRos.UringFs

open List Slots Uring

variable {κ : Type} {cap : Option ℕ} {v v₁ : View κ} {cbs : List κ} {slot g : ℕ}
variable {e e₁ : FsOpEntry κ} {sqe : Sqe κ} {tag : Tag} {P : κ → FsOpEntry κ → Prop}

def token (i : ℕ) (x : FsSlot κ) : Option (Sqe κ) :=
  match x.state.state with
  | .Free => none
  | .InFlight tag => some (FsCore.opSqe tag i x.generation x.state.callback)

/-- The ring holds the submissions of the tenants, each once. -/
def Staged (v : View κ) : Prop := v.ring.Perm (roster token v.ops)

def View.pending (v : View κ) : List κ := v.ring.filterMap (·.tenant)

/-- A tenant is the one it was. -/
def FsOpEntry.Stays (e e₁ : FsOpEntry κ) : Prop :=
  e.state ≠ .Free → e₁.state = e.state ∧ e₁.waiter = e.waiter

theorem FsOpEntry.Stays.refl (e : FsOpEntry κ) : e.Stays e := fun _ => ⟨rfl, rfl⟩

theorem FsOpEntry.Stays.trans (e e₁ e₂ : FsOpEntry κ) (h : e.Stays e₁) (h₁ : e₁.Stays e₂) :
    e.Stays e₂ := fun he => by
  obtain ⟨hs, hw⟩ := h he
  obtain ⟨hs₁, hw₁⟩ := h₁ (hs ▸ he)
  exact ⟨hs₁.trans hs, hw₁.trans hw⟩

theorem token_of_state (h : e.state = .InFlight tag) :
    token slot ⟨g, e⟩ = some (FsCore.opSqe tag slot g e.callback) := by
  simp [token, h]

variable {ops : List (FsSlot κ)}

theorem slot_ne {i j : ℕ} {x y : FsSlot κ} (hx : ops[i]? = some x)
    (hy : ops[j]? = some y) (h : x.state.state ≠ y.state.state) : i ≠ j := fun hij => by
  rw [hij, hy, Option.some.injEq] at hx
  exact h (by rw [hx])

theorem Staged.occupy {ring : List (Sqe κ)} (h : ring.Perm (roster token ops))
    (hslo : ops[slot]? = some ⟨g, .new⟩) (hsta : e.state = .InFlight tag) :
    (ring ++ [FsCore.opSqe tag slot g e.callback]).Perm (roster token (ops.set slot ⟨g, e⟩)) := by
  have hs := roster_set (f := token) (y := ⟨g, e⟩) hslo
  rw [token_of_state hsta] at hs
  exact (perm_append_singleton _ _).trans ((h.cons _).trans hs.symm)

theorem Move.staged (hm : Move P cap v cbs v₁) (h : Staged v) : Staged v₁ := by
  cases hm with
  | refuse cb => exact h
  | bounce hf hs => exact List.Perm.trans h (roster_set_of_eq hs (by rfl)).symm
  | host hf hs he ht hr _ => exact Staged.occupy h hs he.state
  | guard hs he hf hg hr =>
    have hne := slot_ne hg hs (he.state ▸ nofun)
    exact (Staged.occupy h hg (e := .guarding _ _) rfl).trans
      (roster_set_of_eq ((getElem?_set_ne hne).trans hs) (by rfl)).symm
  | mark hs hsta ht | retract hs hsta hma =>
    exact List.Perm.trans h (roster_set_of_eq hs (by rfl)).symm

theorem Moves.staged (hm : Moves P cap v cbs v₁) (h : Staged v) : Staged v₁ := by
  induction hm with
  | refl => exact h
  | head hm _ ih => exact ih (hm.staged h)

theorem Reap.staged (hr : Reap v slot e v₁) (hs : v.ops[slot]? = some ⟨g, e⟩)
    (ht : token slot ⟨g, e⟩ = some sqe) (h : (sqe :: v.ring).Perm (roster token v.ops)) :
    Staged v₁ := by
  have hg : v.ring.Perm (roster token (v.ops.set slot ⟨g + 1, .new⟩)) := by
    have hset := roster_set (f := token) (y := ⟨g + 1, .new⟩) hs
    rw [ht] at hset
    exact ((h.trans hset.symm).cons_inv)
  cases hr with
  | vacate hs' hsta =>
    rw [hs, Option.some.injEq, SlotEntry.mk.injEq] at hs'
    exact hs'.1 ▸ hg
  | park hs' hsta ho hgu hl hge =>
    rw [hs, Option.some.injEq, SlotEntry.mk.injEq] at hs'
    have hne := slot_ne hs hl (hsta ▸ hge ▸ nofun)
    exact List.Perm.trans (hs'.1 ▸ hg)
      (roster_set_of_eq ((getElem?_set_ne hne).trans hl) (by rfl)).symm

theorem Move.ledger (hm : Move P cap v cbs v₁) :
    (v₁.pending ++ v₁.queue).Perm (v.pending ++ v.queue ++ cbs) := by
  have htk : ∀ (ring : List (Sqe κ)) tag slot g (cb : Option κ), filterMap (·.tenant)
      (ring ++ [FsCore.opSqe tag slot g cb]) = filterMap (·.tenant) ring ++ cb.toList := by
    rintro ring tag slot g (_ | cb) <;> simp [FsCore.opSqe]
  cases hm with
  | refuse cb | bounce hf hs | mark hs hsta ht | retract hs hsta hma => simp [View.pending]
  | host hf hs he ht hr _ =>
    simp only [View.pending, htk, append_assoc]
    exact perm_append_comm.append_left _
  | guard hs he hf hg hr => simp [View.pending, FsCore.opSqe]

theorem Moves.ledger (hm : Moves P cap v cbs v₁) :
    (v₁.pending ++ v₁.queue).Perm (v.pending ++ v.queue ++ cbs) := by
  induction hm with
  | refl => simp
  | head hm _ ih =>
    rw [← append_assoc]
    exact ih.trans (hm.ledger.append_right _)

theorem Reap.ring_queue (hr : Reap v slot e v₁) : v₁.ring = v.ring ∧ v₁.queue = v.queue := by
  cases hr <;> exact ⟨rfl, rfl⟩

/-- Every tenant is as `P` says of its callback. -/
def Tells (P : κ → FsOpEntry κ → Prop) (ops : List (FsSlot κ)) : Prop :=
  ∀ (i : ℕ) (x : FsSlot κ), ops[i]? = some x → x.state.Tells P

theorem Tells.set (h : Tells P ops) (he : e.Tells P) : Tells P (ops.set slot ⟨g, e⟩) := by
  intro i x hx
  rcases getElem?_set_cases hx with ⟨rfl, rfl⟩ | hx
  · exact he
  · exact h i x hx

section

variable (hP : ∀ cb e retracted guard wall_clock, P cb e →
  P cb { e with retracted, guard, wall_clock })
include hP

theorem Moves.tells (hm : Moves P cap v cbs v₁) (h : Tells P v.ops) : Tells P v₁.ops := by
  induction hm with
  | refl => exact h
  | head hm _ ih =>
    apply ih
    cases hm with
    | refuse cb => exact h
    | bounce hf hs => exact h.set (tells_of_silent rfl)
    | host hf hs he ht hr hsa => exact h.set hsa
    | guard hs he hf hg hr =>
      exact (h.set (tells_of_silent rfl)).set fun cb hc => hP _ _ _ _ _ (h _ _ hs cb hc)
    | mark hs hsta ht | retract hs hsta hma =>
      exact h.set fun cb hc => hP _ _ true _ _ (h _ _ hs cb hc)

theorem Reap.tells (hr : Reap v slot e v₁) (h : Tells P v.ops) : Tells P v₁.ops := by
  cases hr with
  | vacate hs hsta => exact h.set (tells_of_silent rfl)
  | park hs hsta ho hg hl hge =>
    exact (h.set (tells_of_silent rfl)).set fun cb hc => hP _ _ _ _ _ (h _ _ hl cb hc)

end

/-- The table has moved on: no tenant has given its slot on under its generation. -/
abbrev Onward (ops ops₁ : List (FsSlot κ)) : Prop :=
  Later FsOpEntry.Stays ops ops₁

theorem Onward.trans {ops₁ ops₂ : List (FsSlot κ)} (h : Onward ops ops₁)
    (h₁ : Onward ops₁ ops₂) : Onward ops ops₂ :=
  Later.trans FsOpEntry.Stays.trans h h₁

theorem onward_vacate (h : ops[slot]? = some ⟨g, e⟩) : Onward ops (ops.set slot ⟨g + 1, e₁⟩) :=
  Later.set .refl h (.inl (Nat.lt_succ_self g))

theorem onward_update (h : ops[slot]? = some ⟨g, e⟩) (hs : e.Stays e₁) :
    Onward ops (ops.set slot ⟨g, e₁⟩) :=
  Later.set .refl h (.inr ⟨rfl, hs⟩)

theorem Move.later (hm : Move P cap v cbs v₁) : Onward v.ops v₁.ops := by
  cases hm with
  | refuse cb => exact Later.refl .refl _
  | bounce hf hs => exact onward_vacate hs
  | host hf hs he ht hr _ => exact onward_update hs fun h => absurd rfl h
  | guard hs he hf hg hr =>
    have hne := slot_ne hg hs (he.state ▸ nofun)
    exact (onward_update hg fun h => absurd rfl h).trans
      (onward_update ((getElem?_set_ne hne).trans hs) fun _ => ⟨rfl, rfl⟩)
  | mark hs hsta ht | retract hs hsta hma => exact onward_update hs fun _ => ⟨rfl, rfl⟩

theorem Moves.later (hm : Moves P cap v cbs v₁) : Onward v.ops v₁.ops := by
  induction hm with
  | refl => exact Later.refl .refl _
  | head hm _ ih => exact hm.later.trans ih

theorem Reap.later (hr : Reap v slot e v₁) : Onward v.ops v₁.ops := by
  cases hr with
  | vacate hs hsta => exact onward_vacate hs
  | park hs hsta ho hg hl hge =>
    have hne := slot_ne hs hl (hsta ▸ hge ▸ nofun)
    exact (onward_vacate hs).trans
      (onward_update ((getElem?_set_ne hne).trans hl) fun _ => ⟨rfl, rfl⟩)

end TruenasRos.UringFs
