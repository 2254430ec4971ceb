import TruenasRos.Net.Table

/-! # The count a ring publishes to its spread

A connection is counted when its accept is kept. Its release counts it off by what the slot holds
at that moment, and a connection that was turned away has left the slot empty.
-/

namespace TruenasRos.Net

open List Finset

namespace Slot

variable (s : Slot)

def serves : Bool :=
  match s.state with
  | .Serving _ => true
  | _ => false

end Slot

/-- A server's place in a spread, with the count it publishes there. -/
structure Joined where
  taken : ℕ

def Joined.took (j : Joined) : Joined := ⟨min (j.taken + 1) (2 ^ 32 - 1)⟩

def Joined.gave (j : Joined) : Joined := ⟨j.taken - 1⟩

def Table.active (t : Table) : ℕ := t.slots.countP Slot.serves

/-- A server that has joined a spread. -/
structure Server where
  table : Table
  spread : Joined
  /-- The slots whose connections were kept since the server joined, and that are not released. -/
  kept : Finset ℕ

def joinSpread (t : Table) : Server := ⟨t, ⟨t.active⟩, ∅⟩

namespace Server

/-- A server joins before it serves. -/
def join (pool_size : UInt32) : Server := joinSpread (Table.new pool_size.toNat)

variable (cfg : CoreConfig)

/-- `free_slot` looks at what the slot holds. -/
def account (r : Server) (i : ℕ) (s : Slot) (e : SlotEvent) : Server :=
  if Slot.keeps r.table.draining e then
    { r with spread := r.spread.took, kept := insert i r.kept }
  else if s.frees cfg e then
    { r with
      spread := if s.isEmpty then r.spread else r.spread.gave
      kept := r.kept.erase i }
  else r

def dispatch (r : Server) : TableEvent → Server
  | .slot i e =>
    match r.table.slots[i]? with
    | some s => if s.enabled e then r.account cfg i s e else r
    | none => r
  | .beginDrain | .stop => r

def step (r : Server) (e : TableEvent) : Server :=
  { r.dispatch cfg e with table := r.table.step cfg e }

/-- The event releases a slot whose connection was kept, and which holds nothing any more. -/
def Forgets (r : Server) : TableEvent → Prop
  | .slot i e => ∃ s, r.table.slots[i]? = some s ∧ s.enabled e = true ∧ s.frees cfg e = true ∧
      s.isEmpty = true ∧ i ∈ r.kept
  | .beginDrain | .stop => False

end Server

namespace Server

variable {cfg : CoreConfig} {r : Server} {e : TableEvent}

structure Sound (r : Server) : Prop where
  size : r.table.slots.length < 2 ^ 32
  slots : ∀ i, (r.table.slots[i]?.getD ({} : Slot)).Sound (i ∈ r.kept)

theorem mem_account {i j : ℕ} {s : Slot} {e : SlotEvent} : j ∈ (r.account cfg i s e).kept ↔
    j ≠ i ∧ j ∈ r.kept ∨ j = i ∧
      (Slot.keeps r.table.draining e = true ∨ i ∈ r.kept ∧ s.frees cfg e = false) := by
  unfold account
  split
  · simp_all
    grind
  · split <;> simp_all
    grind

theorem mem_dispatch_of_ne {i j : ℕ} {e : SlotEvent} (hne : i ≠ j) :
    j ∈ (r.dispatch cfg (.slot i e)).kept ↔ j ∈ r.kept := by
  simp only [dispatch]
  repeat' split
  all_goals simp [mem_account, hne.symm]

section

variable (h : r.Sound)
include h

theorem Sound.sweep {f : Slot → Slot} (hf : ∀ k s, s.Sound k → (f s).Sound k)
    (hnew : f {} = {}) (draining : Bool) :
    Sound { r with table := ⟨r.table.slots.map f, draining⟩ } := by
  refine ⟨(length_map ..).trans_lt h.size, fun i => ?_⟩
  have hi := hf _ _ (h.slots i)
  rw [← Option.getD_map f, hnew] at hi
  simpa using hi

theorem Sound.step (e : TableEvent) : (r.step cfg e).Sound := by
  cases e with
  | slot i e =>
    refine ⟨(length_modify ..).trans_lt h.size, fun j => ?_⟩
    have hj := h.slots j
    simp only [Server.step, Table.step, getElem?_modify]
    by_cases hij : i = j
    · subst hij
      cases hs : r.table.slots[i]? with
      | none => simpa [dispatch, hs] using hj
      | some s =>
        rw [hs] at hj
        by_cases he : s.enabled e = true
        · simpa [dispatch, hs, he, mem_account, Slot.step] using hj.handle he
        · simpa [dispatch, hs, he, Slot.step] using hj
    · simpa [mem_dispatch_of_ne hij, hij] using hj
  | beginDrain =>
    simp only [Server.step, dispatch, Table.step]
    split
    · exact h
    · exact h.sweep (fun _ _ hk => hk.beginDrain) rfl true
  | stop => exact h.sweep (fun _ _ hk => hk.stop) rfl r.table.draining

theorem Sound.lt_length {i : ℕ} (hi : i ∈ r.kept) : i < r.table.slots.length := by
  by_contra hn
  have hh := ((h.slots i).held hi).1
  rw [getElem?_eq_none (by omega)] at hh
  cases hh

theorem Sound.card_le {i : ℕ} (hi : i < r.table.slots.length) :
    (insert i r.kept).card ≤ r.table.slots.length := by
  have hsub : insert i r.kept ⊆ Finset.range r.table.slots.length := by
    apply Finset.insert_subset (Finset.mem_range.2 hi)
    exact fun j hj => Finset.mem_range.2 (h.lt_length hj)
  simpa using Finset.card_le_card hsub

theorem exact_account (hx : r.spread.taken = r.kept.card) {i : ℕ} {s : Slot}
    {e : SlotEvent} (hs : r.table.slots[i]? = some s) (he : s.enabled e = true) :
    (r.account cfg i s e).spread.taken = (r.account cfg i s e).kept.card ↔
      ¬(s.frees cfg e = true ∧ s.isEmpty = true ∧ i ∈ r.kept) := by
  have hi := h.slots i
  rw [hs] at hi
  unfold account
  split
  · rename_i hk
    have hni : i ∉ r.kept := hi.not_kept he hk
    have hle := h.card_le (List.getElem?_eq_some_iff.1 hs).1
    have hlt := h.size
    rw [card_insert_of_notMem hni] at hle ⊢
    simp only [Joined.took, hx, hni, and_false, not_false_eq_true, iff_true]
    omega
  · split
    · rename_i hf
      by_cases hk : i ∈ r.kept
      · have hpos := card_pos.2 ⟨i, hk⟩
        rw [card_erase_of_mem hk]
        cases hem : s.isEmpty <;> simp [hf, hk, hx, Joined.gave]
        omega
      · have hem : s.isEmpty = true := by
          by_contra hem
          exact hk (hi.filled (by simpa using hem))
        simp [hem, hk, hx]
    · next hf => simp [hf, hx]

theorem exact_step (hx : r.spread.taken = r.kept.card) :
    (r.step cfg e).spread.taken = (r.step cfg e).kept.card ↔ ¬r.Forgets cfg e := by
  cases e with
  | slot i e =>
    cases hs : r.table.slots[i]? with
    | none => simp [step, dispatch, hs, Forgets, hx]
    | some s =>
      by_cases he : s.enabled e = true
      · simpa [step, dispatch, hs, he, Forgets] using exact_account h hx hs he
      · simp [step, dispatch, hs, Forgets, hx, he]
  | beginDrain | stop => simp [step, dispatch, Forgets, hx]

end

theorem sound_join (pool_size : UInt32) : (join pool_size).Sound := by
  refine ⟨by simpa [join, joinSpread, Table.new] using pool_size.toNat_lt, fun i => ?_⟩
  have hnew : ((Table.new pool_size.toNat).slots[i]?).getD {} = {} := by
    simp only [Table.new, getElem?_replicate]
    split <;> rfl
  simp only [join, joinSpread, hnew]
  exact ⟨⟨rfl, by simp⟩, .free (by simp)⟩

end Server

variable (cfg : CoreConfig) (pool_size : UInt32) (es : List TableEvent)

theorem Server.sound_run : (Steps.run (step cfg) (join pool_size) es).Sound :=
  Steps.invariant (sound_join pool_size) (fun _ e h => h.step e) es

/-- The count is exact all along exactly if no connection that was kept is turned away and its
slot released, and when every slot has been released there is none to count. -/
theorem taken_exact_iff : (Steps.Throughout (Server.step cfg)
      (fun r => r.spread.taken = (Server.join pool_size).spread.taken + r.kept.card)
      (Server.join pool_size) es ↔
        Steps.Free (Server.step cfg) (Server.Forgets cfg) (Server.join pool_size) es) ∧
    ((∀ s ∈ (Steps.run (Server.step cfg) (Server.join pool_size) es).table.slots,
        s.held = false) →
      (Steps.run (Server.step cfg) (Server.join pool_size) es).kept = ∅) := by
  have hzero : (Server.join pool_size).spread.taken = 0 := by
    simp [Server.join, joinSpread, Table.active, Table.new, Slot.serves]
  constructor
  · simp only [hzero, zero_add]
    exact Steps.throughout_iff_free (I := Server.Sound) (fun _ e h _ _ => h.step e)
      (fun _ _ h hx => Server.exact_step h hx) (Server.sound_join pool_size) hzero es
  · intro hall
    have h := Server.sound_run cfg pool_size es
    refine eq_empty_of_forall_notMem fun i hi => ?_
    have hlt := h.lt_length hi
    have hh := ((h.slots i).held hi).1
    rw [getElem?_eq_getElem hlt] at hh
    exact Bool.false_ne_true ((hall _ (getElem_mem hlt)).symm.trans hh)

/-- A peer whose address cannot be fetched is counted for good. -/
theorem taken_after_failed_fetch : ∃ es,
    (Steps.run (Server.step Reactor.readAhead) (Server.join 1) es).spread.taken = 1 ∧
      (Steps.run (Server.step Reactor.readAhead) (Server.join 1) es).kept = ∅ ∧
        (Server.join 1).spread.taken = 0 := by
  refine ⟨[.slot 0 (.accept ⟨true, false, .fetched, true⟩), .slot 0 (.peerFetch false true),
    .slot 0 .shutdown, .slot 0 .closed], ?_⟩
  decide

end TruenasRos.Net
