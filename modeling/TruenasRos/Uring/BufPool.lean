import TruenasRos.Lib.Runs
import TruenasRos.Uring.BufRing

/-! # The sizing of a buffer pool

A pool grows its ring when buffers run short and lets it shrink when they lie idle. An id
that leaves the ring keeps its storage on top of the stack of absent ids, so storage is
only asked for when no absent id has any, and the pool never holds more than its cap.
-/

namespace TruenasRos.Uring

open List BufRing Option

def POOL_INITIAL : ℕ := 8

def SHRINK_AFTER : ℕ := 4

/-- A second, in nanoseconds. -/
def IDLE_ROUND : ℕ := 10 ^ 9

structure PoolSizing where
  initial_bytes : ℕ
  max_step_bytes : ℕ
  max_bytes : Option ℕ

structure BufPool where
  ring : BufRing
  limit : ℕ
  max_step : ℕ
  idle_rounds : ℕ
  marked : ℕ

/-- How many buffers so many bytes buy, as a word. -/
def buffers (buf_len bytes : ℕ) : ℕ := min (bytes / max buf_len 1) (2 ^ 16 - 1)

def PoolSizing.limit (sizing : PoolSizing) (buf_len entries : ℕ) : ℕ :=
  max 1 (sizing.max_bytes.elim entries fun b => min (buffers buf_len b) entries)

namespace BufPool

def new (refused : Option Errno) (buf_len entries : ℕ) (sizing : PoolSizing) (now : ℕ)
    (alloc : Alloc) : Except Errno (Option BufPool) :=
  let limit := sizing.limit buf_len entries
  let initial := min (max (buffers buf_len sizing.initial_bytes) POOL_INITIAL) limit
  (BufRing.new refused limit buf_len initial alloc).map fun ring => ring.map
    (⟨·, limit, max 1 (buffers buf_len sizing.max_step_bytes), 0, now⟩)

variable (p : BufPool)

def stepped (base : ℕ) : ℕ :=
  min (min (base + min (max base 1) p.max_step) (2 ^ 16 - 1)) p.limit

def aim (want : ℕ) (alloc : Alloc) : Option BufPool :=
  (p.ring.setTarget want alloc).map fun ring => { p with ring }

def growAhead (alloc : Alloc) : Option BufPool :=
  if p.ring.allocated < p.ring.posted * 4 ∨ p.limit ≤ max p.ring.target p.ring.allocated then some p
  else aim { p with idle_rounds := 0 } (p.stepped (max p.ring.target p.ring.allocated)) alloc

def takeLent (bid : ℕ) (alloc : Alloc) : Option (BufPool × Option (ℕ × ℕ)) :=
  match p.ring.takeLent bid with
  | (ring, none) => some ({ p with ring }, none)
  | (ring, some ptr) => (growAhead { p with ring } alloc).map (·, some (ptr, ring.buf_len))

def release (bid : ℕ) (alloc : Alloc) : Option BufPool :=
  (p.ring.release bid alloc).map fun ring => { p with ring }

def grow (armed : ℕ) (alloc : Alloc) : Option (BufPool × Bool) :=
  if armed < p.ring.posted then some ({ p with idle_rounds := 0 }, true)
  else if p.limit ≤ max p.ring.target p.ring.allocated then
    some ({ p with idle_rounds := 0 }, false)
  else
    (aim { p with idle_rounds := 0 } (p.stepped (max p.ring.target p.ring.allocated)) alloc).map
      fun p' => (p', p.ring.allocated < p'.ring.allocated)

def rebalanceAt (now : ℕ) (alloc : Alloc) : Option BufPool :=
  match p.ring.takePeak with
  | (ring, peak) =>
    if 0 < peak then some { p with ring, idle_rounds := 0, marked := now }
    else if now - p.marked < IDLE_ROUND then some { p with ring }
    else if min (p.idle_rounds + 1) (2 ^ 8 - 1) < SHRINK_AFTER then
      some { p with ring, idle_rounds := min (p.idle_rounds + 1) (2 ^ 8 - 1), marked := now }
    else if max 1 (ring.target / 2) < ring.target then
      aim { p with ring := ring.trim, idle_rounds := 0, marked := now } (max 1 (ring.target / 2))
        alloc
    else some { p with ring := ring.trim, idle_rounds := 0, marked := now }

/-- A call, with what the allocator answers while it runs. -/
inductive Call
  | takeLent (bid : ℕ) (alloc : Alloc)
  | release (bid : ℕ) (alloc : Alloc)
  | grow (armed : ℕ) (alloc : Alloc)
  | growAhead (alloc : Alloc)
  | rebalanceAt (now : ℕ) (alloc : Alloc)

def step : Call → Option BufPool
  | .takeLent bid alloc => (p.takeLent bid alloc).map Prod.fst
  | .release bid alloc => p.release bid alloc
  | .grow armed alloc => (p.grow armed alloc).map Prod.fst
  | .growAhead alloc => p.growAhead alloc
  | .rebalanceAt now alloc => p.rebalanceAt now alloc

end BufPool

/-- How many ids have storage, in the ring or out of it. -/
def BufRing.stored (r : BufRing) : ℕ := r.bufs.countP Option.isSome

/-- No more than `lim` ids have storage, and the absent ones that do lie on top. -/
structure Stock (lim len : ℕ) (r : BufRing) : Prop extends Table r where
  target_le : r.target ≤ lim
  stored_le : r.stored ≤ lim
  top : r.absent.Pairwise fun a b => (r.addrOf b).isSome → (r.addrOf a).isSome
  buf_len : r.buf_len = len

variable {r : BufRing} {lim len bid want : ℕ} {p : BufPool}

theorem countP_live (slots : List Slot) :
    slots.countP (· != .absent) = slots.count Slot.posted + slots.count Slot.lent := by
  induction slots with
  | nil => rfl
  | cons s slots ih => cases s <;> simp <;> omega

/-- If no absent id has storage, the ids that have are those posted and lent. -/
theorem Table.stored_eq (h : Table r) (hn : ∀ b ∈ r.absent, r.addrOf b = none) :
    r.stored = r.allocated := by
  have hb : r.bufs.map isSome = r.slots.map (· != .absent) := by
    apply ext_getElem?
    intro b
    rw [getElem?_map, getElem?_map]
    cases hs : r.slots[b]? with
    | none =>
      rw [h.bufs_none hs]
      rfl
    | some s =>
      have hbu := getElem?_eq_getElem (h.lt_bufs hs)
      cases s with
      | absent =>
        have hno := hn b ((h.absent b).2 hs)
        rw [addrOf, hbu, join_some] at hno
        rw [hbu, hno]
        rfl
      | posted | lent =>
        obtain ⟨addr, ha⟩ := h.storage b (by simp [hs])
        rw [ha]
        rfl
  have hle := h.posted_add_lent_le
  have he := h.entries_le
  have hc := @countP_map _ _ id isSome r.bufs
  rw [hb, countP_map] at hc
  rw [stored, ← Function.id_comp isSome, ← hc, Function.id_comp, countP_live,
    ← h.posted, ← h.lent, allocated, Nat.mod_eq_of_lt (by omega)]

theorem stored_describe (hb : bid < r.bufs.length) (addr : ℕ) :
    (r.describe bid addr).stored = r.stored + if (r.addrOf bid).isSome then 0 else 1 := by
  have hj : r.addrOf bid = r.bufs[bid] := by
    rw [addrOf, getElem?_eq_getElem hb, join_some]
  have hc : (r.describe bid addr).stored =
      r.stored - (if r.bufs[bid].isSome then 1 else 0) + 1 := countP_set hb
  rw [hc, hj]
  split_ifs with hs
  · have hpos : 0 < r.stored := countP_pos_iff.2 ⟨_, getElem_mem hb, hs⟩
    omega
  · rfl

theorem Stock.describe (h : Stock lim len { r with absent := bid :: r.absent })
    (hl : Limbo r bid) (hs : (r.addrOf bid).isSome ∨ r.stored < lim) (addr : ℕ) :
    Stock lim len (r.describe bid addr) where
  toTable := hl.describe addr
  target_le := h.target_le
  stored_le := by
    rw [stored_describe (hl.lt_bufs hl.limbo)]
    split_ifs with ha
    · exact h.stored_le
    · exact hs.resolve_left ha
  top := by
    have ho : ∀ b ∈ r.absent, (r.describe bid addr).addrOf b = r.addrOf b := by
      intro b hm
      have hne : bid ≠ b := fun he => ((hl.absent b).1 hm).2 he.symm
      simp [BufRing.addrOf, BufRing.describe, getElem?_set_ne hne]
    refine (pairwise_cons.1 h.top).2.imp_of_mem fun ha hb hab => ?_
    rw [ho _ ha, ho _ hb]
    exact hab
  buf_len := h.buf_len

theorem Stock.setTarget (h : Stock lim len (r.aimed want)) (alloc : Alloc) :
    ∃ r', r.setTarget want alloc = some r' ∧ Stock lim len r' := by
  obtain ⟨r', -, hs, heq | ⟨heq, -⟩⟩ := h.toTable.setTarget
    (fun r bid rest addr ht hlt ha h => by
      have hb : { r with absent := bid :: rest } = r := by rw [← ha]
      refine Stock.describe (hb ▸ h) (ht.pop ha) ?_ addr
      have hto := h.top
      rw [ha, pairwise_cons] at hto
      -- no storage on top of the stack: there is none below either
      by_cases hb : (r.addrOf bid).isSome
      · exact .inl hb
      · have hst : r.stored = r.allocated := ht.stored_eq fun b hm => by
          rw [ha] at hm
          rcases mem_cons.1 hm with rfl | hm
          · exact not_isSome_iff_eq_none.1 hb
          · exact not_isSome_iff_eq_none.1 fun hs => hb (hto.1 b hm hs)
        exact .inr ((hst.trans_lt hlt).trans_le h.target_le)) h alloc
  · exact ⟨_, heq, { hs with toTable := hs.commit }⟩
  · exact ⟨_, heq, hs⟩

theorem Stock.aim (h : Stock lim len r) (hl : 1 ≤ lim) (hw : want ≤ lim)
    (alloc : Alloc) : ∃ r', r.setTarget want alloc = some r' ∧ Stock lim len r' :=
  Stock.setTarget { h with
    toTable := h.aimed want
    target_le := max_le hl ((min_le_left _ _).trans hw) } alloc

theorem Stock.release (h : Stock lim len r) (bid : ℕ) (alloc : Alloc) :
    ∃ r', r.release bid alloc = some r' ∧ Stock lim len r' := by
  by_cases hs : r.slots[bid]? = some .lent
  · have hl := h.handedBack hs
    obtain ⟨addr, ha⟩ := h.storage bid (.inr hs)
    have hso : (r.addrOf bid).isSome := by
      rw [addrOf, ha]
      rfl
    have hp : Stock lim len { r.handedBack bid with absent := bid :: r.absent } :=
      { h with
        toTable := hl.push
        top := pairwise_cons.2 ⟨fun _ _ _ => hso, h.top⟩ }
    rcases h.release_of_lent hs alloc with heq | ⟨addr, heq⟩
    · exact ⟨_, heq, hp⟩
    · have hd := hp.describe hl (.inl hso) addr
      exact ⟨_, heq, { hd with toTable := hd.commit }⟩
  · exact ⟨r, release_of_not_lent hs alloc, h⟩

theorem countP_trim_le (bufs : List (Option ℕ)) (slots : List Slot) :
    (zipWith (fun buf slot => if slot = .absent then none else buf) bufs slots).countP
      isSome ≤ bufs.countP isSome := by
  induction bufs generalizing slots with
  | nil => simp
  | cons buf bufs ih =>
    cases slots with
    | nil => simp
    | cons slot slots =>
      rw [zipWith_cons_cons, countP_cons, countP_cons]
      apply Nat.add_le_add (ih slots)
      split_ifs <;> simp_all

theorem Stock.trim (h : Stock lim len r) : Stock lim len r.trim where
  toTable := h.toTable.trim
  target_le := h.target_le
  stored_le := (countP_trim_le _ _).trans h.stored_le
  top := by
    refine h.nodup.imp_of_mem fun _ hb _ hs => ?_
    rw [addrOf, getElem?_trim h.toTableShape, if_pos ((h.absent _).1 hb)] at hs
    cases hs
  buf_len := h.buf_len

namespace BufPool

/-- The ring is stocked within the limit. -/
structure Kept (lim len : ℕ) (p : BufPool) : Prop where
  pos : 1 ≤ lim
  limit_eq : p.limit = lim
  stock : Stock lim len p.ring

section

variable (h : Kept lim len p)
include h

theorem Kept.put (hs : Stock lim len r) (idle_rounds marked : ℕ) :
    Kept lim len { p with ring := r, idle_rounds, marked } :=
  ⟨h.pos, h.limit_eq, hs⟩

theorem Kept.aim (hw : want ≤ lim) (alloc : Alloc) :
    ∃ p', p.aim want alloc = some p' ∧ Kept lim len p' := by
  obtain ⟨r', heq, hs⟩ := h.stock.aim h.pos hw alloc
  exact ⟨_, by rw [BufPool.aim, heq]; rfl, h.put hs _ _⟩

theorem Kept.stepped_le (base : ℕ) : p.stepped base ≤ lim :=
  (min_le_right _ _).trans h.limit_eq.le

theorem Kept.growAhead (alloc : Alloc) : ∃ p', p.growAhead alloc = some p' ∧ Kept lim len p' := by
  rw [BufPool.growAhead]
  split_ifs
  · exact ⟨p, rfl, h⟩
  · exact (h.put h.stock 0 _).aim (h.stepped_le _) alloc

theorem Kept.step (c : Call) : ∃ p', p.step c = some p' ∧ Kept lim len p' := by
  cases c with
  | takeLent bid alloc =>
    by_cases hs : p.ring.slots[bid]? = some .posted
    · obtain ⟨addr, -, heq⟩ := h.stock.takeLent_of_posted hs
      have ht := h.stock.toTable.lend bid
      have hl : Stock lim len (p.ring.lend bid) := by
        rw [lend_of_posted hs] at ht ⊢
        exact { h.stock with toTable := ht }
      obtain ⟨p', heq', hk⟩ := (h.put hl p.idle_rounds p.marked).growAhead alloc
      exact ⟨p', by simp [BufPool.step, takeLent, heq, heq'], hk⟩
    · exact ⟨p, by simp [BufPool.step, takeLent, takeLent_of_not_posted hs], h⟩
  | release bid alloc =>
    obtain ⟨r', heq, hs⟩ := h.stock.release bid alloc
    exact ⟨_, by rw [BufPool.step, release, heq]; rfl, h.put hs _ _⟩
  | growAhead alloc => exact h.growAhead alloc
  | grow armed alloc =>
    have hi := h.put h.stock 0 p.marked
    rw [BufPool.step, grow]
    split_ifs
    · exact ⟨_, rfl, hi⟩
    · exact ⟨_, rfl, hi⟩
    · obtain ⟨p', heq, hk⟩ := hi.aim (h.stepped_le _) alloc
      exact ⟨p', by rw [heq]; rfl, hk⟩
  | rebalanceAt now alloc =>
    have hs : Stock lim len p.ring.takePeak.1 :=
      { h.stock with toTable := h.stock.toTable.takePeak }
    rw [BufPool.step, rebalanceAt]
    dsimp only at hs ⊢
    split_ifs
    · exact ⟨_, rfl, h.put hs _ _⟩
    · exact ⟨_, rfl, h.put hs _ _⟩
    · exact ⟨_, rfl, h.put hs _ _⟩
    · refine (h.put hs.trim _ _).aim ?_ alloc
      exact max_le h.pos ((Nat.div_le_self _ _).trans hs.target_le)
    · exact ⟨_, rfl, h.put hs.trim _ _⟩

end

theorem kept_new {refused : Option Errno} {entries now : ℕ} {sizing : PoolSizing} {alloc : Alloc}
    {opened : Option BufPool} (h : new refused len entries sizing now alloc = .ok opened) :
    ∃ p, opened = some p ∧ Kept (sizing.limit len entries) len p := by
  have hpos : 1 ≤ sizing.limit len entries := le_max_left _ _
  rw [new] at h
  generalize sizing.limit len entries = lim at h hpos ⊢
  cases hr : BufRing.new refused lim len
      (min (max (buffers len sizing.initial_bytes) POOL_INITIAL) lim) alloc with
  | error e => simp [hr, Except.map] at h
  | ok ring =>
    rw [hr] at h
    obtain ⟨k, hk, want, hw, rfl⟩ := new_eq_ok hr
    have hs : Stock lim len ((BufRing.unposted (2 ^ k) len).aimed want) := by
      refine ⟨table_unposted hk len want, ?_, ?_, ?_, rfl⟩
      · exact max_le hpos ((min_le_left _ _).trans (hw.trans (max_le hpos (min_le_right _ _))))
      · simp [BufRing.stored, BufRing.aimed, BufRing.unposted, countP_replicate]
      · refine nodup_range.imp fun _ hs => ?_
        simp only [BufRing.addrOf, BufRing.aimed, BufRing.unposted, getElem?_replicate] at hs
        split_ifs at hs <;> cases hs
    obtain ⟨r', heq, hs'⟩ := hs.setTarget alloc
    rw [heq] at h
    exact ⟨_, (Except.ok.inj h).symm, hpos, rfl, hs'⟩

/-- A pool with a cap of at least one buffer keeps its storage within it, and no more ids
have storage than the cap pays for. -/
theorem storage_within_cap (refused : Option Errno) (buf_len entries now max_bytes : ℕ)
    (sizing : PoolSizing) (alloc : Alloc) (opened : Option BufPool)
    (hmax : sizing.max_bytes = some max_bytes) (hle : buf_len ≤ max_bytes)
    (hnew : new refused buf_len entries sizing now alloc = .ok opened) :
    ∃ p, opened = some p ∧ ∀ calls : List Call, ∃ p', Runs.run BufPool.step p calls = some p' ∧
      p'.ring.buf_len = buf_len ∧ p'.ring.stored * buf_len ≤ max_bytes ∧
        p'.ring.stored ≤ sizing.limit buf_len entries := by
  obtain ⟨p, rfl, hk⟩ := kept_new hnew
  refine ⟨p, rfl, fun calls => ?_⟩
  obtain ⟨p', hr, hk'⟩ := Runs.run_invariant (fun _ c h _ => h.step c) hk
    (@Runs.allowed_of_forall _ _ _ (fun _ _ => True) (fun _ _ => trivial) p calls)
  have hst := hk'.stock.stored_le
  refine ⟨p', hr, hk'.stock.buf_len, (Nat.mul_le_mul_right buf_len hst).trans ?_, hst⟩
  rw [PoolSizing.limit, hmax, elim_some, buffers]
  rcases Nat.eq_zero_or_pos buf_len with rfl | hpos
  · simp
  · have hd := Nat.div_mul_le_self max_bytes buf_len
    rw [max_mul_of_nonneg _ _ (Nat.zero_le _), max_eq_left (a := buf_len) hpos]
    refine max_le (by omega) (le_trans (Nat.mul_le_mul_right _ ?_) hd)
    exact (min_le_left _ _).trans (min_le_left _ _)

/-- A pool that may hold two of four buffers lends one and is asked to grow. -/
theorem storage_within_cap_two : ∃ p, new none 4 4 ⟨0, 100, some 10⟩ 0 some = .ok (some p) ∧
    ∃ p', Runs.run BufPool.step p [.takeLent 0 some, .grow 9 some, .release 0 some] = some p' ∧
      p'.ring.stored = 2 ∧ p'.ring.stored * 4 ≤ 10 := by
  obtain ⟨p, hp, h⟩ := storage_within_cap none 4 4 0 10 ⟨0, 100, some 10⟩ some _ rfl (by decide) rfl
  obtain ⟨p', hr, -, hle, -⟩ := h [.takeLent 0 some, .grow 9 some, .release 0 some]
  cases hp
  refine ⟨_, rfl, p', hr, ?_, hle⟩
  cases hr
  rfl

end BufPool

end TruenasRos.Uring
