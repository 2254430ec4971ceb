import Mathlib.Data.List.TakeWhile
import TruenasRos.Lib.Steps
import TruenasRos.Lib.Usize

/-! # The pool of body buffers

Storage for request bodies that is kept for reuse. What may be kept is measured in bytes: claims
that found nothing fitting license it, quiet and disuse take it back, and a budget caps it. Beside
the pool stands a log of its accounts, which no function reads.
-/

namespace TruenasRos.Net

open List Nat

def SHRINK_AFTER : ℕ := 4

def OVERSIZE_SERVE : ℕ := 4

def OVERSIZE_FLOOR : ℕ := 64 * 1024

/-- A buffer that waits, with the hot observations it has sat through unserved. -/
structure FreeBuf where
  capacity : ℕ
  age : ℕ
  deriving DecidableEq

structure PoolLog where
  /-- Whether an addition or a subtraction has saturated. The pot, which is capped, and the count
  of serves stand apart. -/
  saturated : Bool := false
  served_saturated : Bool := false
  /-- What the target was raised by, all in all. -/
  raised : ℕ := 0
  /-- The licences recorded by claims that missed. -/
  licensed : ℕ := 0
  /-- The licences put on the pot. -/
  potted : ℕ := 0
  /-- The licences that claims hold. -/
  held : List ℕ := []
  /-- Whether every licence handed in was one that a claim held; 0 is no licence. -/
  honest : Bool := true
  deriving DecidableEq

structure BodyPool where
  free : List FreeBuf := []
  retained : ℕ := 0
  target : ℕ := 0
  budget : ℕ
  missed_bytes : ℕ := 0
  served : ℕ := 0
  idle_rounds : ℕ := 0
  log : PoolLog := {}
  deriving DecidableEq

/-- What an allocation of at least so many bytes grants. -/
structure Allocator where
  grant : ℕ → ℕ
  covers : ∀ n, n ≤ grant n

def capacities (free : List FreeBuf) : ℕ := (free.map FreeBuf.capacity).sum

namespace BodyPool

def new (budget : ℕ) : BodyPool := { budget }

def note (p : BodyPool) (saturated : Bool) : BodyPool :=
  { p with log.saturated := p.log.saturated || saturated }

/-- The best fit for a body, unless it is far too large. -/
def takeFit (p : BodyPool) (min_cap : ℕ) : Option (ℕ × BodyPool) :=
  match p.free.dropWhile fun b => decide (b.capacity < min_cap) with
  | [] => none
  | b :: larger =>
    if max (Usize.saturatingMul min_cap OVERSIZE_SERVE) OVERSIZE_FLOOR < b.capacity then none
    else
      some (b.capacity, { p.note (decide (p.retained < b.capacity)) with
        free := (p.free.takeWhile fun b => decide (b.capacity < min_cap)) ++ larger
        retained := p.retained - b.capacity
        served := Usize.saturatingAdd p.served 1
        log.served_saturated := p.log.served_saturated || decide (p.served = Usize.MAX) })

/-- Storage for a body, with the licence of a claim that missed. -/
def claimFit (alloc : Allocator) (p : BodyPool) (min_cap : ℕ) : (ℕ × ℕ) × BodyPool :=
  match p.takeFit min_cap with
  | some (capacity, p) => ((if min_cap ≤ capacity then capacity else alloc.grant min_cap, 0), p)
  | none => ((alloc.grant min_cap, min_cap), { p with log.licensed := p.log.licensed + min_cap })

def pot (p : BodyPool) (licence : ℕ) : BodyPool :=
  { p with
    missed_bytes := min (Usize.saturatingAdd p.missed_bytes licence) p.budget
    log.potted := p.log.potted + licence }

def claim (alloc : Allocator) (p : BodyPool) (min_cap : ℕ) : ℕ × BodyPool :=
  let ((capacity, licence), p) := p.claimFit alloc min_cap
  (capacity, p.pot licence)

/-- A claim whose licence rides with the storage. -/
def claimHeld (alloc : Allocator) (p : BodyPool) (min_cap : ℕ) : (ℕ × ℕ) × BodyPool :=
  let ((capacity, licence), p) := p.claimFit alloc min_cap
  ((capacity, licence), { p with log.held := p.log.held ++ [licence] })

section

variable (p : BodyPool)

def handIn (licence : ℕ) : BodyPool :=
  { p with
    log.held := p.log.held.erase licence
    log.honest := p.log.honest && decide (licence = 0 ∨ licence ∈ p.log.held) }

def receiptDone (licence : ℕ) : BodyPool := (p.handIn licence).pot licence

def raiseTarget (grant : ℕ) : BodyPool :=
  { p with
    target := p.target + grant
    missed_bytes := p.missed_bytes - grant
    log.raised := p.log.raised + grant }

def keep (held capacity : ℕ) : BodyPool :=
  { p with
    retained := held
    free := (p.free.takeWhile fun b => decide (b.capacity ≤ capacity)) ++
      ⟨capacity, 0⟩ :: p.free.dropWhile fun b => decide (b.capacity ≤ capacity) }

/-- Keep a buffer if the target allows it or can be raised that far. -/
def offer (capacity : ℕ) : BodyPool :=
  if capacity = 0 then p
  else
    let held := Usize.saturatingAdd p.retained capacity
    let p := p.note (decide (Usize.MAX < p.retained + capacity))
    if p.target < held then
      let grant := min (held - p.target) p.missed_bytes
      if p.budget < held ∨ p.target + grant < held then p
      else (p.raiseTarget grant).keep held capacity
    else p.keep held capacity

def giveHeld (capacity licence : ℕ) : BodyPool :=
  ((p.handIn licence).pot licence).offer capacity

def give (capacity : ℕ) : BodyPool := p.giveHeld capacity 0

def older (b : FreeBuf) : FreeBuf := { b with age := min (b.age + 1) 255 }

/-- Under load, free the buffers that have served nothing for too long. -/
def evictStale : BodyPool :=
  let aged := p.free.map older
  let evicted := capacities (aged.filter fun b => decide (SHRINK_AFTER ≤ b.age))
  { p.note (decide (p.retained < evicted) || decide (p.target < evicted) ||
      p.free.any fun b => decide (255 ≤ b.age)) with
    served := 0
    idle_rounds := 0
    free := aged.filter fun b => decide (b.age < SHRINK_AFTER)
    retained := p.retained - evicted
    target := p.target - evicted }

/-- Free the largest buffers, which come first here, until the target is met. Says too whether a
difference saturated. -/
def popWhile (target : ℕ) : List FreeBuf → ℕ → List FreeBuf × ℕ × Bool
  | [], retained => ([], if target < retained then 0 else retained, false)
  | b :: free, retained =>
    if target < retained then
      let (left, held, saturated) := popWhile target free (retained - b.capacity)
      (left, held, saturated || decide (retained < b.capacity))
    else (b :: free, retained, false)

/-- In quiet, halve the target and free the surplus. -/
def shrink : BodyPool :=
  let target := p.target / 2
  let (left, held, saturated) := popWhile target p.free.reverse p.retained
  { p.note saturated with idle_rounds := 0, target, free := left.reverse, retained := held }

def rebalance : BodyPool :=
  let p := { p with missed_bytes := 0 }
  if 0 < p.served then p.evictStale
  else
    let idle_rounds := min (p.idle_rounds + 1) 255
    let p := { p.note (decide (255 ≤ p.idle_rounds)) with idle_rounds }
    if idle_rounds < SHRINK_AFTER then p else p.shrink

inductive Call
  | claim (min_cap : ℕ)
  | claimHeld (min_cap : ℕ)
  | receiptDone (licence : ℕ)
  | give (capacity : ℕ)
  | giveHeld (capacity licence : ℕ)
  | rebalance
  deriving DecidableEq

/-- Storage that is handed over lies in memory beside the buffers that wait. -/
def fits (capacity : ℕ) : Prop := capacities p.free + capacity ≤ Usize.MAX

end

instance (p : BodyPool) (capacity : ℕ) : Decidable (p.fits capacity) :=
  inferInstanceAs (Decidable (_ ≤ _))

def step (alloc : Allocator) (p : BodyPool) : Call → BodyPool
  | .claim min_cap => (p.claim alloc min_cap).2
  | .claimHeld min_cap => (p.claimHeld alloc min_cap).2
  | .receiptDone licence => p.receiptDone licence
  | .give capacity => if p.fits capacity then p.give capacity else p
  | .giveHeld capacity licence => if p.fits capacity then p.giveHeld capacity licence else p
  | .rebalance => p.rebalance

def run (alloc : Allocator) (p : BodyPool) (calls : List Call) : BodyPool :=
  Steps.run (step alloc) p calls

/-- What holds of the pool between any two calls. -/
structure Sound (p : BodyPool) : Prop where
  sorted : p.free.Pairwise fun a b => a.capacity ≤ b.capacity
  retained : p.retained = capacities p.free
  within_target : p.retained ≤ p.target
  within_budget : p.target ≤ p.budget
  missed : p.missed_bytes ≤ p.budget
  young : ∀ b ∈ p.free, b.age < SHRINK_AFTER
  idle : p.idle_rounds < SHRINK_AFTER
  word : p.budget ≤ Usize.MAX
  exact_sums : p.log.saturated = false

variable {alloc : Allocator} {p : BodyPool} {cp lc mc : ℕ} {free : List FreeBuf}

theorem shrinkAfter_pos : 0 < SHRINK_AFTER := succ_pos 3

@[simp] theorem capacities_append (a b : List FreeBuf) :
    capacities (a ++ b) = capacities a + capacities b := by
  simp [capacities]

@[simp] theorem capacities_cons (b : FreeBuf) (free : List FreeBuf) :
    capacities (b :: free) = b.capacity + capacities free := by
  simp [capacities]

@[simp] theorem capacities_reverse (free : List FreeBuf) :
    capacities free.reverse = capacities free := by
  simp [capacities, List.map_reverse, List.sum_reverse]

section

variable (h : p.Sound)
include h

theorem Sound.note {saturated : Bool} (he : saturated = false) : (p.note saturated).Sound := by
  refine { h with exact_sums := ?_ }
  rw [BodyPool.note, he, Bool.or_false]
  exact h.exact_sums

theorem Sound.pot (lc : ℕ) : (p.pot lc).Sound :=
  { h with missed := min_le_right _ _ }

theorem Sound.handIn (lc : ℕ) : (p.handIn lc).Sound :=
  { h with }

theorem Sound.takeFit {p' : BodyPool} (hf : p.takeFit mc = some (cp, p')) : p'.Sound ∧ mc ≤ cp := by
  unfold BodyPool.takeFit at hf
  split at hf
  · cases hf
  · rename_i b larger hd
    split_ifs at hf with hsi
    obtain ⟨rfl, rfl⟩ := Prod.mk.inj (Option.some.inj hf)
    have hsp := (@takeWhile_append_dropWhile _ (fun b => decide (b.capacity < mc)) p.free).symm
    rw [hd] at hsp
    have hsum := h.retained
    rw [hsp, capacities_append, capacities_cons] at hsum
    have hs : ((p.free.takeWhile fun b => decide (b.capacity < mc)) ++ larger).Sublist
        p.free := by
      conv_rhs => rw [hsp]
      exact List.Sublist.append_left (sublist_cons_self _ _) _
    have hn := h.note (decide_eq_false (show ¬p.retained < b.capacity by omega))
    refine ⟨{ hn with sorted := ?_, retained := ?_, within_target := ?_, young := ?_ }, ?_⟩
    · exact h.sorted.sublist hs
    · rw [capacities_append]
      dsimp only [BodyPool.note]
      omega
    · exact (sub_le _ _).trans h.within_target
    · exact fun b hb => h.young b (hs.subset hb)
    · have hh := head?_dropWhile_not (fun b => decide (b.capacity < mc)) p.free
      rw [hd] at hh
      simpa using hh

theorem Sound.claimFit (mc : ℕ) : (p.claimFit alloc mc).2.Sound := by
  unfold BodyPool.claimFit
  split
  · next cp p' hf => exact (h.takeFit hf).1
  · exact { h with }

theorem Sound.keep {held : ℕ} (hhe : held = p.retained + cp)
    (ht : held ≤ p.target) : (p.keep held cp).Sound := by
  have hs := takeWhile_append_dropWhile
    (p := fun b : FreeBuf => decide (b.capacity ≤ cp)) (l := p.free)
  refine { h with sorted := ?_, retained := ?_, within_target := ht, young := ?_ }
  · have hso := h.sorted
    rw [← hs, pairwise_append] at hso
    obtain ⟨hsm, hl, hc⟩ := hso
    have hbe : ∀ a ∈ p.free.takeWhile fun b => decide (b.capacity ≤ cp),
        a.capacity ≤ cp := by
      intro a ha
      simpa using mem_takeWhile_imp ha
    have hab : ∀ b ∈ p.free.dropWhile fun b => decide (b.capacity ≤ cp),
        cp ≤ b.capacity := by
      have hh := head?_dropWhile_not (fun b => decide (b.capacity ≤ cp)) p.free
      intro b hb
      cases hd : p.free.dropWhile fun b => decide (b.capacity ≤ cp) with
      | nil =>
        rw [hd] at hb
        simp at hb
      | cons first larger =>
        rw [hd] at hh hb hl
        have hf : cp < first.capacity := by simpa using hh
        rcases mem_cons.1 hb with rfl | hb
        · exact hf.le
        · exact hf.le.trans ((pairwise_cons.1 hl).1 b hb)
    rw [BodyPool.keep, pairwise_append, pairwise_cons]
    refine ⟨hsm, ⟨hab, hl⟩, ?_⟩
    intro a ha b hb
    rcases mem_cons.1 hb with rfl | hb
    · exact hbe a ha
    · exact hc a ha b hb
  · have hsum := h.retained
    rw [← hs, capacities_append] at hsum
    rw [BodyPool.keep, capacities_append, capacities_cons]
    dsimp only
    omega
  · intro b hb
    rw [BodyPool.keep, mem_append, mem_cons] at hb
    rcases hb with hb | rfl | hb
    · exact h.young b ((takeWhile_sublist _).subset hb)
    · exact shrinkAfter_pos
    · exact h.young b ((dropWhile_sublist _).subset hb)

end

theorem saturatingAdd_of_le {a b : ℕ} (h : a + b ≤ Usize.MAX) : Usize.saturatingAdd a b = a + b :=
  min_eq_left h

theorem Sound.offer (h : p.Sound) (hf : p.fits cp) : (p.offer cp).Sound := by
  have hr : p.retained + cp ≤ Usize.MAX := by
    rw [h.retained]
    exact hf
  have hn := h.note (decide_eq_false (not_lt.2 hr))
  unfold BodyPool.offer
  split
  · exact h
  · dsimp only
    rw [saturatingAdd_of_le hr]
    split
    · rename_i ho
      split
      · exact hn
      · rename_i hg
        simp only [BodyPool.note, not_or, not_lt] at hg ho
        have hra : ((p.note (decide (Usize.MAX < p.retained + cp))).raiseTarget
            (min (p.retained + cp - p.target) p.missed_bytes)).Sound := by
          have hm := h.missed
          refine { hn with within_target := ?_, within_budget := ?_, missed := ?_ } <;>
            dsimp only [BodyPool.note, raiseTarget] <;> omega
        exact hra.keep rfl hg.2
    · next hu => exact hn.keep rfl (not_lt.1 hu)

theorem capacities_map_older (free : List FreeBuf) : capacities (free.map older) =
    capacities free := by
  simp [capacities, older, Function.comp_def]

theorem capacities_filter_add (free : List FreeBuf) (q : FreeBuf → Bool) :
    capacities (free.filter q) + capacities (free.filter fun b => !q b) = capacities free := by
  induction free with
  | nil => rfl
  | cons b free ih => cases hq : q b <;> simp [hq] <;> omega

theorem Sound.evictStale (h : p.Sound) : p.evictStale.Sound := by
  have ho : p.free.any (fun b => decide (255 ≤ b.age)) = false := by
    rw [any_eq_false]
    intro b hb
    have hy := h.young b hb
    simp only [SHRINK_AFTER] at hy
    simp only [decide_eq_true_eq]
    omega
  have hs := capacities_filter_add (p.free.map older) fun b => decide (SHRINK_AFTER ≤ b.age)
  have hn : ((p.free.map older).filter fun b => !decide (SHRINK_AFTER ≤ b.age)) =
      (p.free.map older).filter fun b => decide (b.age < SHRINK_AFTER) := by
    refine filter_congr fun b _ => ?_
    rw [← decide_not, decide_eq_decide, Nat.not_le]
  rw [hn, capacities_map_older, ← h.retained] at hs
  have hw := h.within_target
  unfold BodyPool.evictStale
  dsimp only
  generalize capacities ((p.free.map older).filter fun b => decide (SHRINK_AFTER ≤ b.age)) = evicted
    at hs ⊢
  have he : (decide (p.retained < evicted) || decide (p.target < evicted) ||
      p.free.any fun b => decide (255 ≤ b.age)) = false := by
    rw [ho, Bool.or_false, Bool.or_eq_false_iff]
    exact ⟨decide_eq_false (by omega), decide_eq_false (by omega)⟩
  have hno := h.note he
  refine { hno with
    sorted := ?_
    retained := ?_
    within_target := ?_
    within_budget := ?_
    young := ?_
    idle := shrinkAfter_pos }
  · apply List.Pairwise.sublist filter_sublist
    exact pairwise_map.2 h.sorted
  · dsimp only
    omega
  · exact Nat.sub_le_sub_right hw _
  · exact (Nat.sub_le _ _).trans h.within_budget
  · intro b hb
    exact of_decide_eq_true (mem_filter.1 hb).2

theorem popWhile_spec (target : ℕ) (free : List FreeBuf) :
    ∃ left, popWhile target free (capacities free) = (left, capacities left, false) ∧
      left <:+ free ∧ capacities left ≤ target := by
  induction free with
  | nil => simp [popWhile, capacities]
  | cons b free ih =>
    unfold popWhile
    split
    · obtain ⟨left, heq, hs, hle⟩ := ih
      refine ⟨left, ?_, hs.trans (suffix_cons _ _), hle⟩
      rw [capacities_cons, Nat.add_sub_cancel_left, heq]
      simp
    · next hm => exact ⟨b :: free, rfl, suffix_refl _, not_lt.1 hm⟩

theorem Sound.shrink (h : p.Sound) : p.shrink.Sound := by
  obtain ⟨left, heq, hsu, hle⟩ := popWhile_spec (p.target / 2) p.free.reverse
  rw [capacities_reverse, ← h.retained] at heq
  have hs : left.reverse.Sublist p.free := by
    have := hsu.sublist.reverse
    rwa [reverse_reverse] at this
  have hn : (p.note false).Sound := h.note rfl
  unfold BodyPool.shrink
  dsimp only
  rw [heq]
  refine { hn with
    sorted := ?_
    retained := ?_
    within_target := hle
    within_budget := ?_
    young := ?_
    idle := shrinkAfter_pos }
  · exact h.sorted.sublist hs
  · exact (capacities_reverse left).symm
  · exact (div_le_self _ _).trans h.within_budget
  · exact fun b hb => h.young b (hs.subset hb)

theorem Sound.rebalance (h : p.Sound) : p.rebalance.Sound := by
  have hid := h.idle
  have hr : ({ p with missed_bytes := 0 } : BodyPool).Sound := { h with missed := zero_le _ }
  unfold BodyPool.rebalance
  dsimp only
  split
  · exact hr.evictStale
  · have hf : ¬255 ≤ p.idle_rounds := by
      simp only [SHRINK_AFTER] at hid
      omega
    have hn := hr.note (decide_eq_false hf)
    split
    · next hf => exact { hn with idle := hf }
    · -- the rounds are counted anew, so how many there were does not matter
      have hs := hn.shrink
      exact { hs with }

theorem Sound.step (h : p.Sound) (call : Call) : (p.step alloc call).Sound := by
  cases call with
  | claim mc => exact (h.claimFit mc).pot _
  | claimHeld mc =>
    have hc : (p.claimFit alloc mc).2.Sound := h.claimFit mc
    exact { hc with }
  | receiptDone lc => exact (h.handIn lc).pot lc
  | give cp =>
    simp only [BodyPool.step]
    split
    · next hf => exact ((h.handIn 0).pot 0).offer hf
    · exact h
  | giveHeld cp lc =>
    simp only [BodyPool.step]
    split
    · next hf => exact ((h.handIn lc).pot lc).offer hf
    · exact h
  | rebalance => exact h.rebalance

theorem sound_new (budget : UInt64) : (new budget.toNat).Sound where
  sorted := List.Pairwise.nil
  retained := rfl
  within_target := le_rfl
  within_budget := zero_le _
  missed := zero_le _
  young := by simp [new]
  idle := shrinkAfter_pos
  word := by
    have := budget.toNat_lt
    exact le_pred_of_lt this
  exact_sums := rfl

/-- The licences on the pot cover what was raised and what is left of them, and come from claims
as long as only licences that claims hold are handed in. -/
structure Ledger (p : BodyPool) : Prop where
  covered : p.log.raised + p.missed_bytes ≤ p.log.potted
  claimed : p.log.honest = true → p.log.potted + p.log.held.sum ≤ p.log.licensed

/-- What the ledger speaks of, the missed bytes apart. -/
def books (p : BodyPool) : ℕ × ℕ × List ℕ × Bool × ℕ :=
  (p.log.raised, p.log.potted, p.log.held, p.log.honest, p.log.licensed)

section

variable (h : p.Ledger)
include h

theorem Ledger.of_books {q : BodyPool} (hb : q.books = p.books)
    (hm : q.missed_bytes ≤ p.missed_bytes) : q.Ledger := by
  simp only [books, Prod.mk.injEq] at hb
  obtain ⟨hr, hpo, hh, hho, hl⟩ := hb
  constructor
  · have := h.covered
    omega
  · rw [hho, hpo, hh, hl]
    exact h.claimed

theorem Ledger.offer (cp : ℕ) : (p.offer cp).Ledger := by
  unfold BodyPool.offer
  dsimp only
  split_ifs
  · exact h
  · exact h.of_books rfl le_rfl
  · constructor
    · have hc := h.covered
      dsimp only [BodyPool.note, raiseTarget, BodyPool.keep]
      omega
    · exact h.claimed
  · exact h.of_books rfl le_rfl

theorem Ledger.claimFit {mc cp lc : ℕ} {q : BodyPool} (hq : p.claimFit alloc mc = ((cp, lc), q)) :
    q.log.raised + q.missed_bytes ≤ q.log.potted ∧
      (q.log.honest = true → q.log.potted + q.log.held.sum + lc ≤ q.log.licensed) := by
  unfold BodyPool.claimFit at hq
  split at hq
  · rename_i hf
    unfold BodyPool.takeFit at hf
    split at hf
    · cases hf
    · split_ifs at hf
      cases hf
      cases hq
      exact ⟨h.covered, h.claimed⟩
  · cases hq
    exact ⟨h.covered, fun honest => Nat.add_le_add_right (h.claimed honest) _⟩

omit h in
theorem missed_pot_le (p : BodyPool) (lc : ℕ) : (p.pot lc).missed_bytes ≤ p.missed_bytes + lc :=
  (min_le_left _ _).trans (min_le_left _ _)

theorem Ledger.claim (mc : ℕ) : (p.claim alloc mc).2.Ledger := by
  unfold BodyPool.claim
  rcases hq : p.claimFit alloc mc with ⟨⟨cp, lc⟩, q⟩
  obtain ⟨hc, hcl⟩ := h.claimFit hq
  have hpot := missed_pot_le q lc
  constructor
  · dsimp only [BodyPool.pot] at hpot ⊢
    omega
  · intro honest
    have := hcl honest
    dsimp only [BodyPool.pot]
    omega

theorem Ledger.claimHeld (mc : ℕ) : (p.claimHeld alloc mc).2.Ledger := by
  unfold BodyPool.claimHeld
  rcases hq : p.claimFit alloc mc with ⟨⟨cp, lc⟩, q⟩
  obtain ⟨hc, hcl⟩ := h.claimFit hq
  refine ⟨hc, fun honest => ?_⟩
  have := hcl honest
  dsimp only
  rw [sum_append_nat, sum_singleton]
  omega

theorem Ledger.receiptDone (lc : ℕ) : (p.receiptDone lc).Ledger := by
  have hpot := missed_pot_le (p.handIn lc) lc
  constructor
  · have hc := h.covered
    dsimp only [BodyPool.receiptDone, BodyPool.pot, BodyPool.handIn] at hpot ⊢
    omega
  · intro honest
    dsimp only [BodyPool.receiptDone, BodyPool.pot, BodyPool.handIn] at honest ⊢
    rw [Bool.and_eq_true, decide_eq_true_eq] at honest
    have hcl := h.claimed honest.1
    rcases honest.2 with rfl | hm
    · have hs := (erase_sublist (a := 0) (l := p.log.held)).sum_le_sum fun _ _ => zero_le _
      omega
    · have hs := sum_erase hm
      omega

theorem Ledger.rebalance : p.rebalance.Ledger := by
  have hb : p.rebalance.books = p.books ∧ p.rebalance.missed_bytes = 0 := by
    unfold BodyPool.rebalance BodyPool.evictStale BodyPool.shrink
    dsimp only
    split_ifs <;> exact ⟨rfl, rfl⟩
  exact h.of_books hb.1 (hb.2.trans_le (zero_le _))

theorem Ledger.step (call : Call) : (p.step alloc call).Ledger := by
  cases call with
  | claim mc => exact h.claim mc
  | claimHeld mc => exact h.claimHeld mc
  | receiptDone lc => exact h.receiptDone lc
  | give cp =>
    simp only [BodyPool.step]
    split
    · exact (h.receiptDone 0).offer cp
    · exact h
  | giveHeld cp lc =>
    simp only [BodyPool.step]
    split
    · exact (h.receiptDone lc).offer cp
    · exact h
  | rebalance => exact h.rebalance

end

/-- After any calls the pool's accounts are in order and within the budget, nothing has saturated
but a count of serves, and where only licences that claims hold were handed in, the target was
raised by no more than claims that missed have licensed. -/
theorem accounts_run (alloc : Allocator) (budget : UInt64) (calls : List Call) :
    ((new budget.toNat).run alloc calls).Sound ∧
      (((new budget.toNat).run alloc calls).log.honest = true →
        ((new budget.toNat).run alloc calls).log.raised ≤
          ((new budget.toNat).run alloc calls).log.licensed) := by
  have hle : ((new budget.toNat).run alloc calls).Ledger :=
    Steps.invariant ⟨le_rfl, fun _ => le_rfl⟩ (fun _ call h => h.step call) calls
  constructor
  · exact Steps.invariant (sound_new budget) (fun _ call h => h.step call) calls
  · intro honest
    have hc := hle.covered
    have hcl := hle.claimed honest
    omega

/-- A pool that serves one small buffer over and over. -/
def serving (served : ℕ) (served_saturated : Bool) : BodyPool where
  free := [⟨1, 0⟩]
  retained := 1
  target := 1
  budget := 1
  served := served
  log := { served_saturated, raised := 1, licensed := 1, potted := 1 }

/-- An allocator that grants what it is asked for. -/
def frugal : Allocator := ⟨id, fun _ => le_rfl⟩

theorem run_serving {calls : List Call} {n : ℕ}
    (h : (new 1).run frugal calls = serving n false) :
    (new 1).run frugal (calls ++ [.claim 1, .give 1]) =
      serving (Usize.saturatingAdd n 1) (decide (n = Usize.MAX)) := by
  have hf : 1 ≤ Usize.MAX := by decide
  have hpos : Usize.MAX ≠ 0 := by decide
  refine (Steps.run_append _ _ _ _).trans ((congrArg (run frugal · _) h).trans ?_)
  simp [run, Steps.run, step, claim, claimFit, takeFit, serving, note, pot, give, giveHeld,
    handIn, offer, keep, fits, capacities, Usize.saturatingAdd, OVERSIZE_SERVE, OVERSIZE_FLOOR, hf,
    hpos]

theorem exists_run_serving {n : ℕ} (h : n ≤ Usize.MAX) :
    ∃ calls, (new 1).run frugal calls = serving n false := by
  induction n with
  | zero => exact ⟨[.claim 1, .give 1], by decide +kernel⟩
  | succ n ih =>
    obtain ⟨calls, hc⟩ := ih (le_of_succ_le h)
    refine ⟨_, (run_serving hc).trans ?_⟩
    rw [saturatingAdd_of_le h, decide_eq_false (by omega)]

/-- A licence that no claim recorded raises the target as any other does, and serves that are not
observed for long enough saturate their count. -/
theorem accounts_run_invented :
    (∃ calls, ((new 5).run frugal calls).log.licensed < ((new 5).run frugal calls).log.raised) ∧
      ∃ calls, ((new 1).run frugal calls).log.served_saturated = true := by
  constructor
  · exact ⟨[.receiptDone 5, .give 5], by decide +kernel⟩
  · obtain ⟨calls, hc⟩ := exists_run_serving le_rfl
    exact ⟨_, by rw [run_serving hc]; rfl⟩

end BodyPool

end TruenasRos.Net
