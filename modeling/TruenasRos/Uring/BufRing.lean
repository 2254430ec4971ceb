import TruenasRos.Error
import Mathlib.Data.Nat.Log

/-! # A ring of provided buffers

The table of buffer ids and the descriptor ring it is posted through. Words are natural
numbers that wrap at 2¹⁶ as in a release build, an allocator is a function from ids to
the storage it hands out, and a call that indexes out of bounds gives `none`.
-/

namespace TruenasRos.Uring

open List Nat

/-- Where one buffer id stands. -/
inductive Slot
  | absent
  | posted
  | lent
  deriving DecidableEq

/-- A descriptor, without the field that entry zero shares with the tail. -/
structure IoUringBuf where
  addr : ℕ
  len : ℕ
  bid : ℕ
  deriving DecidableEq

/-- The storage an allocator hands out for an id, if any. -/
abbrev Alloc := ℕ → Option ℕ

structure BufRing where
  ring : List IoUringBuf
  /-- The tail as the kernel sees it. -/
  resv : ℕ
  bufs : List (Option ℕ)
  slots : List Slot
  entries : ℕ
  mask : ℕ
  buf_len : ℕ
  target : ℕ
  /-- The top of the stack comes first. -/
  absent : List ℕ
  posted : ℕ
  lent : ℕ
  peak : ℕ
  tail : ℕ
  deriving DecidableEq

def wrappingInc (n : ℕ) : ℕ := (n + 1) % 2 ^ 16

def wrappingDec (n : ℕ) : ℕ := (n + 2 ^ 16 - 1) % 2 ^ 16

def U32_MAX : ℕ := 2 ^ 32 - 1

namespace BufRing

def allocated (r : BufRing) : ℕ := (r.posted + r.lent) % 2 ^ 16

def describe (r : BufRing) (bid addr : ℕ) : BufRing :=
  { r with
    bufs := r.bufs.set bid (some addr)
    ring := r.ring.set (r.tail &&& r.mask) ⟨addr, min r.buf_len U32_MAX, bid⟩
    tail := wrappingInc r.tail
    slots := r.slots.set bid .posted
    posted := wrappingInc r.posted }

def post (r : BufRing) (bid : ℕ) (alloc : Alloc) : Option (BufRing × Bool) :=
  match r.bufs[bid]? with
  | none => none
  | some held =>
    match held.or (alloc bid) with
    | none => some (r, false)
    | some addr => some (r.describe bid addr, true)

def commit (r : BufRing) : BufRing := { r with resv := r.tail }

/-- The loop that posts absent ids up to the target. It ends with the stack. -/
def fill (alloc : Alloc) : ℕ → BufRing → Bool → Option (BufRing × Bool)
  | 0, r, posted_any => some (r, posted_any)
  | fuel + 1, r, posted_any =>
    if r.allocated < r.target then
      match r.absent with
      | [] => some (r, posted_any)
      | bid :: rest =>
        match post { r with absent := rest } bid alloc with
        | none => none
        | some (r, false) => some ({ r with absent := bid :: r.absent }, posted_any)
        | some (r, true) => fill alloc fuel r true
    else some (r, posted_any)

section

variable (r : BufRing)

def setTarget (want : ℕ) (alloc : Alloc) : Option BufRing :=
  let r := { r with target := max 1 (min want r.entries) }
  (fill alloc r.absent.length r false).map fun out => if out.2 then out.1.commit else out.1

def addrOf (bid : ℕ) : Option ℕ := r.bufs[bid]?.join

def lend (bid : ℕ) : BufRing :=
  match r.slots[bid]? with
  | some .posted =>
    { r with
      slots := r.slots.set bid .lent
      posted := wrappingDec r.posted
      lent := wrappingInc r.lent
      peak := max r.peak (wrappingInc r.lent) }
  | _ => r

def takePeak : BufRing × ℕ := ({ r with peak := r.lent }, r.peak)

def trim : BufRing :=
  { r with
    bufs := zipWith (fun buf slot => if slot = .absent then none else buf) r.bufs r.slots }

def takeLent (bid : ℕ) : BufRing × Option ℕ :=
  if r.slots[bid]? = some .posted then
    match r.addrOf bid with
    | some ptr => (r.lend bid, some ptr)
    | none => (r, none)
  else (r, none)

def release (bid : ℕ) (alloc : Alloc) : Option BufRing :=
  match r.slots[bid]? with
  | some .lent =>
    let r := { r with slots := r.slots.set bid .absent, lent := wrappingDec r.lent }
    if r.target ≤ r.allocated then some { r with absent := bid :: r.absent }
    else (r.post bid alloc).map fun out => if out.2 then out.1.commit else out.1
  | _ => some r

end

def unposted (entries buf_len : ℕ) : BufRing where
  ring := replicate entries ⟨0, 0, 0⟩
  resv := 0
  bufs := replicate entries none
  slots := replicate entries .absent
  entries := entries
  mask := entries - 1
  buf_len := buf_len
  target := 0
  absent := range entries
  posted := 0
  lent := 0
  peak := 0
  tail := 0

def checkedNextPowerOfTwo (n : ℕ) : Option ℕ :=
  if 2 ^ clog 2 n < 2 ^ 16 then some (2 ^ clog 2 n) else none

/-- `refused` is the error of the system call that failed, if one did. -/
def new (refused : Option Errno) (entries buf_len initial : ℕ) (alloc : Alloc) :
    Except Errno (Option BufRing) :=
  match checkedNextPowerOfTwo (max entries 1) with
  | none => .error .EINVAL
  | some entries =>
    if buf_len = 0 ∨ U32_MAX < buf_len then .error .EINVAL
    else
      match refused with
      | some e => .error e
      | none => .ok ((unposted entries buf_len).setTarget (max 1 (min initial entries)) alloc)

end BufRing

/-- What holds of the table apart from which ids the stack lists. -/
structure TableShape (r : BufRing) : Prop where
  entries : ∃ k < 16, r.entries = 2 ^ k
  mask : r.mask = r.entries - 1
  ring_len : r.ring.length = r.entries
  bufs_len : r.bufs.length = r.entries
  slots_len : r.slots.length = r.entries
  target : 1 ≤ r.target ∧ r.target ≤ r.entries
  posted : r.posted = r.slots.count Slot.posted
  lent : r.lent = r.slots.count Slot.lent
  nodup : r.absent.Nodup
  storage : ∀ b : ℕ, r.slots[b]? = some .posted ∨ r.slots[b]? = some .lent →
    ∃ addr, r.bufs[b]? = some (some addr)

/-- The stack lists the absent ids. -/
structure Table (r : BufRing) : Prop extends TableShape r where
  absent : ∀ b : ℕ, b ∈ r.absent ↔ r.slots[b]? = some .absent

/-- The stack lists the absent ids save `bid`, which is absent too. -/
structure Limbo (r : BufRing) (bid : ℕ) : Prop extends TableShape r where
  limbo : r.slots[bid]? = some .absent
  absent : ∀ b : ℕ, b ∈ r.absent ↔ r.slots[b]? = some .absent ∧ b ≠ bid

variable {r r' : BufRing} {bid want b : ℕ} {alloc : Alloc} {slots : List Slot} {s : Slot}
  {P : BufRing → Prop}

theorem TableShape.entries_le (h : TableShape r) : r.entries ≤ 2 ^ 15 := by
  obtain ⟨k, hk, he⟩ := h.entries
  rw [he]
  exact Nat.pow_le_pow_right (by decide) (by omega)

theorem count_slots (slots : List Slot) :
    slots.count Slot.posted + slots.count Slot.lent + slots.count Slot.absent = slots.length := by
  induction slots with
  | nil => rfl
  | cons s slots ih => cases s <;> simp <;> omega

theorem TableShape.posted_add_lent_le (h : TableShape r) : r.posted + r.lent ≤ r.entries := by
  have hc := count_slots r.slots
  rw [h.posted, h.lent, ← h.slots_len]
  omega

theorem count_set_slot (h : slots[b]? = some s)
    (s' t : Slot) : (slots.set b s').count t + (if s = t then 1 else 0) =
      slots.count t + if s' = t then 1 else 0 := by
  obtain ⟨hb, hs⟩ := List.getElem?_eq_some_iff.1 h
  have hpos : s = t → 0 < slots.count t := fun he =>
    count_pos_iff.2 (he ▸ hs ▸ getElem_mem hb)
  rw [count_set hb, hs]
  simp only [beq_iff_eq]
  split_ifs with h1 h2
  · have := hpos h1
    omega
  · have := hpos h1
    omega
  · omega
  · omega

theorem getElem?_set_slot {c : ℕ} {s' : Slot} (h : slots[b]? = some s) :
    (slots.set b s')[c]? = if c = b then some s' else slots[c]? := by
  obtain ⟨hb, -⟩ := List.getElem?_eq_some_iff.1 h
  by_cases hc : c = b
  · simp [hc, hb]
  · simp [hc, Ne.symm hc]

theorem TableShape.lt_bufs (h : TableShape r) (hs : r.slots[bid]? = some s) :
    bid < r.bufs.length := by
  rw [h.bufs_len, ← h.slots_len]
  exact (List.getElem?_eq_some_iff.1 hs).1

theorem TableShape.bufs_none (h : TableShape r) (hs : r.slots[bid]? = none) :
    r.bufs[bid]? = none := by
  rw [getElem?_eq_none_iff, h.bufs_len, ← h.slots_len]
  exact getElem?_eq_none_iff.1 hs

theorem Table.pop {rest : List ℕ} (h : Table r) (ha : r.absent = bid :: rest) :
    Limbo { r with absent := rest } bid := by
  have hn := h.nodup
  rw [ha, nodup_cons] at hn
  refine ⟨{ h with nodup := hn.2 }, (h.absent bid).1 (by simp [ha]), fun b => ?_⟩
  rw [← h.absent b, ha, mem_cons]
  constructor
  · intro hb
    exact ⟨.inr hb, fun he => hn.1 (he ▸ hb)⟩
  · rintro ⟨rfl | hb, hne⟩
    · exact absurd rfl hne
    · exact hb

theorem Limbo.push (h : Limbo r bid) : Table { r with absent := bid :: r.absent } := by
  refine ⟨{ h with nodup := ?_ }, fun b => ?_⟩
  · exact nodup_cons.2 ⟨fun hmem => ((h.absent bid).1 hmem).2 rfl, h.nodup⟩
  · rw [mem_cons, h.absent b]
    constructor
    · rintro (rfl | hb)
      · exact h.limbo
      · exact hb.1
    · intro hb
      by_cases he : b = bid
      · exact .inl he
      · exact .inr ⟨hb, he⟩

theorem Limbo.describe (h : Limbo r bid) (addr : ℕ) : Table (r.describe bid addr) := by
  have hpo : (r.slots.set bid .posted).count Slot.posted = r.slots.count Slot.posted + 1 :=
    count_set_slot h.limbo .posted .posted
  have hl : (r.slots.set bid .posted).count Slot.lent = r.slots.count Slot.lent :=
    count_set_slot h.limbo .posted .lent
  have hle := h.posted_add_lent_le
  have hen := h.entries_le
  have hinc : wrappingInc r.posted = r.posted + 1 := mod_eq_of_lt (by omega)
  have hbid := h.lt_bufs h.limbo
  refine ⟨⟨h.entries, h.mask, ?_, ?_, ?_, h.target, ?_, ?_, h.nodup, fun b hb => ?_⟩, fun b => ?_⟩
  · simpa [BufRing.describe] using h.ring_len
  · simpa [BufRing.describe] using h.bufs_len
  · simpa [BufRing.describe] using h.slots_len
  · rw [BufRing.describe, hpo, ← h.posted]
    exact hinc
  · rw [BufRing.describe, hl]
    exact h.lent
  · simp only [BufRing.describe, getElem?_set_slot h.limbo, getElem?_set] at hb ⊢
    by_cases he : b = bid
    · exact ⟨addr, by simp [he, hbid]⟩
    · rw [if_neg he] at hb
      obtain ⟨addr', ha⟩ := h.storage b hb
      exact ⟨addr', by simp [Ne.symm he, ha]⟩
  · simp only [BufRing.describe, getElem?_set_slot h.limbo, h.absent b]
    by_cases he : b = bid
    · simp [he]
    · simp [he]

theorem Limbo.post (h : Limbo r bid) (alloc : Alloc) :
    (∃ addr, r.post bid alloc = some (r.describe bid addr, true)) ∨
      r.bufs[bid]? = some none ∧ r.post bid alloc = some (r, false) := by
  have hb := h.lt_bufs h.limbo
  have hbuf := getElem?_eq_getElem hb
  rw [BufRing.post, hbuf]
  cases hh : r.bufs[bid] with
  | some addr => exact .inl ⟨addr, by simp⟩
  | none =>
    cases ha : alloc bid with
    | some addr => exact .inl ⟨addr, by simp⟩
    | none => exact .inr ⟨rfl, by simp⟩

theorem Table.commit (h : Table r) : Table r.commit :=
  ⟨{ h with }, h.absent⟩

theorem wrappingDec_add_one {n : ℕ} (h0 : 0 < n) (hn : n ≤ 2 ^ 15) : wrappingDec n + 1 = n := by
  rw [wrappingDec, show n + 2 ^ 16 - 1 = n - 1 + 2 ^ 16 by omega, add_mod_right,
    mod_eq_of_lt (by omega)]
  omega

theorem lend_of_posted (hs : r.slots[bid]? = some .posted) : r.lend bid = { r with
    slots := r.slots.set bid .lent
    posted := wrappingDec r.posted
    lent := wrappingInc r.lent
    peak := max r.peak (wrappingInc r.lent) } := by
  simp [BufRing.lend, hs]

theorem lend_of_not_posted (hs : r.slots[bid]? ≠ some .posted) : r.lend bid = r := by
  unfold BufRing.lend
  split
  · next h => exact absurd h hs
  · rfl

theorem Table.lend (h : Table r) (bid : ℕ) : Table (r.lend bid) := by
  by_cases hs : r.slots[bid]? = some .posted
  · have hpo : (r.slots.set bid .lent).count Slot.posted + 1 = r.slots.count Slot.posted :=
      count_set_slot hs .lent .posted
    have hl : (r.slots.set bid .lent).count Slot.lent = r.slots.count Slot.lent + 1 :=
      count_set_slot hs .lent .lent
    have hle := h.posted_add_lent_le
    have hen := h.entries_le
    have hd := by
      have hpos := count_pos_iff.2 (mem_of_getElem? hs)
      have hle := h.posted_add_lent_le.trans h.entries_le
      exact wrappingDec_add_one (h.posted ▸ hpos) (le_of_add_right_le hle)
    have hinc : wrappingInc r.lent = r.lent + 1 := mod_eq_of_lt (by omega)
    rw [lend_of_posted hs]
    refine ⟨{ h with
      slots_len := by simpa using h.slots_len, posted := ?_, lent := ?_,
        storage := fun b hb => ?_ }, fun b => ?_⟩
    · rw [← h.posted, ← hd] at hpo
      exact (succ_injective hpo).symm
    · rw [hl, ← h.lent]
      exact hinc
    · apply h.storage b
      rw [getElem?_set_slot hs] at hb
      by_cases he : b = bid
      · exact .inl (he ▸ hs)
      · rwa [if_neg he] at hb
    · rw [h.absent b, getElem?_set_slot hs]
      by_cases he : b = bid
      · simp [he, hs]
      · simp [he]
  · rwa [lend_of_not_posted hs]

theorem takeLent_of_not_posted (hs : r.slots[bid]? ≠ some .posted) :
    r.takeLent bid = (r, none) := by
  rw [BufRing.takeLent, if_neg hs]

theorem Table.takeLent_of_posted (h : Table r) (hs : r.slots[bid]? = some .posted) :
    ∃ addr, r.bufs[bid]? = some (some addr) ∧ r.takeLent bid = (r.lend bid, some addr) := by
  obtain ⟨addr, ha⟩ := h.storage bid (.inl hs)
  refine ⟨addr, ha, ?_⟩
  rw [BufRing.takeLent, if_pos hs, BufRing.addrOf, ha]
  rfl

theorem Table.takePeak (h : Table r) : Table r.takePeak.1 :=
  ⟨{ h with }, h.absent⟩

theorem getElem?_trim (h : TableShape r) (b : ℕ) : r.trim.bufs[b]? =
    if r.slots[b]? = some .absent then some none else r.bufs[b]? := by
  simp only [BufRing.trim, getElem?_zipWith]
  cases hs : r.slots[b]? with
  | none =>
    rw [h.bufs_none hs]
    rfl
  | some slot =>
    rw [getElem?_eq_getElem (h.lt_bufs hs)]
    cases slot <;> rfl

theorem Table.trim (h : Table r) : Table r.trim := by
  refine ⟨{ h with bufs_len := ?_, storage := fun b hb => ?_ }, h.absent⟩
  · simp [BufRing.trim, h.bufs_len, h.slots_len]
  · rw [getElem?_trim h.toTableShape, if_neg]
    · exact h.storage b hb
    · rcases hb with hb | hb <;> intro he <;> cases he.symm.trans hb

theorem release_of_not_lent (hs : r.slots[bid]? ≠ some .lent) (alloc : Alloc) :
    r.release bid alloc = some r := by
  unfold BufRing.release
  split
  · next h => exact absurd h hs
  · rfl

def BufRing.handedBack (r : BufRing) (bid : ℕ) : BufRing :=
  { r with slots := r.slots.set bid .absent, lent := wrappingDec r.lent }

theorem Table.handedBack (h : Table r) (hs : r.slots[bid]? = some .lent) :
    Limbo (r.handedBack bid) bid := by
  have hpo : (r.slots.set bid .absent).count Slot.posted = r.slots.count Slot.posted :=
    count_set_slot hs .absent .posted
  have hl : (r.slots.set bid .absent).count Slot.lent + 1 = r.slots.count Slot.lent :=
    count_set_slot hs .absent .lent
  have hd := by
    have hpos := count_pos_iff.2 (mem_of_getElem? hs)
    have hle := h.posted_add_lent_le.trans h.entries_le
    exact wrappingDec_add_one (h.lent ▸ hpos) (le_of_add_left_le hle)
  refine ⟨{ h with
    slots_len := ?_, posted := ?_, lent := ?_, storage := fun b hb => ?_ }, ?_, fun b => ?_⟩
  · simpa [BufRing.handedBack] using h.slots_len
  · rw [BufRing.handedBack, hpo]
    exact h.posted
  · rw [← h.lent, ← hd] at hl
    exact (succ_injective hl).symm
  · apply h.storage b
    rw [BufRing.handedBack, getElem?_set_slot hs] at hb
    by_cases he : b = bid
    · exact .inr (he ▸ hs)
    · rwa [if_neg he] at hb
  · rw [BufRing.handedBack, getElem?_set_slot hs, if_pos rfl]
  · rw [BufRing.handedBack, h.absent b, getElem?_set_slot hs]
    by_cases he : b = bid
    · simp [he, hs]
    · simp [he]

/-- A lent id goes back to the stack or, having storage, into the ring. -/
theorem Table.release_of_lent (h : Table r) (hs : r.slots[bid]? = some .lent) (alloc : Alloc) :
    r.release bid alloc = some { r.handedBack bid with absent := bid :: r.absent } ∨
      ∃ addr, r.release bid alloc = some ((r.handedBack bid).describe bid addr).commit := by
  have hl := h.handedBack hs
  have hr : r.release bid alloc = if (r.handedBack bid).target ≤ (r.handedBack bid).allocated then
        some { r.handedBack bid with absent := bid :: r.absent }
      else ((r.handedBack bid).post bid alloc).map
        fun out => if out.2 then out.1.commit else out.1 := by
    simp only [BufRing.release, hs]
    rfl
  rw [hr]
  split_ifs
  · exact .inl rfl
  · refine .inr ?_
    rcases hl.post alloc with ⟨addr, hpo⟩ | ⟨hn, -⟩
    · exact ⟨addr, by rw [hpo]; rfl⟩
    · obtain ⟨addr, ha⟩ := h.storage bid (.inr hs)
      cases ha.symm.trans hn

theorem Table.release (h : Table r) (bid : ℕ) (alloc : Alloc) :
    ∃ r', r.release bid alloc = some r' ∧ Table r' := by
  by_cases hs : r.slots[bid]? = some .lent
  · rcases h.release_of_lent hs alloc with heq | ⟨addr, heq⟩
    · exact ⟨_, heq, (h.handedBack hs).push⟩
    · exact ⟨_, heq, ((h.handedBack hs).describe addr).commit⟩
  · exact ⟨r, release_of_not_lent hs alloc, h⟩

/-- What every post keeps, the posting loop keeps. The loop says whether it posted. -/
theorem fill_spec
    (hP : ∀ r bid rest addr, Table r → r.allocated < r.target → r.absent = bid :: rest → P r →
      P ({ r with absent := rest }.describe bid addr))
    (alloc : Alloc) (fuel : ℕ) (h : Table r) (hr : P r) (posted_any : Bool) :
    ∃ r' any', BufRing.fill alloc fuel r posted_any = some (r', any') ∧ Table r' ∧ P r' ∧
      (any' = false → posted_any = false ∧ r' = r) := by
  induction fuel generalizing r posted_any with
  | zero => exact ⟨r, posted_any, rfl, h, hr, fun ha => ⟨ha, rfl⟩⟩
  | succ fuel ih =>
    rw [BufRing.fill]
    split_ifs with hlt
    · cases hab : r.absent with
      | nil => exact ⟨r, posted_any, rfl, h, hr, fun ha => ⟨ha, rfl⟩⟩
      | cons bid rest =>
        have hl := h.pop hab
        dsimp only
        rcases hl.post alloc with ⟨addr, hpo⟩ | ⟨-, hpo⟩
        · rw [hpo]
          obtain ⟨r', any', hf, ht, hr', ha⟩ :=
            ih (hl.describe addr) (hP r bid rest addr h hlt hab hr) true
          exact ⟨r', any', hf, ht, hr', fun he => absurd (ha he).1 (by decide)⟩
        · rw [hpo]
          -- the refused id goes back to the top of the stack it came from
          have hb : { r with absent := bid :: rest } = r := by rw [← hab]
          exact ⟨r, posted_any, by dsimp only; rw [hb], h, hr, fun ha => ⟨ha, rfl⟩⟩
    · exact ⟨r, posted_any, rfl, h, hr, fun ha => ⟨ha, rfl⟩⟩

def BufRing.aimed (r : BufRing) (want : ℕ) : BufRing :=
  { r with target := max 1 (min want r.entries) }

theorem TableShape.aimed (h : TableShape r) (want : ℕ) :
    1 ≤ (r.aimed want).target ∧ (r.aimed want).target ≤ r.entries := by
  obtain ⟨k, -, hk⟩ := h.entries
  have hpos : 1 ≤ r.entries := hk ▸ Nat.two_pow_pos k
  exact ⟨le_max_left _ _, max_le hpos (min_le_right _ _)⟩

theorem Table.aimed (h : Table r) (want : ℕ) : Table (r.aimed want) :=
  ⟨{ h with target := h.toTableShape.aimed want }, h.absent⟩

/-- What posting keeps, setting the target keeps up to the point where the tail is published. -/
theorem Table.setTarget (h : Table (r.aimed want))
    (hP : ∀ r bid rest addr, Table r → r.allocated < r.target → r.absent = bid :: rest → P r →
      P ({ r with absent := rest }.describe bid addr))
    (hr : P (r.aimed want)) (alloc : Alloc) :
    ∃ r', Table r' ∧ P r' ∧ (r.setTarget want alloc = some r'.commit ∨
        r.setTarget want alloc = some r' ∧ r' = r.aimed want) := by
  obtain ⟨r', any', hf, ht, hr', ha⟩ :=
    fill_spec hP alloc (r.aimed want).absent.length h hr false
  have hs : r.setTarget want alloc =
      (BufRing.fill alloc (r.aimed want).absent.length (r.aimed want) false).map
        fun out => if out.2 then out.1.commit else out.1 := rfl
  rw [hs, hf]
  refine ⟨r', ht, hr', ?_⟩
  cases any' with
  | true => exact .inl rfl
  | false => exact .inr ⟨rfl, (ha rfl).2⟩

theorem table_unposted {k : ℕ} (hk : k < 16) (buf_len want : ℕ) :
    Table ((BufRing.unposted (2 ^ k) buf_len).aimed want) := by
  have hs : ∀ b : ℕ, (replicate (2 ^ k) Slot.absent)[b]? =
      if b < 2 ^ k then some .absent else none := fun b => by rw [getElem?_replicate]
  refine ⟨⟨⟨k, hk, rfl⟩, rfl, length_replicate, length_replicate, length_replicate,
    ⟨le_max_left _ _, max_le (Nat.two_pow_pos k) (min_le_right _ _)⟩, ?_, ?_,
    nodup_range, fun b hb => ?_⟩, fun b => ?_⟩
  · exact (count_eq_zero.2 fun h => by cases (eq_of_mem_replicate h)).symm
  · exact (count_eq_zero.2 fun h => by cases (eq_of_mem_replicate h)).symm
  · simp only [BufRing.aimed, BufRing.unposted, hs] at hb
    split_ifs at hb <;> simp at hb
  · simp only [BufRing.aimed, BufRing.unposted, hs, mem_range]
    split_ifs with hlt <;> simp [hlt]

/-- A ring that was opened has a power of two of entries, and its first buffers are posted. -/
theorem new_eq_ok {refused : Option Errno} {entries buf_len initial : ℕ} {opened : Option BufRing}
    (h : BufRing.new refused entries buf_len initial alloc = .ok opened) :
    ∃ k < 16, ∃ want ≤ max 1 initial,
      opened = (BufRing.unposted (2 ^ k) buf_len).setTarget want alloc := by
  unfold BufRing.new BufRing.checkedNextPowerOfTwo at h
  split_ifs at h with hw
  cases refused with
  | some e => cases h
  | none =>
    exact ⟨_, (Nat.pow_lt_pow_iff_right (by decide)).1 hw, _,
      max_le_max le_rfl (min_le_left _ _), (Except.ok.inj h).symm⟩

end TruenasRos.Uring
