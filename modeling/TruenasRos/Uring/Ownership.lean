import TruenasRos.Lib.RingQueue
import TruenasRos.Lib.Runs
import TruenasRos.Uring.BufRing

/-! # Who holds a buffer

The ring with the kernel at its other end, which takes descriptors in the order they were
posted and reports the ids it took. An id is with one party at a time: it waits in the
ring, the kernel has taken it, a consumer holds it, or nobody does.
-/

namespace TruenasRos.Uring

open BufRing List Nat Option

inductive Op
  | setTarget (want : ℕ) (alloc : Alloc)
  | lend (bid : ℕ)
  | takeLent (bid : ℕ)
  | release (bid : ℕ) (alloc : Alloc)
  | trim
  | takePeak

def BufRing.apply (r : BufRing) : Op → Option BufRing
  | .setTarget want alloc => r.setTarget want alloc
  | .lend bid => some (r.lend bid)
  | .takeLent bid => some (r.takeLent bid).1
  | .release bid alloc => r.release bid alloc
  | .trim => some r.trim
  | .takePeak => some r.takePeak.1

/-- The id whose loan a call records. -/
def Op.loan : Op → Option ℕ
  | .lend bid => some bid
  | .takeLent bid => some bid
  | _ => none

/-- The ring, the kernel's count of descriptors taken, and the ids it took and has not
reported. -/
structure Sys where
  ring : BufRing
  head : ℕ
  taken : List ℕ

inductive Event
  | host (op : Op)
  | consume

/-- A loan is how the host receives the kernel's report. -/
def Sys.step (s : Sys) : Event → Option Sys
  | .host op => (s.ring.apply op).map fun r =>
      { s with ring := r, taken := op.loan.elim s.taken s.taken.erase }
  | .consume =>
    if s.head = s.ring.resv then some s
    else
      (s.ring.ring[s.head &&& s.ring.mask]?).map fun d =>
        { s with head := wrappingInc s.head, taken := d.bid :: s.taken }

/-- The loan of a posted id answers a report of the kernel. -/
def Sys.Reported (s : Sys) : Event → Prop
  | .host op => ∀ b ∈ op.loan, s.ring.slots[b]? = some .posted → b ∈ s.taken
  | .consume => True

def Sys.opened (r : BufRing) : Sys := ⟨r, 0, []⟩

/-- The descriptors that wait for the kernel, the one it takes next first. -/
def Sys.pending (s : Sys) : List IoUringBuf :=
  RingQueue.window 16 (log 2 s.ring.entries) s.ring.ring s.head s.ring.tail

def BufRing.lentIds (r : BufRing) : List ℕ :=
  (List.range r.entries).filter fun b => r.slots[b]? = some .lent

/-- The ring holds the queue `q`; the ids of the queue and those taken are the posted ones. -/
structure Loaded (r : BufRing) (head : ℕ) (taken : List ℕ) (q : List IoUringBuf) : Prop where
  holds : RingQueue.Holds 16 (log 2 r.entries) r.ring head r.tail q
  nodup : (q.map IoUringBuf.bid ++ taken).Nodup
  posted : ∀ b : ℕ, b ∈ q.map IoUringBuf.bid ++ taken ↔ r.slots[b]? = some .posted
  described : ∀ d ∈ q, r.bufs[d.bid]? = some (some d.addr) ∧ d.len = min r.buf_len U32_MAX

variable {r : BufRing} {head bid addr : ℕ} {taken : List ℕ} {q : List IoUringBuf}

theorem TableShape.two_pow_log (h : TableShape r) : 2 ^ log 2 r.entries = r.entries := by
  obtain ⟨k, -, hk⟩ := h.entries
  rw [hk, log_pow (by decide)]

theorem TableShape.and_mask (h : TableShape r) (n : ℕ) :
    n &&& r.mask = n % 2 ^ log 2 r.entries := by
  rw [h.mask, ← h.two_pow_log, log_pow (by decide), and_two_pow_sub_one_eq_mod]

section

variable (h : Loaded r head taken q)
include h

theorem Loaded.room (hr : Limbo r bid) : q.length < 2 ^ log 2 r.entries := by
  have hf : bid ∉ q.map IoUringBuf.bid ++ taken := fun hb => by
    cases hr.limbo.symm.trans ((h.posted bid).1 hb)
  have hs : bid :: (q.map IoUringBuf.bid ++ taken) ⊆ range r.entries := by
    intro b hb
    rw [mem_range, ← hr.slots_len]
    rcases mem_cons.1 hb with rfl | hb
    · exact (List.getElem?_eq_some_iff.1 hr.limbo).1
    · exact (List.getElem?_eq_some_iff.1 ((h.posted b).1 hb)).1
  have hle := ((nodup_cons.2 ⟨hf, h.nodup⟩).subperm hs).length_le
  rw [hr.two_pow_log]
  simp only [length_cons, length_append, length_map, length_range] at hle
  omega

theorem Loaded.describe (hr : Limbo r bid) (addr : ℕ) :
    Loaded (r.describe bid addr) head taken (q ++ [⟨addr, min r.buf_len U32_MAX, bid⟩]) := by
  have hf : bid ∉ q.map IoUringBuf.bid ++ taken := fun hb => by
    cases hr.limbo.symm.trans ((h.posted bid).1 hb)
  have hbid : bid < r.bufs.length := by
    rw [hr.bufs_len, ← hr.slots_len]
    exact (List.getElem?_eq_some_iff.1 hr.limbo).1
  have hpe : (map IoUringBuf.bid (q ++ [⟨addr, min r.buf_len U32_MAX, bid⟩]) ++ taken).Perm
      (bid :: (q.map IoUringBuf.bid ++ taken)) := by
    simp
  refine ⟨?_, hpe.nodup_iff.2 (nodup_cons.2 ⟨hf, h.nodup⟩), fun b => ?_, fun d hd => ?_⟩
  · simp only [BufRing.describe, hr.and_mask]
    exact h.holds.push (h.room hr) _
  · rw [hpe.mem_iff, mem_cons, h.posted b, BufRing.describe, getElem?_set_slot hr.limbo]
    by_cases he : b = bid
    · simp [he]
    · simp [he]
  · rw [BufRing.describe, getElem?_set]
    rcases mem_append.1 hd with hd | hd
    · have hne : bid ≠ d.bid := fun he => hf <| by
        rw [he]
        exact mem_append_left _ (mem_map_of_mem hd)
      rw [if_neg hne]
      exact h.described d hd
    · rw [mem_singleton] at hd
      simp [hd, hbid]

theorem Loaded.handedBack (hs : r.slots[bid]? = some .lent) :
    Loaded (r.handedBack bid) head taken q := by
  refine { h with posted := fun b => ?_ }
  rw [h.posted b, BufRing.handedBack, getElem?_set_slot hs]
  by_cases he : b = bid
  · simp [he, hs]
  · simp [he]

theorem Loaded.lend (hs : r.slots[bid]? = some .posted)
    (hmem : bid ∈ taken) : Loaded (r.lend bid) head (taken.erase bid) q := by
  have hsp := nodup_append.1 h.nodup
  rw [lend_of_posted hs]
  refine ⟨h.holds, ?_, fun b => ?_, h.described⟩
  · exact h.nodup.sublist ((List.Sublist.refl _).append erase_sublist)
  · rw [getElem?_set_slot hs]
    by_cases he : b = bid
    · have ho : bid ∉ q.map IoUringBuf.bid := fun hq => hsp.2.2 bid hq bid hmem rfl
      simp [he, ho, hsp.2.1.mem_erase_iff]
    · rw [if_neg he, ← h.posted b, mem_append, mem_append, mem_erase_of_ne he]

theorem Loaded.trim (hr : TableShape r) : Loaded r.trim head taken q := by
  refine { h with described := fun d hd => ?_ }
  have hpo := (h.posted d.bid).1 (mem_append_left _ (mem_map_of_mem hd))
  rw [getElem?_trim hr, if_neg (by rw [hpo]; decide)]
  exact h.described d hd

end

/-- Between two calls the tail is published. -/
structure Owned (s : Sys) (q : List IoUringBuf) : Prop where
  table : Table s.ring
  published : s.ring.resv = s.ring.tail
  loaded : Loaded s.ring s.head s.taken q

theorem setTarget_loaded {want : ℕ} (ht : Table (r.aimed want)) (hre : r.resv = r.tail)
    (h : Loaded (r.aimed want) head taken q) (alloc : Alloc) :
    ∃ r' more, r.setTarget want alloc = some r' ∧ Owned ⟨r', head, taken⟩ (q ++ more) := by
  obtain ⟨r', ht', ⟨more, hl⟩, hs⟩ :=
    ht.setTarget (P := fun r' => ∃ more, Loaded r' head taken (q ++ more))
      (fun r bid rest addr hr _ ha ⟨more, hm⟩ => by
        have hpop : Loaded { r with absent := rest } head taken (q ++ more) :=
          { hm with }
        have hpo := hpop.describe (hr.pop ha) addr
        rw [append_assoc] at hpo
        exact ⟨_, hpo⟩)
      ⟨[], by rwa [append_nil]⟩ alloc
  rcases hs with heq | ⟨heq, rfl⟩
  · exact ⟨_, more, heq, ht'.commit, rfl, hl.holds, hl.nodup, hl.posted, hl.described⟩
  · exact ⟨_, more, heq, ht', hre, hl⟩

variable {s : Sys}

section

variable (h : Owned s q)
include h

theorem Owned.release (bid : ℕ) (alloc : Alloc) :
    ∃ r' more, s.ring.release bid alloc = some r' ∧ Owned ⟨r', s.head, s.taken⟩ (q ++ more) := by
  by_cases hs : s.ring.slots[bid]? = some .lent
  · have hli := h.table.handedBack hs
    have hl := h.loaded.handedBack hs
    rcases h.table.release_of_lent hs alloc with heq | ⟨addr, heq⟩
    · refine ⟨_, [], heq, hli.push, h.published, ?_⟩
      rw [append_nil]
      exact { hl with }
    · have hpo := hl.describe hli addr
      exact ⟨_, _, heq, (hli.describe addr).commit, rfl,
        hpo.holds, hpo.nodup, hpo.posted, hpo.described⟩
  · exact ⟨_, [], release_of_not_lent hs alloc, h.table, h.published, by
      rw [append_nil]
      exact h.loaded⟩

theorem Owned.lend (hr : s.ring.slots[bid]? = some .posted → bid ∈ s.taken) :
    Owned ⟨s.ring.lend bid, s.head, s.taken.erase bid⟩ q := by
  refine ⟨h.table.lend bid, ?_, ?_⟩
  · by_cases hs : s.ring.slots[bid]? = some .posted
    · rw [lend_of_posted hs]
      exact h.published
    · rw [lend_of_not_posted hs]
      exact h.published
  · by_cases hs : s.ring.slots[bid]? = some .posted
    · exact h.loaded.lend hs (hr hs)
    · have ho : bid ∉ s.taken := fun hmem =>
        hs ((h.loaded.posted bid).1 (mem_append_right _ hmem))
      rw [lend_of_not_posted hs, erase_of_not_mem ho]
      exact h.loaded

omit h in
theorem Table.takeLent_fst (h : Table r) (bid : ℕ) : (r.takeLent bid).1 = r.lend bid := by
  by_cases hs : r.slots[bid]? = some .posted
  · obtain ⟨addr, -, heq⟩ := h.takeLent_of_posted hs
    rw [heq]
  · rw [takeLent_of_not_posted hs, lend_of_not_posted hs]

theorem Owned.host (op : Op) (hr : s.Reported (.host op)) :
    ∃ s' more, s.step (.host op) = some s' ∧ s'.head = s.head ∧ Owned s' (q ++ more) := by
  cases op with
  | setTarget want alloc =>
    obtain ⟨r', more, heq, ho⟩ := setTarget_loaded (h.table.aimed want) h.published
      { h.loaded with } alloc
    exact ⟨⟨r', s.head, s.taken⟩, more, by rw [Sys.step, apply, heq]; rfl, rfl, ho⟩
  | lend bid =>
    refine ⟨_, [], rfl, rfl, ?_⟩
    rw [append_nil]
    exact h.lend (hr bid rfl)
  | takeLent bid =>
    refine ⟨_, [], rfl, rfl, ?_⟩
    rw [append_nil, h.table.takeLent_fst]
    exact h.lend (hr bid rfl)
  | release bid alloc =>
    obtain ⟨r', more, heq, ho⟩ := h.release bid alloc
    exact ⟨⟨r', s.head, s.taken⟩, more, by rw [Sys.step, apply, heq]; rfl, rfl, ho⟩
  | trim =>
    refine ⟨_, [], rfl, rfl, ?_⟩
    rw [append_nil]
    exact ⟨h.table.trim, h.published, h.loaded.trim h.table.toTableShape⟩
  | takePeak =>
    refine ⟨_, [], rfl, rfl, ?_⟩
    rw [append_nil]
    exact ⟨h.table.takePeak, h.published,
      h.loaded.holds, h.loaded.nodup, h.loaded.posted, h.loaded.described⟩

theorem Owned.consume : q = [] ∧ s.step .consume = some s ∨
      ∃ d q', q = d :: q' ∧ Owned ⟨s.ring, wrappingInc s.head, d.bid :: s.taken⟩ q' ∧
        s.step .consume = some ⟨s.ring, wrappingInc s.head, d.bid :: s.taken⟩ := by
  have hem := h.loaded.holds.empty_iff
  rw [Sys.step, h.published]
  cases q with
  | nil => exact .inl ⟨rfl, if_pos (hem.2 rfl)⟩
  | cons d q' =>
    have hf := h.loaded.holds.front
    have hm : (q'.map IoUringBuf.bid ++ d.bid :: s.taken).Perm
        (map IoUringBuf.bid (d :: q') ++ s.taken) := perm_middle
    refine .inr ⟨d, q', rfl, ⟨h.table, h.published, h.loaded.holds.pop,
      hm.nodup_iff.2 h.loaded.nodup, fun b => ?_,
      fun d' hd => h.loaded.described d' (mem_cons_of_mem _ hd)⟩, ?_⟩
    · rw [hm.mem_iff]
      exact h.loaded.posted b
    · have hne : s.head ≠ s.ring.tail := fun he => cons_ne_nil d q' (hem.1 he)
      rw [if_neg hne, h.table.and_mask, hf]
      rfl

theorem Owned.pending : s.pending = q := h.loaded.holds.window_eq

structure OneHolder (s : Sys) : Prop where
  table : Table s.ring
  posted : ∀ b : ℕ, b ∈ s.pending.map IoUringBuf.bid ++ s.taken ↔ s.ring.slots[b]? = some .posted
  nodup : (s.pending.map IoUringBuf.bid ++ s.taken ++ s.ring.lentIds).Nodup
  room : s.pending.length ≤ s.ring.entries
  described : ∀ d ∈ s.pending, s.ring.bufs[d.bid]? = some (some d.addr)

/-- The host only adds descriptors, the kernel only takes the first. -/
def Sys.Keeps (s : Sys) : Event → Sys → Prop
  | .host _, s' => s'.head = s.head ∧ s.pending <+: s'.pending
  | .consume, s' => s.pending = [] ∧ s' = s ∨ ∃ d, s.pending = d :: s'.pending ∧
      s' = ⟨s.ring, wrappingInc s.head, d.bid :: s.taken⟩

theorem Owned.oneHolder : OneHolder s := by
  have hpn := h.pending
  refine ⟨h.table, ?_, ?_, ?_, ?_⟩
  · rw [hpn]
    exact h.loaded.posted
  · rw [hpn]
    refine nodup_append.2 ⟨h.loaded.nodup, nodup_range.filter _, ?_⟩
    rintro b hb c hc rfl
    have hl := (mem_filter.1 hc).2
    rw [(h.loaded.posted b).1 hb] at hl
    exact absurd hl (by decide)
  · rw [hpn, ← h.table.two_pow_log]
    exact h.loaded.holds.room
  · rw [hpn]
    exact fun d hd => (h.loaded.described d hd).1

theorem Owned.step (e : Event) (hr : s.Reported e) :
    ∃ s', s.step e = some s' ∧ s.Keeps e s' ∧ ∃ q', Owned s' q' := by
  cases e with
  | host op =>
    obtain ⟨s', more, heq, hh, ho⟩ := h.host op hr
    refine ⟨s', heq, ⟨hh, ?_⟩, _, ho⟩
    rw [h.pending, ho.pending]
    exact prefix_append q more
  | consume =>
    rcases h.consume with ⟨rfl, heq⟩ | ⟨d, q', rfl, ho, heq⟩
    · exact ⟨s, heq, .inl ⟨h.pending, rfl⟩, [], h⟩
    · refine ⟨_, heq, .inr ⟨d, ?_, rfl⟩, q', ho⟩
      rw [h.pending, ho.pending]

end

theorem Table.apply (h : Table r) (op : Op) : ∃ r', r.apply op = some r' ∧ Table r' := by
  cases op with
  | setTarget want alloc =>
    obtain ⟨r', ht, -, heq | ⟨heq, -⟩⟩ := (h.aimed want).setTarget (P := fun _ => True)
      (fun _ _ _ _ _ _ _ _ => trivial) trivial alloc
    · exact ⟨_, heq, ht.commit⟩
    · exact ⟨_, heq, ht⟩
  | lend bid => exact ⟨_, rfl, h.lend bid⟩
  | takeLent bid => exact ⟨_, rfl, by rw [h.takeLent_fst]; exact h.lend bid⟩
  | release bid alloc => exact h.release bid alloc
  | trim => exact ⟨_, rfl, h.trim⟩
  | takePeak => exact ⟨_, rfl, h.takePeak⟩

theorem owned_new {refused : Option Errno} {entries buf_len initial : ℕ} {alloc : Alloc}
    {opened : Option BufRing} (h : new refused entries buf_len initial alloc = .ok opened) :
    ∃ r q, opened = some r ∧ Owned (Sys.opened r) q := by
  obtain ⟨k, hk, want, -, rfl⟩ := new_eq_ok h
  have ht := table_unposted hk buf_len want
  have hl : Loaded ((unposted (2 ^ k) buf_len).aimed want) 0 [] [] := by
    refine ⟨RingQueue.holds_empty ?_ ?_ (by decide), nodup_nil, fun b => ?_,
      fun d hd => absurd hd not_mem_nil⟩
    · rw [ht.two_pow_log]
      exact ht.ring_len
    · rw [aimed, unposted, log_pow (by decide)]
      exact hk
    · simp [aimed, unposted, getElem?_replicate]
  obtain ⟨r', more, heq, ho⟩ := setTarget_loaded ht rfl hl alloc
  exact ⟨r', _, heq, ho⟩

theorem one_holder_over_every_run (refused : Option Errno) (entries buf_len initial : ℕ)
    (alloc : Alloc) (opened : Option BufRing)
    (hnew : new refused entries buf_len initial alloc = .ok opened) : ∃ r, opened = some r ∧
      (∀ ops : List Op, ∃ r', Runs.run apply r ops = some r' ∧ Table r' ∧ ∀ bid : ℕ,
          (r'.slots[bid]? ≠ some .posted → r'.lend bid = r' ∧ r'.takeLent bid = (r', none)) ∧
          (r'.slots[bid]? ≠ some .lent → ∀ alloc, r'.release bid alloc = some r')) ∧
      ∀ events : List Event, Runs.Allowed Sys.step Sys.Reported (Sys.opened r) events →
        ∃ s, Runs.run Sys.step (Sys.opened r) events = some s ∧ OneHolder s ∧
          ∀ e, s.Reported e → ∃ s', s.step e = some s' ∧ s.Keeps e s' ∧ OneHolder s' := by
  obtain ⟨r, q, rfl, ho⟩ := owned_new hnew
  refine ⟨r, rfl, fun ops => ?_, fun events he => ?_⟩
  · obtain ⟨r', hr, ht⟩ := Runs.run_invariant (fun _ op h _ => h.apply op)
      ho.table (@Runs.allowed_of_forall _ _ _ (fun _ _ => True) (fun _ _ => trivial) r ops)
    exact ⟨r', hr, ht, fun bid =>
      ⟨fun hs => ⟨lend_of_not_posted hs, takeLent_of_not_posted hs⟩,
        fun hs => release_of_not_lent hs⟩⟩
  · have hst : ∀ s e, (∃ q, Owned s q) → s.Reported e →
        ∃ s', s.step e = some s' ∧ ∃ q', Owned s' q' := by
      rintro s e ⟨q, h⟩ hre
      obtain ⟨s', heq, -, ho'⟩ := h.step e hre
      exact ⟨s', heq, ho'⟩
    obtain ⟨s, hr, q', ho'⟩ := Runs.run_invariant hst ⟨q, ho⟩ he
    refine ⟨s, hr, ho'.oneHolder, fun e hre => ?_⟩
    obtain ⟨s', heq, hk, q'', hs'⟩ := ho'.step e hre
    exact ⟨s', heq, hk, hs'.oneHolder⟩

/-- A ring of one buffer, which is posted. -/
def BufRing.single : BufRing where
  ring := [⟨64, 8, 0⟩]
  resv := 1
  bufs := [some 64]
  slots := [.posted]
  entries := 1
  mask := 0
  buf_len := 8
  target := 1
  absent := []
  posted := 1
  lent := 0
  peak := 0
  tail := 1

/-- A buffer is taken, lent, handed back and taken again. -/
theorem one_holder_over_every_run_reposted : new none 1 8 1 (fun _ => some 64) = .ok (some single) ∧
      ∃ s, Runs.run Sys.step (Sys.opened single)
        [.consume, .host (.takeLent 0), .host (.release 0 fun _ => none), .consume] = some s ∧
        s.taken = [0] ∧ OneHolder s := by
  have hn : new none 1 8 1 (fun _ => some 64) = .ok (some single) := by rfl
  obtain ⟨r, hr, -, hrun⟩ := one_holder_over_every_run none 1 8 1 (fun _ => some 64) _ hn
  obtain rfl := some.inj hr
  have ha : Runs.Allowed Sys.step Sys.Reported (Sys.opened single)
      [.consume, .host (.takeLent 0), .host (.release 0 fun _ => none), .consume] := by
    refine ⟨trivial, fun s₁ hs₁ => ?_⟩
    obtain rfl := some.inj hs₁
    exact ⟨fun b hb _ => some.inj hb ▸ mem_singleton_self 0, fun _ _ =>
      ⟨fun b hb => (not_mem_none b hb).elim, fun _ _ => ⟨trivial, fun _ _ => trivial⟩⟩⟩
  obtain ⟨s, hs, ho, -⟩ := hrun _ ha
  refine ⟨hn, s, hs, ?_, ho⟩
  obtain rfl := some.inj hs
  rfl

/-- A direct post leaves its id on the stack. A loan the kernel did not report lets the next
post of a full ring overwrite a descriptor, and the kernel takes one buffer twice. -/
theorem posted_and_absent_or_taken_twice : (∃ r, new none 2 8 1 (fun _ => some 64) = .ok (some r) ∧
      ∃ r', r.post 1 (fun _ => some 96) = some (r', true) ∧
        r'.slots[1]? = some .posted ∧ 1 ∈ r'.absent) ∧
      new none 1 8 1 (fun _ => some 64) = .ok (some single) ∧
      ∃ s, Runs.run Sys.step (Sys.opened single)
        [.host (.lend 0), .host (.release 0 fun _ => none), .consume, .consume] = some s ∧
        s.taken = [0, 0] :=
  ⟨⟨_, rfl, _, rfl, rfl, mem_singleton_self 1⟩, rfl, _, rfl, rfl⟩

end TruenasRos.Uring
