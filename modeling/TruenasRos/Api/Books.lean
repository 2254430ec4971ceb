import TruenasRos.Api.Moves

/-! # The books of a session

What the budget, the backlog and the entries of the outstanding calls say of each other, kept by
every function of the session. The backlog is a run of calls that were refused and wait to be
sent again, followed by a run of calls that were never sent.
-/

namespace TruenasRos.Api

open List Ordered TruenasRos.Ws Nat Prod

def frameBytes (backlog : Backlog) : ℕ := (backlog.map fun e => e.2.length).sum

@[simp] theorem frameBytes_nil : frameBytes [] = 0 := rfl

@[simp] theorem frameBytes_cons (id : Id) (frame : Bytes) (b : Backlog) :
    frameBytes ((id, frame) :: b) = frame.length + frameBytes b := by
  simp [frameBytes]

@[simp] theorem frameBytes_append (b b' : Backlog) :
    frameBytes (b ++ b') = frameBytes b + frameBytes b' := by
  simp [frameBytes]

variable {b : Backlog} {l wire' : List Id} {id : Id}

def sentCount (entries : List (Id × Pending)) : ℕ := entries.countP (·.2.sent)

def unsentIds (entries : List (Id × Pending)) : List Id :=
  (entries.filter (!·.2.sent)).map fst

section Entries

variable {l₁ l₂ entries : List (Id × Pending)} {id : Id} {p : Pending}

@[simp] theorem sentCount_middle : sentCount (l₁ ++ (id, p) :: l₂) =
    sentCount (l₁ ++ l₂) + if p.sent then 1 else 0 := by
  simp only [sentCount, List.countP_append, List.countP_cons]
  omega

theorem unsentIds_middle_of_sent (h : p.sent = true) :
    unsentIds (l₁ ++ (id, p) :: l₂) = unsentIds (l₁ ++ l₂) := by
  simp [unsentIds, h]

theorem unsentIds_middle_of_unsent (h : p.sent = false) :
    (unsentIds (l₁ ++ (id, p) :: l₂)).Perm (id :: unsentIds (l₁ ++ l₂)) := by
  simp only [unsentIds, filter_append, filter_cons, h, Bool.not_false, if_true,
    map_append, map_cons]
  exact perm_middle

theorem mem_unsentIds : id ∈ unsentIds entries ↔ ∃ p, (id, p) ∈ entries ∧ p.sent = false := by
  simp [unsentIds]

theorem nodup_unsentIds (h : (entries.map fst).Nodup) : (unsentIds entries).Nodup :=
  h.sublist (filter_sublist.map _)

end Entries

/-- The backlog: calls to be sent again, and behind them calls that were never sent. -/
structure Queue (s : Session) (wire submitted : List Id) (again fresh : Backlog) :
    Prop where
  backlog : s.backlog = again ++ fresh
  again_bytes : ∀ e ∈ again, e.2.length ≤ s.max_outbound
  again_sent : ∀ e ∈ again, e.1 ∈ wire
  slots : again.length + sentCount s.pending.entries ≤ CALL_BUDGET
  fresh_length : fresh.length ≤ s.max_queued
  fresh_bytes : frameBytes fresh ≤ s.max_queued_bytes
  fresh_unsent : ∀ e ∈ fresh, e.1 ∉ wire
  order : (wire.eraseDups ++ fresh.map fst).Sublist submitted

/-- The books, given the requests that were put on the wire and those that were taken on. -/
structure Books (c : Codec) (s : Session) (wire submitted : List Id) : Prop where
  budget : s.budget + sentCount s.pending.entries = CALL_BUDGET
  unsent : (s.backlog.map fst).Perm (unsentIds s.pending.entries)
  bytes : s.queued_bytes = frameBytes s.backlog
  queue : ∃ again fresh, Queue s wire submitted again fresh
  on_wire : ∀ e ∈ s.pending.entries, e.2.sent = true → e.1 ∈ wire
  frames : ∀ e ∈ s.pending.entries, ∀ frame, e.2.retry_frame = some frame →
    frame.length ≤ s.max_outbound
  minted : ∀ id ∈ submitted, ∃ n < s.caller, id = c.mint n
  known : ∀ e ∈ s.pending.entries, e.1 ∈ submitted

/-- What the books say of the entry of one call. -/
structure Recorded (s : Session) (wire submitted : List Id) (e : Id × Pending) : Prop where
  on_wire : e.2.sent = true → e.1 ∈ wire
  frames : ∀ frame, e.2.retry_frame = some frame → frame.length ≤ s.max_outbound
  known : e.1 ∈ submitted

theorem eraseDups_concat_of_mem (h : id ∈ l) : (l ++ [id]).eraseDups = l.eraseDups := by
  rw [eraseDups_append]
  simp [removeAll, h]

theorem eraseDups_concat_of_notMem (h : id ∉ l) : (l ++ [id]).eraseDups = l.eraseDups ++ [id] := by
  rw [eraseDups_append]
  simp [removeAll, h, eraseDups_cons]

/-- The front of the backlog leaves it, whether it is then on the wire or not. -/
theorem Queue.pop {s : Session} {wire sb : List Id} {again fresh rest : Backlog}
    {x : Id × Bytes} {pending : Ordered Id Pending} {budget queued_bytes : ℕ}
    (h : Queue s wire sb again fresh) (hb : s.backlog = x :: rest)
    (hc : sentCount pending.entries ≤ CALL_BUDGET)
    (hc' : sentCount pending.entries ≤ sentCount s.pending.entries + 1) (hw : wire ⊆ wire')
    (hf : ∀ e ∈ rest, e.1 ∉ wire → e.1 ∉ wire')
    (ho : wire'.eraseDups.Sublist (wire ++ [x.1]).eraseDups) :
    ∃ again fresh, Queue { s with pending, budget, queued_bytes, backlog := rest } wire' sb again
      fresh := by
  have hs := hb.symm.trans h.backlog
  cases again with
  | nil =>
    subst hs
    rw [eraseDups_concat_of_notMem (h.fresh_unsent x mem_cons_self)] at ho
    refine ⟨[], rest, rfl, nofun, nofun, ?_, le_of_succ_le h.fresh_length,
      le_of_add_left_le h.fresh_bytes,
      fun e he => hf e he (h.fresh_unsent e (mem_cons_of_mem _ he)), ?_⟩
    · rwa [length_nil, zero_add]
    · refine (ho.append_right _).trans ?_
      rw [append_assoc]
      exact h.order
  | cons e again =>
    obtain ⟨rfl, rfl⟩ := List.cons.inj hs
    rw [eraseDups_concat_of_mem (h.again_sent x mem_cons_self)] at ho
    refine ⟨again, fresh, rfl, fun e he => h.again_bytes e (mem_cons_of_mem _ he),
      fun e he => hw (h.again_sent e (mem_cons_of_mem _ he)), ?_, h.fresh_length, h.fresh_bytes,
      fun e he => hf e (mem_append_right _ he) (h.fresh_unsent e he),
      (ho.append_right _).trans h.order⟩
    have hsl := h.slots
    rw [length_cons] at hsl
    dsimp only
    omega

namespace Books

variable {c : Codec} {s : Session} {wire sb : List Id}

theorem new (key : String) (legacy : Bool) (mo mi mq bytes : ℕ) :
    Books c (.new key legacy mo mi mq bytes) [] [] where
  budget := rfl
  unsent := .nil
  bytes := rfl
  queue := ⟨[], [], rfl, nofun, nofun, zero_le _, zero_le _, zero_le _, nofun,
    List.Sublist.slnil⟩
  on_wire := nofun
  frames := nofun
  minted := nofun
  known := nofun

theorem congr {phase frag subs caller close_reason backoff_armed backoff_until}
    (h : Books c s wire sb) (hc : s.caller ≤ caller) :
    Books c { s with phase, frag, subs, caller, close_reason, backoff_armed, backoff_until } wire
      sb := by
  obtain ⟨again, fresh, q⟩ := h.queue
  refine { h with queue := ⟨again, fresh, { q with }⟩, minted := ?_ }
  intro id hid
  obtain ⟨n, hn, rfl⟩ := h.minted id hid
  exact ⟨n, lt_of_lt_of_le hn hc, rfl⟩

variable {id : Id} {frame : Bytes} {rest : Backlog} {p : Pending}

theorem recorded (h : Books c s wire sb) {e : Id × Pending} (he : e ∈ s.pending.entries) :
    Recorded s wire sb e :=
  ⟨h.on_wire e he, h.frames e he, h.known e he⟩

theorem of_recorded (hbu : s.budget + sentCount s.pending.entries = CALL_BUDGET)
    (hu : (s.backlog.map fst).Perm (unsentIds s.pending.entries))
    (hby : s.queued_bytes = frameBytes s.backlog) (hq : ∃ again fresh, Queue s wire sb again fresh)
    (hm : ∀ id ∈ sb, ∃ n < s.caller, id = c.mint n)
    (hr : ∀ e ∈ s.pending.entries, Recorded s wire sb e) : Books c s wire sb :=
  ⟨hbu, hu, hby, hq, fun e he => (hr e he).on_wire, fun e he => (hr e he).frames, hm,
    fun e he => (hr e he).known⟩

section

variable (h : Books c s wire sb)
include h

section

variable (hb : s.backlog = (id, frame) :: rest)
include hb

/-- The entry of the front of the backlog, and what is left of the ids that are not sent. -/
theorem unsent_front {l₁ l₂ : List (Id × Pending)} (hen : s.pending.entries = l₁ ++ (id, p) :: l₂)
    (hu : p.sent = false) : (rest.map fst).Perm (unsentIds (l₁ ++ l₂)) := by
  have hpe := h.unsent
  rw [hb, hen, map_cons] at hpe
  exact (hpe.trans (unsentIds_middle_of_unsent hu)).cons_inv

theorem bytes_front : s.queued_bytes - frame.length = frameBytes rest := by
  have hby := h.bytes
  rw [hb, frameBytes_cons] at hby
  omega

theorem get_front : ∃ p, s.pending.get id = some p ∧ p.sent = false := by
  have hmem : id ∈ unsentIds s.pending.entries := by
    rw [← h.unsent.mem_iff, hb]
    exact mem_cons_self
  obtain ⟨p, hp, hs⟩ := mem_unsentIds.1 hmem
  exact ⟨p, get_of_mem hp, hs⟩

theorem drop (hg : s.pending.get id = some p) :
    Books c { s.popped frame (s.pending.remove id) with backlog := rest } wire sb := by
  obtain ⟨q, hq, hu⟩ := h.get_front hb
  obtain rfl : q = p := Option.some_inj.1 (hq.symm.trans hg)
  obtain ⟨l₁, l₂, hen, hr, -, -⟩ := exists_split hg
  have hs : ∀ e ∈ (s.pending.remove id).entries, e ∈ s.pending.entries :=
    fun e he => mem_of_mem_filter he
  have hc : sentCount (s.pending.remove id).entries = sentCount s.pending.entries := by
    rw [hr, hen, sentCount_middle, hu]
    simp
  obtain ⟨again, fresh, hqu⟩ := h.queue
  refine .of_recorded ?_ (hr ▸ h.unsent_front hb hen hu) (h.bytes_front hb) ?_ h.minted
    fun e he => { h.recorded (hs e he) with }
  · rw [← h.budget, ← hc]
    rfl
  · refine hqu.pop hb (hc ▸ h.budget ▸ le_add_left _ _) (hc ▸ le_succ _) (Subset.refl _)
      (fun _ _ hw => hw) ?_
    rw [eraseDups_append]
    exact sublist_append_left _ _

theorem launch (hbu : s.budget ≠ 0) (hg : s.pending.get id = some p) :
    Books c { s.launched id frame p with backlog := rest } (wire ++ [id]) sb := by
  obtain ⟨q, hq, hu⟩ := h.get_front hb
  obtain rfl : q = p := Option.some_inj.1 (hq.symm.trans hg)
  obtain ⟨l₁, l₂, hen, -, hin, -⟩ := exists_split hg
  have hn := hin { q with sent := true }
  have hmem : ∀ e ∈ (s.launched id frame q).pending.entries,
      e = (id, { q with sent := true }) ∨ e ∈ s.pending.entries :=
    fun e he => mem_insert he
  have hc : sentCount (s.launched id frame q).pending.entries =
      sentCount s.pending.entries + 1 := by
    rw [Session.launched, hn, hen, sentCount_middle, sentCount_middle, hu]
    simp
  have huq : id ∉ rest.map fst := by
    have hno := h.unsent.nodup_iff.2 (nodup_unsentIds s.pending.nodup)
    rw [hb, map_cons, nodup_cons] at hno
    exact hno.1
  have hf : ∀ e ∈ rest, e.1 ∉ wire → e.1 ∉ wire ++ [id] := by
    intro e he hw
    rw [mem_append, mem_singleton, not_or]
    exact ⟨hw, fun heq => huq (heq ▸ mem_map_of_mem he)⟩
  have hbo := h.budget
  obtain ⟨again, fresh, hqu⟩ := h.queue
  refine .of_recorded ?_ ?_ (h.bytes_front hb) ?_ h.minted ?_
  · change s.budget - 1 + sentCount (s.launched id frame q).pending.entries = CALL_BUDGET
    omega
  · change (rest.map fst).Perm (unsentIds (s.pending.insert id _).entries)
    rw [hn, unsentIds_middle_of_sent rfl]
    exact h.unsent_front hb hen hu
  · exact hqu.pop hb (hc.trans_le (by omega)) hc.le (subset_append_left _ _) hf (.refl _)
  · intro e he
    rcases hmem e he with rfl | he
    · exact { h.recorded (mem_of_get hg) with
        on_wire := fun _ => mem_append_right _ (mem_singleton_self id) }
    · exact { h.recorded he with on_wire := fun hs => mem_append_left _ (h.on_wire e he hs) }

end

end

theorem drained {out : Session × List Act}
    (h : Books c { s with backlog := b } wire sb) (hd : s.Drains b out) :
    Books c out.1 (wire ++ requests out.2) sb := by
  induction hd generalizing wire with
  | stop =>
    rw [requests_nil, append_nil]
    exact h
  | stray hg =>
    obtain ⟨p, hp, -⟩ := h.get_front rfl
    rw [hg] at hp
    cases hp
  | drop hg _ _ ih => exact ih (h.drop rfl hg)
  | send hb hg _ _ ih =>
    have ho := ih (h.launch rfl hb hg)
    rw [append_assoc] at ho
    exact ho

section

variable (h : Books c s wire sb)
include h

theorem credit (hg : s.pending.get id = some p) (hse : p.sent = true) (refused : Bool) :
    Books c (s.credit id refused) wire sb := by
  obtain ⟨l₁, l₂, hen, hr, -, -⟩ := exists_split hg
  have hs : ∀ e ∈ (s.pending.remove id).entries, e ∈ s.pending.entries :=
    fun e he => mem_of_mem_filter he
  have hc : sentCount s.pending.entries = sentCount (s.credit id refused).pending.entries + 1 := by
    rw [Session.credit, hr, hen, sentCount_middle, hse]
    rfl
  have hb := h.budget
  obtain ⟨again, fresh, hq⟩ := h.queue
  refine .of_recorded ?_ ?_ h.bytes ⟨again, fresh, { hq with slots := ?_ }⟩ h.minted
    fun e he => { h.recorded (hs e he) with }
  · change s.budget + 1 + sentCount (s.credit id refused).pending.entries = CALL_BUDGET
    omega
  · have hpe := h.unsent
    rw [hen, unsentIds_middle_of_sent hse, ← hr] at hpe
    exact hpe
  · have hsl := hq.slots
    omega

theorem reissue (hg : s.pending.get id = some p)
    (hse : p.sent = true) (hf : p.retry_frame = some frame) (refused : Bool) :
    Books c ((s.credit id refused).reissue id p frame) wire sb := by
  obtain ⟨l₁, l₂, hen, hr, -, hk⟩ := exists_split hg
  set p' : Pending := { p with sent := false, retries := p.retries + 1 } with hp'
  have hn : ((s.pending.remove id).insert id p').entries = l₁ ++ l₂ ++ [(id, p')] := by
    rw [entries_insert_of_notMem (by rw [Ordered.keys, hr]; exact hk), hr]
  have hmem : ∀ e ∈ ((s.pending.remove id).insert id p').entries,
      e = (id, p') ∨ e ∈ s.pending.entries := by
    intro e he
    rcases mem_insert he with rfl | he
    · exact .inl rfl
    · exact .inr (mem_of_mem_filter he)
  have ho := mem_of_get hg
  have hc : sentCount s.pending.entries =
      sentCount ((s.pending.remove id).insert id p').entries + 1 := by
    rw [hn, hen, sentCount_middle, sentCount_middle, hse]
    simp
  have hb := h.budget
  obtain ⟨again, fresh, hq⟩ := h.queue
  have hsl := hq.slots
  refine .of_recorded ?_ ?_ ?_ ⟨(id, frame) :: again, fresh, { hq with
    backlog := ?_, again_bytes := ?_, again_sent := ?_, slots := ?_ }⟩ h.minted ?_
  · change s.budget + 1 + sentCount ((s.pending.remove id).insert id p').entries = CALL_BUDGET
    omega
  · have hpe := h.unsent
    rw [hen, unsentIds_middle_of_sent hse] at hpe
    change (id :: s.backlog.map fst).Perm
      (unsentIds ((s.pending.remove id).insert id p').entries)
    rw [hn]
    refine (hpe.cons id).trans ?_
    simpa using (@unsentIds_middle_of_unsent (l₁ ++ l₂) [] id p' rfl).symm
  · change s.queued_bytes + frame.length = frameBytes ((id, frame) :: s.backlog)
    rw [frameBytes_cons, h.bytes, add_comm]
  · exact congrArg ((id, frame) :: ·) hq.backlog
  · intro e he
    rcases mem_cons.1 he with rfl | he
    · exact h.frames (id, p) ho frame hf
    · exact hq.again_bytes e he
  · intro e he
    rcases mem_cons.1 he with rfl | he
    · exact h.on_wire (id, p) ho hse
    · exact hq.again_sent e he
  · change (again.length + 1) + sentCount ((s.pending.remove id).insert id p').entries ≤ CALL_BUDGET
    omega
  · intro e he
    rcases hmem e he with rfl | he
    · exact { h.recorded ho with on_wire := fun hs => by cases hs }
    · exact { h.recorded he with }

theorem mapValues {f : Pending → Pending}
    (hse : ∀ p, (f p).sent = p.sent) (hf : ∀ p, (f p).retry_frame = p.retry_frame) :
    Books c { s with pending := s.pending.mapValues f } wire sb := by
  have hc : sentCount (s.pending.mapValues f).entries = sentCount s.pending.entries := by
    simp [sentCount, Ordered.mapValues, Function.comp_def, hse]
  have hu : unsentIds (s.pending.mapValues f).entries = unsentIds s.pending.entries := by
    simp [unsentIds, Ordered.mapValues, filter_map, Function.comp_def, hse]
  obtain ⟨again, fresh, hq⟩ := h.queue
  refine .of_recorded ?_ ?_ h.bytes ⟨again, fresh, { hq with slots := ?_ }⟩ h.minted ?_
  · rw [hc]
    exact h.budget
  · rw [hu]
    exact h.unsent
  · rw [hc]
    exact hq.slots
  · intro e he
    obtain ⟨e', he', rfl⟩ := mem_map.1 he
    exact ⟨fun hs => h.on_wire e' he' (hse e'.2 ▸ hs),
      fun frame hs => h.frames e' he' frame (hf e'.2 ▸ hs), h.known e' he'⟩

theorem timeOut (now : Instant) : Books c (s.timeOut now).1 wire sb :=
  h.mapValues (fun p => by split <;> rfl) (fun p => by split <;> rfl)

theorem clearBacklog :
    Books c { s with pending := s.pending.retain (·.sent), backlog := [], queued_bytes := 0 }
      wire sb := by
  have hs : ∀ e ∈ (s.pending.retain (·.sent)).entries, e ∈ s.pending.entries :=
    fun e he => mem_of_mem_filter he
  have hc : sentCount (s.pending.retain (·.sent)).entries = sentCount s.pending.entries := by
    simp [sentCount, retain, countP_filter]
  obtain ⟨again, fresh, hq⟩ := h.queue
  have hsl := hq.slots
  refine .of_recorded ?_ ?_ rfl
    ⟨[], [], rfl, by simp, by simp, ?_, zero_le _, zero_le _, by simp, ?_⟩ h.minted
    fun e he => { h.recorded (hs e he) with }
  · rw [hc]
    exact h.budget
  · have hnil : unsentIds (s.pending.retain (·.sent)).entries = [] := by
      simp [unsentIds, retain]
    rw [hnil]
    exact .nil
  · rw [hc, length_nil]
    omega
  · rw [map_nil, append_nil]
    exact (sublist_append_left _ _).trans hq.order

theorem failOutstanding (why : String) : Books c (s.failOutstanding why).1 wire sb :=
  h.clearBacklog.mapValues (fun p => by split <;> rfl) (fun p => by split <;> rfl)

end

section Submit

section

variable (h : Books c s wire sb)
include h

theorem next_notMem : c.mint s.caller ∉ sb := by
  intro hmem
  obtain ⟨n, hn, heq⟩ := h.minted _ hmem
  exact hn.ne' (c.mint_injective heq)

theorem mem_submitted (hid : id ∈ wire) : id ∈ sb := by
  obtain ⟨again, fresh, hq⟩ := h.queue
  exact hq.order.subset (mem_append_left _ (mem_eraseDups.2 hid))

theorem entries_next (p : Pending) :
    (s.pending.insert (c.mint s.caller) p).entries =
      s.pending.entries ++ [(c.mint s.caller, p)] := by
  refine entries_insert_of_notMem fun hmem => ?_
  obtain ⟨e, he, hk⟩ := mem_map.1 hmem
  exact h.next_notMem (hk ▸ h.known e he)

theorem minted_next : ∀ id ∈ sb ++ [c.mint s.caller], ∃ n < s.caller + 1, id = c.mint n := by
  intro id hid
  rcases mem_append.1 hid with hid | hid
  · obtain ⟨n, hn, rfl⟩ := h.minted id hid
    exact ⟨n, lt_succ_of_lt hn, rfl⟩
  · exact ⟨s.caller, lt_succ_self _, mem_singleton.1 hid⟩

theorem recorded_next (hw : wire ⊆ wire') (hse : p.sent = true → c.mint s.caller ∈ wire')
    (hp : ∀ frame, p.retry_frame = some frame → frame.length ≤ s.max_outbound) :
    ∀ e ∈ (s.pending.insert (c.mint s.caller) p).entries,
      Recorded s wire' (sb ++ [c.mint s.caller]) e := by
  intro e he
  rw [h.entries_next p] at he
  rcases mem_append.1 he with he | he
  · exact ⟨fun hs => hw (h.on_wire e he hs), h.frames e he, mem_append_left _ (h.known e he)⟩
  · rw [mem_singleton.1 he]
    exact ⟨hse, hp, mem_append_right _ (mem_singleton_self _)⟩

/-- A call is sent as it is submitted, which happens only when nothing waits before it. -/
theorem sentNow (hbu : s.budget ≠ 0) (hb : s.backlog = []) (hse : p.sent = true)
    (hp : ∀ frame, p.retry_frame = some frame → frame.length ≤ s.max_outbound) :
    Books c (s.sentNow c p) (wire ++ [c.mint s.caller]) (sb ++ [c.mint s.caller]) := by
  have hen := h.entries_next p
  have hc : sentCount (s.sentNow c p).pending.entries = sentCount s.pending.entries + 1 := by
    rw [Session.sentNow, hen, sentCount_middle, hse, append_nil]
    rfl
  have hbo := h.budget
  have hn : c.mint s.caller ∉ wire := fun hmem => h.next_notMem (h.mem_submitted hmem)
  obtain ⟨again, fresh, hq⟩ := h.queue
  refine .of_recorded ?_ ?_ h.bytes
    ⟨[], [], hb, nofun, nofun, ?_, zero_le _, zero_le _, nofun, ?_⟩ h.minted_next
    fun e he => { h.recorded_next (subset_append_left _ _)
      (fun _ => mem_append_right _ (mem_singleton_self _)) hp e he with }
  · change s.budget - 1 + sentCount (s.sentNow c p).pending.entries = CALL_BUDGET
    omega
  · change (s.backlog.map fst).Perm (unsentIds (s.pending.insert _ p).entries)
    rw [hen, unsentIds_middle_of_sent hse, append_nil]
    exact h.unsent
  · rw [hc, length_nil]
    omega
  · rw [eraseDups_concat_of_notMem hn, map_nil, append_nil]
    exact ((sublist_append_left _ _).trans hq.order).append_right _

/-- A call is queued as it is submitted, within the caps of the backlog. -/
theorem queuedNow (hlen : s.backlog.length < s.max_queued)
    (hb : s.queued_bytes + frame.length ≤ s.max_queued_bytes) (hse : p.sent = false)
    (hp : ∀ frame, p.retry_frame = some frame → frame.length ≤ s.max_outbound) :
    Books c (s.queuedNow c p frame) wire (sb ++ [c.mint s.caller]) := by
  have hen := h.entries_next p
  have hc : sentCount (s.queuedNow c p frame).pending.entries = sentCount s.pending.entries := by
    rw [Session.queuedNow, hen, sentCount_middle, hse, append_nil]
    rfl
  have hn : c.mint s.caller ∉ wire := fun hmem => h.next_notMem (h.mem_submitted hmem)
  obtain ⟨again, fresh, hq⟩ := h.queue
  refine .of_recorded ?_ ?_ ?_ ⟨again, fresh ++ [(c.mint s.caller, frame)], ?_, hq.again_bytes,
    hq.again_sent, ?_, ?_, ?_, ?_, ?_⟩ h.minted_next
    fun e he => { h.recorded_next (Subset.refl _)
      (fun hs => nomatch hse.symm.trans hs) hp e he with }
  · rw [hc]
    exact h.budget
  · change ((s.backlog ++ [(c.mint s.caller, frame)]).map fst).Perm
      (unsentIds (s.pending.insert _ p).entries)
    rw [hen, map_append]
    refine ((h.unsent.append_right _).trans perm_append_comm).trans ?_
    simpa using (@unsentIds_middle_of_unsent s.pending.entries [] (c.mint s.caller) p hse).symm
  · change s.queued_bytes + frame.length = frameBytes (s.backlog ++ [(c.mint s.caller, frame)])
    rw [frameBytes_append, h.bytes]
    simp
  · rw [Session.queuedNow, hq.backlog, append_assoc]
  · rw [hc]
    exact hq.slots
  · rw [hq.backlog, length_append] at hlen
    change (fresh ++ [(c.mint s.caller, frame)]).length ≤ s.max_queued
    rw [length_append, length_singleton]
    omega
  · rw [h.bytes, hq.backlog, frameBytes_append] at hb
    change frameBytes (fresh ++ [(c.mint s.caller, frame)]) ≤ s.max_queued_bytes
    rw [frameBytes_append, frameBytes_cons, frameBytes_nil]
    omega
  · refine forall_mem_append.2 ⟨hq.fresh_unsent, forall_mem_singleton.2 ?_⟩
    exact hn
  · rw [map_append, ← append_assoc]
    exact hq.order.append_right _

end

end Submit

end Books

end TruenasRos.Api
