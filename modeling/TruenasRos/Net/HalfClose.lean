import TruenasRos.Net.Heeding

/-! # Closes for a peer that is silent or gone

A connection is closed for its peer's silence, or because its peer has closed, when it owes
nothing. Some events break this: the clock of an idle read that has come back short, and a
handler that takes a connection off the ring.
-/

namespace TruenasRos.Net

open List Connection

/-- The connection owed nothing where it was closed for a peer that is silent or gone. -/
def Closing.Due (x : Closing) : Prop :=
  x.reason = .IdleTimeout ∨ x.reason = .PeerClosed → x.conn.owesWork = false

namespace Reactor

variable {cfg : CoreConfig} {R : Rules} {r r' : Reactor} {rs : CloseReason} {e : Event}

/-- No connection was closed for a peer that is silent or gone while it owed work. -/
def KeepsOwed (r : Reactor) : Prop := ∀ x ∈ r.log.closed, x.Due

def Judged (R : Rules) (r : Reactor) : Prop :=
  ∀ x ∈ r.log.closed, x.reason.judged = true → R.good x

theorem closed_closeConn (r : Reactor) (rs : CloseReason) : (r.closeConn rs).log.closed =
      if r.conn.closing then r.log.closed else r.log.closed ++ [r.closingFor rs] := by
  unfold closeConn
  split_ifs <;> rfl

section

variable (h : r.Judged R)
include h

theorem Judged.closeConn (hg : r.Allows R rs) : (r.closeConn rs).Judged R := by
  unfold Judged
  rw [closed_closeConn]
  cases hc : r.conn.closing with
  | true => exact h
  | false =>
    refine forall_mem_append.2 ⟨h, forall_mem_singleton.2 ?_⟩
    exact fun hj => hg hj hc

theorem Judged.of_eq (heq : r'.log.closed = r.log.closed) : r'.Judged R := by
  unfold Judged
  rw [heq]
  exact h

theorem Judged.move (ho : r.Orderly)
    (hpe : ∀ r : Reactor, r.conn.owesWork = false → R.good (r.closingFor .PeerClosed))
    (hm : Move cfg R r r') : r'.Judged R := by
  cases hm with
  | data | stash | raise | reaped | peerClosed | idle => exact h
  | reapedClosing => exact h.of_eq (view_reapClosing (·.log.closed) rfl rfl)
  | out hout =>
    cases hout with
    | pump | timers | stop | drain | evict | flush | reply | vectored | push | answer | defer
      | retire | chunk | reads | chunks | shutdown | detach | leave | back | submitSend
      | sent => exact h
    | close rs _ hg => exact h.closeConn hg
    | closeFlushed rs _ hf => exact Judged.closeConn h (Allows.of_plain (ho.flush rs hf))
    | closePeer rs _ hs _ hd hn =>
      obtain ⟨rfl, -⟩ := ho.peer rs hs
      refine Judged.closeConn h fun _ _ => hpe _ ?_
      exact owesWork_eq_false_iff.2 ⟨hn, dry_eq_true_iff.1 hd⟩
    | workerClose req_id => exact Judged.closeConn h (Allows.of_plain rfl)
    | deferFile => exact h.of_eq rfl
    | startFile => exact h.of_eq (view_armIf (·.log.closed) rfl)
    | lastChunk tail =>
      refine h.of_eq ((view_handedOver (·.log.closed) (fun _ => rfl) fun _ _ => rfl).trans ?_)
      exact view_kickSend (·.log.closed) rfl
    | sendFailed res => cases res <;> exact h
    | sendReaped res =>
      refine h.of_eq ((view_reapClosing (·.log.closed) rfl rfl).trans ?_)
      cases res <;> rfl

theorem Judged.handle (hr : r.Regular)
    (hpe : ∀ r : Reactor, r.conn.owesWork = false → R.good (r.closingFor .PeerClosed))
    (he : r.enabled cfg e = true) (hg : r.Grants cfg R e) (ha : R.accepts)
    (hs : R.settles) : (r.handle cfg e).Judged R := by
  by_cases hc : e = .closed
  · subst hc
    rw [(handle_closed hr he).2]
    exact h
  · have hed : Ended cfg R r (r.handle cfg e) :=
      ended_handle hr hc he hg (fun _ => ha) fun _ => hs
    exact (hed.invariant (I := fun r => r.Judged R ∧ r.Orderly)
      (fun _ _ h hm => ⟨h.1.move h.2 hpe hm, h.2.move hm⟩)
      (fun _ _ h _ => ⟨h.1, h.2.of_eq rfl⟩) (fun _ _ h _ => ⟨h.1, h.2.of_eq rfl⟩)
      ⟨h, hr.orderly⟩).1

end

/-- The clock of an idle read would end the connection although it owes work. -/
structure IdleCloses (cfg : CoreConfig) (r : Reactor) : Prop where
  draining : r.draining = false
  stopping : r.stopping = false
  timeout : cfg.idle_timeout = true
  owes : r.conn.owesWork = true

/-- An exact idle read comes back short after its clock has fired. -/
structure CutsIdle (r : Reactor) (op : Op) (res : Res) (picked : Picked) : Prop where
  free : r.conn.teardownOwnsSlot = false
  known : picked ≠ .unknown
  plain : r.conn.ktls = false
  header : op = .RecvHeader
  idle : r.conn.recv_idle = true
  exact : r.conn.inbox.recv_exact = true
  armed : r.conn.recv_clock_armed = true
  fired : r.conn.recv_clock_fired = some true
  short : ∃ n, res = .ok n ∧ 0 < n ∧ n < r.conn.inbox.recv_want

/-- The clock of an exact idle read fires that has come back short. -/
structure ClockCuts (r : Reactor) : Prop where
  task : r.task.isIdle = true
  place : r.place = .Serving
  free : r.conn.teardownOwnsSlot = false
  stash : ∃ op, r.conn.recv_close_stash = some (true, op)

/-- The events by which a connection is closed for its peer's silence while it owes work, or is
taken off the ring after its peer has closed. -/
def Abandons (cfg : CoreConfig) (r : Reactor) : Event → Prop
  | .recv op res data picked data_record grew =>
    r.enabled cfg (.recv op res data picked data_record grew) = true ∧
      r.CutsIdle op res picked ∧ r.IdleCloses cfg
  | .recvClock fired => fired = true ∧ r.ClockCuts ∧ r.IdleCloses cfg
  | .respond _ => r.takesOff = true
  | _ => False

variable {res : Res} {wi grew : Bool} {op : Op} {data : Bytes} {pk : Picked} {n : ℕ}

theorem recvCloseReason_silent
    (h : r.recvCloseReason cfg res wi = .IdleTimeout ∨ r.recvCloseReason cfg res wi = .PeerClosed) :
    wi = true := by
  cases wi with
  | true => rfl
  | false =>
    unfold recvCloseReason at h
    repeat' split at h
    all_goals simp_all

theorem recvCloseReason_canceled (h : r.recvCloseReason cfg (.error ECANCELED) wi = .IdleTimeout ∨
      r.recvCloseReason cfg (.error ECANCELED) wi = .PeerClosed) :
    r.draining = false ∧ r.stopping = false ∧ cfg.idle_timeout = true := by
  have hid := recvCloseReason_silent h
  subst hid
  unfold recvCloseReason at h
  rw [if_pos rfl] at h
  split_ifs at h with hd hid
  · simp at h
  · simp only [Bool.or_eq_true, not_or, Bool.not_eq_true] at hd
    exact ⟨hd.1, hd.2, by simpa using hid⟩
  all_goals simp_all

theorem shortRecvReason_silent {fired : Bool} (h : r.shortRecvReason cfg fired wi = .IdleTimeout ∨
      r.shortRecvReason cfg fired wi = .PeerClosed) :
    fired = true ∧ wi = true ∧ r.draining = false ∧ r.stopping = false ∧
      cfg.idle_timeout = true := by
  unfold shortRecvReason at h
  split_ifs at h with hd hf
  · simp at h
  · exact ⟨hf, recvCloseReason_silent h, recvCloseReason_canceled h⟩
  · simp at h

theorem due_of_ne (hid : rs ≠ .IdleTimeout)
    (hpe : rs ≠ .PeerClosed) (r : Reactor) : (r.closingFor rs).Due := by
  rintro (h | h)
  · exact absurd h hid
  · exact absurd h hpe

theorem sendCloseReason_ne (r : Reactor) (res : Res) :
    r.sendCloseReason cfg res ≠ .IdleTimeout ∧ r.sendCloseReason cfg res ≠ .PeerClosed := by
  unfold sendCloseReason
  split
  · simp
  · split_ifs <;> simp

def due : Rules := { good := Closing.Due }

theorem clockSays_true (h : r.clockSays true) :
    r.conn.recv_clock_armed = true ∧ r.conn.recv_clock_fired = some true := by
  unfold clockSays at h
  split at h
  · next ha => exact ⟨ha, h⟩
  · cases h

theorem grants_due (hr : r.Regular) (hd : r.Dutiful) (hen : r.enabled cfg e = true)
    (h : ¬r.Abandons cfg e) : r.Grants cfg due e := by
  have hdr : ∀ r : Reactor, r.Allows due .ShuttingDown := by
    intro r _ _
    exact due_of_ne (by decide) (by decide) r
  cases e with
  | pump | beginDrain => exact fun _ => hdr _
  | detachInstall => exact fun _ _ _ => hdr _
  | recv op res data pk data_record grew =>
    intro hk hon hfl
    obtain ⟨hwa, he'⟩ := landed_arming r.conn.inbox pk data
    constructor
    · intro _ hc _ _ hs
      have hw := recvCloseReason_silent hs
      rw [Bool.and_eq_true] at hw
      have he : (r.recvReaped op data pk).conn.buffered = 0 :=
        (buffered_landed _ pk data).elim (·.trans (hr.orderly.idle (hr.recving hen) hw.2)) (·.2)
      rcases hs with hs | hs
      · have hn : ¬(0 < r.conn.outstanding ∨ r.conn.sending = true ∨
            r.conn.outbox.hasPendingSend = true ∨ r.conn.served_since_idle_arm = true) :=
          fun hso => hc.idle ⟨he, hs, hso⟩
        simp only [not_or, not_lt, Nat.le_zero, Bool.not_eq_true] at hn
        refine owesWork_eq_false_iff.2
          ⟨hn.1, hn.2.1, hn.2.2.1, eq_false_of_ne_true fun ht => ?_⟩
        exact (hd.charged.outstanding_pos hon ht).ne' hn.1
      · exact eq_false_of_ne_true fun hos => hc.peer ⟨he, hs, hos⟩
    · intro n fired hres hpos hlt hec hkt hcl _ _ _ hs
      obtain ⟨rfl, hw, hdn, hst, ht⟩ := shortRecvReason_silent hs
      rw [Bool.and_eq_true, decide_eq_true_eq] at hw
      have hf : r.conn.recv_clock_armed = true ∧ r.conn.recv_clock_fired = some true :=
        clockSays_true hcl
      refine eq_false_of_ne_true fun ho => h ⟨hen, ?_, ?_⟩
      · exact
          { free := by simp [teardownOwnsSlot, hon, hfl]
            known := hk
            plain := hkt
            header := hw.1
            idle := hw.2
            exact := he'.symm.trans hec
            armed := hf.1
            fired := hf.2
            short := ⟨n, hres, hpos, hlt.trans_eq hwa⟩ }
      · exact ⟨hdn, hst, ht, ho⟩
  | recvClock fired =>
    intro hpl wi op hss hod _ _ _ hs
    obtain ⟨rfl, rfl, hdn, hst, ht⟩ := shortRecvReason_silent hs
    refine eq_false_of_ne_true fun ho => h ⟨rfl, ?_, ?_⟩
    · exact ⟨hen, hpl, hod, op, hss⟩
    · exact ⟨hdn, hst, ht, ho⟩
  | splicePoll res =>
    intro e he _ _ _ hs
    cases recvCloseReason_silent hs
  | spliceRecv res data =>
    intro e he _ _ _ _ hs
    change r.spliceCloseReason cfg e = _ ∨ r.spliceCloseReason cfg e = _ at hs
    unfold spliceCloseReason at hs
    split_ifs at hs
    · simp at hs
    · simp at hs
    · cases recvCloseReason_silent hs
  | send res fs =>
    intro _ _ _
    exact due_of_ne (sendCloseReason_ne _ _).1 (sendCloseReason_ne _ _).2 _
  | _ => trivial

theorem keepsOwed_iff : r.KeepsOwed ↔ r.Judged due := by
  refine forall₂_congr fun x _ => ⟨fun h _ => h, fun h hs => ?_⟩
  refine h ?_ hs
  rcases hs with hr | hr <;> rw [hr] <;> rfl

theorem not_keepsOwed_closeConn (ho : r.conn.closing = false)
    (hos : r.conn.owesWork = true) : ¬(r.closeConn .IdleTimeout).KeepsOwed := by
  intro h
  have hmem : r.closingFor .IdleTimeout ∈ (r.closeConn .IdleTimeout).log.closed := by
    rw [closed_closeConn, ho]
    exact mem_append_right _ (mem_singleton_self _)
  have hn : r.conn.owesWork = false := h _ hmem (.inl rfl)
  rw [hos] at hn
  cases hn

theorem settleShortRecv_idle (h : r.IdleCloses cfg) :
    r.settleShortRecv cfg op true true = r.closeConn .IdleTimeout := by
  have hr : r.shortRecvReason cfg true true = .IdleTimeout := by
    unfold shortRecvReason recvCloseReason
    simp [h.draining, h.stopping, h.timeout]
  unfold settleShortRecv
  rw [if_neg (by simp [exactPartialContinues]), hr]

theorem shortRecv_idle (ha : r.conn.recv_clock_armed = true)
    (hf : r.conn.recv_clock_fired = some true) (h : r.IdleCloses cfg) : r.shortRecv cfg op n true =
      (r.withInbox (r.conn.inbox.advanceExactPartial n)).closeConn .IdleTimeout := by
  have hf' : (r.withInbox (r.conn.inbox.advanceExactPartial n)).conn.recv_clock_fired =
      some true := hf
  unfold shortRecv
  rw [if_neg (by simp [withInbox, ha]), hf']
  exact settleShortRecv_idle { h with }

theorem recvResult_short {i : Inbox} (he : i.recv_exact = true) (hlt : n < i.recv_want) :
    i.recvResult (.ok n) false = (i, .Failed) := by
  unfold Inbox.recvResult
  dsimp only
  rw [if_pos he, if_neg hlt.ne, if_neg (by simp)]

theorem onRecvResult_of_open {dr grew : Bool} (hf : r.conn.close_on_flush = none)
    (hpe : r.conn.peer_closed = none) (hr : isError res ENOBUFS = false) :
    r.onRecvResult cfg op res dr grew wi =
      (r.withInbox (r.conn.inbox.recvResult res (r.conn.ktls && dr)).1).onRecvOutcome cfg
        (r.conn.inbox.recvResult res (r.conn.ktls && dr)).2 op res (r.conn.ktls && !dr) wi := by
  unfold onRecvResult
  rw [if_neg (by simp [hf, hpe]), if_neg (by simp [hr])]

theorem onRecvResult_short {dr : Bool} (hf : r.conn.close_on_flush = none)
    (hpe : r.conn.peer_closed = none) (hk : r.conn.ktls = false)
    (he : r.conn.inbox.recv_exact = true) (hlt : n + 1 < r.conn.inbox.recv_want) :
    r.onRecvResult cfg op (.ok (n + 1)) dr grew wi = r.shortRecv cfg op (n + 1) wi := by
  rw [onRecvResult_of_open hf hpe rfl, hk, Bool.false_and, Bool.false_and,
    recvResult_short he hlt]
  rfl

theorem onRecv_of_open {dr : Bool} (hk : pk ≠ .unknown) (ho : r.conn.closing = false) :
    (r.reap op).onRecv cfg op res data pk dr grew =
      (r.recvReaped op data pk).onRecvResult cfg op res dr grew
        (decide (op = .RecvHeader) && r.conn.recv_idle) := by
  unfold onRecv
  split
  · exact absurd rfl hk
  · unfold onRecvComplete
    rw [finish_of_open]
    · rfl
    · exact ho

theorem onRecv_cutsIdle {dr : Bool} (h : r.CutsIdle op res pk)
    (hc : r.IdleCloses cfg) (hpe : r.conn.peer_closed = none) :
    ∃ i, (r.reap op).onRecv cfg op res data pk dr grew =
      ((r.recvReaped op data pk).withInbox i).closeConn .IdleTimeout := by
  obtain ⟨ho, hf⟩ := open_of_not_owned h.free
  obtain ⟨hw, he⟩ := landed_arming r.conn.inbox pk data
  obtain ⟨n, rfl, hpos, hlt⟩ := h.short
  obtain ⟨n, rfl⟩ := Nat.exists_eq_succ_of_ne_zero hpos.ne'
  have hid : (decide (op = .RecvHeader) && r.conn.recv_idle) = true := by simp [h.header, h.idle]
  have hsh : (r.recvReaped op data pk).shortRecv cfg op (n + 1) true = _ :=
    shortRecv_idle h.armed h.fired { hc with }
  refine ⟨_, Eq.trans ?_ hsh⟩
  rw [onRecv_of_open h.known ho, hid]
  exact onRecvResult_short hf hpe h.plain (he.trans h.exact) (hlt.trans_eq hw.symm)

theorem Abandons.breaks (hr : r.Regular) (hd : r.Dutiful) (h : r.Abandons cfg e) :
    ¬((r.handle cfg e).KeepsOwed ∧ (r.handle cfg e).Heeds) := by
  cases e with
  | recv op res data pk dr grew =>
    obtain ⟨he, hc, hcs⟩ := h
    obtain ⟨i, heq⟩ : ∃ i, (r.reap op).onRecv cfg op res data pk dr grew =
        ((r.recvReaped op data pk).withInbox i).closeConn .IdleTimeout :=
      onRecv_cutsIdle hc hcs (hr.peer_none he)
    rintro ⟨hk, -⟩
    have ho := (open_of_not_owned hc.free).1
    refine not_keepsOwed_closeConn (r := (r.recvReaped op data pk).withInbox i) ho
      hcs.owes ?_
    rw [← heq]
    exact hk
  | recvClock fired =>
    obtain ⟨rfl, hc, hcs⟩ := h
    obtain ⟨op, hss⟩ := hc.stash
    have heq : r.handle cfg (.recvClock true) = (r.withStash none).closeConn .IdleTimeout := by
      simp only [handle]
      rw [if_pos hc.place, onRecvClock, if_neg (by simp [hc.free]), hss]
      exact settleShortRecv_idle { hcs with }
    rintro ⟨hk, -⟩
    rw [heq] at hk
    exact not_keepsOwed_closeConn (r := r.withStash none) (open_of_not_owned hc.free).1
      hcs.owes hk
  | respond fs =>
    change r.takesOff = true at h
    unfold takesOff at h
    split at h
    · rename_i req_id hts
      rw [Bool.and_eq_true] at h
      have hpl : (r.handle cfg (.respond fs)).place = .Detaching ∧
          (r.handle cfg (.respond fs)).conn = r.conn := by
        have hs : (r.withTask .pump).settled = true := h.1
        simp only [handle, hts, respondTo, hs]
        exact ⟨rfl, rfl⟩
      have hs := h.1
      simp only [settled, Bool.and_eq_true, Bool.not_eq_true', beq_iff_eq] at hs
      obtain ⟨⟨⟨⟨⟨ho, -⟩, hb⟩, hz⟩, -⟩, hpn⟩ := hs
      have hse : r.conn.sending = false := by
        simp only [busy, Bool.or_eq_false_iff] at hb
        exact hb.1.1.2
      have ht : r.conn.outbox.tailActive = false :=
        eq_false_of_ne_true fun ht =>
          (hd.charged.outstanding_pos ho ht).ne' hz
      have hos := owesWork_eq_false_iff.2 ⟨hz, hse, hpn, ht⟩
      rintro ⟨-, hh⟩
      rw [Heeds, hpl.1, hpl.2, ho, hos] at hh
      simpa using hh h.2
    · cases h
  | _ => exact h.elim

/-- What holds beside it as long as no work is lost. -/
structure Serves (r : Reactor) : Prop where
  regular : r.Regular
  dutiful : r.Dutiful
  flushes : r.Flushes

theorem Abandons.enabled (hr : r.Regular) (h : r.Abandons cfg e) :
    r.place ≠ .Freed ∧ r.enabled cfg e = true := by
  have hs : ∀ {r : Reactor}, r.place = .Serving → r.place ≠ .Freed := by
    intro r hpl
    rw [hpl]
    decide
  cases e with
  | recv op res data pk data_record grew =>
    obtain ⟨he, hc, -⟩ := h
    have hmem : op ∈ r.inflight := by
      simp only [Reactor.enabled, Bool.and_eq_true, decide_eq_true_eq] at he
      exact he.1.1.2
    have hf : op.flag = some .recv := by
      rw [hc.header]
      rfl
    exact ⟨hs (Accounts.Sound.serving_of_mem hr.accounted hf hmem), he⟩
  | recvClock fired =>
    obtain ⟨-, hc, -⟩ := h
    exact ⟨hs hc.place, hc.task⟩
  | respond fs =>
    change r.takesOff = true at h
    unfold takesOff at h
    split at h
    · rename_i req_id ht
      have hb : r.task.isRespond = true := by
        rw [ht]
        rfl
      exact ⟨hs (hr.working (.inr hb)).place, hb⟩
    · cases h
  | _ => exact h.elim

/-- One event loses no work unless it is one of those that do. -/
theorem step_keepsOwed_iff (e : Event) (hs : r.Serves) (hk : r.KeepsOwed) (hh : r.Heeds) :
    ((r.step cfg e).KeepsOwed ∧ (r.step cfg e).Heeds ↔ ¬r.Abandons cfg e) ∧
      (¬r.Abandons cfg e → (r.step cfg e).Serves) := by
  by_cases he : r.place ≠ .Freed ∧ r.enabled cfg e = true
  · have hst : r.step cfg e = r.handle cfg e := if_pos he
    have hg : ¬r.Abandons cfg e → (r.handle cfg e).KeepsOwed ∧ (r.handle cfg e).Heedful := by
      intro h
      constructor
      · refine keepsOwed_iff.2 (Judged.handle (keepsOwed_iff.1 hk) hs.regular ?_ he.2
          (grants_due hs.regular hs.dutiful he.2 h) trivial trivial)
        exact fun _ hn _ => hn
      · refine Heedful.handle ⟨hs.flushes, hh⟩ hs.regular hs.dutiful he.2 ?_
        rintro fs rfl
        exact eq_false_of_ne_true h
    rw [hst]
    refine ⟨⟨fun ha h => h.breaks hs.regular hs.dutiful ha, fun h => ?_⟩, fun h => ?_⟩
    · exact ⟨(hg h).1, (hg h).2.peer⟩
    · exact ⟨hs.regular.handle he.2, hs.dutiful.handle hs.regular he.2, (hg h).2.flush⟩
  · have hst : r.step cfg e = r := if_neg he
    have hc : ¬r.Abandons cfg e := fun h => he (h.enabled hs.regular)
    rw [hst]
    exact ⟨⟨fun _ => hc, fun _ => ⟨hk, hh⟩⟩, fun _ => hs⟩

theorem serves_start (cfg : CoreConfig) (ktls : Bool) : (start cfg ktls).Serves where
  regular := regular_start cfg ktls
  dutiful := dutiful_start cfg ktls
  flushes := nofun

/-- The idle clock and a half-close lose an owed reply by three kinds of events and no other. -/
theorem keepsOwed_heeds_iff (cfg : CoreConfig) (ktls : Bool) (es : List Event) :
    Steps.Throughout (step cfg) (fun r => r.KeepsOwed ∧ r.Heeds) (start cfg ktls) es ↔
      Steps.Free (step cfg) (Abandons cfg) (start cfg ktls) es := by
  refine Steps.throughout_iff_free ?_ ?_ (serves_start cfg ktls) ?_ es
  · rintro r e hs ⟨hk, hh⟩
    exact (step_keepsOwed_iff e hs hk hh).2
  · rintro r e hs ⟨hk, hh⟩
    exact (step_keepsOwed_iff e hs hk hh).1
  · exact ⟨by simp [KeepsOwed, start], nofun⟩

/-- A request is with a worker when half a header of the next has come and the clock fires. -/
def halfHeader : List Event :=
  [.pump (.Need 2) .usable, .recv .RecvHeader (.ok 2) [1, 2] .none false false,
    .pump (.Complete 2 0) .usable, .deliver false (.Defer true), .respond .ready,
    .pump (.Need 2) .usable, .recv .RecvHeader (.ok 1) [3] .none false false, .recvClock true]

/-- A request that a worker has is lost when the idle clock cuts the next header short. -/
theorem not_keepsOwed_halfHeader :
    ¬((start readAhead false).run readAhead halfHeader).KeepsOwed := by
  have hc : ((start readAhead false).run readAhead halfHeader).log.closed.map
      (fun x => (x.reason, x.conn.owesWork)) = [(.IdleTimeout, true)] := by decide
  intro h
  obtain ⟨x, hmem, heq⟩ : ∃ x ∈ ((start readAhead false).run readAhead halfHeader).log.closed,
      (x.reason, x.conn.owesWork) = (.IdleTimeout, true) := by
    rw [← mem_map, hc]
    exact mem_singleton_self _
  obtain ⟨hr, ho⟩ := Prod.mk.inj heq
  have hn := h x hmem (.inl hr)
  rw [ho] at hn
  cases hn

end Reactor

end TruenasRos.Net
