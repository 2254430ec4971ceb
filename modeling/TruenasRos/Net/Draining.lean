import TruenasRos.Net.HalfClose
import TruenasRos.Net.Sending

/-! # Closes while the server drains

A server that drains closes the connections that are done. Here are the events by which it
closes a connection, and which of them cut off work that is owed or a request that has come in
part.
-/

namespace TruenasRos.Net

open Connection List

namespace Closing

/-- A request has come in part: bytes wait or were taken for it, or the framer says so. -/
def partly (x : Closing) : Bool :=
  decide (0 < x.conn.buffered) || !x.unread.isEmpty || x.verdict.any Framing.inMessage

/-- The connection was done where it was closed for the shutdown. -/
def Drained (x : Closing) : Prop :=
  x.reason = .ShuttingDown → x.conn.owesWork = false ∧ x.partly = false

end Closing

namespace Reactor

variable (cfg : CoreConfig) (r : Reactor)

/-- No connection was closed for the shutdown before it was done. -/
def Drains : Prop := ∀ x ∈ r.log.closed, x.Drained

def goesDown : Bool := r.draining || r.stopping

/-- The events by which a connection is closed for the shutdown, and the connection as it then
stands. -/
inductive ShutsDown : Event → Reactor → Prop
  /-- The sweep at the start finds nothing in flight. -/
  | sweep (h : r.quiesced = true) : ShutsDown .beginDrain { r with draining := true }
  /-- The pump finds no byte that waits. -/
  | pump (verdict fd) (h : (r.pumping verdict).DrainCloses cfg) :
      ShutsDown (.pump verdict fd) (r.pumping verdict)
  /-- A cancelled read brought nothing, but bytes wait or the server stops. -/
  | cancelled (op data picked data_record grew) (hknown : picked ≠ .unknown)
      (hfree : r.conn.teardownOwnsSlot = false) (hdown : r.goesDown = true)
      (hwaits : ¬(r.conn.buffered = 0 ∧ r.draining = true)) :
      ShutsDown (.recv op (.error ECANCELED) data picked data_record grew)
        (r.recvReaped op data picked)
  /-- An exact read was cut short, as its clock has said. -/
  | short (op n data picked data_record grew fired) (hknown : picked ≠ .unknown)
      (hfree : r.conn.teardownOwnsSlot = false) (hdown : r.goesDown = true) (hpos : 0 < n)
      (hlt : n < r.conn.inbox.recv_want) (hexact : r.conn.inbox.recv_exact = true)
      (hplain : r.conn.ktls = false) (hclock : r.clockSays fired) :
      ShutsDown (.recv op (.ok n) data picked data_record grew)
        ((r.recvReaped op data picked).withInbox
          ((r.recvReaped op data picked).conn.inbox.advanceExactPartial n))
  /-- The clock of an exact read reports that was cut short. -/
  | clock (fired was_idle op) (hplace : r.place = .Serving)
      (hfree : r.conn.teardownOwnsSlot = false) (hdown : r.goesDown = true)
      (hstash : r.conn.recv_close_stash = some (was_idle, op)) :
      ShutsDown (.recvClock fired) (r.withStash none)
  | send (fs) (hopen : r.conn.closing = false) (hdown : r.goesDown = true) :
      ShutsDown (.send (.error ECANCELED) fs) (r.reapSend cfg (.error ECANCELED))
  | poll (hopen : r.conn.closing = false) (hdown : r.goesDown = true) :
      ShutsDown (.splicePoll (.error ECANCELED)) ((r.reap .SplicePoll).live .poll)
  /-- A cancelled splice, where its own clock cannot have cancelled it. -/
  | splice (data) (hopen : r.conn.closing = false) (hdown : r.goesDown = true)
      (hclock : ¬(r.conn.ktls = true ∧ cfg.request_timeout = true)) :
      ShutsDown (.spliceRecv (.error ECANCELED) data) (r.spliceReaped data)
  /-- A connection was to leave the ring. -/
  | install (n handler) (hdraining : r.draining = true) (hopen : r.conn.closing = false) :
      ShutsDown (.detachInstall (.ok n) handler)
        ((r.reap .DetachInstall).withPlace .Serving)

/-- A request has come in part by now. -/
def begun : Bool :=
  decide (0 < r.conn.buffered) || !r.log.unread.isEmpty || r.log.verdict.any Framing.inMessage

/-- What there is to cut off when an event closes the connection for the shutdown. -/
def leaves : Event → Bool
  | .beginDrain => r.begun
  | .pump verdict _ => verdict.inMessage || !r.log.unread.isEmpty
  | .recv _ (.error _) _ _ _ _ => r.conn.owesWork || r.begun
  | .detachInstall _ _ => r.conn.outbox.hasPendingSend || r.begun
  -- A short read has brought bytes, a splice has its header before it, and a send its segments.
  | _ => true

/-- A connection is closed for the shutdown before it is done. -/
def CutsOff (e : Event) : Prop :=
  (r.place ≠ .Freed ∧ r.enabled cfg e = true) ∧ (∃ s, r.ShutsDown cfg e s) ∧ r.leaves e = true

/-- What holds of a connection between any two events, on either side. -/
structure Upheld : Prop where
  regular : r.Regular
  dutiful : r.Dutiful
  ledger : r.Ledger cfg

variable {cfg r}

theorem begun_iff : r.begun = true ↔
    0 < r.conn.buffered ∨ r.log.unread ≠ [] ∨ r.log.verdict.any Framing.inMessage = true := by
  simp [begun, or_assoc]

theorem upheld_start (cfg : CoreConfig) (ktls : Bool) : (start cfg ktls).Upheld cfg where
  regular := regular_start cfg ktls
  dutiful := dutiful_start cfg ktls
  ledger := ledger_start cfg ktls

section

variable (h : r.Upheld cfg)
include h

theorem Upheld.step (e : Event) : (r.step cfg e).Upheld cfg where
  regular := h.regular.step e
  dutiful := h.dutiful.step h.regular e
  ledger := h.ledger.step h.regular e

theorem Upheld.tailActive_eq_false (ho : r.conn.closing = false) (hn : r.conn.outstanding = 0) :
    r.conn.outbox.tailActive = false := by
  by_contra ht
  have hpos := h.dutiful.charged.outstanding_pos ho (eq_true_of_ne_false ht)
  omega

theorem Upheld.owesWork_eq_false (ho : r.conn.closing = false) (hn : r.conn.outstanding = 0)
    (hs : r.conn.sending = false) (hp : r.conn.outbox.hasPendingSend = false) :
    r.conn.owesWork = false :=
  owesWork_eq_false_iff.2 ⟨hn, hs, hp, h.tailActive_eq_false ho hn⟩

/-- A connection that is leaving the ring owes nothing but what was pushed to it. -/
theorem Upheld.leaving (hmem : .DetachInstall ∈ r.inflight) :
    r.conn.outstanding = 0 ∧ r.conn.sending = false ∧ r.conn.outbox.tailActive = false := by
  have ha := h.regular.accounted
  have hpl : r.place = .Detaching := ha.detaching_of_mem hmem
  obtain ⟨ho, hz⟩ := ha.away (.inl hpl)
  have hn := h.dutiful.leaving hpl
  refine ⟨hn, ?_, h.tailActive_eq_false ho hn⟩
  have hs : r.conn.recving.toNat + r.conn.sending.toNat + r.conn.splicing.toNat +
      r.conn.splice_polling.toNat = 0 := hz
  exact Bool.toNat_eq_zero.1 (by omega)

end

section

variable (h : r.goesDown = true)
include h

theorem recvCloseReason_goesDown (wi : Bool) :
    r.recvCloseReason cfg (.error ECANCELED) wi = .ShuttingDown := by
  have hd : (r.draining || r.stopping) = true := h
  simp [recvCloseReason, hd]

theorem exactPartialContinues_goesDown (fired wi : Bool) :
    r.exactPartialContinues fired wi = false := by
  unfold goesDown at h
  unfold exactPartialContinues
  cases hd : r.draining <;> cases hs : r.stopping <;> simp_all

theorem settleShortRecv_goesDown (op : Op) (fired wi : Bool) :
    r.settleShortRecv cfg op fired wi = r.closeConn .ShuttingDown := by
  unfold settleShortRecv
  rw [exactPartialContinues_goesDown h, shortRecvReason,
    if_pos (show (r.draining || r.stopping) = true from h)]
  rfl

end

variable {res : Res} {wi fired : Bool} {e : Event} {op : Op}

theorem recvCloseReason_eq_shuttingDown (h : r.recvCloseReason cfg res wi = .ShuttingDown) :
    res = .error ECANCELED ∧ r.goesDown = true := by
  unfold recvCloseReason at h
  split at h
  · split_ifs at h
  · cases h
  · rename_i e
    split_ifs at h with he hd
    subst he
    exact ⟨rfl, hd⟩

theorem shortRecvReason_eq_shuttingDown
    (h : r.shortRecvReason cfg fired wi = .ShuttingDown) : r.goesDown = true := by
  unfold shortRecvReason at h
  split_ifs at h with hd
  · exact hd
  · exact (recvCloseReason_eq_shuttingDown h).2

theorem sendCloseReason_eq_shuttingDown (h : r.sendCloseReason cfg res = .ShuttingDown) :
    res = .error ECANCELED ∧ r.goesDown = true := by
  unfold sendCloseReason at h
  split at h
  · cases h
  · rename_i e
    split_ifs at h with he hd
    subst he
    exact ⟨rfl, hd⟩

theorem spliceCloseReason_eq_shuttingDown {e : Errno}
    (h : r.spliceCloseReason cfg e = .ShuttingDown) :
    e = ECANCELED ∧ r.goesDown = true ∧ ¬(r.conn.ktls = true ∧ cfg.request_timeout = true) := by
  unfold spliceCloseReason at h
  split_ifs at h with hco hc
  obtain ⟨he, hd⟩ := recvCloseReason_eq_shuttingDown h
  obtain rfl : e = ECANCELED := Except.error.inj he
  refine ⟨rfl, hd, ?_⟩
  rintro ⟨hk, ht⟩
  exact hc ⟨hk, ht, .inl rfl⟩

def drained : Rules := { good := Closing.Drained }

theorem buffered_cancelled {data : Bytes} {pk : Picked} {dr grew : Bool}
    (he : r.enabled cfg (.recv op (.error ECANCELED) data pk dr grew) = true) :
    data = [] ∧ (landed r.conn.inbox pk data).buffered = r.conn.buffered := by
  simp only [enabled, recvFits, Bool.and_eq_true, beq_iff_eq, length_eq_zero_iff] at he
  obtain ⟨-, ⟨hd, -⟩, hpk⟩ := he
  refine ⟨hd, (buffered_landed _ pk data).elim id ?_⟩
  rintro ⟨⟨mem, rfl⟩, hz⟩
  simp only [RecvBuf.needsBuffer, Bool.and_eq_true, beq_iff_eq] at hpk
  exact hz.trans hpk.1.1.1.2.symm

/-- What an event leaves undone is what the connection owes, or has begun to read, where the event
closes it. -/
theorem ShutsDown.leaves_iff {s : Reactor} (hu : r.Upheld cfg) (he : r.enabled cfg e = true)
    (h : r.ShutsDown cfg e s) :
    r.leaves e = true ↔ s.conn.owesWork = true ∨ s.begun = true := by
  have ho := hu.regular.orderly
  have ha := hu.regular.accounted
  have hdone : s.conn.owesWork = false →
      (s.begun = true ↔ s.conn.owesWork = true ∨ s.begun = true) :=
    fun hw => (or_iff_right (by simp [hw])).symm
  cases h with
  | sweep h =>
    simp only [quiesced, busy, Bool.and_eq_true, Bool.not_eq_true', Bool.or_eq_false_iff,
      beq_iff_eq] at h
    obtain ⟨⟨⟨⟨-, hop⟩, ⟨⟨-, hs⟩, -⟩, -⟩, hn⟩, hp⟩ := h
    exact hdone (hu.owesWork_eq_false hop hn hs hp)
  | pump verdict fd h =>
    have hb : r.conn.buffered = 0 := h.buffered
    rw [← hdone (hu.owesWork_eq_false (recvStays_eq_false h.stays).1.closing h.outstanding
      h.sending h.pending)]
    simp [leaves, begun, pumping, hb, or_comm]
  | cancelled op data picked =>
    obtain ⟨rfl, hb⟩ := buffered_cancelled he
    have hs : (r.recvReaped op [] picked).begun = r.begun := by
      change (decide (0 < (landed r.conn.inbox picked []).buffered) ||
        !(r.log.unread ++ []).isEmpty || _) = _
      rw [hb, append_nil]
      rfl
    rw [hs]
    exact Bool.or_eq_true_iff
  | short op n data picked data_record grew fired _ _ _ hpos =>
    simp only [enabled, recvFits, Bool.and_eq_true, beq_iff_eq] at he
    refine iff_of_true rfl (.inr (begun_iff.2 (.inr (.inl ?_))))
    exact append_ne_nil_of_right_ne_nil _ (ne_nil_of_length_pos (he.2.1.1 ▸ hpos))
  | clock fired was_idle op _ _ _ hstash =>
    refine iff_of_true rfl (.inr (begun_iff.2 (.inr (.inl ?_))))
    exact (ho.stash was_idle op hstash).2.2.2.2
  | send fs =>
    simp only [enabled, Bool.and_eq_true, decide_eq_true_eq] at he
    refine iff_of_true rfl (.inl (owesWork_of_dry_eq_false (dry_eq_false_of_waits (.inl ?_))))
    exact hu.ledger.queued (.inl (sending_of_mem ha he.1.2))
  | poll =>
    simp only [enabled, Bool.and_eq_true, decide_eq_true_eq] at he
    refine iff_of_true rfl (.inr (begun_iff.2 (.inl (ho.header (.inr ?_)))))
    exact Accounts.Balanced.flag_of_mem (f := .poll) ha.toBalanced rfl he.2
  | splice data =>
    simp only [enabled, Bool.and_eq_true, decide_eq_true_eq] at he
    refine iff_of_true rfl (.inr (begun_iff.2 (.inl (ho.header (.inl ?_)))))
    exact Accounts.Balanced.flag_of_mem (f := .splice) ha.toBalanced rfl he.1.2
  | install n handler hdn hop =>
    simp only [enabled, Bool.and_eq_true, decide_eq_true_eq] at he
    obtain ⟨hn, hs, ht⟩ := hu.leaving he.2
    have hw : r.conn.owesWork = r.conn.outbox.hasPendingSend := by simp [owesWork, hn, hs, ht]
    change (r.conn.outbox.hasPendingSend || r.begun) = true ↔
      r.conn.owesWork = true ∨ r.begun = true
    rw [hw, Bool.or_eq_true_iff]

theorem grants_drained (hu : r.Upheld cfg) (hpl : r.place ≠ .Freed) (hen : r.enabled cfg e = true)
    (h : ¬r.CutsOff cfg e) : r.Grants cfg drained e := by
  have hg : ∀ {s : Reactor}, r.ShutsDown cfg e s → ∀ rs, s.Allows drained rs := by
    intro s hs rs _ _ hr
    have hk := mt (hs.leaves_iff hu hen).2 fun hl => h ⟨⟨hpl, hen⟩, ⟨s, hs⟩, hl⟩
    rw [not_or, Bool.not_eq_true, Bool.not_eq_true] at hk
    exact hk
  have hoh : ∀ (s : Reactor) (rs : CloseReason),
      (rs = .ShuttingDown → r.ShutsDown cfg e s) → s.Allows drained rs := by
    intro s rs hs hj ho hr
    exact hg (hs hr) rs hj ho hr
  cases e with
  | pump vd fd => exact fun hc => hg (.pump vd fd hc) _
  | beginDrain => exact fun hq => hg (.sweep hq) _
  | detachInstall res handler =>
    rintro n rfl hdn hj ho
    exact hg (.install n handler hdn ho) _ hj ho
  | recv op res data picked data_record grew =>
    intro hkn ho hfl
    have hf : r.conn.teardownOwnsSlot = false := by simp [Connection.teardownOwnsSlot, ho, hfl]
    obtain ⟨hw, he'⟩ := landed_arming r.conn.inbox picked data
    constructor
    · intro _ hc
      refine hoh _ _ fun hr => ?_
      obtain ⟨rfl, hd⟩ := recvCloseReason_eq_shuttingDown hr
      refine .cancelled op data picked data_record grew hkn hf hd ?_
      rintro ⟨hem, hdn⟩
      exact hc.drain ⟨(buffered_cancelled hen).2.trans hem, hdn, hr⟩
    · rintro n fired rfl hpos hlt hec hkt hcl _
      refine hoh _ _ fun hr => ?_
      have hd : r.goesDown = true := shortRecvReason_eq_shuttingDown hr
      exact .short op n data picked data_record grew fired hkn hf hd hpos
        (hlt.trans_eq hw) (he'.symm.trans hec) hkt hcl
  | recvClock fired =>
    intro hse wi op hss hf _
    refine hoh _ _ fun hr => ?_
    exact .clock fired wi op hse hf (shortRecvReason_eq_shuttingDown hr) hss
  | splicePoll res =>
    intro e he ho
    refine hoh _ _ fun hr => ?_
    obtain ⟨rfl, hd⟩ := recvCloseReason_eq_shuttingDown hr
    exact .poll ho hd
  | spliceRecv res data =>
    rintro e rfl _ ho
    refine hoh _ _ fun hr => ?_
    obtain ⟨rfl, hd, hcl⟩ := spliceCloseReason_eq_shuttingDown hr
    exact .splice data ho hd hcl
  | send res fs =>
    intro _ hj ho
    refine hoh _ _ (fun hr => ?_) hj ho
    obtain ⟨rfl, hd⟩ := sendCloseReason_eq_shuttingDown hr
    exact .send fs ho hd
  | _ => trivial

theorem pumpGate_of_drainCloses (h : r.DrainCloses cfg) :
    r.pumpGate cfg = (r.closeConn .ShuttingDown, .Stop) := by
  unfold pumpGate
  rw [if_neg (by simp [h.stays]), if_pos (by simp [h.draining, h.buffered]),
    if_pos ⟨h.outstanding, by simp [h.sending], by simp [h.pending]⟩]

theorem driveFileTail_of_closing {fs : FsReady} (h : r.conn.closing = true) :
    r.driveFileTail fs = r := by
  unfold driveFileTail
  split
  · rfl
  · rw [if_pos (by simp [h])]

theorem onRecvResult_cancelled {dr grew : Bool} (hf : r.conn.close_on_flush = none)
    (hpe : r.conn.peer_closed = none) (hd : r.goesDown = true)
    (hw : ¬(r.conn.buffered = 0 ∧ r.draining = true)) :
    r.onRecvResult cfg op (.error ECANCELED) dr grew wi = r.closeConn .ShuttingDown := by
  refine (onRecvResult_of_open hf hpe (by decide)).trans ?_
  change r.finishFailedRecv (r.recvCloseReason cfg (.error ECANCELED) wi) = _
  rw [recvCloseReason_goesDown hd, finishFailedRecv, if_neg fun h => hw ⟨h.1, h.2.1⟩,
    if_neg (by simp), if_neg (by simp)]

theorem shortRecv_goesDown {n : ℕ} (hc : r.clockSays fired)
    (h : r.goesDown = true) : r.shortRecv cfg op n wi =
      (r.withInbox (r.conn.inbox.advanceExactPartial n)).closeConn .ShuttingDown := by
  have hs : ∀ fired, (r.withInbox (r.conn.inbox.advanceExactPartial n)).settleShortRecv cfg op
      fired wi = (r.withInbox (r.conn.inbox.advanceExactPartial n)).closeConn .ShuttingDown := by
    intro fired
    apply settleShortRecv_goesDown
    exact h
  unfold shortRecv
  dsimp only
  unfold clockSays at hc
  split
  · exact hs false
  · rename_i ha
    have ha' : r.conn.recv_clock_armed = true := by simpa [withInbox] using ha
    rw [if_pos ha'] at hc
    have hf : (r.withInbox (r.conn.inbox.advanceExactPartial n)).conn.recv_clock_fired =
        some fired := hc
    rw [hf]
    exact hs fired

theorem ShutsDown.handle_eq {s : Reactor} (hr : r.Regular)
    (he : r.enabled cfg e = true) (h : r.ShutsDown cfg e s) :
    s.conn.closing = false ∧ r.handle cfg e = s.closeConn .ShuttingDown := by
  cases h with
  | sweep h =>
    have ho : r.conn.closing = false := by
      simp only [quiesced, Bool.and_eq_true, Bool.not_eq_true'] at h
      exact h.1.1.1.2
    exact ⟨ho, if_pos h⟩
  | pump verdict fd h =>
    refine ⟨(recvStays_eq_false h.stays).1.closing, ?_⟩
    have hg := pumpGate_of_drainCloses h
    unfold pumping at hg
    simp only [handle, Reactor.pump, hg]
    rfl
  | cancelled op data picked dr grew hk hf hd hw =>
    obtain ⟨ho, hfl⟩ := open_of_not_owned hf
    refine ⟨ho, (onRecv_of_open hk ho).trans ?_⟩
    refine onRecvResult_cancelled hfl (hr.peer_none he) hd fun hem => hw ?_
    exact ⟨(buffered_cancelled he).2.symm.trans hem.1, hem.2⟩
  | short op n data picked dr grew fired hk hf hd hpos hlt hec hpn hc =>
    obtain ⟨ho, hfl⟩ := open_of_not_owned hf
    obtain ⟨hwa, he'⟩ := landed_arming r.conn.inbox picked data
    refine ⟨ho, ?_⟩
    obtain ⟨n, rfl⟩ := Nat.exists_eq_succ_of_ne_zero hpos.ne'
    calc r.handle cfg (.recv op (.ok (n + 1)) data picked dr grew)
      _ = _ := onRecv_of_open hk ho
      _ = _ := onRecvResult_short hfl (hr.peer_none he) hpn (he'.trans hec) (hlt.trans_eq hwa.symm)
      _ = _ := shortRecv_goesDown hc hd
  | clock fired wi op hpl hf hd hss =>
    refine ⟨(open_of_not_owned hf).1, ?_⟩
    simp only [handle]
    rw [if_pos hpl, onRecvClock, if_neg (by simp [hf]), hss]
    exact settleShortRecv_goesDown (r := r.withStash none) hd op fired wi
  | send fs ho hd =>
    refine ⟨ho, ?_⟩
    have hre : (r.reapSend cfg (.error ECANCELED)).sendCloseReason cfg (.error ECANCELED) =
        .ShuttingDown := by
      have hd' : (r.draining || r.stopping) = true := hd
      simp [sendCloseReason, reapSend, toWire, live, opsDown, withConn, reap, hd']
    calc r.handle cfg (.send (.error ECANCELED) fs)
      _ = ((r.reapSend cfg (.error ECANCELED)).onSent cfg (.error ECANCELED)).driveFileTail fs :=
        congrArg (driveFileTail · fs)
          (finish_of_open (r := (r.reap .Send).toWire cfg (.error ECANCELED)) ho _ _)
      _ = ((r.reapSend cfg (.error ECANCELED)).closeConn ((r.reapSend cfg (.error ECANCELED))
          |>.sendCloseReason cfg (.error ECANCELED))).driveFileTail fs := rfl
      _ = ((r.reapSend cfg (.error ECANCELED)).closeConn .ShuttingDown).driveFileTail fs := by
        rw [hre]
      _ = _ := driveFileTail_of_closing (closing_closeConn _ _)
  | poll ho hd =>
    refine ⟨ho, ?_⟩
    have hre : ((r.reap .SplicePoll).live .poll).recvCloseReason cfg (.error ECANCELED) false =
        .ShuttingDown := recvCloseReason_goesDown hd _
    rw [← hre]
    exact finish_of_open (r := r.reap .SplicePoll) ho _ _
  | splice data ho hd hc =>
    refine ⟨ho, ?_⟩
    have hre : (r.spliceReaped data).spliceCloseReason cfg ECANCELED = .ShuttingDown := by
      have hc' : ¬((r.spliceReaped data).conn.ktls = true ∧ cfg.request_timeout = true ∧
          (ECANCELED = ECANCELED ∨ ECANCELED = EINTR ∨ ECANCELED = ERESTARTSYS)) :=
        fun h => hc ⟨h.1, h.2.1⟩
      rw [spliceCloseReason, if_neg (fun h => by cases h.1), if_neg hc']
      exact recvCloseReason_goesDown hd _
    rw [← hre]
    exact finish_of_open (r := { r.reap .SpliceRecv with
      log.unread := r.log.unread ++ data }) ho _ _
  | install n handler hdn ho =>
    refine ⟨ho, ?_⟩
    exact if_pos hdn

theorem drains_iff : r.Drains ↔ r.Judged drained := by
  refine forall₂_congr fun x _ => ⟨fun h _ => h, fun h hr => ?_⟩
  refine h ?_ hr
  rw [hr]
  rfl

theorem CutsOff.breaks (hu : r.Upheld cfg) (h : r.CutsOff cfg e) : ¬(r.handle cfg e).Drains := by
  obtain ⟨⟨-, he⟩, ⟨s, hs⟩, hl⟩ := h
  obtain ⟨ho, heq⟩ := hs.handle_eq hu.regular he
  intro hd
  have hmem : s.closingFor .ShuttingDown ∈ (r.handle cfg e).log.closed := by
    rw [heq, closed_closeConn, ho]
    exact mem_append_right _ (mem_singleton_self _)
  obtain ⟨hos, hpa⟩ := hd _ hmem rfl
  rcases (hs.leaves_iff hu he).1 hl with ho' | hpa'
  · exact Bool.false_ne_true (hos.symm.trans ho')
  · exact Bool.false_ne_true (hpa.symm.trans hpa')

theorem step_drains_iff (e : Event) (hu : r.Upheld cfg) (h : r.Drains) :
    (r.step cfg e).Drains ↔ ¬r.CutsOff cfg e := by
  by_cases he : r.place ≠ .Freed ∧ r.enabled cfg e = true
  · have hs : r.step cfg e = r.handle cfg e := if_pos he
    rw [hs]
    constructor
    · exact fun ha hc => hc.breaks hu ha
    · intro hk
      refine drains_iff.2 (Judged.handle (drains_iff.1 h) hu.regular ?_ he.2
        (grants_drained hu he.1 he.2 hk) trivial trivial)
      exact fun _ _ => nofun
  · have hs : r.step cfg e = r := if_neg he
    rw [hs]
    exact ⟨fun _ hc => he hc.1, fun _ => h⟩

/-- A connection is closed for the shutdown before it is done by these events and no other. -/
theorem drains_iff_free (cfg : CoreConfig) (ktls : Bool) (es : List Event) :
    Steps.Throughout (step cfg) Drains (start cfg ktls) es ↔
      Steps.Free (step cfg) (CutsOff cfg) (start cfg ktls) es := by
  refine Steps.throughout_iff_free ?_ ?_ (upheld_start cfg ktls) ?_ es
  · exact fun r e hu _ _ => hu.step e
  · exact fun r e hu h => step_drains_iff e hu h
  · simp [Drains, start]

/-- A byte of a header has come when the server drains and cancels the read. -/
def cancelledHeader : List Event :=
  [.pump (.Need 2) .usable, .beginDrain, .recv .RecvHeader (.ok 1) [1] .none false false,
    .recvClock false]

/-- A request that has come in part is cut off by the drain. -/
theorem not_drains_cancelledHeader :
    ¬((start readAhead false).run readAhead cancelledHeader).Drains := by
  have hc : ((start readAhead false).run readAhead cancelledHeader).log.closed.map
      (fun x => (x.reason, x.partly)) = [(.ShuttingDown, true)] := by decide
  intro h
  obtain ⟨x, hmem, heq⟩ : ∃ x ∈ ((start readAhead false).run readAhead cancelledHeader).log.closed,
      (x.reason, x.partly) = (.ShuttingDown, true) := by
    rw [← mem_map, hc]
    exact mem_singleton_self _
  obtain ⟨hr, hpa⟩ := Prod.mk.inj heq
  have hn := (h x hmem hr).2
  rw [hpa] at hn
  cases hn

end Reactor

end TruenasRos.Net
