import TruenasRos.Net.Moves

/-! # Every event is a sequence of moves

The receive side, and with it every event, is taken apart into moves. A close that must not lose
work is allowed by an assumption on the event.
-/

namespace TruenasRos.Net

open Accounts.Sound Option

variable {rs : CloseReason} {vd : Framing}

theorem needStep_close {n buffered max_request_bytes : ℕ} {in_message : Bool}
    (h : needStep n buffered max_request_bytes in_message = .Close rs) : rs.judged = false := by
  unfold needStep at h
  repeat' split at h
  all_goals cases h
  all_goals rfl

theorem frameStep_close {buffered max_request_bytes : ℕ}
    {body_placement_threshold : Option ℕ}
    (h : frameStep vd buffered max_request_bytes body_placement_threshold = .Close rs) :
    rs.judged = false := by
  cases vd with
  | Need n | NeedInMessage n => exact needStep_close h
  | More | MoreInMessage => cases h
  | Invalid =>
    cases h
    rfl
  | Complete header_len body_len | SpliceBody header_len body_len =>
    simp only [frameStep] at h
    repeat' split at h
    all_goals cases h
    all_goals rfl

/-- The header of a body that is spliced waits in the buffer. -/
theorem frameStep_splice {buffered max_request_bytes header_len body_len : ℕ}
    {body_placement_threshold : Option ℕ}
    (h : frameStep vd buffered max_request_bytes body_placement_threshold =
      .SpliceBody header_len body_len) : 0 < buffered := by
  unfold frameStep needStep at h
  repeat' split at h
  all_goals cases h
  omega

/-- Whether the event may take up an answer. -/
def Event.accepts : Event → Prop
  | .respond _ | .push _ | .reply _ _ | .replyClose _ _ => True
  | _ => False

/-- Whether the event may do with work that is owed, or ask for a close once it is. -/
def Event.settles : Event → Prop
  | .pump _ _ | .respond _ | .send _ _ | .replyClose _ _ | .done _ | .redeliver _ | .pushClose
  | .detachInstall _ _ | .detachResume | .detachClose => True
  | _ => False

def Event.receives : Event → Bool
  | .pump _ _ | .deliver _ _ | .recv _ _ _ _ _ _ | .recvClock _ | .splicePoll _ | .spliceRecv _ _
  | .redeliver _ => true
  | _ => false

namespace Reactor

variable {cfg : CoreConfig} {R : Rules} {r : Reactor} {op : Op} {f : Flag}
variable {rs : CloseReason} {fs : FsReady}

/-- What holds of a connection between any two moves. -/
structure Orderly (r : Reactor) : Prop where
  recv_alone : r.conn.recving = true → r.conn.splicing = false ∧ r.conn.splice_polling = false
  splice_alone : r.conn.splicing = true → r.conn.splice_polling = false
  stash : ∀ was_idle op, r.conn.recv_close_stash = some (was_idle, op) →
    r.conn.recving = false ∧ r.conn.splicing = false ∧ r.conn.splice_polling = false ∧
      op.flag = some .recv ∧ r.log.unread ≠ []
  header : r.conn.splicing = true ∨ r.conn.splice_polling = true → 0 < r.conn.buffered
  /-- An idle read has no byte of a message before it. -/
  idle : r.conn.recving = true → r.conn.recv_idle = true → r.conn.buffered = 0
  tidy : r.conn.outbox.next_file = none ∧ r.conn.outbox.next_file_pending = []
  flush : ∀ reason, r.conn.close_on_flush = some reason → reason.judged = false
  peer : ∀ reason, r.conn.peer_closed = some reason → reason = .PeerClosed ∧ r.Still

/-- A connection whose message or answer is being dealt with: a message is taken off the stream
before anything else is read. -/
structure Working (r : Reactor) : Prop extends r.Open where
  still : r.task = .deliver .FromWire → r.Still

/-- What holds of a connection between any two events. -/
structure Regular (r : Reactor) : Prop where
  accounted : r.Accounted
  orderly : r.Orderly
  working : r.task.isDeliver = true ∨ r.task.isRespond = true → r.Working

theorem Orderly.peer_none (h : r.Orderly) (hb : ¬r.Still) : r.conn.peer_closed = none := by
  cases hpe : r.conn.peer_closed with
  | none => rfl
  | some rs => exact absurd (h.peer rs hpe).2 hb

theorem buffered_armRecv (i : Inbox) (want : ℕ) (exact : Bool) :
    (i.armRecv want exact).buffered = i.buffered := by
  unfold Inbox.armRecv RecvBuf.reserveAt
  dsimp only
  repeat' split
  all_goals rfl

theorem filled_chooseRecvBuf (b : RecvBuf) (want : ℕ) (exact : Bool) :
    (chooseRecvBuf cfg b want exact).filled = b.filled := by
  have hpr : ∀ (b : RecvBuf) (pos want : ℕ), (b.promoteFor pos want).filled = b.filled := by
    intro b pos want
    unfold RecvBuf.promoteFor
    repeat' split
    all_goals rfl
  unfold chooseRecvBuf
  rw [hpr]
  repeat' split
  all_goals rfl

theorem buffered_armInbox_le (i : Inbox) (want : ℕ) (exact place_body : Bool) :
    (armInbox cfg i want exact place_body).buffered ≤ i.buffered := by
  unfold armInbox
  split
  · exact min_le_left _ _
  · rw [buffered_armRecv]
    exact (filled_chooseRecvBuf _ _ _).le

/-- When a failed read ends the connection. -/
structure FailedRecvCloses (r : Reactor) (reason : CloseReason) : Prop where
  drain : ¬(r.conn.buffered = 0 ∧ r.draining ∧ reason = .ShuttingDown)
  idle : ¬(r.conn.buffered = 0 ∧ reason = .IdleTimeout ∧
    (0 < r.conn.outstanding ∨ r.conn.sending ∨ r.conn.outbox.hasPendingSend ∨
      r.conn.served_since_idle_arm))
  peer : ¬(r.conn.buffered = 0 ∧ reason = .PeerClosed ∧ r.conn.owesWork)

/-- Whether the clock of a read has reported, and what. -/
def clockSays (r : Reactor) (fired : Bool) : Prop :=
  if r.conn.recv_clock_armed then r.conn.recv_clock_fired = some fired else fired = false

variable {wi grew fired : Bool} {res : Res} {data : Bytes} {fd : SpliceFd} {e : Event}

namespace Moves

theorem withInbox (i : Inbox) (hq : r.Quiet) : Moves cfg R r (r.withInbox i) :=
  Move.moves (.data r i _ _ _ _ _ _ _ _ (hq.keeps _ _ _))

theorem withTimers (r : Reactor) (t : Timers) : Moves cfg R r (r.withTimers t) :=
  (Out.outs (.timers r t)).moves

theorem close (hpl : r.place = .Serving) (hg : r.Allows R rs) : Moves cfg R r (r.closeConn rs) :=
  (Out.outs (.close _ _ hpl hg)).moves

theorem close_plain (hpl : r.place = .Serving) (h : rs.judged = false) :
    Moves cfg R r (r.closeConn rs) :=
  close hpl (Allows.of_plain h)

theorem pump (r : Reactor) : Moves cfg R r (r.withTask .pump) := (Out.outs (.pump r)).moves

section

variable (hpl : r.place = .Serving) (ho : r.conn.closing = false) (hq : r.Quiet)
include hpl ho hq

theorem raiseRecv (hop : op.flag = some .recv) (idle armed : Bool)
    (hid : idle = true → r.conn.buffered = 0) :
    Moves cfg R r ((r.clocked idle armed).raise .recv op) :=
  (Move.moves (.data r _ _ _ idle _ armed none _ _ (hq.keeps _ _ _))).trans
    (Move.moves (.raise _ _ _ hpl ho ⟨{ hq with }, hq.peer⟩ (by decide) hop (fun _ => hid)
      fun hne => absurd rfl hne))

theorem resubmitRecv (hop : op.flag = some .recv) : Moves cfg R r (r.resubmitRecv cfg op) := by
  unfold Reactor.resubmitRecv
  split
  · exact raiseRecv hpl ho hq hop _ _ nofun
  · exact close_plain hpl rfl

theorem submitSpliceRecv (hb : 0 < r.conn.buffered) (len : ℕ) (first : Bool) :
    Moves cfg R r (r.submitSpliceRecv cfg len first) := by
  have hd : Moves cfg R r { r with
      conn.splice_remaining := len
      conn.timers := spliceTimers cfg r.conn len first } :=
    Move.moves (.data r _ _ len _ _ _ _ _ _ (.same r))
  refine hd.trans
    (Move.moves (.raise _ .splice .SpliceRecv hpl ho ?_ (by decide) rfl nofun fun _ => hb))
  exact ⟨{ hq with }, hq.peer⟩

theorem submitRecv (hop : op.flag = some .recv) (want : ℕ) (exact place_body in_message : Bool) :
    Moves cfg R r (r.submitRecv cfg op want exact place_body in_message) := by
  unfold Reactor.submitRecv
  dsimp only
  split
  · refine ((withInbox _ hq).trans (withTimers _ _)).trans
      (close_plain ?_ ?_)
    · exact hpl
    · rfl
  · refine Relation.ReflTransGen.trans
      ((withInbox _ hq).trans (withTimers _ _)) (raiseRecv ?_ ?_ ?_ hop _ _ ?_)
    · exact hpl
    · exact ho
    · exact ⟨{ hq with }, hq.peer⟩
    · intro hid
      simp only [Bool.and_eq_true, beq_iff_eq] at hid
      exact Nat.le_zero.1 ((buffered_armInbox_le _ _ _ _).trans_eq hid.2)

theorem settleShortRecv (hop : op.flag = some .recv)
    (hg : r.exactPartialContinues fired wi = false → r.Allows R (r.shortRecvReason cfg fired wi)) :
    Moves cfg R r (r.settleShortRecv cfg op fired wi) := by
  unfold Reactor.settleShortRecv
  split
  · exact resubmitRecv hpl ho hq hop
  · next hs => exact close hpl (hg (eq_false_of_ne_true hs))

theorem advanceSplice {n : ℕ} (hb : 0 < r.conn.buffered) :
    Moves cfg R r (r.advanceSplice cfg n) := by
  unfold Reactor.advanceSplice
  dsimp only
  split
  · refine Relation.ReflTransGen.trans ?_ (pump _)
    exact Move.moves (.data r _ _ 0 _ _ _ _ _ _ (hq.keeps _ _ _))
  · exact submitSpliceRecv hpl ho hq hb _ _

theorem onSpliced (hb : 0 < r.conn.buffered)
    (hg : ∀ e, res = .error e → e ≠ EAGAIN → r.Allows R (r.spliceCloseReason cfg e)) :
    Moves cfg R r (r.onSpliced cfg res) := by
  rcases res with e | _ | n
  · unfold Reactor.onSpliced
    dsimp only
    split
    · exact Move.moves (.raise r .poll .SplicePoll hpl ho hq (by decide) rfl nofun fun _ => hb)
    · next hne => exact close hpl (hg e rfl hne)
  · exact close_plain hpl rfl
  · exact advanceSplice hpl ho hq hb

end

theorem onRecvClock (ho : r.Orderly) (hpl : r.place = .Serving)
    (hg : ∀ wi op, r.conn.recv_close_stash = some (wi, op) →
      r.conn.teardownOwnsSlot = false → r.exactPartialContinues fired wi = false →
      (r.withStash none).Allows R (r.shortRecvReason cfg fired wi)) :
    Moves cfg R r (r.onRecvClock cfg fired) := by
  have hc : Moves cfg R r (r.withStash none) := Move.moves (.stash r none (by simp))
  unfold Reactor.onRecvClock
  split
  · exact hc
  · rename_i hod
    have hf := eq_false_of_ne_true hod
    have hon := (open_of_not_owned hf).1
    split
    · rename_i wi op hs
      obtain ⟨hr, hsp, hpo, hop, -⟩ := ho.stash _ _ hs
      have hpe : r.conn.peer_closed = none := ho.peer_none fun hst => by
        rw [hst.stash] at hs
        cases hs
      refine hc.trans (settleShortRecv hpl hon ?_ hop ?_)
      · exact ⟨⟨hr, hsp, hpo, rfl⟩, hpe⟩
      · exact hg wi op hs hf
    · split
      · exact Move.moves (.data r _ _ _ _ _ _ (some true) _ _ (.same r))
      · exact .refl

theorem finishFailedRecv (ho : r.Open) (hq : r.Quiet) (hg : r.FailedRecvCloses rs → r.Allows R rs) :
    Moves cfg R r (r.finishFailedRecv rs) := by
  unfold Reactor.finishFailedRecv
  split
  · exact pump r
  · rename_i hd
    split
    · exact pump r
    · rename_i hid
      split
      · rename_i hpe
        obtain ⟨-, rfl, hos⟩ := hpe
        exact Move.moves (.peerClosed r ho hq hos)
      · next hpe => exact close ho.place (hg ⟨hd, hid, hpe⟩)

theorem shortRecv {n : ℕ} (ho : r.Open) (hq : r.Quiet) (hop : op.flag = some .recv)
    (hun : r.log.unread ≠ [])
    (hg : ∀ fired, r.clockSays fired → r.exactPartialContinues fired wi = false →
      (r.withInbox (r.conn.inbox.advanceExactPartial n)).Allows R
        (r.shortRecvReason cfg fired wi)) : Moves cfg R r (r.shortRecv cfg op n wi) := by
  have hq' : (r.withInbox (r.conn.inbox.advanceExactPartial n)).Quiet :=
    ⟨{ hq with }, hq.peer⟩
  refine (withInbox (r.conn.inbox.advanceExactPartial n) hq).trans ?_
  unfold Reactor.shortRecv
  dsimp only
  split
  · rename_i ha
    refine settleShortRecv ho.place ho.closing hq' hop (hg false ?_)
    have hu : r.conn.recv_clock_armed = false := by simpa [Reactor.withInbox] using ha
    simp [clockSays, hu]
  · rename_i ha
    have ha' : r.conn.recv_clock_armed = true := by simpa [Reactor.withInbox] using ha
    split
    · rename_i fired hf
      refine settleShortRecv ho.place ho.closing hq' hop (hg fired ?_)
      rw [clockSays, if_pos ha']
      exact hf
    · refine Move.moves (.stash _ _ ?_)
      rintro _ _ h
      cases h
      exact ⟨hq', hop, hun⟩

end Moves

/-- The closes that a completed read may lead to are allowed. -/
structure RecvGrants (cfg : CoreConfig) (R : Rules) (r : Reactor) (res : Res)
    (was_idle : Bool) : Prop where
  failed : (∀ n, res = .ok n → n = 0) → r.FailedRecvCloses (r.recvCloseReason cfg res was_idle) →
    r.Allows R (r.recvCloseReason cfg res was_idle)
  short : ∀ n fired, res = .ok n → 0 < n → n < r.conn.inbox.recv_want →
    r.conn.inbox.recv_exact = true → r.conn.ktls = false → r.clockSays fired →
    r.exactPartialContinues fired was_idle = false →
    (r.withInbox (r.conn.inbox.advanceExactPartial n)).Allows R
      (r.shortRecvReason cfg fired was_idle)

theorem recvResult_failed {i i' : Inbox} {dr : Bool} (h : i.recvResult res dr = (i', .Failed)) :
    i' = i ∧ ∀ n, res = .ok (n + 1) → i.recv_exact = true ∧ n + 1 ≠ i.recv_want ∧
      (n + 1 < i.recv_want → dr = false) := by
  unfold Inbox.recvResult at h
  repeat' split at h
  all_goals simp_all
  rintro n rfl
  assumption

theorem Ended.onRecvResult {dr : Bool} (hpl : r.place = .Serving)
    (hc : r.conn.closing = false) (hq : r.Quiet) (hop : op.flag = some .recv)
    (hfi : ∀ n, res = .ok n → n ≤ r.conn.inbox.recv_want ∧ (0 < n → r.log.unread ≠ []))
    (hg : r.conn.close_on_flush = none → r.RecvGrants cfg R res wi) :
    Ended cfg R r (r.onRecvResult cfg op res dr grew wi) := by
  unfold Reactor.onRecvResult
  split
  · exact .done .refl
  · rename_i hs
    have ho : r.Open := by
      refine ⟨hpl, hc, ?_⟩
      simp only [Bool.or_eq_true, not_or, Bool.not_eq_true, isSome_eq_false_iff,
        isNone_iff_eq_none] at hs
      exact hs.1
    split
    · unfold recvBufferShortage
      split_ifs
      · exact .done (Moves.pump r)
      · exact .done (Moves.withTimers r _)
      · exact .done ((Moves.withInbox _ hq).trans (Moves.pump _))
    · rcases hr : r.conn.inbox.recvResult res (r.conn.ktls && dr) with ⟨i, outcome⟩
      have hq' : (r.withInbox i).Quiet :=
        ⟨{ hq with }, hq.peer⟩
      cases outcome with
      | Failed =>
        obtain ⟨rfl, hsh⟩ := recvResult_failed hr
        have hf : (∀ n, res = .ok n → n = 0) →
            Moves cfg R r (r.finishFailedRecv (r.recvCloseReason cfg res wi)) :=
          fun hz => Moves.finishFailedRecv ho hq ((hg ho.flush).failed hz)
        rcases res with e | _ | n
        · exact .done (hf (by simp))
        · exact .done (hf (by simp))
        · obtain ⟨he, hne, hd⟩ := hsh n rfl
          have hlt : n + 1 < r.conn.inbox.recv_want := lt_of_le_of_ne (hfi _ rfl).1 hne
          change Ended cfg R r (if (r.conn.ktls && !dr) = true
            then r.closeConn .TlsControl else r.shortRecv cfg op (n + 1) wi)
          refine .done ?_
          split
          · exact Moves.close_plain hpl rfl
          · rename_i hco
            have hkt : r.conn.ktls = false := by
              cases hk : r.conn.ktls <;> simp_all
            exact Moves.shortRecv ho hq hop ((hfi _ rfl).2 n.succ_pos)
              fun fired => (hg ho.flush).short (n + 1) fired rfl n.succ_pos hlt he hkt
      | Again =>
        exact .done ((Moves.withInbox i hq).trans
          (Moves.resubmitRecv hpl hc hq' hop))
      | Complete =>
        refine (Moves.withInbox i hq).ended ?_
        unfold Reactor.onRecvOutcome
        split
        · exact .done (Moves.close_plain hpl rfl)
        · split
          · exact .deliver _ .refl ⟨hpl, hc, ho.flush⟩ fun _ => hq'.toStill
          · exact .done (Moves.pump _)

theorem Moves.finish {rest : Reactor → Reactor} (hd : Moves cfg R r r') (hf : f ≠ .send)
    (ho : op.flag = some f) (hmem : op ∈ r.inflight)
    (hcl : r'.conn.closing = r.conn.closing) (hin : r'.inflight = r.inflight)
    (hr : r.conn.closing = false →
      Ended cfg R ((r'.reap op).live f) (rest ((r'.reap op).live f))) :
    Ended cfg R r ((r'.reap op).finish f rest) := by
  have hm' : op ∈ r'.inflight := hin ▸ hmem
  cases hc : r.conn.closing with
  | true =>
    have hc' : (r'.reap op).conn.closing = true := hcl.trans hc
    rw [finish_of_closing hc']
    exact .done (hd.trans (Move.moves (.reapedClosing r' f op hf ho hm' hc')))
  | false =>
    have hc' : (r'.reap op).conn.closing = false := hcl.trans hc
    rw [finish_of_open hc']
    have hrp : Moves cfg R r ((r'.reap op).live f) :=
      hd.trans (Move.moves (.reaped r' f op hf ho hm' hc'))
    exact hrp.ended (hr hc)

def recvReaped (r : Reactor) (op : Op) (data : Bytes) (picked : Picked) : Reactor :=
  (({ r with
      conn.inbox := landed r.conn.inbox picked data
      log.unread := r.log.unread ++ data }.reap op).live .recv)

/-- A read leaves the bytes that wait, and is given a pool buffer only where there are none. -/
theorem buffered_landed (i : Inbox) (picked : Picked) (data : Bytes) :
    (landed i picked data).buffered = i.buffered ∨
      (∃ mem, picked = .buffer mem) ∧ (landed i picked data).buffered = 0 := by
  have hw : ∀ (b : RecvBuf) (pos : ℕ), (b.write pos data).filled = b.filled := by
    intro b pos
    unfold RecvBuf.write
    split <;> rfl
  have hl : ∀ i : Inbox, (i.land data).buffered = i.buffered := by
    intro i
    unfold Inbox.land
    split_ifs
    · split
      · rfl
      · exact hw _ _
    · exact hw _ _
  cases picked with
  | none | unknown => exact .inl (hl i)
  | buffer mem => exact .inr ⟨⟨mem, rfl⟩, hl _⟩

theorem landed_arming (i : Inbox) (picked : Picked) (data : Bytes) :
    (landed i picked data).recv_want = i.recv_want ∧
      (landed i picked data).recv_exact = i.recv_exact := by
  unfold landed Inbox.land
  cases picked <;> dsimp only <;> split_ifs <;> (try split) <;> exact ⟨rfl, rfl⟩

theorem Orderly.unstashed (ho : r.Orderly)
    (h : r.conn.recving = true ∨ r.conn.splicing = true ∨ r.conn.splice_polling = true) :
    r.conn.recv_close_stash = none ∧ r.conn.peer_closed = none := by
  refine ⟨?_, ho.peer_none fun hst => ?_⟩
  · cases hs : r.conn.recv_close_stash with
    | none => rfl
    | some stash =>
      obtain ⟨hr, hsp, hpo, -⟩ := ho.stash stash.1 stash.2 hs
      simp [hr, hsp, hpo] at h
  · simp [hst.recving, hst.splicing, hst.splice_polling] at h

theorem Orderly.not_recving (ho : r.Orderly)
    (h : r.conn.splicing = true ∨ r.conn.splice_polling = true) : r.conn.recving = false := by
  cases hr : r.conn.recving with
  | false => rfl
  | true => simp [ho.recv_alone hr] at h

theorem Ended.onRecv {picked : Picked} {dr : Bool} (ha : r.Accounted)
    (ho : r.Orderly) (hmem : op ∈ r.inflight) (hop : op.flag = some .recv)
    (hf : ∀ n, res = .ok n → n ≤ r.conn.inbox.recv_want ∧ data.length = n)
    (hg : picked ≠ .unknown → r.conn.closing = false → r.conn.close_on_flush = none →
      (r.recvReaped op data picked).RecvGrants cfg R res
        (decide (op = .RecvHeader) && r.conn.recv_idle)) :
    Ended cfg R r ((r.reap op).onRecv cfg op res data picked dr grew) := by
  have hpl : r.place = .Serving := serving_of_mem ha hop hmem
  have hr : r.conn.recving = true := Accounts.Balanced.flag_of_mem ha.toBalanced hop hmem
  obtain ⟨hsp, hpo⟩ := ho.recv_alone hr
  obtain ⟨hss, hpe⟩ := ho.unstashed (.inl hr)
  have hun : r.log.unread ≠ [] → r.log.unread ++ data ≠ [] :=
    fun hne => List.append_ne_nil_of_left_ne_nil hne data
  have hl : Moves cfg R r { r with log.unread := r.log.unread ++ data } :=
    Move.moves (.data r _ _ _ _ _ _ _ _ _ { Keeps.same r with unread := fun _ => hun })
  have hla : Moves cfg R r
      { r with
        conn.inbox := landed r.conn.inbox picked data
        log.unread := r.log.unread ++ data } := by
    refine Move.moves (.data r _ _ _ _ _ _ _ _ _ ⟨fun _ => rfl, fun _ he => ?_, ?_, fun _ => hun⟩)
    · exact (buffered_landed _ picked data).elim (·.trans he) (·.2)
    · simp [hsp, hpo]
  unfold Reactor.onRecv
  split
  · refine hl.finish (by decide) hop hmem rfl rfl fun _ => .done (Moves.close_plain ?_ ?_)
    · exact hpl
    · rfl
  · rename_i hk
    refine hla.finish (by decide) hop hmem rfl rfl fun hon => ?_
    refine Ended.onRecvResult hpl hon ?_ hop ?_ (hg hk hon)
    · exact ⟨⟨rfl, hsp, hpo, hss⟩, hpe⟩
    · intro n hn
      obtain ⟨hle, rfl⟩ := hf n hn
      refine ⟨hle.trans (landed_arming _ _ _).1.ge, fun hpos => ?_⟩
      exact List.append_ne_nil_of_right_ne_nil _ (List.ne_nil_of_length_pos hpos)

theorem Ended.onSplicePoll (ha : r.Accounted) (ho : r.Orderly) (hmem : .SplicePoll ∈ r.inflight)
    (hg : ∀ e, res = .error e → r.conn.closing = false →
      ((r.reap .SplicePoll).live .poll).Allows R (r.recvCloseReason cfg res false)) :
    Ended cfg R r ((r.reap .SplicePoll).onSplicePoll cfg res) := by
  have hpl : r.place = .Serving := serving_of_mem ha rfl hmem
  have hpo : r.conn.splice_polling = true :=
    Accounts.Balanced.flag_of_mem (f := .poll) ha.toBalanced rfl hmem
  have hr := ho.not_recving (.inr hpo)
  obtain ⟨hss, hpe⟩ := ho.unstashed (.inr (.inr hpo))
  have hs : r.conn.splicing = false := by
    cases hs : r.conn.splicing with
    | false => rfl
    | true => simp [ho.splice_alone hs] at hpo
  refine Moves.finish .refl (by decide) rfl hmem rfl rfl fun hon => ?_
  rcases res with e | n
  · exact .done (Moves.close hpl (hg e rfl hon))
  · exact .done (Moves.submitSpliceRecv (r := (r.reap .SplicePoll).live .poll) hpl hon
      ⟨⟨hr, hs, rfl, hss⟩, hpe⟩ (ho.header (.inr hpo)) _ _)

def spliceReaped (r : Reactor) (data : Bytes) : Reactor :=
  ({ r with log.unread := r.log.unread ++ data }.reap .SpliceRecv).live .splice

theorem Ended.onSpliceRecv (ha : r.Accounted) (ho : r.Orderly) (hmem : .SpliceRecv ∈ r.inflight)
    (hg : ∀ e, res = .error e → e ≠ EAGAIN → r.conn.closing = false →
      (r.spliceReaped data).Allows R (r.spliceCloseReason cfg e)) :
    Ended cfg R r ((r.reap .SpliceRecv).onSpliceRecv cfg res data) := by
  have hpl : r.place = .Serving := serving_of_mem ha rfl hmem
  have hs : r.conn.splicing = true :=
    Accounts.Balanced.flag_of_mem (f := .splice) ha.toBalanced rfl hmem
  have hr := ho.not_recving (.inl hs)
  obtain ⟨hss, hpe⟩ := ho.unstashed (.inr (.inl hs))
  have hpo := ho.splice_alone hs
  have hq : (r.spliceReaped data).Quiet := ⟨⟨hr, rfl, hpo, hss⟩, hpe⟩
  have hl : Moves cfg R r { r with log.unread := r.log.unread ++ data } :=
    Move.moves (.data r _ _ _ _ _ _ _ _ _ { Keeps.same r with unread := by simp [hss] })
  refine hl.finish (by decide) rfl hmem rfl rfl fun hon => ?_
  exact .done (Moves.onSpliced hpl hon hq (ho.header (.inl hs)) fun e he hne => hg e he hne hon)

theorem recvStays_eq_false (h : r.recvStays cfg = false) : r.Open ∧ r.Still := by
  simp only [recvStays, Bool.or_eq_false_iff, decide_eq_false_iff_not, not_not,
    isSome_eq_false_iff, isNone_iff_eq_none] at h
  obtain ⟨⟨⟨⟨⟨⟨⟨⟨hpl, hr⟩, hs⟩, hpo⟩, hc⟩, hss⟩, hf⟩, -⟩, -⟩ := h
  exact ⟨⟨hpl, hc, hf⟩, ⟨hr, hs, hpo, hss⟩⟩

theorem Ended.enactFrameStep (ho : r.Open)
    (hq : r.Quiet) : Ended cfg R r (r.enactFrameStep cfg vd fd) := by
  have hf : ∀ header_len body_len, Moves cfg R r (r.setFrame header_len body_len) :=
    fun _ _ => Moves.withInbox _ hq
  have hq' : ∀ header_len body_len, (r.setFrame header_len body_len).Quiet := fun _ _ =>
    ⟨{ hq with }, hq.peer⟩
  unfold Reactor.enactFrameStep
  split
  · next rs hs => exact .done (Moves.close_plain ho.place (frameStep_close hs))
  · exact .done (Moves.submitRecv ho.place ho.closing hq rfl _ _ _ _)
  · rename_i want header_len body_len place hs
    exact .done ((hf header_len body_len).trans
      (Moves.submitRecv (r := r.setFrame header_len body_len) ho.place
        ho.closing (hq' header_len body_len) rfl _ _ _ _))
  · rename_i header_len body_len hs
    exact .deliver _ (hf header_len body_len) { ho with } fun _ => (hq' header_len body_len).toStill
  · rename_i header_len body_len hs
    refine .done ?_
    unfold spliceBody
    split
    · exact Moves.close_plain ho.place rfl
    · exact Moves.close_plain ho.place rfl
    · split
      · exact Moves.close_plain ho.place rfl
      · exact (hf header_len body_len).trans
          (Moves.submitSpliceRecv (r := r.setFrame header_len body_len) ho.place ho.closing
            (hq' header_len body_len) (frameStep_splice hs) _ _)

/-- When the pump closes a connection of a server that drains. -/
structure DrainCloses (cfg : CoreConfig) (r : Reactor) : Prop where
  stays : r.recvStays cfg = false
  draining : r.draining = true
  buffered : r.conn.buffered = 0
  outstanding : r.conn.outstanding = 0
  sending : r.conn.sending = false
  pending : r.conn.outbox.hasPendingSend = false

def pumping (r : Reactor) (verdict : Framing) : Reactor :=
  { r with task := .idle, log.verdict := some verdict }

theorem Moves.pumpGate (hg : r.DrainCloses cfg → r.Allows R .ShuttingDown) :
    Moves cfg R r (r.pumpGate cfg).1 ∧
      ((r.pumpGate cfg).2 = .Proceed → (r.pumpGate cfg).1 = r ∧ r.Open ∧ r.Quiet) := by
  unfold Reactor.pumpGate
  split
  · exact ⟨.refl, by simp⟩
  · rename_i hsy
    have hs' := eq_false_of_ne_true hsy
    obtain ⟨ho, hs⟩ := recvStays_eq_false hs'
    split
    · rename_i hd
      split
      · rename_i hn
        refine ⟨Moves.close ho.place (hg ?_), by simp⟩
        simp only [Bool.and_eq_true, beq_iff_eq] at hd
        simp only [Bool.not_eq_true'] at hn
        exact ⟨hs', hd.1, hd.2, hn.1, hn.2.1, hn.2.2⟩
      · exact ⟨.refl, by simp⟩
    · split
      · rename_i rs hpe
        split
        · rename_i hn
          exact ⟨(Out.outs (.closePeer _ _ ho.place hpe ho.flush hn.2 hn.1)).moves, by simp⟩
        · exact ⟨.refl, by simp⟩
      · rename_i hpe
        split
        · exact ⟨Moves.close_plain ho.place rfl, by simp⟩
        · exact ⟨.refl, fun _ => ⟨rfl, ho, hs, hpe⟩⟩

theorem Ended.onPump (hgo : (r.pumping vd).DrainCloses cfg →
      (r.pumping vd).Allows R .ShuttingDown) (hs : R.settles) :
    Ended cfg R r (r.pump cfg vd fd) := by
  have hid : Moves cfg R r (r.pumping vd) :=
    (Move.moves (.idle r hs)).trans
      (Move.moves (.data (r.withTask .idle) _ _ _ _ _ _ _ _ (some vd) (.same _)))
  obtain ⟨hg, hpr⟩ : Moves cfg R (r.pumping vd) ((r.pumping vd).pumpGate cfg).1 ∧ _ :=
    Moves.pumpGate hgo
  have hgt : Moves cfg R r ((r.pumping vd).pumpGate cfg).1 := hid.trans hg
  apply hgt.ended
  unfold Reactor.pump
  split
  · rename_i hg'
    rw [show (r.pumping vd).pumpGate cfg = _ from hg']
    exact .done .refl
  · rename_i hg'
    rw [show (r.pumping vd).pumpGate cfg = _ from hg'] at hpr ⊢
    obtain ⟨rfl, ho, hq⟩ := hpr rfl
    exact Ended.enactFrameStep ho hq

/-- A request that is given once more takes no byte from the message at hand. -/
theorem buffered_redelivered (i : Inbox) (threshold : Option ℕ) (lease recving : Bool) :
    (delivered ((i.setFrame 0 0).deliverPartsLeased threshold lease).2.2 recving).buffered =
      i.buffered := by
  have hr : ∀ b : RecvBuf, b.release.filled = b.filled := by
    intro b
    unfold RecvBuf.release
    split_ifs <;> rfl
  cases hi : i.recv_into_body <;> cases recving <;>
    simp [delivered, Inbox.deliverPartsLeased, Inbox.setFrame, Inbox.consume, Inbox.frameLen,
      Inbox.buffered, RecvBuf.drainFront, hi, hr]

theorem Ended.deliverOne {which : Delivery} {lease : Bool} {resp : Response} (ho : r.Open)
    (hs : which = .FromWire → r.Still) : Ended cfg R r (r.deliverOne cfg which lease resp) := by
  cases which with
  | FromWire =>
    refine .respond resp ?_ { ho with }
    exact Move.moves (.data r _ _ _ _ _ _ _ _ _ ((hs rfl).keeps _ _ _))
  | Redelivery =>
    refine .respond resp ?_ { ho with }
    have hb : ∀ threshold, (delivered ((r.conn.inbox.setFrame 0 0).deliverPartsLeased threshold
        lease).2.2 r.conn.recving).buffered = r.conn.buffered :=
      fun threshold => buffered_redelivered _ threshold _ _
    exact Move.moves (.data r _ _ _ _ _ _ _ _ _ { Keeps.same r with
      empty := fun _ => (hb _).trans, header := fun _ hpos => hpos.trans_eq (hb _).symm })

/-- The closes that an event may lead to are allowed. -/
def Grants (cfg : CoreConfig) (R : Rules) (r : Reactor) : Event → Prop
  | .pump verdict _ =>
    (r.pumping verdict).DrainCloses cfg → (r.pumping verdict).Allows R .ShuttingDown
  | .recv op res data picked _ _ =>
    picked ≠ .unknown → r.conn.closing = false → r.conn.close_on_flush = none →
      (r.recvReaped op data picked).RecvGrants cfg R res
        (decide (op = .RecvHeader) && r.conn.recv_idle)
  | .recvClock fired =>
    r.place = .Serving → ∀ was_idle op, r.conn.recv_close_stash = some (was_idle, op) →
      r.conn.teardownOwnsSlot = false → r.exactPartialContinues fired was_idle = false →
      (r.withStash none).Allows R (r.shortRecvReason cfg fired was_idle)
  | .splicePoll res =>
    ∀ e, res = .error e → r.conn.closing = false →
      ((r.reap .SplicePoll).live .poll).Allows R (r.recvCloseReason cfg res false)
  | .spliceRecv res data =>
    ∀ e, res = .error e → e ≠ EAGAIN → r.conn.closing = false →
      (r.spliceReaped data).Allows R (r.spliceCloseReason cfg e)
  | .send res _ =>
    (∀ n, res = .ok n → n = 0) →
      (r.reapSend cfg res).Allows R ((r.reapSend cfg res).sendCloseReason cfg res)
  | .detachInstall res _ =>
    ∀ n, res = .ok n → r.draining = true →
      Allows R ((r.reap .DetachInstall).withPlace .Serving) .ShuttingDown
  | .beginDrain => r.quiesced = true → Allows R { r with draining := true } .ShuttingDown
  | _ => True

theorem outs_handle (h : r.Regular) (hsn : e.receives = false) (hc : e ≠ .closed)
    (he : r.enabled cfg e = true) (hg : r.Grants cfg R e)
    (hac : e.accepts → R.accepts) (hs : e.settles → R.settles) : Outs cfg R r (r.handle cfg e) := by
  have ha := h.accounted
  cases e with try simp only [enabled, Bool.and_eq_true, decide_eq_true_eq] at he
  | pump | deliver | recv | recvClock | splicePoll | spliceRecv | redeliver => cases hsn
  | respond fs =>
    simp only [handle]
    split
    · rename_i resp req_id ht
      have ho := h.working (.inr (by rw [ht]; rfl))
      exact (Out.outs (.pump r)).trans
        (Outs.respondTo { ho with } (hac trivial) (hs trivial))
    · exact .refl
  | recvRetry => exact Outs.onRecvRetry
  | receiptDeadline expired => exact Outs.onReceiptDeadline
  | spliceDeadline expired => exact Outs.onSpliceDeadline
  | send res fs =>
    refine Outs.onSend (serving_of_mem ha rfl he.1.2) he.1.2 ?_
      hg (hs trivial)
    rintro n rfl
    exact of_decide_eq_true he.2
  | shutdown => exact Out.outs (.shutdown r he.2)
  | closed => exact absurd rfl hc
  | detachInstall res handler => exact Outs.onDetachInstall he.2 handler hg (hs trivial)
  | fileRead res fs =>
    simp only [handle]
    split
    · exact .refl
    · rename_i hsr
      simp only [not_or, not_not, Bool.not_eq_true] at hsr
      apply Outs.onPumpRead hsr.1 hsr.2
      rintro tail n hta rfl
      simp only [hta, any_some, Bool.and_eq_true, decide_eq_true_eq] at he
      exact he.2.2.trans (min_le_left _ _)
  | redriveTail fs => exact Outs.redriveParkedTail r
  | push bytes => exact Outs.onPush (by simpa using he.2) (hac trivial)
  | pushClose => exact Outs.onPushClose (hs trivial)
  | detachResume => exact Outs.onDetachResume he.2 (hs trivial)
  | detachClose => exact Outs.onDetachClose he.2 (hs trivial)
  | reply req_id bytes => exact Outs.onReply (by simpa using he.2) (hac trivial)
  | replyClose req_id bytes => exact Outs.onReplyClose (hac trivial) (hs trivial)
  | done req_id => exact Outs.onDone (hs trivial)
  | workerClose req_id => exact Outs.onWorkerClose
  | beginDrain => exact Outs.beginDrain hg
  | stop => exact Out.outs (.stop r)

theorem ended_handle (h : r.Regular) (hc : e ≠ .closed)
    (he : r.enabled cfg e = true) (hg : r.Grants cfg R e)
    (hac : e.accepts → R.accepts) (hs : e.settles → R.settles) :
    Ended cfg R r (r.handle cfg e) := by
  have ha := h.accounted
  have ho := h.orderly
  cases hr : e.receives with
  | false => exact .done (outs_handle h hr hc he hg hac hs).moves
  | true =>
    cases e with
    | pump verdict fd => exact Ended.onPump hg (hs trivial)
    | deliver lease resp =>
      simp only [handle]
      split
      · rename_i which ht
        have hw := h.working (.inl (by rw [ht]; rfl))
        exact Ended.deliverOne hw.toOpen fun heq => hw.still (heq ▸ ht)
      · exact .done .refl
    | recv op res data picked data_record grew =>
      simp only [enabled, recvFits, Bool.and_eq_true, decide_eq_true_eq, beq_iff_eq] at he
      obtain ⟨⟨⟨-, hmem⟩, hop⟩, ⟨hlen, hle⟩, -⟩ := he
      refine Ended.onRecv ha ho hmem ?_ ?_ hg
      · rcases hop with rfl | rfl <;> rfl
      · rintro n rfl
        exact ⟨hle, hlen⟩
    | recvClock fired =>
      simp only [handle]
      split
      · next hpl => exact .done (Moves.onRecvClock ho hpl (hg hpl))
      · exact .done .refl
    | splicePoll res =>
      simp only [enabled, Bool.and_eq_true, decide_eq_true_eq] at he
      exact Ended.onSplicePoll ha ho he.2 hg
    | spliceRecv res data =>
      simp only [enabled, Bool.and_eq_true, decide_eq_true_eq] at he
      exact Ended.onSpliceRecv ha ho he.1.2 hg
    | redeliver req_id => exact Ended.onRedeliver (hs trivial)
    | _ => cases hr

end Reactor

end TruenasRos.Net
