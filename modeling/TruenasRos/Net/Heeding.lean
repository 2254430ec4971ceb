import TruenasRos.Net.Charges

/-! # Connections that are to close

A connection is told to close once everything is sent, or is to close because its peer has. In
both cases it is closed by the event after which it owes nothing.
-/

namespace TruenasRos.Net

open Connection Outbox Option

namespace Connection

variable {c : Connection}

theorem owesWork_eq_false_iff : c.owesWork = false ↔ c.outstanding = 0 ∧ c.sending = false ∧
    c.outbox.hasPendingSend = false ∧ c.outbox.tailActive = false := by
  simp [owesWork, and_assoc]

theorem dry_eq_true_iff : c.dry = true ↔
    c.sending = false ∧ c.outbox.hasPendingSend = false ∧ c.outbox.tailActive = false := by
  simp [dry, and_assoc]

theorem owesWork_of_dry_eq_false (h : c.dry = false) : c.owesWork = true := by
  by_contra ho
  obtain ⟨-, hd⟩ := owesWork_eq_false_iff.1 (eq_false_of_ne_true ho)
  rw [dry_eq_true_iff.2 hd] at h
  cases h

theorem dry_eq_false_of_waits
    (h : c.outbox.hasPendingSend = true ∨ c.outbox.tailActive = true) : c.dry = false := by
  unfold dry
  rcases h with h | h <;> simp [h]

theorem dry_eq_false_of_sending (h : c.sending = true) : c.dry = false := by
  simp [dry, h]

theorem owesWork_of_outstanding (h : 0 < c.outstanding) : c.owesWork = true := by
  simp [owesWork, h]

end Connection

namespace Outbox

variable {o : Outbox}

theorem waits_enqueue (bytes : Bytes) (kind : SendKind) :
    (o.enqueue bytes kind).hasPendingSend = true ∨ (o.enqueue bytes kind).tailActive = true := by
  unfold enqueue
  dsimp only
  split
  · exact .inr rfl
  · exact .inl (by simp [hasPendingSend])

theorem waits_enqueueSegments {segs : List Bytes} (h : segs.all List.isEmpty = false) :
    (o.enqueueSegments segs).hasPendingSend = true ∨
      (o.enqueueSegments segs).tailActive = true := by
  induction segs generalizing o with
  | nil => cases h
  | cons seg segs ih =>
    unfold enqueueSegments
    split
    · rename_i he
      rw [List.all_cons, he, Bool.true_and] at h
      exact ih h
    · split
      · exact waits_enqueue seg .ReplyLast
      · next hm => exact ih (eq_false_of_ne_true hm)

theorem hasPendingSend_advanceFileTail {tail : FileTail} (buf : Bytes)
    (ht : o.file_tail = some tail) : (o.advanceFileTail buf).1.hasPendingSend = true := by
  unfold advanceFileTail
  rw [ht]
  dsimp only
  split
  · simp [finishFileTail, enqueueFileChunk, hasPendingSend]
  · simp [enqueueFileChunk, hasPendingSend]

end Outbox

namespace Reactor

variable {cfg : CoreConfig} {R : Rules} {r r' : Reactor}

/-- A connection whose peer has closed is closing once it owes nothing and the reactor is done
with it. -/
def Heeds (r : Reactor) : Prop :=
  r.conn.peer_closed.isSome = true →
    r.conn.closing = true ∨ r.conn.owesWork = true ∨
      r.place = .Serving ∧ r.task.isIdle = false

/-- A connection that is to close once everything is sent has something to send. -/
def Flushes (r : Reactor) : Prop :=
  r.conn.close_on_flush.isSome = true → r.conn.closing = false → r.place = .Serving →
    r.conn.dry = false

/-- A connection that is to close does so in time. -/
structure Heedful (r : Reactor) : Prop where
  flush : r.Flushes
  peer : r.Heeds

theorem dry_kickSend (h : r.conn.dry = false) : (r.kickSend cfg).conn.dry = false := by
  unfold kickSend
  split
  · exact dry_eq_false_of_sending rfl
  · exact h

theorem hasPendingSend_installed {o : Outbox} (h : o.hasPendingSend = true) (next : PendingFile) :
    (installed o next).hasPendingSend = true := by
  unfold installed enqueueReplyHead
  split
  · exact h
  · unfold enqueue
    dsimp only
    split
    · exact h
    · simp [hasPendingSend, installFileTail]

theorem hasPendingSend_handedOver (h : r.conn.outbox.hasPendingSend = true) :
    r.handedOver.conn.outbox.hasPendingSend = true := by
  unfold handedOver
  split
  · exact h
  · split
    · exact h
    · rename_i next _
      have hin := hasPendingSend_installed (o := r.conn.outbox.takeQueuedFileReply.2) h next
      cases next.close <;> exact hin

/-- The moves that settle no work. -/
def unsettling : Rules := { settles := False }

theorem owesWork_of_recvStays (hd : r.Dutiful) (ho : r.Orderly) (h : r.Heedful)
    (hpl : r.place = .Serving) (hon : r.conn.closing = false)
    (hpe : r.conn.peer_closed.isSome = true) (hsy : r.recvStays cfg = true) :
    r.conn.owesWork = true := by
  obtain ⟨rs, hso⟩ := isSome_iff_exists.1 hpe
  obtain ⟨-, hs⟩ := ho.peer rs hso
  simp only [recvStays, hpl, hon, hs.recving, hs.splicing, hs.splice_polling,
    hs.stash, ne_eq, not_true_eq_false, decide_false, Bool.false_or, isSome_none,
    Bool.or_eq_true, decide_eq_true_eq] at hsy
  rcases hsy with (hf | hde) | hfu
  · exact owesWork_of_dry_eq_false (h.flush hf hon hpl)
  · have ht := hd.awaits hde
    exact owesWork_of_dry_eq_false (dry_eq_false_of_waits (.inr ht))
  · exact owesWork_of_outstanding (cfg.in_flight_pos.trans_le hfu)

theorem dry_acceptReply {bytes : Bytes} (h : bytes.isEmpty = false) :
    (r.acceptReply bytes).conn.dry = false := by
  unfold acceptReply
  rw [if_neg (by simp [h])]
  exact dry_eq_false_of_waits (waits_enqueue _ _)

/-- The handler takes a connection off the ring whose peer has closed. -/
def takesOff (r : Reactor) : Bool :=
  match r.task with
  | .respond (.Detach true) _ => r.settled && r.conn.peer_closed.isSome
  | _ => false

namespace Heedful

theorem of_closing (h : r.conn.closing = true) : r.Heedful where
  flush _ ho := by
    rw [h] at ho
    cases ho
  peer _ := .inl h

theorem of_wet (h : r.conn.dry = false) : r.Heedful where
  flush _ _ _ := h
  peer _ := .inr (.inl (owesWork_of_dry_eq_false h))

theorem of_open (ho : r.Open) (ht : r.task.isIdle = false) : r.Heedful where
  flush hs := by
    rw [ho.flush] at hs
    cases hs
  peer _ := .inr (.inr ⟨ho.place, ht⟩)

theorem of_none (hf : r.conn.close_on_flush = none) (hpe : r.conn.peer_closed = none) :
    r.Heedful where
  flush hs := by
    rw [hf] at hs
    cases hs
  peer hs := by
    rw [hpe] at hs
    cases hs

theorem closeConn (r : Reactor) (rs : CloseReason) : (r.closeConn rs).Heedful :=
  .of_closing (closing_closeConn r rs)

theorem driveFlushClose {rs : CloseReason} (h : r.conn.close_on_flush = some rs) :
    (r.driveFlushClose cfg).Heedful := by
  unfold Reactor.driveFlushClose
  rw [h]
  dsimp only
  split
  · exact closeConn _ _
  · next hd => exact .of_wet (dry_kickSend (eq_false_of_ne_true hd))

theorem flushClose (r : Reactor) (rs : CloseReason) : (r.flushClose cfg rs).Heedful :=
  driveFlushClose rfl

section

variable (h : r.Heedful)
include h

theorem out (hse : ¬R.settles) (ho : Out cfg R r r') : r'.Heedful := by
  cases ho with
  | pump => exact ⟨h.flush, fun hpe => (h.peer hpe).imp_right (Or.imp_right fun hs => ⟨hs.1, rfl⟩)⟩
  | timers | stop | drain | evict | chunks | shutdown => exact ⟨h.flush, h.peer⟩
  | close | closeFlushed | closePeer | workerClose => exact closeConn _ _
  | submitSend => exact .of_wet (dry_eq_false_of_sending rfl)
  | flush _ _ _ _ hs | retire _ _ _ hs | sent _ _ _ _ _ hs | sendFailed _ _ _ _ hs
    | detach _ _ hs | leave _ _ _ hs | back _ hs => exact absurd hs hse
  | reply bytes | push bytes | answer req_id bytes =>
    exact .of_wet (dry_eq_false_of_waits (waits_enqueue _ _))
  | vectored segments _ hne =>
    exact .of_wet (dry_eq_false_of_waits (waits_enqueueSegments hne))
  | deferFile next _ ht =>
    exact .of_wet (dry_eq_false_of_waits (.inr (tailActive_deferFileReply ht)))
  | startFile next =>
    refine .of_wet (dry_eq_false_of_waits (.inr ?_))
    unfold started
    cases next.close <;> rfl
  | defer req_id hon =>
    refine ⟨fun hso => ?_, fun _ => .inr (.inl ?_)⟩
    · exact absurd hso (by simp [openDeferred, charge, hon.flush])
    · exact owesWork_of_outstanding (Nat.succ_pos _)
  | chunk tail n _ _ ht =>
    exact .of_wet (dry_eq_false_of_waits
      (.inl (hasPendingSend_advanceFileTail _ ht)))
  | lastChunk tail _ _ ht =>
    refine .of_wet (dry_eq_false_of_waits (.inl (hasPendingSend_handedOver ?_)))
    unfold kickSend
    split <;> exact hasPendingSend_advanceFileTail _ ht
  | reads => exact .of_wet (dry_eq_false_of_waits (.inr rfl))
  | sendReaped res _ hc =>
    refine .of_closing ((closing_reapClosing _).trans ?_)
    cases res <;> exact hc

theorem move (hse : ¬R.settles) (hm : Move cfg R r r') : r'.Heedful := by
  cases hm with
  | out ho => exact h.out hse ho
  | data | stash => exact ⟨h.flush, h.peer⟩
  | raise f _ _ _ _ hf | reaped f _ hf =>
    cases f with
    | send => exact absurd rfl hf
    | recv | splice | poll => exact ⟨h.flush, h.peer⟩
  | reapedClosing f _ _ _ _ hc =>
    refine .of_closing ((closing_reapClosing _).trans ?_)
    cases f <;> exact hc
  | peerClosed _ _ hos => exact ⟨h.flush, fun _ => .inr (.inl hos)⟩
  | idle hs => exact absurd hs hse

theorem outs (hs : ¬R.settles) (ho : Outs cfg R r r') : r'.Heedful := by
  induction ho with
  | refl => exact h
  | tail _ hl ih => exact ih.out hs hl

theorem ended (hs : ¬R.settles) (he : Ended cfg R r r') : r'.Heedful :=
  he.invariant (fun _ _ h => h.move hs)
    (fun _ _ _ ho => .of_open { ho with } rfl)
    (fun _ _ _ ho => .of_open { ho with } rfl) h

theorem pumpGate (hd : r.Dutiful) (ho : r.Orderly) (vd : Framing) :
    ((r.pumping vd).pumpGate cfg).1.Heedful := by
  have hk : (r.conn.peer_closed.isSome = true → r.conn.closing = true ∨ r.conn.owesWork = true) →
      (r.pumping vd).Heedful :=
    fun hos => ⟨h.flush, fun hpe => (hos hpe).imp_right .inl⟩
  unfold Reactor.pumpGate
  split
  · rename_i hs
    refine hk fun hpe => ?_
    obtain hc | hos | ⟨hpl, -⟩ := h.peer hpe
    · exact .inl hc
    · exact .inr hos
    · cases hc : r.conn.closing with
      | true => exact .inl rfl
      | false => exact .inr (owesWork_of_recvStays hd ho h hpl hc hpe hs)
  · rename_i hs
    obtain ⟨hon, -⟩ := recvStays_eq_false (eq_false_of_ne_true hs)
    split
    · split
      · exact closeConn _ _
      · rename_i hso
        refine hk fun _ => .inr ?_
        by_contra hn
        obtain ⟨hz, hse, hpn, -⟩ :=
          owesWork_eq_false_iff.1 (eq_false_of_ne_true hn)
        exact hso ⟨hz, Bool.not_eq_true' _ ▸ hse, Bool.not_eq_true' _ ▸ hpn⟩
    · split
      · split
        · exact closeConn _ _
        · rename_i hso
          refine hk fun _ => .inr ?_
          by_contra hn
          obtain ⟨hz, hse, hpn, ht⟩ :=
            owesWork_eq_false_iff.1 (eq_false_of_ne_true hn)
          exact hso ⟨hz, dry_eq_true_iff.2 ⟨hse, hpn, ht⟩⟩
      · rename_i hn
        split
        · exact closeConn _ _
        · exact .of_none hon.flush hn

theorem pump {vd : Framing} {fd : SpliceFd} (hd : r.Dutiful) (ho : r.Orderly) :
    (r.pump cfg vd fd).Heedful := by
  have hs : ((r.pumping vd).pumpGate cfg).1.Heedful := h.pumpGate hd ho vd
  obtain ⟨-, hpr⟩ :
      Moves cfg unsettling (r.pumping vd) ((r.pumping vd).pumpGate cfg).1 ∧ _ :=
    Moves.pumpGate fun _ _ _ => trivial
  unfold Reactor.pump
  split
  · rename_i hg
    rwa [show (r.pumping vd).pumpGate cfg = _ from hg] at hs
  · rename_i hg
    rw [show (r.pumping vd).pumpGate cfg = _ from hg] at hpr
    obtain ⟨rfl, hon, hq⟩ := hpr rfl
    have he : Ended cfg unsettling (r.pumping vd) ((r.pumping vd).enactFrameStep cfg vd fd) :=
      Ended.enactFrameStep hon hq
    exact ended (.of_none hon.flush hq.peer) id he

end

theorem replyVectored (h : r.Heedful) (segs : List Bytes) (close : Bool) :
    (r.replyVectored cfg segs close).Heedful := by
  unfold Reactor.replyVectored enqueueReplySegments
  cases hall : segs.all List.isEmpty with
  | true =>
    simp only [if_true]
    split
    · exact flushClose r _
    · exact h
  | false =>
    simp only [Bool.false_eq_true, if_false]
    split
    · exact flushClose _ _
    · refine .of_wet (dry_kickSend ?_)
      exact dry_eq_false_of_waits (waits_enqueueSegments hall)

theorem beginFileReply (h : r.Heedful) (ho : r.Open) (next : PendingFile)
    (fs : FsReady) : (r.beginFileReply cfg next fs).Heedful := by
  unfold Reactor.beginFileReply
  split
  · exact closeConn r _
  · split
    · split
      · exact flushClose _ _
      · split
        · rename_i he
          rw [acceptReply, if_pos he]
          exact h
        · rename_i hh
          exact .of_wet (dry_kickSend (dry_acceptReply (eq_false_of_ne_true hh)))
    · rename_i hlen
      split
      · exact closeConn r _
      · split
        · rename_i ht
          have hout : Out cfg unsettling r (r.deferFileReply next) :=
            .deferFile r next ho ht hlen trivial
          exact h.out id hout
        · rename_i ht
          have hou : Outs cfg unsettling r (r.startFileReply cfg next fs) :=
            Outs.startFileReply ho (eq_false_of_ne_true ht) hlen trivial
          exact h.outs id hou

variable {fs : FsReady} {res : Res}

theorem respondTo {resp : Response} {req_id : ℕ} (ho : r.Open) (ht : r.task.isIdle = false)
    (hle : resp = .Detach true → r.settled = true → r.conn.peer_closed = none) :
    (r.respondTo cfg resp req_id fs).Heedful := by
  have h : r.Heedful := .of_open ho ht
  unfold Reactor.respondTo
  split
  · exact closeConn r _
  · split
    · have hout : Out cfg unsettling r (r.charge.openDeferred req_id) := .defer r req_id ho
      exact h.out id hout
    · exact closeConn r _
  · split
    · rename_i hown
      obtain ⟨rfl, hs⟩ := Bool.and_eq_true _ _ ▸ hown
      exact .of_none ho.flush (hle rfl hs)
    · exact closeConn r _
  · split
    · exact h
    · next hne => exact .of_wet (dry_kickSend (dry_acceptReply (eq_false_of_ne_true hne)))
  · exact flushClose _ _
  · exact h.replyVectored _ _
  · exact h.beginFileReply ho _ fs

theorem closeSent (hpl : r.place = .Serving) : r.closeSent.Heedful := by
  unfold Reactor.closeSent
  split
  · split
    · exact closeConn _ _
    · next hd => exact .of_wet (eq_false_of_ne_true hd)
  · rename_i hf _
    split
    · exact closeConn _ _
    · refine ⟨fun hs => ?_, fun _ => .inr (.inr ⟨hpl, rfl⟩)⟩
      exact absurd hs (by simp [withTask, hf])
  · next hf hpe => exact .of_none hf hpe

theorem onSend (hpl : r.place = .Serving) : ((r.reap .Send).onSend cfg res fs).Heedful := by
  have hl : ((r.reap .Send).toWire cfg res).conn = r.conn := by
    unfold toWire
    split <;> rfl
  have hpl' : (r.reapSend cfg res).place = .Serving := by
    refine Eq.trans ?_ hpl
    unfold reapSend toWire
    split <;> rfl
  have hd : Outs cfg unsettling ((r.reap .Send).onSendComplete cfg res)
      ((r.reap .Send).onSend cfg res fs) := Outs.driveFileTail _
  refine outs ?_ id hd
  unfold Reactor.onSendComplete
  cases hc : r.conn.closing with
  | true =>
    rw [finish_of_closing (by rw [hl, hc])]
    refine .of_closing ((closing_reapClosing _).trans ?_)
    rw [closing_live, hl, hc]
  | false =>
    rw [finish_of_open (by rw [hl, hc])]
    rcases res with e | _ | n
    · exact closeConn _ _
    · exact closeConn _ _
    · unfold Reactor.onSent
      dsimp only
      split
      · exact .of_wet (dry_eq_false_of_sending rfl)
      · exact closeSent ((place_kickSend _).trans hpl')

theorem onOutcome {id : ℕ} {act : Reactor → Reactor} (h : r.Heedful)
    (ha : r.Open → (act (r.taken id)).Heedful) : (r.onOutcome id act).Heedful := by
  obtain hs | ⟨ho, -, ha'⟩ := onOutcome_cases r id act
  · rw [hs]
    exact h
  · rw [ha']
    exact ha ho

theorem onPushClose (h : r.Heedful) : (r.onPushClose cfg).Heedful := by
  unfold Reactor.onPushClose
  split
  · exact h
  · split
    · exact flushClose r _
    · next hpl => exact ⟨fun _ _ hs => absurd hs hpl, h.peer⟩

theorem onDetachInstall (h : r.Heedful) (ht : r.task.isIdle = true)
    (handler : Bool) : ((r.reap .DetachInstall).onDetachInstall res handler).Heedful := by
  unfold Reactor.onDetachInstall
  split
  · exact closeConn _ _
  · split
    · exact closeConn _ _
    · split
      · refine ⟨fun _ _ hpl => (nomatch hpl), fun hpe => ?_⟩
        obtain hc | ho | ⟨-, hb⟩ := h.peer hpe
        · exact .inl hc
        · exact .inr (.inl ho)
        · rw [ht] at hb
          cases hb
      · exact closeConn _ _

theorem onDetachResume (r : Reactor) : (r.onDetachResume cfg).Heedful := by
  unfold Reactor.onDetachResume
  split
  · exact closeConn _ _
  · split
    · rename_i hs
      obtain ⟨rs, hf⟩ := isSome_iff_exists.1 hs
      exact driveFlushClose hf
    · rename_i hn
      refine ⟨fun hs => absurd ?_ hn, fun _ => .inr (.inr ⟨place_kickSend _, rfl⟩)⟩
      have hf : ((r.withPlace .Serving).kickSend cfg).conn.close_on_flush =
          r.conn.close_on_flush := view_kickSend (·.conn.close_on_flush) rfl
      rw [← hf]
      exact hs

theorem handle {e : Event} (h : r.Heedful) (hr : r.Regular) (hd : r.Dutiful)
    (he : r.enabled cfg e = true) (hle : ∀ fs, e = .respond fs → r.takesOff = false) :
    (r.handle cfg e).Heedful := by
  have hpn : e ≠ .closed → ¬e.settles → (r.handle cfg e).Heedful := by
    intro hc hs
    have hed : Ended cfg unsettling r (r.handle cfg e) :=
      ended_handle hr hc he (grants_of_good (fun _ => trivial) r e) (fun _ => trivial)
        hs
    exact h.ended id hed
  cases e with
  | closed =>
    have hf : (r.handle cfg .closed).place = .Freed := by
      rw [(handle_closed hr he).2]
      rfl
    exact .of_closing ((hr.handle he).accounted.closing_of_freed hf)
  | pump verdict fd => exact h.pump hd hr.orderly
  | respond fs =>
    have ho := hr.working (.inr he)
    have hsy := hle fs rfl
    simp only [Reactor.handle]
    split
    · rename_i resp req_id ht
      apply respondTo
      · exact { ho with }
      · rfl
      · rintro rfl hsl
        rw [takesOff, ht] at hsy
        have hs' : r.settled = true := hsl
        rw [hs', Bool.true_and, isSome_eq_false_iff, isNone_iff_eq_none] at hsy
        exact hsy
    · exact h
  | send res fs =>
    simp only [enabled, Bool.and_eq_true, decide_eq_true_eq] at he
    exact onSend (Accounts.Sound.serving_of_mem hr.accounted rfl he.1.2)
  | detachInstall res handler =>
    simp only [enabled, Bool.and_eq_true] at he
    exact h.onDetachInstall he.1 handler
  | pushClose => exact h.onPushClose
  | detachResume => exact onDetachResume r
  | detachClose => exact closeConn _ _
  | replyClose req_id bytes =>
    refine h.onOutcome fun _ => ?_
    split
    · exact flushClose _ _
    · exact flushClose _ _
  | done req_id | redeliver req_id => exact h.onOutcome fun ho => .of_open { ho with } rfl
  | _ => exact hpn (by simp) id

end Heedful

end Reactor

end TruenasRos.Net
