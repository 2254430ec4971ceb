import TruenasRos.Net.Teardown

/-! # What holds between events

The invariants of the moves are invariants of the events and of whole runs.
-/

namespace TruenasRos.Net

namespace Outbox

variable (o : Outbox) {tail : FileTail} {buf : Bytes}

def held : Option PendingFile × List PendingItem := (o.next_file, o.next_file_pending)

@[simp] theorem held_enqueue (bytes : Bytes) (kind : SendKind) :
    (o.enqueue bytes kind).held = o.held := by
  unfold enqueue
  dsimp only
  split <;> rfl

@[simp] theorem held_enqueueSegments (segs : List Bytes) :
    (o.enqueueSegments segs).held = o.held := by
  induction segs generalizing o with
  | nil => rfl
  | cons seg segs ih =>
    unfold enqueueSegments
    split
    · exact ih o
    · split
      · exact held_enqueue o seg .ReplyLast
      · exact (ih _).trans (held_enqueue o seg .ReplyPart)

@[simp] theorem held_enqueueReplyHead (bytes : Bytes) : (o.enqueueReplyHead bytes).held =
  o.held := by
  unfold enqueueReplyHead
  split
  · rfl
  · exact held_enqueue o bytes .ReplyPart

theorem held_advanceFileTail (ht : o.file_tail = some tail) (hlt : buf.length < tail.unread) :
    (o.advanceFileTail buf).1.held = o.held ∧ (o.advanceFileTail buf).1.tailActive = true := by
  have hm : (tail.unread - buf.length == 0) = false := by
    rw [beq_eq_false_iff_ne]
    omega
  unfold advanceFileTail
  rw [ht]
  dsimp only
  rw [hm]
  exact ⟨rfl, rfl⟩

theorem splitPending_none {items : List PendingItem} (h : (splitPending items).2.1 = none) :
    (splitPending items).2.2 = [] := by
  induction items with
  | nil => rfl
  | cons item items ih =>
    cases item with
    | Pdu pdu => exact ih h
    | File next => cases h

theorem held_advanceFileTail_last (ht : o.file_tail = some tail)
    (hlen : buf.length = tail.unread) (h : (o.advanceFileTail buf).1.next_file = none) :
    (o.advanceFileTail buf).1.next_file_pending = [] := by
  have hl : (tail.unread - buf.length == 0) = true := by simp [hlen]
  have heq : (o.advanceFileTail buf).1.held = (splitPending tail.pending).2 := by
    unfold advanceFileTail
    rw [ht]
    dsimp only
    rw [hl]
    rfl
  have hn : (splitPending tail.pending).2.1 = none := (congrArg Prod.fst heq).symm.trans h
  exact (congrArg Prod.snd heq).trans (splitPending_none hn)

end Outbox

namespace Reactor

variable {cfg : CoreConfig} {R : Rules} {r r' : Reactor} {I : Reactor → Prop}

theorem held_installed (o : Outbox) (next : PendingFile) (h : o.next_file = none) :
    (installed o next).held = (none, []) := by
  have hh : (o.enqueueReplyHead next.head).next_file = o.next_file :=
    congrArg Prod.fst (Outbox.held_enqueueReplyHead o next.head)
  exact Prod.ext (hh.trans h) rfl

/-- What `Orderly` speaks of. -/
structure Order where
  recving : Bool
  splicing : Bool
  splice_polling : Bool
  stash : Option (Bool × Op)
  unread : Bytes
  buffered : ℕ
  recv_idle : Bool
  flush : Option CloseReason
  peer : Option CloseReason
  held : Option PendingFile × List PendingItem

def order (r : Reactor) : Order where
  recving := r.conn.recving
  splicing := r.conn.splicing
  splice_polling := r.conn.splice_polling
  stash := r.conn.recv_close_stash
  unread := r.log.unread
  buffered := r.conn.buffered
  recv_idle := r.conn.recv_idle
  flush := r.conn.close_on_flush
  peer := r.conn.peer_closed
  held := r.conn.outbox.held

/-- The end of a file body gives way to another send side and other charges only. -/
theorem handedOver_eq (r : Reactor) :
    ∃ o n close, r.handedOver = ((r.uncharge n).withOutbox o).armIf close := by
  unfold handedOver
  split
  · exact ⟨_, _, false, rfl⟩
  · split
    · exact ⟨_, 0, false, rfl⟩
    · exact ⟨_, 0, _, rfl⟩

theorem view_handedOver {α : Type} (view : Reactor → α)
    (h : ∀ r : Reactor, view (r.armFlush .HandlerClosed) = view r)
    (ho : ∀ o n, view ((r.uncharge n).withOutbox o) = view r) : view r.handedOver = view r := by
  obtain ⟨o, n, close, heq⟩ := handedOver_eq r
  rw [heq, view_armIf view (h _), ho]

namespace Orderly

section

variable (h : r.Orderly)
include h

theorem held : r.conn.outbox.held = (none, []) :=
  Prod.ext h.tidy.1 h.tidy.2

theorem of_eq (heq : r'.order = r.order) : r'.Orderly := by
  have hr : r'.conn.recving = r.conn.recving := congrArg Order.recving heq
  have hs : r'.conn.splicing = r.conn.splicing := congrArg Order.splicing heq
  have hpo : r'.conn.splice_polling = r.conn.splice_polling :=
    congrArg Order.splice_polling heq
  have hss : r'.conn.recv_close_stash = r.conn.recv_close_stash := congrArg Order.stash heq
  have hun : r'.log.unread = r.log.unread := congrArg Order.unread heq
  have hb : r'.conn.buffered = r.conn.buffered := congrArg Order.buffered heq
  have hid : r'.conn.recv_idle = r.conn.recv_idle := congrArg Order.recv_idle heq
  have hf : r'.conn.close_on_flush = r.conn.close_on_flush := congrArg Order.flush heq
  have hpe : r'.conn.peer_closed = r.conn.peer_closed := congrArg Order.peer heq
  have hh : r'.conn.outbox.held = r.conn.outbox.held := congrArg Order.held heq
  refine ⟨?_, ?_, ?_, ?_, ?_, ?_, ?_, ?_⟩
  · rw [hr, hs, hpo]
    exact h.recv_alone
  · rw [hs, hpo]
    exact h.splice_alone
  · rw [hss, hr, hs, hpo, hun]
    exact h.stash
  · rw [hs, hpo, hb]
    exact h.header
  · rw [hr, hid, hb]
    exact h.idle
  · exact Prod.mk.inj (hh.trans h.held)
  · rw [hf]
    exact h.flush
  · rw [hpe]
    intro rs hso
    obtain ⟨hre, hst⟩ := h.peer rs hso
    exact ⟨hre, hr.trans hst.recving, hs.trans hst.splicing,
      hpo.trans hst.splice_polling, hss.trans hst.stash⟩

theorem peer_of_still (heq : r'.conn.peer_closed = r.conn.peer_closed)
    (hs : r.Still → r'.Still) (rs : CloseReason)
    (hso : r'.conn.peer_closed = some rs) : rs = .PeerClosed ∧ r'.Still :=
  (h.peer rs (heq.symm.trans hso)).imp_right hs

theorem of_eq_flush (rs : CloseReason) (hpn : rs.judged = false)
    (heq : r'.order = { r.order with flush := some rs }) : r'.Orderly := by
  have h' : ({ r with conn.close_on_flush := some rs } : Reactor).Orderly := by
    refine { h with flush := ?_, peer := h.peer_of_still rfl ?_ }
    · rintro _ ⟨⟩
      exact hpn
    · exact fun hs => { hs with }
  exact h'.of_eq heq

end

section

variable (h : r.Orderly) {o : Outbox}
include h

theorem closeConn (rs : CloseReason) : (r.closeConn rs).Orderly :=
  h.of_eq (view_closeConn order rfl rfl)

theorem accept (a : Answer) (ho : o.held = r.conn.outbox.held) : (r.accept a o).Orderly :=
  h.of_eq (congrArg (fun held => { r.order with held }) ho)

theorem withOutbox (ho : o.held = (none, [])) : (r.withOutbox o).Orderly :=
  h.of_eq (congrArg (fun held => { r.order with held }) (ho.trans h.held.symm))

theorem armIf (close : Bool) : (r.armIf close).Orderly := by
  cases close with
  | false => exact h
  | true => exact h.of_eq_flush .HandlerClosed rfl rfl

theorem started (next : PendingFile) : (r.started next).Orderly := by
  refine armIf ?_ _
  have hh := held_installed r.conn.outbox next h.tidy.1
  exact h.of_eq (congrArg (fun held => { r.order with held }) (hh.trans h.held.symm))

theorem live (f : Flag) (op : Op) : ((r.reap op).live f).Orderly := by
  cases f with
  | recv =>
    exact ⟨nofun, h.splice_alone, fun _ _ hso => ⟨rfl, (h.stash _ _ hso).2⟩, h.header, nofun,
      h.tidy, h.flush, h.peer_of_still rfl fun hs => { hs with recving := rfl }⟩
  | send => exact h.of_eq rfl
  | splice =>
    exact ⟨fun hr => ⟨rfl, (h.recv_alone hr).2⟩, nofun,
      fun _ _ hso => ⟨(h.stash _ _ hso).1, rfl, (h.stash _ _ hso).2.2⟩,
      fun hl => h.header (.inr (hl.resolve_left nofun)), h.idle, h.tidy, h.flush,
      h.peer_of_still rfl fun hs => { hs with splicing := rfl }⟩
  | poll =>
    exact ⟨fun hr => ⟨(h.recv_alone hr).1, rfl⟩, fun _ => rfl,
      fun _ _ hso => ⟨(h.stash _ _ hso).1, (h.stash _ _ hso).2.1, rfl,
        (h.stash _ _ hso).2.2.2⟩, fun hl => h.header (.inl (hl.resolve_right nofun)), h.idle,
      h.tidy, h.flush, h.peer_of_still rfl fun hs => { hs with splice_polling := rfl }⟩

theorem lastChunk {tail : FileTail} (ht : r.conn.outbox.file_tail = some tail) :
    ((r.chunked tail tail.unread).kickSend cfg).handedOver.Orderly := by
  have hk : ((r.chunked tail tail.unread).kickSend cfg).order = _ := view_kickSend order rfl
  generalize (r.chunked tail tail.unread).kickSend cfg = s at hk
  have hh : s.conn.outbox.held = (r.chunked tail tail.unread).conn.outbox.held :=
    congrArg Order.held hk
  have hha : s.handedOver.conn.outbox.held = (none, []) := by
    unfold handedOver
    split
    · rfl
    · split
      · rename_i hn
        exact Prod.ext rfl ((congrArg Prod.snd hh).trans
          (Outbox.held_advanceFileTail_last _ ht (length_slice _ _ _)
            ((congrArg Prod.fst hh).symm.trans hn)))
      · next next hnx => cases next.close <;> exact held_installed _ next rfl
  obtain ⟨o, n, close, heq⟩ := handedOver_eq s
  rw [heq] at hha ⊢
  refine armIf (h.of_eq ?_) close
  have ho : o.held = r.conn.outbox.held := by
    refine Eq.trans ?_ h.held.symm
    cases close <;> exact hha
  calc ((s.uncharge n).withOutbox o).order = { s.order with held := o.held } := rfl
    _ = { r.order with held := o.held } := congrArg (fun x : Order => { x with held := o.held }) hk
    _ = r.order := congrArg (fun held => { r.order with held }) ho

theorem out (ho : Out cfg R r r') : r'.Orderly := by
  cases ho with
  | pump | timers | stop | drain | evict | defer | retire | reads | chunks | shutdown | detach
    | leave | back | submitSend => exact h.of_eq rfl
  | close reason => exact h.closeConn reason
  | closeFlushed reason =>
    refine closeConn ?_ reason
    exact { h with
      flush := nofun, peer := h.peer_of_still rfl fun hs => { hs with } }
  | closePeer reason =>
    refine closeConn ?_ reason
    exact { h with peer := nofun }
  | workerClose req_id => exact closeConn (r := r.taken req_id) (h.of_eq rfl) _
  | flush reason _ _ hpn => exact h.of_eq_flush reason hpn rfl
  | reply bytes => exact accept (r := r.charge) (h.of_eq rfl) _ (Outbox.held_enqueue _ _ _)
  | vectored segments =>
    exact accept (r := r.charge) (h.of_eq rfl) _ (Outbox.held_enqueueSegments _ _)
  | push bytes => exact h.accept _ (Outbox.held_enqueue _ _ _)
  | answer req_id bytes =>
    exact accept (r := r.taken req_id) (h.of_eq rfl) _ (Outbox.held_enqueue _ _ _)
  | deferFile => exact h.of_eq rfl
  | startFile next => exact h.started next
  | chunk tail n _ _ ht _ hlt =>
    refine h.withOutbox ((Outbox.held_advanceFileTail _ ht ?_).1.trans h.held)
    rw [length_slice]
    exact hlt
  | lastChunk tail _ _ ht => exact h.lastChunk ht
  | sent n => exact h.of_eq rfl
  | sendFailed res => cases res <;> exact h.of_eq rfl
  | sendReaped res =>
    refine h.of_eq ((view_reapClosing order rfl rfl).trans ?_)
    cases res <;> rfl

theorem move (hm : Move cfg R r r') : r'.Orderly := by
  cases hm with
  | out ho => exact h.out ho
  | idle => exact h.of_eq rfl
  | data inbox _ _ _ _ _ _ unread _ hk =>
    refine { h with stash := ?_, header := ?_, idle := ?_, peer := ?_ }
    · intro wi op hso
      obtain ⟨hr, hs, hpo, hop, hun⟩ := h.stash wi op hso
      exact ⟨hr, hs, hpo, hop, hk.unread (Option.isSome_of_eq_some hso) hun⟩
    · exact fun hl => hk.header hl (h.header hl)
    · exact fun hr hid => hk.empty hr (h.idle hr ((hk.idle hr).symm.trans hid))
    · exact h.peer_of_still rfl fun hs => { hs with }
  | stash stash hss =>
    refine { h with stash := ?_, peer := ?_ }
    · intro wi op hso
      obtain ⟨hq, hop, hun⟩ := hss wi op hso
      exact ⟨hq.recving, hq.splicing, hq.splice_polling, hop, hun⟩
    · intro rs hso
      obtain ⟨hre, hst⟩ := h.peer rs hso
      refine ⟨hre, hst.recving, hst.splicing, hst.splice_polling, ?_⟩
      cases hs : stash with
      | none => rfl
      | some waits =>
        have hn := (hss waits.1 waits.2 hs).1.peer
        cases hn.symm.trans hso
  | raise f op _ _ hq hf _ hid hb =>
    have hss : ∀ wi op, r.conn.recv_close_stash ≠ some (wi, op) := by simp [hq.stash]
    have hpe : ∀ rs, r.conn.peer_closed ≠ some rs := by simp [hq.peer]
    have hhd : (r.conn.raise f).splicing = true ∨ (r.conn.raise f).splice_polling = true →
        0 < r.conn.buffered := by
      refine fun hl => hb ?_
      rintro rfl
      simp [Connection.raise, hq.splicing, hq.splice_polling] at hl
    have hie : (r.conn.raise f).recving = true → r.conn.recv_idle = true → r.conn.buffered = 0 := by
      refine fun hr => hid ?_
      cases f <;> simp [Connection.raise, hq.recving] at hr ⊢
    cases f with
    | send => exact absurd rfl hf
    | recv | splice | poll =>
      refine ⟨?_, ?_, fun _ _ hso => absurd hso (hss _ _), hhd, hie, h.tidy, h.flush,
        fun _ hso => absurd hso (hpe _)⟩ <;>
        simp [Reactor.raise, stage, withConn, Connection.raise, hq.recving, hq.splicing,
          hq.splice_polling]
  | reaped f op => exact h.live f op
  | reapedClosing f op => exact (h.live f op).of_eq (view_reapClosing order rfl rfl)
  | peerClosed _ hq =>
    refine { h with peer := ?_ }
    rintro _ ⟨⟩
    exact ⟨rfl, hq.recving, hq.splicing, hq.splice_polling, hq.stash⟩

end

end Orderly

/-- The reactor is not about to call the handler or to enact its answer. -/
def Calm (r : Reactor) : Prop := r.task.isDeliver = false ∧ r.task.isRespond = false

theorem Calm.of_eq (h : r.Calm) (heq : r'.task = r.task) : r'.Calm := by
  rw [Calm, heq]
  exact h

theorem Calm.move (h : r.Calm) (hm : Move cfg R r r') : r'.Calm := by
  cases hm with
  | data | stash | raise | reaped | peerClosed => exact h
  | reapedClosing => exact h.of_eq (view_reapClosing task rfl rfl)
  | idle => exact ⟨rfl, rfl⟩
  | out ho =>
    cases ho with
    | pump => exact ⟨rfl, rfl⟩
    | timers | stop | drain | evict | flush | reply | vectored | push | answer | defer | retire
      | chunk | reads | chunks | shutdown | detach | leave | back | submitSend | sent => exact h
    | close | closeFlushed | closePeer | workerClose => exact h.of_eq (view_closeConn task rfl rfl)
    | deferFile => exact h
    | startFile => exact h.of_eq (view_armIf task rfl)
    | lastChunk tail =>
      exact h.of_eq ((view_handedOver task (fun _ => rfl) fun _ _ => rfl).trans
        (view_kickSend task rfl))
    | sendFailed res => cases res <;> exact h
    | sendReaped res =>
      refine h.of_eq ((view_reapClosing task rfl rfl).trans ?_)
      cases res <;> rfl

theorem Moves.invariant (hm : ∀ r r', I r → Move cfg R r r' → I r')
    (h : I r) (hmv : Moves cfg R r r') : I r' := by
  induction hmv with
  | refl => exact h
  | tail _ hl ih => exact hm _ _ ih hl

/-- What the moves keep, and a message or an answer to be dealt with leaves, events keep. -/
theorem Ended.invariant (hmo : ∀ r r', I r → Move cfg R r r' → I r')
    (hd : ∀ r which, I r → r.Open → I (r.withTask (.deliver which)))
    (hr : ∀ r resp, I r → r.Open → I (r.callHandler resp))
    (h : I r) (he : Ended cfg R r r') : I r' := by
  cases he with
  | done hm => exact hm.invariant hmo h
  | deliver which hm ho => exact hd _ which (hm.invariant hmo h) ho
  | respond resp hm ho => exact hr _ resp (hm.invariant hmo h) ho

variable {e : Event}

theorem calm_of_enabled (he : r.enabled cfg e = true) (hd : ∀ lease resp, e ≠ .deliver lease resp)
    (hre : ∀ fs, e ≠ .respond fs) (hs : e ≠ .stop) : r.Calm := by
  have ht : r.task.isIdle = true ∨ r.task.isPump = true := by
    cases e with
    | deliver lease resp => exact absurd rfl (hd lease resp)
    | respond fs => exact absurd rfl (hre fs)
    | stop => exact absurd rfl hs
    | pump => exact .inr he
    | recvClock | recvRetry | receiptDeadline | spliceDeadline => exact .inl he
    | _ =>
      simp only [enabled, Bool.and_eq_true] at he
      simp [he]
  unfold Calm
  cases hr : r.task <;> simp [hr, Task.isIdle, Task.isPump, Task.isDeliver, Task.isRespond] at ht ⊢

theorem Ended.working (h : Ended cfg R r r') (hc : r.Calm)
    (hb : r'.task.isDeliver = true ∨ r'.task.isRespond = true) : r'.Working := by
  cases h with
  | done hm =>
    obtain ⟨hd, hr⟩ := hm.invariant (fun _ _ => Calm.move) hc
    simp [hd, hr] at hb
  | deliver which _ ho hst => exact ⟨{ ho with }, fun ht => { hst (Task.deliver.inj ht) with }⟩
  | respond resp _ ho => exact ⟨{ ho with }, by simp [callHandler]⟩

theorem grants_of_good (hg : ∀ x, R.good x) (r : Reactor) (e : Event) : r.Grants cfg R e := by
  cases e with
  | recv => exact fun _ _ _ => ⟨fun _ _ _ _ => hg _, fun _ _ _ _ _ _ _ _ _ _ _ => hg _⟩
  | _ => simp [Grants, Allows, hg]

theorem ended_any (h : r.Regular) (hc : e ≠ .closed) (he : r.enabled cfg e = true) :
    Ended cfg {} r (r.handle cfg e) :=
  ended_handle h hc he (grants_of_good (fun _ => trivial) r e) (fun _ => trivial)
    fun _ => trivial

theorem working_handle (h : r.Regular) (hc : e ≠ .closed) (he : r.enabled cfg e = true)
    (hb : (r.handle cfg e).task.isDeliver = true ∨ (r.handle cfg e).task.isRespond = true) :
    (r.handle cfg e).Working := by
  have hed : Ended cfg {} r (r.handle cfg e) :=
    ended_any h hc he
  cases e with
  | deliver lease resp =>
    have ho := h.working (.inl he)
    revert hb
    simp only [handle]
    split
    · rename_i which _
      intro _
      cases which <;> exact ⟨{ ho with }, by rintro ⟨⟩⟩
    · exact fun _ => ho
  | respond fs =>
    have ho := h.working (.inr he)
    revert hb
    simp only [handle]
    split
    · rename_i resp id _
      have hou : Outs cfg {} (r.withTask .pump) ((r.withTask .pump).respondTo cfg resp id fs) :=
        Outs.respondTo { ho with } trivial trivial
      exact Ended.working (.done hou.moves) ⟨rfl, rfl⟩
    · exact fun _ => ho
  | stop =>
    have ho := h.working hb
    exact ⟨{ ho with }, fun ht => { ho.still ht with }⟩
  | _ => exact hed.working (calm_of_enabled he (by simp) (by simp) (by simp)) hb

section

variable {op : Op} {res : Res} {data : Bytes} {pk : Picked} {dr grew : Bool}

theorem Regular.recving (h : r.Regular) (he : r.enabled cfg (.recv op res data pk dr grew) = true) :
    r.conn.recving = true := by
  simp only [enabled, Bool.and_eq_true, decide_eq_true_eq] at he
  refine Accounts.Balanced.flag_of_mem (f := .recv) h.accounted.toBalanced ?_ he.1.1.2
  rcases he.1.2 with rfl | rfl <;> rfl

theorem Regular.peer_none (h : r.Regular)
    (he : r.enabled cfg (.recv op res data pk dr grew) = true) : r.conn.peer_closed = none :=
  h.orderly.peer_none fun hs => hs.not_recving (h.recving he)

end

theorem handle_closed (h : r.Regular) (he : r.enabled cfg .closed = true) :
    .Close ∈ r.inflight ∧ r.handle cfg .closed = (r.reap .Close).opsDown.reclaimSlot := by
  simp only [enabled, Bool.and_eq_true, decide_eq_true_eq] at he
  exact ⟨he.2, (h.accounted.onClosed he.2).2⟩

theorem Regular.handle_closed (h : r.Regular) (he : r.enabled cfg .closed = true) :
    (r.handle cfg .closed).Regular := by
  obtain ⟨hmem, heq⟩ := Reactor.handle_closed h he
  refine ⟨(h.accounted.onClosed hmem).1, ?_, ?_⟩
  · rw [heq]
    exact h.orderly.of_eq rfl
  · rw [heq]
    obtain ⟨hd, hr⟩ := calm_of_enabled he nofun nofun nofun
    rintro (hb | hb)
    · exact absurd hb (by simp [opsDown, reclaimSlot, reap, hd])
    · exact absurd hb (by simp [opsDown, reclaimSlot, reap, hr])

theorem Regular.handle (h : r.Regular) (he : r.enabled cfg e = true) :
    (r.handle cfg e).Regular := by
  by_cases hc : e = .closed
  · subst hc
    exact h.handle_closed he
  · have hed : Ended cfg {} r (r.handle cfg e) :=
      ended_any h hc he
    refine ⟨?_, ?_, working_handle h hc he⟩
    · exact hed.invariant (fun _ _ => Accounted.move) (fun _ _ h _ => h) (fun _ _ h _ => h)
        h.accounted
    · exact hed.invariant (fun _ _ => Orderly.move) (fun _ _ h _ => h.of_eq rfl)
        (fun _ _ h _ => h.of_eq rfl) h.orderly

theorem Move.place_ne_freed (h : r.Accounted) (hpl : r.place ≠ .Freed)
    (hm : Move cfg R r r') : r'.place ≠ .Freed := by
  cases hm with
  | data | stash | raise | reaped | peerClosed | idle => exact hpl
  | reapedClosing f op _ hop hmem hc =>
    rw [h.place_reapClosing hc hop hmem rfl]
    exact hpl
  | out ho =>
    cases ho with
    | pump | timers | stop | drain | evict | flush | reply | vectored | push | answer | defer
      | retire | chunk | reads | chunks | shutdown | submitSend | sent => exact hpl
    | close | closeFlushed | closePeer | workerClose => exact (place_closeConn _ _).trans_ne hpl
    | deferFile => exact hpl
    | startFile => exact (view_armIf place rfl).trans_ne hpl
    | lastChunk tail =>
      rw [view_handedOver place (fun _ => rfl) fun _ _ => rfl]
      exact (place_kickSend _).trans_ne hpl
    | sendFailed res => cases res <;> exact hpl
    | sendReaped res hmem hc =>
      rw [reapSend, h.place_reapClosing hc rfl hmem (accounts_toWire _ _ _)]
      exact hpl
    | detach => nofun
    | leave place _ hn => rcases hn with rfl | rfl <;> nofun
    | back => nofun

/-- The slot is freed by the completion of the close, and by nothing else. -/
theorem place_handle_eq_freed_iff (h : r.Regular) (hpl : r.place ≠ .Freed)
    (he : r.enabled cfg e = true) : (r.handle cfg e).place = .Freed ↔ e = .closed := by
  constructor
  · intro hf
    by_contra hc
    have hed : Ended cfg {} r (r.handle cfg e) :=
      ended_any h hc he
    have hk : (r.handle cfg e).Accounted ∧ (r.handle cfg e).place ≠ .Freed :=
      hed.invariant (I := fun r => r.Accounted ∧ r.place ≠ .Freed)
        (fun _ _ h hm => ⟨h.1.move hm, hm.place_ne_freed h.1 h.2⟩) (fun _ _ h _ => h)
        (fun _ _ h _ => h) ⟨h.accounted, hpl⟩
    exact hk.2 hf
  · rintro rfl
    rw [(handle_closed h he).2]
    rfl

theorem Regular.step (h : r.Regular) (e : Event) : (r.step cfg e).Regular := by
  unfold Reactor.step
  split
  · next he => exact h.handle he.2
  · exact h

theorem Regular.closeConn (h : r.Regular) (hpl : r.place = .Serving) (hc : r.Calm)
    (rs : CloseReason) : (r.closeConn rs).Regular where
  accounted := h.accounted.closeConn hpl rs
  orderly := h.orderly.closeConn rs
  working hb := by
    rw [view_closeConn task rfl rfl, hc.1, hc.2] at hb
    simp at hb

theorem regular_start (cfg : CoreConfig) (ktls : Bool) : (start cfg ktls).Regular where
  accounted :=
    ⟨⟨fun f => by cases f <;> rfl, rfl, rfl, by simp [start, accounts], rfl, rfl, by
      simp [start, accounts]⟩, .opened rfl rfl rfl nofun ⟨rfl, rfl, rfl, rfl⟩⟩
  orderly := ⟨nofun, nofun, nofun, by simp [start, Connection.new], nofun, ⟨rfl, rfl⟩, nofun,
    nofun⟩
  working := by simp [start, Task.isDeliver, Task.isRespond]

def readAhead : CoreConfig where
  max_request_bytes := 1024
  body_placement_threshold := none
  max_in_flight_requests := 2
  max_send_backlog := 1024
  max_send_coalesce := 8
  idle_timeout := true
  request_timeout := true
  send_timeout := true
  max_receipt_time := false
  receipt_window_bytes := 0
  recv_pool := none
  recv_shortage_retry := false
  fs_pool := false
  fs_body_chunk := 4096
  in_flight_pos := by decide
  coalesce_pos := by decide
  body_chunk_pos := by decide
  pool_holds_chunk := nofun

end Reactor

end TruenasRos.Net
