import TruenasRos.Net.Regular

/-! # What a connection owes

A request is charged to its connection until its answer is sent. The charges are those of the
answers that wait on the send side and of the requests that workers have.
-/

namespace TruenasRos.Net

open List Outbox Option

namespace Outbox

variable (o : Outbox)

def replies (items : List SendItem) : ℕ := items.countP (·.kind = .ReplyLast)

def charges (items : List PendingItem) : ℕ := (items.map PendingItem.charge).sum

def tailOwed (tail : Option FileTail) : ℕ := tail.elim 0 fun tail => 1 + charges tail.pending

def owed : ℕ := replies o.send_queue + tailOwed o.file_tail + o.droppedCharge

theorem replies_append (items items' : List SendItem) :
    replies (items ++ items') = replies items + replies items' :=
  countP_append

theorem replies_singleton (item : SendItem) :
    replies [item] = if item.kind = .ReplyLast then 1 else 0 := by
  simp [replies]

theorem charges_append (items items' : List PendingItem) :
    charges (items ++ items') = charges items + charges items' := by
  simp [charges]

theorem charges_singleton (item : PendingItem) : charges [item] = item.charge := by
  simp [charges]

theorem tailOwed_some (tail : FileTail) : tailOwed (some tail) = 1 + charges tail.pending := rfl

theorem droppedCharge_eq :
    o.droppedCharge = o.next_file.isSome.toNat + charges o.next_file_pending := by
  rw [droppedCharge, charges]
  cases o.next_file <;> rfl

theorem owed_enqueue (bytes : Bytes) (kind : SendKind) :
    (o.enqueue bytes kind).owed = o.owed + if kind = .ReplyLast then 1 else 0 := by
  unfold enqueue
  dsimp only
  split
  · rename_i tail ht
    simp only [owed, ht, tailOwed_some, charges_append, charges_singleton, PendingItem.charge,
      droppedCharge]
    omega
  · simp only [owed, replies_append, replies_singleton, droppedCharge]
    omega

theorem owed_enqueueSegments {segs : List Bytes} (h : segs.all isEmpty = false) :
    (o.enqueueSegments segs).owed = o.owed + 1 := by
  induction segs generalizing o with
  | nil => cases h
  | cons seg segs ih =>
    unfold enqueueSegments
    split
    · rename_i he
      rw [all_cons, he, Bool.true_and] at h
      exact ih o h
    · split
      · exact owed_enqueue o seg .ReplyLast
      · rename_i hm
        rw [ih _ (eq_false_of_ne_true hm), owed_enqueue]
        rfl

theorem owed_enqueueReplyHead (bytes : Bytes) : (o.enqueueReplyHead bytes).owed = o.owed := by
  unfold enqueueReplyHead
  split
  · rfl
  · exact owed_enqueue o bytes .ReplyPart

theorem file_tail_enqueueReplyHead (bytes : Bytes) (h : o.file_tail = none) :
    (o.enqueueReplyHead bytes).file_tail = none := by
  unfold enqueueReplyHead enqueue
  split
  · exact h
  · rw [h]

theorem owed_installFileTail (file : File) (offset len : ℕ) (ht : o.file_tail = none) :
    (o.installFileTail file offset len).owed = o.owed + 1 := by
  simp [owed, installFileTail, tailOwed, droppedCharge_eq, ht, charges]
  omega

theorem owed_deferFileReply (next : PendingFile) (h : o.tailActive = true) :
    (o.deferFileReply next).owed = o.owed + 1 := by
  obtain ⟨tail, ht⟩ := isSome_iff_exists.1 h
  simp only [deferFileReply, owed, ht, tailOwed_some, droppedCharge, map_some,
    charges_append, charges_singleton, PendingItem.charge]
  omega

theorem charges_splitPending (items : List PendingItem) :
    replies (splitPending items).1 + ((splitPending items).2.1.isSome.toNat +
      charges (splitPending items).2.2) = charges items := by
  induction items with
  | nil => rfl
  | cons item items ih =>
    cases item with
    | File next => simp [splitPending, charges, PendingItem.charge, replies]
    | Pdu pdu =>
      rw [← singleton_append, charges_append, charges_singleton, ← ih]
      rcases hs : splitPending items with ⟨pdus, next, behind⟩
      simp only [singleton_append, splitPending, hs, PendingItem.charge, ← replies_singleton]
      rw [← singleton_append, replies_append]
      omega

theorem droppedCharge_of_held (h : o.held = (none, [])) : o.droppedCharge = 0 := by
  obtain ⟨hn, hpn⟩ := Prod.mk.inj h
  rw [droppedCharge, hn, hpn]
  rfl

theorem owed_enqueueFileChunk (bytes : Bytes) (last : Bool) :
    (o.enqueueFileChunk bytes last).owed = o.owed + if last then 1 else 0 := by
  simp only [owed, enqueueFileChunk, replies_append, replies_singleton, droppedCharge_eq]
  cases last <;> simp
  omega

variable {tail : FileTail} {buf : Bytes}

theorem owed_finishFileTail (ht : o.file_tail = some tail) (hh : o.held = (none, [])) :
    o.finishFileTail.owed + 1 = o.owed := by
  have hsp := charges_splitPending tail.pending
  have hd := o.droppedCharge_of_held hh
  rcases hs : splitPending tail.pending with ⟨pdus, next, behind⟩
  rw [hs] at hsp
  simp only [owed, finishFileTail, ht, hs, replies_append, tailOwed_some] at hd ⊢
  simp only [droppedCharge_eq, tailOwed, elim_none] at hd hsp ⊢
  omega

theorem owed_advanceFileTail (buf : Bytes) (ht : o.file_tail = some tail)
    (hh : o.held = (none, [])) : (o.advanceFileTail buf).1.owed = o.owed := by
  have hr : ∀ tail' : FileTail, tail'.pending = tail.pending →
      ({ o with file_tail := some tail' } : Outbox).owed = o.owed := by
    intro tail' hpn
    have hs : tailOwed (some tail') = tailOwed o.file_tail := by
      rw [ht]
      exact congrArg (1 + charges ·) hpn
    exact congrArg (fun n => replies o.send_queue + n + o.droppedCharge) hs
  unfold advanceFileTail
  rw [ht]
  dsimp only
  cases hl : tail.unread - buf.length == 0 with
  | false =>
    rw [if_neg (by simp), owed_enqueueFileChunk]
    exact hr _ rfl
  | true =>
    rw [if_pos rfl]
    have hf : ∀ o' : Outbox, o'.tailActive = true → o'.held = (none, []) →
        o'.owed = o.owed + 1 → o'.finishFileTail.owed = o.owed := by
      intro o' ha hh' ho
      obtain ⟨tail', ht'⟩ := isSome_iff_exists.1 ha
      have hfn := o'.owed_finishFileTail ht' hh'
      omega
    apply hf
    · rfl
    · exact hh
    · rw [owed_enqueueFileChunk]
      exact congrArg (· + 1) (hr _ rfl)

theorem file_tail_advanceFileTail_last (ht : o.file_tail = some tail)
    (hlen : buf.length = tail.unread) : (o.advanceFileTail buf).1.file_tail = none := by
  have hl : (tail.unread - buf.length == 0) = true := by simp [hlen]
  unfold advanceFileTail
  rw [ht]
  dsimp only
  rw [hl]
  rfl

theorem owed_dropQueuedFileReply : o.dropQueuedFileReply.owed + o.droppedCharge = o.owed := rfl

theorem owed_takeQueuedFileReply {next : PendingFile} (h : o.next_file = some next) :
    o.takeQueuedFileReply.2.owed + 1 = o.owed := by
  simp [owed, takeQueuedFileReply, droppedCharge_eq, h]
  omega

theorem owed_takeQueuedFileReply_none (h : o.next_file = none) :
    o.takeQueuedFileReply.2.owed = o.owed := by
  simp [owed, takeQueuedFileReply, droppedCharge_eq, h]

theorem advanceQueue_split (queue : List SendItem) (front_sent n : ℕ) :
    queue = (advanceQueue queue front_sent n).2.2 ++ (advanceQueue queue front_sent n).1 := by
  fun_induction advanceQueue queue front_sent n with
  | case1 | case2 | case3 => rfl
  | case4 item queue front_sent n _ front_remaining _ queue' front' popped heq ih =>
    rw [heq] at ih
    exact congrArg (item :: ·) ih

theorem owed_advanceSent (n : ℕ) :
    (o.advanceSent n).1.owed + (o.advanceSent n).2.replies = o.owed := by
  have hs := congrArg replies (advanceQueue_split o.send_queue o.front_sent (min n o.armed_bytes))
  rw [replies_append] at hs
  have ha : (o.advanceSent n).1.owed =
      replies (advanceQueue o.send_queue o.front_sent (min n o.armed_bytes)).1 +
        tailOwed o.file_tail + o.droppedCharge := rfl
  have hr : (o.advanceSent n).2.replies =
      replies (advanceQueue o.send_queue o.front_sent (min n o.armed_bytes)).2.2 := rfl
  rw [ha, hr, owed, hs]
  omega

/-- A farewell that waits for a file body has one to wait for. -/
def Awaits : Prop := o.deferred_close = true → o.tailActive = true

variable {o}

theorem Awaits.enqueue (h : o.Awaits) (bytes : Bytes) (kind : SendKind) :
    (o.enqueue bytes kind).Awaits := by
  unfold Outbox.enqueue
  dsimp only
  split
  · exact fun _ => rfl
  · rename_i hn
    intro hd
    exact absurd (h hd) (by simp [tailActive, hn])

theorem Awaits.enqueueSegments (h : o.Awaits) (segs : List Bytes) :
    (o.enqueueSegments segs).Awaits := by
  induction segs generalizing o with
  | nil => exact h
  | cons seg segs ih =>
    unfold enqueueSegments
    split
    · exact ih h
    · split
      · exact h.enqueue seg .ReplyLast
      · exact ih (h.enqueue seg .ReplyPart)

theorem tailActive_deferFileReply {next : PendingFile} (h : o.tailActive = true) :
    (o.deferFileReply next).tailActive = true := by
  simpa [tailActive, deferFileReply] using h

end Outbox

namespace Reactor

variable {cfg : CoreConfig} {R : Rules} {r r' : Reactor}

/-- The counter of requests is that of the answers that wait and of the requests of workers. -/
def Charged (r : Reactor) : Prop :=
  r.conn.closing = false →
    r.conn.outstanding = r.conn.outbox.owed + r.conn.open_req_ids.length

theorem closing_closeConn (r : Reactor) (rs : CloseReason) :
    (r.closeConn rs).conn.closing = true := by
  unfold closeConn
  split_ifs with hc
  · exact hc
  · rfl
  · rfl

theorem closing_reapClosing (r : Reactor) : r.reapClosing.conn.closing = r.conn.closing := by
  unfold reapClosing
  split_ifs <;> rfl

theorem Charged.of_closing (h : r.conn.closing = true) : r.Charged := by
  intro ho
  rw [h] at ho
  cases ho

section

variable (h : r.Charged) {o : Outbox}
include h

theorem Charged.armIf (close : Bool) : (r.armIf close).Charged := by
  cases close <;> exact h

theorem Charged.kickSend : (r.kickSend cfg).Charged := by
  unfold Reactor.kickSend
  split <;> exact h

theorem Charged.withOutbox (ho : o.owed = r.conn.outbox.owed) : (r.withOutbox o).Charged := by
  intro hon
  exact (h hon).trans (congrArg (· + r.conn.open_req_ids.length) ho.symm)

theorem Charged.charge_accept (a : Answer)
    (ho : o.owed = r.conn.outbox.owed + 1) : (r.charge.accept a o).Charged := by
  intro hon
  have hb := h hon
  change r.conn.outstanding + 1 = o.owed + r.conn.open_req_ids.length
  omega

omit h in
theorem owed_installed (o : Outbox) (next : PendingFile) (ht : o.file_tail = none) :
    (installed o next).owed = o.owed + 1 := by
  unfold installed
  rw [owed_installFileTail _ _ _ _ (o.file_tail_enqueueReplyHead _ ht), owed_enqueueReplyHead]

theorem Charged.started (next : PendingFile)
    (ht : r.conn.outbox.tailActive = false) : (r.started next).Charged := by
  have hn : r.conn.outbox.file_tail = none := by simpa [tailActive] using ht
  have ho := owed_installed r.conn.outbox next hn
  exact (h.charge_accept (.file next.head next.file next.offset next.len) ho).armIf _

theorem Charged.handedOver (ht : r.conn.outbox.file_tail = none) : r.handedOver.Charged := by
  unfold Reactor.handedOver
  split
  · intro ho
    have hb := h ho
    have hd := r.conn.outbox.owed_dropQueuedFileReply
    change r.conn.outstanding - r.conn.outbox.droppedCharge =
      r.conn.outbox.dropQueuedFileReply.owed + r.conn.open_req_ids.length
    omega
  · split
    · next hn => exact h.withOutbox (owed_takeQueuedFileReply_none _ hn)
    · rename_i next hnx
      refine Charged.armIf (h.withOutbox ?_) _
      exact (owed_installed r.conn.outbox.takeQueuedFileReply.2 next ht).trans
        (owed_takeQueuedFileReply _ hnx)

theorem Charged.advanceSent (n : ℕ) : (r.advanceSent n).Charged := by
  intro ho
  have hb := h ho
  have hs := r.conn.outbox.owed_advanceSent n
  change r.conn.outstanding - (r.conn.outbox.advanceSent n).2.replies =
    (r.conn.outbox.advanceSent n).1.owed + r.conn.open_req_ids.length
  omega

theorem Charged.reapSend (res : Res) : (r.reapSend cfg res).Charged := by
  cases res <;> exact h

theorem Charged.out (ho : r.Orderly) (hout : Out cfg R r r') : r'.Charged := by
  cases hout with
  | pump | timers | stop | drain | evict | flush | chunks | submitSend | shutdown | detach | leave
    | back => exact h
  | close | closeFlushed | closePeer | workerClose => exact .of_closing (closing_closeConn _ _)
  | reply bytes => exact h.charge_accept _ (owed_enqueue _ _ _)
  | vectored segments _ hne => exact h.charge_accept _ (owed_enqueueSegments _ hne)
  | push bytes => exact h.withOutbox (owed_enqueue _ _ _)
  | answer req_id bytes hon hmem =>
    intro hc
    have hb := h hc
    have hod := r.conn.outbox.owed_enqueue bytes .ReplyLast
    rw [if_pos rfl] at hod
    have he := length_erase_add_one hmem
    change r.conn.outstanding = (r.conn.outbox.enqueue bytes .ReplyLast).owed +
      (r.conn.open_req_ids.erase req_id).length
    omega
  | deferFile next _ ht =>
    exact h.charge_accept (.file next.head next.file next.offset next.len)
      (r.conn.outbox.owed_deferFileReply next ht)
  | startFile next _ ht => exact h.started next ht
  | defer req_id =>
    intro hc
    have hb := h hc
    change r.conn.outstanding + 1 = r.conn.outbox.owed + (r.conn.open_req_ids ++ [req_id]).length
    rw [length_append, length_singleton]
    omega
  | retire req_id _ hmem =>
    intro hc
    have hb := h hc
    have he := length_erase_add_one hmem
    change r.conn.outstanding - 1 = r.conn.outbox.owed + (r.conn.open_req_ids.erase req_id).length
    omega
  | chunk tail n _ _ ht => exact h.withOutbox (owed_advanceFileTail _ _ ht ho.held)
  | lastChunk tail _ _ ht =>
    have hch : (r.chunked tail tail.unread).Charged :=
      h.withOutbox (owed_advanceFileTail _ _ ht ho.held)
    apply hch.kickSend.handedOver
    exact (view_kickSend (·.conn.outbox.file_tail) rfl).trans
      (file_tail_advanceFileTail_last _ ht (length_slice _ _ _))
  | reads tail reading parked ht =>
    apply h.withOutbox
    rw [owed, owed, ht]
    rfl
  | sent n => exact Charged.advanceSent (Charged.reapSend h (.ok n)) n
  | sendFailed res => exact h.reapSend res
  | sendReaped res _ hc =>
    refine .of_closing ((closing_reapClosing _).trans ?_)
    cases res <;> exact hc

theorem Charged.move (ho : r.Orderly) (hm : Move cfg R r r') : r'.Charged := by
  cases hm with
  | out hout => exact h.out ho hout
  | data | stash | peerClosed | idle => exact h
  | raise f | reaped f => cases f <;> exact h
  | reapedClosing f _ _ _ _ hc =>
    refine .of_closing ((closing_reapClosing _).trans ?_)
    cases f <;> exact hc

end

theorem awaits_handedOver (h : r.conn.outbox.next_file = none →
    r.conn.outbox.next_file_pending = []) : r.handedOver.conn.outbox.Awaits := by
  unfold handedOver
  split
  · exact nofun
  · split
    · rename_i hn
      intro hd
      change r.conn.outbox.next_file_pending.any PendingItem.closes = true at hd
      rw [h hn] at hd
      cases hd
    · next next _ => cases next.close <;> exact fun _ => rfl

theorem awaits_out (h : r.conn.outbox.Awaits) (ho : Out cfg R r r') : r'.conn.outbox.Awaits := by
  cases ho with
  | pump | timers | stop | drain | evict | flush | chunks | submitSend | shutdown | detach | leave
    | back | defer | retire | sent => exact h
  | close | closeFlushed | closePeer | workerClose =>
    exact (view_closeConn (·.conn.outbox) rfl rfl).symm ▸ h
  | reply bytes | answer req_id bytes => exact h.enqueue bytes .ReplyLast
  | vectored segments => exact h.enqueueSegments segments
  | push bytes => exact h.enqueue bytes .Push
  | deferFile next hon ht => exact fun _ => tailActive_deferFileReply ht
  | startFile next =>
    unfold started
    cases next.close <;> exact fun _ => rfl
  | chunk tail n _ _ ht _ hlt =>
    refine fun _ => (held_advanceFileTail _ ht ?_).2
    rw [length_slice]
    exact hlt
  | lastChunk tail _ _ ht =>
    have hh : ((r.chunked tail tail.unread).kickSend cfg).conn.outbox.held =
        (r.chunked tail tail.unread).conn.outbox.held :=
      view_kickSend (·.conn.outbox.held) rfl
    refine awaits_handedOver fun hn => (congrArg Prod.snd hh).trans ?_
    exact held_advanceFileTail_last _ ht (length_slice _ _ _)
      ((congrArg Prod.fst hh).symm.trans hn)
  | reads => exact fun _ => rfl
  | sendFailed res => cases res <;> exact h
  | sendReaped res =>
    rw [view_reapClosing (·.conn.outbox) rfl rfl]
    cases res <;> exact h

/-- What holds of a connection's duties between any two moves. -/
structure Dutiful (r : Reactor) : Prop where
  charged : r.Charged
  awaits : r.conn.outbox.Awaits
  /-- A connection that is leaving the ring has no request to answer. -/
  leaving : r.place = .Detaching → r.conn.outstanding = 0

theorem leaving_reapClosing (h : r.place = .Detaching → r.conn.outstanding = 0) :
    r.reapClosing.place = .Detaching → r.reapClosing.conn.outstanding = 0 := by
  unfold reapClosing
  split_ifs
  · exact h
  · nofun
  · exact h

theorem leaving_out (h : r.place = .Detaching → r.conn.outstanding = 0) (ho : Out cfg R r r') :
    r'.place = .Detaching → r'.conn.outstanding = 0 := by
  have hno : r.place = .Serving → r'.place = r.place →
      r'.place = .Detaching → r'.conn.outstanding = 0 := by
    intro hs heq hd
    cases hs.symm.trans (heq.symm.trans hd)
  cases ho with
  | pump | timers | stop | drain | evict | flush | push | reads | chunks | shutdown => exact h
  | close _ hpl | closeFlushed _ hpl | closePeer _ hpl => exact hno hpl (place_closeConn _ _)
  | workerClose _ hon => exact hno hon.place (place_closeConn _ _)
  | submitSend hpl | chunk _ _ hpl => exact hno hpl rfl
  | reply _ hon | vectored _ hon | answer _ _ hon | deferFile _ hon | defer _ hon
    | retire _ hon => exact hno hon.place rfl
  | startFile _ hon => exact hno hon.place (view_armIf place rfl)
  | lastChunk _ hpl =>
    exact hno hpl ((view_handedOver place (fun _ => rfl) fun _ _ => rfl).trans (place_kickSend _))
  | sent n => exact fun hpl => (congrArg (· - _) (h hpl)).trans (Nat.zero_sub _)
  | sendFailed res => cases res <;> exact h
  | sendReaped res =>
    apply leaving_reapClosing
    cases res <;> exact h
  | detach _ hs =>
    simp only [settled, Bool.and_eq_true, beq_iff_eq] at hs
    exact fun _ => hs.1.1.2
  | leave _ _ hn => rcases hn with rfl | rfl <;> rintro ⟨⟩
  | back => rintro ⟨⟩

section

variable (h : r.Dutiful)
include h

theorem Dutiful.move (ho : r.Orderly) (hm : Move cfg R r r') : r'.Dutiful := by
  have hc := h.charged.move ho hm
  have hl : ∀ f op, ((r.reap op).live f).conn.outbox = r.conn.outbox ∧
      (((r.reap op).live f).place = .Detaching → ((r.reap op).live f).conn.outstanding = 0) :=
    fun f _ => by cases f <;> exact ⟨rfl, h.leaving⟩
  cases hm with
  | out hout => exact ⟨hc, awaits_out h.awaits hout, leaving_out h.leaving hout⟩
  | data | stash | peerClosed | idle => exact ⟨hc, h.awaits, h.leaving⟩
  | raise f => exact ⟨hc, by cases f <;> exact h.awaits, by cases f <;> exact h.leaving⟩
  | reaped f op => exact ⟨hc, (hl f op).1 ▸ h.awaits, (hl f op).2⟩
  | reapedClosing f op =>
    refine ⟨hc, ?_, leaving_reapClosing (hl f op).2⟩
    rw [view_reapClosing (·.conn.outbox) rfl rfl, (hl f op).1]
    exact h.awaits

omit h in
theorem Charged.outstanding_pos (h : r.Charged) (ho : r.conn.closing = false)
    (ht : r.conn.outbox.tailActive = true) : 0 < r.conn.outstanding := by
  obtain ⟨tail, hs⟩ := isSome_iff_exists.1 ht
  have hc := h ho
  rw [owed, hs, tailOwed_some] at hc
  omega

theorem Dutiful.ended (ho : r.Orderly) (he : Ended cfg R r r') : r'.Dutiful :=
  (he.invariant (I := fun r => r.Dutiful ∧ r.Orderly)
    (fun _ _ h hm => ⟨h.1.move h.2 hm, h.2.move hm⟩)
    (fun _ _ h _ => ⟨{ h.1 with }, h.2.of_eq rfl⟩)
    (fun _ _ h _ => ⟨{ h.1 with }, h.2.of_eq rfl⟩) ⟨h, ho⟩).1

theorem Dutiful.handle {e : Event} (hr : r.Regular)
    (he : r.enabled cfg e = true) : (r.handle cfg e).Dutiful := by
  by_cases hc : e = .closed
  · subst hc
    rw [(handle_closed hr he).2]
    exact { h with leaving := nofun }
  · exact h.ended hr.orderly (ended_any hr hc he)

theorem Dutiful.step (hr : r.Regular) (e : Event) : (r.step cfg e).Dutiful := by
  unfold Reactor.step
  split_ifs with he
  · exact h.handle hr he.2
  · exact h

end

theorem dutiful_start (cfg : CoreConfig) (ktls : Bool) : (start cfg ktls).Dutiful where
  charged _ := rfl
  awaits := nofun
  leaving _ := rfl

theorem dutiful_run (cfg : CoreConfig) (ktls : Bool) (es : List Event) :
    ((start cfg ktls).run cfg es).Regular ∧ ((start cfg ktls).run cfg es).Dutiful := by
  exact Steps.invariant (I := fun r : Reactor => r.Regular ∧ r.Dutiful)
    ⟨regular_start cfg ktls, dutiful_start cfg ktls⟩ (fun r e h => ⟨h.1.step e, h.2.step h.1 e⟩) es

/-- The reads of a connection that are in flight. -/
def reads (r : Reactor) : ℕ :=
  r.conn.recving.toNat + r.conn.splicing.toNat + r.conn.splice_polling.toNat

/-- How the reads of a connection keep out of each other's way. -/
structure ReadsAlone (r : Reactor) : Prop where
  one : r.reads ≤ 1
  stashed : r.conn.recv_close_stash.isSome = true → r.reads = 0
  half_closed : r.conn.peer_closed.isSome = true → r.reads = 0 ∧ r.conn.recv_close_stash = none
  idle : r.conn.recving = true → r.conn.recv_idle = true → r.conn.buffered = 0

/-- A connection has one read in flight at most, a receive that waits for its clock or a
half-closed connection none, and a read that is armed as idle has no part of a message before it. -/
theorem readsAlone_run (cfg : CoreConfig) (ktls : Bool) (es : List Event) :
    ((start cfg ktls).run cfg es).ReadsAlone := by
  obtain ⟨⟨-, ho, -⟩, hd⟩ := dutiful_run cfg ktls es
  generalize (start cfg ktls).run cfg es = r at ho hd
  constructor
  · have hr := ho.recv_alone
    have hs := ho.splice_alone
    unfold reads
    cases hrc : r.conn.recving <;> cases hsp : r.conn.splicing <;> simp_all [Bool.toNat_le]
  · intro hs
    obtain ⟨⟨was_idle, op⟩, hst⟩ := isSome_iff_exists.1 hs
    obtain ⟨hr, hsp, hpo, -⟩ := ho.stash _ _ hst
    simp [reads, hr, hsp, hpo]
  · intro hp
    obtain ⟨reason, hpe⟩ := isSome_iff_exists.1 hp
    obtain ⟨-, hr, hsp, hpo, hst⟩ := ho.peer reason hpe
    simp [reads, hr, hsp, hpo, hst]
  · exact ho.idle

/-- While a connection is open, its counter of requests is that of the answers that wait to be
sent, in the queue or behind a file, and of the requests that workers have; and it puts off its
farewell only behind a file that is being sent. -/
theorem outstanding_exact (cfg : CoreConfig) (ktls : Bool) (es : List Event) :
    ((start cfg ktls).run cfg es).Charged ∧
      ((start cfg ktls).run cfg es).conn.outbox.Awaits := by
  obtain ⟨-, hd⟩ := dutiful_run cfg ktls es
  exact ⟨hd.charged, hd.awaits⟩

end Reactor

end TruenasRos.Net
