import TruenasRos.Net.Letters

/-! # What goes out, and in which order

What has gone out, what waits and what was given up make up the answers that were accepted, in
that order. The replies that were counted are those whose last byte has gone out.
-/

namespace TruenasRos.Net

open List Marked Outbox

def Answer.letters (a : Answer) : Letters := markLast a.isReply a.bytes

namespace Outbox

variable {o o' : Outbox}

/-- Segments were queued, and nothing else became of the queue. -/
structure Extends (o o' : Outbox) : Prop where
  queue : ∃ items, o'.send_queue = o.send_queue ++ items
  front : o'.front_sent = o.front_sent
  armed : o'.armed_bytes = o.armed_bytes

theorem Extends.of_eq (hq : o'.send_queue = o.send_queue) (hf : o'.front_sent = o.front_sent)
    (ha : o'.armed_bytes = o.armed_bytes) : Extends o o' :=
  ⟨⟨[], hq.trans (append_nil _).symm⟩, hf, ha⟩

theorem Extends.refl (o : Outbox) : Extends o o := .of_eq rfl rfl rfl

theorem Extends.trans {o'' : Outbox} (h : Extends o o') (h' : Extends o' o'') : Extends o o'' := by
  obtain ⟨items, hq⟩ := h.queue
  obtain ⟨items', hq'⟩ := h'.queue
  refine ⟨⟨items ++ items', ?_⟩, h'.front.trans h.front, h'.armed.trans h.armed⟩
  rw [hq', hq, append_assoc]

theorem Extends.gather (h : Extends o o') (k : ℕ) : o.gather k <+: o'.gather k := by
  obtain ⟨items, hq⟩ := h.queue
  rw [Outbox.gather, Outbox.gather, hq, h.front, take_append, flatMap_append]
  exact (prefix_append _ _).drop _

theorem Extends.queued (h : Extends o o') {sending : Bool}
    (hq : sending = true ∨ 0 < o.armed_bytes → o.hasPendingSend = true)
    (hs : sending = true ∨ 0 < o'.armed_bytes) : o'.hasPendingSend = true := by
  obtain ⟨items, heq⟩ := h.queue
  rw [h.armed] at hs
  have hp := hq hs
  simp_all [hasPendingSend]

/-- What is left of a send lies in what is left of the queue. -/
theorem hasPendingSend_advanceSent {n k : ℕ} (h : o.Sound) (hle : n ≤ o.armed_bytes)
    (ha : o.armed_bytes ≤ (o.gather k).length) (hpos : 0 < (o.advanceSent n).1.armed_bytes) :
    (o.advanceSent n).1.hasPendingSend = true := by
  have hpos' : 0 < o.armed_bytes - min n o.armed_bytes := hpos
  have hga := (o.gather_prefix k).length_le
  have hq := congrArg length (queueLetters_advanceSent h hle).1
  rw [length_map] at hga
  rw [length_drop] at hq
  by_contra hem
  have hnil : (o.advanceSent n).1.send_queue = [] := by simpa [hasPendingSend] using hem
  simp only [queueLetters, itemLetters, hnil, flatMap_nil, drop_nil, length_nil] at hq hga
  omega

section

variable (o)

theorem extends_enqueue (bytes : Bytes) (kind : SendKind) : Extends o (o.enqueue bytes kind) := by
  unfold enqueue
  dsimp only
  split
  · exact .of_eq rfl rfl rfl
  · exact ⟨⟨_, rfl⟩, rfl, rfl⟩

theorem extends_enqueueSegments (segs : List Bytes) : Extends o (o.enqueueSegments segs) := by
  induction segs generalizing o with
  | nil => exact .refl o
  | cons seg segs ih =>
    unfold enqueueSegments
    split
    · exact ih o
    · split
      · exact extends_enqueue o seg .ReplyLast
      · exact (extends_enqueue o seg .ReplyPart).trans (ih _)

theorem extends_enqueueReplyHead (bytes : Bytes) : Extends o (o.enqueueReplyHead bytes) := by
  unfold enqueueReplyHead
  split
  · exact .refl o
  · exact extends_enqueue o bytes .ReplyPart

theorem extends_installed (next : PendingFile) : Extends o (Reactor.installed o next) :=
  (extends_enqueueReplyHead o next.head).trans (.of_eq rfl rfl rfl)

theorem extends_finishFileTail : Extends o o.finishFileTail := by
  unfold finishFileTail
  split
  · exact .refl o
  · exact ⟨⟨_, rfl⟩, rfl, rfl⟩

end

theorem extends_advanceFileTail {tail : FileTail} (ht : o.file_tail = some tail) (n : ℕ) :
    Extends o (o.advanceFileTail (tail.file.slice tail.next_offset n)).1 := by
  have hc : Extends o (o.withChunk tail n) := ⟨⟨_, rfl⟩, rfl, rfl⟩
  rw [advanceFileTail_slice ht]
  split
  · exact hc.trans (extends_finishFileTail _)
  · exact hc

end Outbox

namespace Reactor

variable (cfg : CoreConfig) (r : Reactor)

def words : List (Bytes × Bool) := r.log.accepted.map fun a => (a.bytes, a.isReply)

def promised : Letters := r.log.accepted.flatMap Answer.letters

def inFlight : Bytes :=
  if r.conn.sending then
    (r.conn.outbox.gather cfg.max_send_coalesce).take r.conn.outbox.armed_bytes
  else []

/-- What was sent, what waits and what was cut off make up what was promised. -/
def Balanced : Prop :=
  ∃ sent cut, r.promised = sent ++ r.conn.outbox.letters ++ cut ∧
    sent.map (·.1) = r.log.socket ∧ sent.countP (·.2) = r.log.counted ∧
      (r.conn.close_on_flush = none → cut = [])

/-- What was sent and what is in flight come first in what was promised, and no reply was counted
that has not gone out. -/
def OnWire : Prop :=
  r.log.socket ++ r.inFlight cfg <+: r.promised.map (·.1) ∧
    r.log.counted ≤ (r.promised.take r.log.socket.length).countP (·.2)

/-- What holds of a connection's send side between any two moves. -/
structure Ledger : Prop where
  sound : r.conn.outbox.Sound
  armed : r.conn.sending = true →
    r.conn.outbox.armed_bytes ≤ (r.conn.outbox.gather cfg.max_send_coalesce).length
  queued : r.conn.sending = true ∨ 0 < r.conn.outbox.armed_bytes →
    r.conn.outbox.hasPendingSend = true
  balanced : r.conn.closing = false → r.Balanced
  closing : r.conn.closing = true → r.OnWire cfg

variable {cfg r} {R : Rules} {r' : Reactor} {o : Outbox}

theorem inFlight_of_extends (hs : r'.conn.sending = r.conn.sending)
    (he : r.conn.outbox.Extends r'.conn.outbox) (ha : r.conn.sending = true →
      r.conn.outbox.armed_bytes ≤ (r.conn.outbox.gather cfg.max_send_coalesce).length) :
    r'.inFlight cfg = r.inFlight cfg := by
  unfold inFlight
  rw [hs, he.armed]
  split
  · rename_i hsn
    obtain ⟨rest, hr⟩ := he.gather cfg.max_send_coalesce
    rw [← hr, take_append_of_le_length (ha hsn)]
  · rfl

theorem Balanced.withOutbox (h : r.Balanced) (ho : o.letters = r.conn.outbox.letters) :
    (r.withOutbox o).Balanced := by
  obtain ⟨sent, cut, heq, hr⟩ := h
  exact ⟨sent, cut, heq.trans (congrArg (fun letters => sent ++ letters ++ cut) ho.symm), hr⟩

theorem promised_accept (r : Reactor) (a : Answer) (o : Outbox) :
    (r.accept a o).promised = r.promised ++ a.letters :=
  (flatMap_append).trans (congrArg _ (flatMap_singleton _ _))

theorem Balanced.accept (h : r.Balanced) (hf : r.conn.close_on_flush = none) (a : Answer)
    (ho : o.letters = r.conn.outbox.letters ++ a.letters) : (r.accept a o).Balanced := by
  obtain ⟨sent, cut, heq, hs, hcn, hc⟩ := h
  obtain rfl := hc hf
  refine ⟨sent, [], ?_, hs, hcn, fun _ => rfl⟩
  change (r.accept a o).promised = sent ++ o.letters ++ []
  rw [promised_accept, heq, ho, append_nil, append_nil, append_assoc]

theorem countP_take_mono {l l' : Letters} {n n' : ℕ} (h : l <+: l') (hle : n ≤ n') :
    (l.take n).countP (·.2) ≤ (l'.take n').countP (·.2) := by
  have ht : l.take n <+: l'.take n' := (h.take n).trans <| take_prefix_take_left hle
  exact ht.sublist.countP_le

theorem Balanced.take_promised (h : r.Balanced) :
    (r.promised.take r.log.socket.length).map (·.1) = r.log.socket ∧
      (r.promised.take r.log.socket.length).countP (·.2) = r.log.counted := by
  obtain ⟨sent, cut, heq, hs, hc, -⟩ := h
  have hl : r.log.socket.length = sent.length := by rw [← hs, length_map]
  have ht : r.promised.take r.log.socket.length = sent := by
    rw [heq, hl, append_assoc, take_left]
  rw [ht]
  exact ⟨hs, hc⟩

theorem Balanced.onWire (h : r.Balanced) : r.OnWire cfg := by
  refine ⟨?_, h.take_promised.2.ge⟩
  obtain ⟨sent, cut, heq, hs, -⟩ := h
  have hf : r.inFlight cfg <+: r.conn.outbox.letters.map (·.1) := by
    unfold inFlight letters
    split
    · apply IsPrefix.trans <| take_prefix _ _
      refine (r.conn.outbox.gather_prefix _).trans ?_
      simp only [map_append, append_assoc]
      exact prefix_append _ _
    · exact nil_prefix
  rw [heq, map_append, map_append, hs, append_assoc]
  exact (prefix_append_right_inj _).2 (hf.trans (prefix_append _ _))

theorem Ledger.onWire (h : r.Ledger cfg) : r.OnWire cfg := by
  cases hc : r.conn.closing with
  | false => exact (h.balanced hc).onWire
  | true => exact h.closing hc

theorem ledger_closeConn (hs : r.conn.outbox.Sound) (ha : r.conn.sending = true →
      r.conn.outbox.armed_bytes ≤ (r.conn.outbox.gather cfg.max_send_coalesce).length)
    (hq : r.conn.sending = true ∨ 0 < r.conn.outbox.armed_bytes →
      r.conn.outbox.hasPendingSend = true)
    (hw : r.OnWire cfg) (rs : CloseReason) : (r.closeConn rs).Ledger cfg := by
  unfold Reactor.closeConn
  split
  · rename_i hc
    refine ⟨hs, ha, hq, fun ho => ?_, fun _ => hw⟩
    rw [hc] at ho
    cases ho
  · split <;> exact ⟨hs, ha, hq, nofun, fun _ => hw⟩

section

variable (h : r.Ledger cfg) {res : Res}
include h

theorem Ledger.withOutbox (hs : o.Sound) (he : r.conn.outbox.Extends o)
    (ho : o.letters = r.conn.outbox.letters) : (r.withOutbox o).Ledger cfg where
  sound := hs
  armed hse := by
    refine (he.armed.trans_le (h.armed hse)).trans ?_
    exact (he.gather cfg.max_send_coalesce).length_le
  queued := he.queued h.queued
  balanced hon := (h.balanced hon).withOutbox ho
  closing hc := by
    have hf : (r.withOutbox o).inFlight cfg = r.inFlight cfg :=
      inFlight_of_extends rfl he h.armed
    rw [OnWire, hf]
    exact h.closing hc

theorem Ledger.accept (hf : r.conn.close_on_flush = none) (a : Answer)
    (hs : o.Sound) (he : r.conn.outbox.Extends o)
    (ho : o.letters = r.conn.outbox.letters ++ a.letters) : (r.accept a o).Ledger cfg where
  sound := hs
  armed hse := by
    refine (he.armed.trans_le (h.armed hse)).trans ?_
    exact (he.gather cfg.max_send_coalesce).length_le
  queued := he.queued h.queued
  balanced hon := (h.balanced hon).accept hf a ho
  closing hc := by
    have hfg : (r.accept a o).inFlight cfg = r.inFlight cfg :=
      inFlight_of_extends rfl he h.armed
    obtain ⟨hw, hcn⟩ := h.closing hc
    rw [OnWire, hfg, promised_accept, map_append]
    constructor
    · exact hw.trans (prefix_append _ _)
    · exact hcn.trans (countP_take_mono (prefix_append _ _) le_rfl)

theorem Ledger.armIf (close : Bool) : (r.armIf close).Ledger cfg := by
  cases close with
  | false => exact h
  | true =>
    refine { h with balanced := fun ho => ?_ }
    obtain ⟨sent, cut, heq, hs, hc, -⟩ := h.balanced ho
    exact ⟨sent, cut, heq, hs, hc, nofun⟩

theorem Ledger.submitSend (ho : r.conn.closing = false)
    (hp : r.conn.outbox.hasPendingSend = true ∨ 0 < r.conn.outbox.armed_bytes) :
    (r.submitSend cfg).Ledger cfg where
  sound := { h.sound with }
  armed _ := le_rfl
  queued _ := hp.elim id fun hpos => h.queued (.inr hpos)
  balanced := h.balanced
  closing hc := by
    change r.conn.closing = true at hc
    rw [ho] at hc
    cases hc

theorem Ledger.kickSend : (r.kickSend cfg).Ledger cfg := by
  unfold Reactor.kickSend
  split
  · rename_i hid
    simp only [Bool.and_eq_true, Bool.not_eq_true'] at hid
    exact h.submitSend hid.1.2 (.inl hid.2)
  · exact h

theorem Ledger.started (ho : r.Orderly) (hon : r.Open)
    (ht : r.conn.outbox.tailActive = false) (next : PendingFile) (hlen : next.len ≠ 0) :
    (r.started next).Ledger cfg := by
  have hn : r.conn.outbox.file_tail = none := by simpa [tailActive] using ht
  have hlt : (installed r.conn.outbox next).letters = r.conn.outbox.letters ++ next.letters := by
    rw [letters_installed h.sound hn ho.tidy.1 next hlen, letters_of_held ho.held, ho.tidy.2, hn]
    simp [pendingLetters]
  have hs := h.accept hon.flush (.file next.head next.file next.offset next.len)
    (sound_installed h.sound next) (extends_installed _ next) hlt
  refine Ledger.armIf ?_ _
  exact { hs with }

theorem Ledger.handedOver (ht : r.conn.outbox.file_tail = none)
    (ho : r.conn.closing = false) : r.handedOver.Ledger cfg := by
  have htk : r.conn.outbox.Extends r.conn.outbox.takeQueuedFileReply.2 := .of_eq rfl rfl rfl
  unfold Reactor.handedOver
  split
  · rename_i hfl
    have hd := r.conn.outbox.letters_dropQueuedFileReply
    refine ⟨h.sound.dropQueuedFileReply, h.armed, h.queued, fun _ => ?_, ?_⟩
    · obtain ⟨sent, cut, heq, hso, hc, -⟩ := h.balanced ho
      refine ⟨sent, r.conn.outbox.heldLetters ++ cut, ?_, hso, hc, fun hn => ?_⟩
      · rw [hd] at heq
        apply heq.trans
        simp only [append_assoc]
        rfl
      · exact absurd hfl (by simp [show r.conn.close_on_flush = none from hn])
    · exact h.closing
  · split
    · rename_i hn
      apply h.withOutbox h.sound.takeQueuedFileReply htk
      unfold letters heldLetters
      rw [hn]
      rfl
    · rename_i next hnx
      refine Ledger.armIf (h.withOutbox ?_ ?_ ?_) _
      · exact sound_installed h.sound.takeQueuedFileReply next
      · exact htk.trans (extends_installed _ next)
      · have hin : (installed r.conn.outbox.takeQueuedFileReply.2 next).letters = _ :=
          letters_installed h.sound.takeQueuedFileReply ht rfl next (h.sound.next next hnx)
        rw [hin, letters, heldLetters, hnx, ht, Option.elim_none,
          Option.elim_some, append_nil, append_assoc]
        rfl

theorem Ledger.lastChunk {tail : FileTail} (ho : r.Orderly)
    (hon : r.conn.closing = false) (ht : r.conn.outbox.file_tail = some tail)
    (hpos : 0 < tail.unread) :
    ((r.chunked tail tail.unread).kickSend cfg).handedOver.Ledger cfg := by
  have hc : (r.chunked tail tail.unread).Ledger cfg :=
    h.withOutbox (h.sound.advanceFileTail ht hpos) (extends_advanceFileTail ht _)
      (letters_advanceFileTail h.sound ht ho.held hpos le_rfl)
  apply hc.kickSend.handedOver
  · exact (view_kickSend (·.conn.outbox.file_tail) rfl).trans
      (file_tail_advanceFileTail_last _ ht (length_slice _ _ _))
  · exact (view_kickSend (·.conn.closing) rfl).trans hon

theorem Ledger.sent {n : ℕ} (ho : r.Orderly) (hs : r.conn.sending = true)
    (hon : r.conn.closing = false) (hle : n ≤ r.conn.outbox.armed_bytes) :
    ((r.reapSend cfg (.ok n)).advanceSent n).Ledger cfg := by
  have hg := gather_take (hle.trans (h.armed hs))
  obtain ⟨hq, hr⟩ := queueLetters_advanceSent h.sound hle
  obtain ⟨sent, cut, heq, hso, hcn, hcut⟩ := h.balanced hon
  refine ⟨h.sound.advanceSent n, nofun, fun hl => ?_, fun _ => ?_, fun hc => ?_⟩
  · exact hasPendingSend_advanceSent h.sound hle (h.armed hs) (hl.resolve_left nofun)
  · refine ⟨sent ++ r.conn.outbox.queueLetters.take n, cut, ?_, ?_, ?_, hcut⟩
    · have hlt : ((r.reapSend cfg (.ok n)).advanceSent n).conn.outbox.letters =
          r.conn.outbox.queueLetters.drop n ++ r.conn.outbox.file_tail.elim [] tailLetters := by
        rw [← hq]
        exact letters_of_held ho.held
      apply heq.trans
      rw [hlt, letters_of_held ho.held]
      conv_lhs => rw [← take_append_drop n r.conn.outbox.queueLetters]
      simp only [append_assoc]
    · rw [map_append, hso, ← hg]
      rfl
    · rw [countP_append, hcn, ← hr]
      rfl
  · change r.conn.closing = true at hc
    rw [hon] at hc
    cases hc

theorem Ledger.queued_armed (hl : false = true ∨ 0 < r.conn.outbox.armed_bytes) :
    r.conn.outbox.hasPendingSend = true :=
  h.queued (.inr (hl.resolve_left nofun))

theorem Ledger.reapSend (ho : r.conn.closing = false)
    (hr : ∀ n, res = .ok n → n = 0) : (r.reapSend cfg res).Ledger cfg := by
  have hc : ∀ {P : Prop}, r.conn.closing = true → P := by
    intro P hc
    rw [ho] at hc
    cases hc
  have hqd := h.queued_armed
  cases res with
  | error e => exact ⟨h.sound, nofun, hqd, h.balanced, hc⟩
  | ok n =>
    obtain rfl := hr n rfl
    refine ⟨h.sound, nofun, hqd, fun _ => ?_, hc⟩
    obtain ⟨sent, cut, heq, hs, hre⟩ := h.balanced ho
    refine ⟨sent, cut, heq, hs.trans ?_, hre⟩
    exact (append_nil _).symm

theorem Ledger.reapSend_closing (hs : r.conn.sending = true) (hc : r.conn.closing = true)
    (hr : ∀ n, res = .ok n → n ≤ r.conn.outbox.armed_bytes) : (r.reapSend cfg res).Ledger cfg := by
  obtain ⟨hw, hcn⟩ := h.closing hc
  have hf : r.inFlight cfg =
      (r.conn.outbox.gather cfg.max_send_coalesce).take r.conn.outbox.armed_bytes := if_pos hs
  have ho : ∀ {P : Prop}, r.conn.closing = false → P := by
    intro P ho
    rw [hc] at ho
    cases ho
  cases res with
  | error e =>
    refine ⟨h.sound, nofun, h.queued_armed, ho, fun _ => ⟨?_, hcn⟩⟩
    exact ((prefix_append_right_inj _).2 nil_prefix).trans hw
  | ok n =>
    have ht : (r.conn.outbox.gather cfg.max_send_coalesce).take n <+: r.inFlight cfg := by
      rw [hf]
      exact take_prefix_take_left (hr n rfl)
    have hso : (r.reapSend cfg (.ok n)).log.socket =
        r.log.socket ++ (r.conn.outbox.gather cfg.max_send_coalesce).take n := rfl
    have hn : (r.reapSend cfg (.ok n)).inFlight cfg = [] := rfl
    refine ⟨h.sound, nofun, h.queued_armed, ho, fun _ => ?_⟩
    rw [OnWire, hso, hn, append_nil]
    constructor
    · exact ((prefix_append_right_inj _).2 ht).trans hw
    · refine hcn.trans (countP_take_mono prefix_rfl ?_)
      rw [length_append]
      exact Nat.le_add_right _ _

theorem Ledger.reapClosing : r.reapClosing.Ledger cfg := by
  unfold Reactor.reapClosing
  split_ifs <;> exact { h with }

end

theorem sending_of_mem (h : r.Accounted) (hmem : .Send ∈ r.inflight) : r.conn.sending = true :=
  Accounts.Balanced.flag_of_mem (f := .send) h.toBalanced rfl hmem

section

variable (h : r.Ledger cfg)
include h

theorem Ledger.enqueue {bytes : Bytes} (ho : r.Orderly)
    (hf : r.conn.close_on_flush = none) (hne : bytes ≠ []) (kind : SendKind) (a : Answer)
    (ha : a.letters = markLast (decide (kind = .ReplyLast)) bytes) :
    (r.accept a (r.conn.outbox.enqueue bytes kind)).Ledger cfg := by
  apply h.accept hf a (h.sound.enqueue hne kind) (extends_enqueue _ bytes kind)
  rw [ha]
  exact letters_enqueue h.sound ho.held bytes kind

theorem Ledger.withTail {tail tail' : FileTail} (ht : r.conn.outbox.file_tail = some tail)
    (hlt : Outbox.tailLetters tail' = Outbox.tailLetters tail)
    (hpn : tail'.pending = tail.pending) : (r.withTail tail').Ledger cfg := by
  apply h.withOutbox
  · refine { h.sound with pending := ?_ }
    rintro _ ⟨⟩
    rw [hpn]
    exact h.sound.pending tail ht
  · exact .of_eq rfl rfl rfl
  · unfold letters
    rw [ht]
    simp only [Option.elim_some, hlt]
    rfl

theorem Ledger.out (ha : r.Accounted) (ho : r.Orderly) (hout : Out cfg R r r') : r'.Ledger cfg := by
  cases hout with
  | pump | timers | stop | drain | evict | defer | retire | shutdown | detach | leave
    | back => exact { h with }
  | chunks => exact { h with sound := { h.sound with } }
  | close reason => exact ledger_closeConn h.sound h.armed h.queued h.onWire reason
  | closeFlushed reason | closePeer reason | workerClose req_id =>
    apply ledger_closeConn
    · exact h.sound
    · exact h.armed
    · exact h.queued
    · exact h.onWire
  | submitSend _ hon _ hp => exact h.submitSend hon hp
  | flush reason =>
    refine { h with balanced := fun hon => ?_ }
    obtain ⟨sent, cut, heq, hs, hc, -⟩ := h.balanced hon
    exact ⟨sent, cut, heq, hs, hc, nofun⟩
  | reply bytes hon hne | answer req_id bytes hon _ hne =>
    have hr := h.enqueue ho hon.flush hne .ReplyLast (.reply bytes) rfl
    exact { hr with }
  | vectored segments hon hne =>
    have hv := h.accept hon.flush (.vectored segments) (h.sound.enqueueSegments segments)
      (extends_enqueueSegments _ segments)
      (letters_enqueueSegments h.sound ho.held hne)
    exact { hv with }
  | push bytes hf hne => exact h.enqueue ho hf hne .Push (.push bytes) rfl
  | deferFile next hon ht hlen =>
    have hd := h.accept hon.flush (.file next.head next.file next.offset next.len)
      (h.sound.deferFileReply next hlen) (.of_eq rfl rfl rfl)
      (letters_deferFileReply ho.held ht next)
    exact { hd with }
  | startFile next hon ht hlen => exact h.started ho hon ht next hlen
  | chunk tail n _ hon ht hpos hlt =>
    exact h.withOutbox (h.sound.advanceFileTail ht hpos) (extends_advanceFileTail ht n)
      (letters_advanceFileTail h.sound ht ho.held hpos hlt.le)
  | lastChunk tail _ hon ht hpos => exact h.lastChunk ho hon ht hpos
  | reads tail reading parked ht => exact h.withTail ht rfl rfl
  | sent n hmem hon _ hle => exact h.sent ho (sending_of_mem ha hmem) hon hle
  | sendFailed res hmem hon hres => exact h.reapSend hon hres
  | sendReaped res hmem hcl hres =>
    exact (h.reapSend_closing (sending_of_mem ha hmem) hcl hres).reapClosing

theorem Ledger.move (ha : r.Accounted) (ho : r.Orderly) (hm : Move cfg R r r') : r'.Ledger cfg := by
  have hl : ∀ {f : Flag} {op : Op}, f ≠ .send → ((r.reap op).live f).Ledger cfg := by
    intro f op hf
    cases f with
    | send => exact absurd rfl hf
    | recv | splice | poll => exact { h with }
  cases hm with
  | out hout => exact h.out ha ho hout
  | data | stash | peerClosed | idle => exact { h with }
  | raise f op _ _ _ hf =>
    cases f with
    | send => exact absurd rfl hf
    | recv | splice | poll => exact { h with }
  | reaped f op hf => exact hl hf
  | reapedClosing f op hf => exact (hl hf).reapClosing

theorem Ledger.ended (ha : r.Accounted) (ho : r.Orderly) (he : Ended cfg R r r') : r'.Ledger cfg :=
  (he.invariant (I := fun r => r.Ledger cfg ∧ r.Accounted ∧ r.Orderly)
    (fun _ _ h hm => ⟨h.1.move h.2.1 h.2.2 hm, h.2.1.move hm, h.2.2.move hm⟩)
    (fun _ _ h _ => ⟨{ h.1 with }, h.2.1, h.2.2.of_eq rfl⟩)
    (fun _ _ h _ => ⟨{ h.1 with }, h.2.1, h.2.2.of_eq rfl⟩)
    ⟨h, ha, ho⟩).1

theorem Ledger.step (hr : r.Regular) (e : Event) : (r.step cfg e).Ledger cfg := by
  unfold Reactor.step
  split
  · rename_i he
    by_cases hc : e = .closed
    · subst hc
      rw [(handle_closed hr he.2).2]
      exact { h with }
    · exact h.ended hr.accounted hr.orderly (ended_any hr hc he.2)
  · exact h

end

theorem ledger_start (cfg : CoreConfig) (ktls : Bool) : (start cfg ktls).Ledger cfg where
  sound := ⟨nofun, .inl rfl, nofun, nofun, nofun⟩
  armed := nofun
  queued := by simp [start, Connection.new]
  balanced _ := ⟨[], [], rfl, rfl, rfl, fun _ => rfl⟩
  closing := nofun

theorem ledger_run (cfg : CoreConfig) (ktls : Bool) (es : List Event) :
    ((start cfg ktls).run cfg es).Ledger cfg := by
  have hb : ((start cfg ktls).run cfg es).Ledger cfg ∧ ((start cfg ktls).run cfg es).Regular :=
    Steps.invariant (I := fun r : Reactor => r.Ledger cfg ∧ r.Regular)
      ⟨ledger_start cfg ktls, regular_start cfg ktls⟩
      (fun _ e h => ⟨h.1.step h.2 e, h.2.step e⟩) es
  exact hb.1

section

variable (r)

/-- The bytes of the answers that were accepted, in the order in which they were. -/
def acceptedBytes : Bytes := r.log.accepted.flatMap Answer.bytes

def waiting : Bytes := r.conn.outbox.letters.map (·.1)

def sentReplies : ℕ := finished r.words r.log.socket.length

/-- Every reply that has gone out has been counted. -/
def CountsSent : Prop := r.log.counted = r.sentReplies

/-- The answers go out in the order in which they were accepted. -/
structure InOrder : Prop where
  wire : r.log.socket <+: r.acceptedBytes
  counted_le : r.log.counted ≤ r.sentReplies
  counted : r.conn.closing = false → r.CountsSent
  complete : r.conn.closing = false → ∃ cut, r.acceptedBytes = r.log.socket ++ r.waiting ++ cut ∧
    (r.conn.close_on_flush = none → cut = [])

theorem promised_eq : r.promised = stream r.words := by
  unfold promised stream words
  rw [flatMap_map]
  rfl

theorem map_fst_promised : r.promised.map (·.1) = r.acceptedBytes := by
  rw [promised_eq, map_fst_stream, words, flatMap_map]
  rfl

theorem sentReplies_eq : r.sentReplies = (r.promised.take r.log.socket.length).countP (·.2) := by
  rw [promised_eq, countP_take_stream]
  rfl

end

theorem Ledger.inOrder (h : r.Ledger cfg) : r.InOrder where
  wire := by
    rw [← map_fst_promised]
    exact (prefix_append _ _).trans h.onWire.1
  counted_le := h.onWire.2.trans_eq (sentReplies_eq r).symm
  counted ho := (h.balanced ho).take_promised.2.symm.trans (sentReplies_eq r).symm
  complete ho := by
    obtain ⟨sent, cut, heq, hs, -, hc⟩ := h.balanced ho
    refine ⟨cut.map (·.1), ?_, fun hf => by rw [hc hf, map_nil]⟩
    rw [← map_fst_promised, heq, map_append, map_append, hs]
    rfl

/-- The answers of a connection go out in order and completely, and each is counted when its last
byte has gone out, until the connection closes. -/
theorem inOrder_run (cfg : CoreConfig) (ktls : Bool) (es : List Event) :
    ((start cfg ktls).run cfg es).InOrder :=
  (ledger_run cfg ktls es).inOrder

/-- The send cursor lies in the queue, and a send in flight has no more bytes than the queue. -/
theorem send_cursor_within_queue (cfg : CoreConfig) (ktls : Bool) (es : List Event) :
    let c := ((start cfg ktls).run cfg es).conn
    c.outbox.Sound ∧ (c.sending = true →
      c.outbox.armed_bytes ≤ (c.outbox.gather cfg.max_send_coalesce).length) :=
  ⟨(ledger_run cfg ktls es).sound, (ledger_run cfg ktls es).armed⟩

/-- The next read fails while the kernel has a reply, and the kernel takes it all. -/
def failedRead : List Event :=
  [.pump (.Need 1) .usable, .recv .RecvHeader (.ok 1) [1] .none false false,
    .pump (.Complete 1 0) .usable, .deliver false (.Reply [9]), .respond .ready,
    .pump (.Need 1) .usable, .recv .RecvHeader (.error EIO) [] .none false false,
    .send (.ok 1) .ready]

/-- A reply that goes out while its connection closes is not counted. -/
theorem not_countsSent_failedRead : ((start readAhead false).run readAhead failedRead).log.socket =
        ((start readAhead false).run readAhead failedRead).acceptedBytes ∧
      ¬((start readAhead false).run readAhead failedRead).CountsSent := by
  unfold CountsSent
  decide

end Reactor

end TruenasRos.Net
