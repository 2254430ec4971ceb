import TruenasRos.Lib.Marked
import TruenasRos.Net.Charges

/-! # The letters that wait to be sent

Everything that waits on the send side is a word of bytes, and the last byte of a reply is
marked. The operations of the send side add words at the end or take letters off the front; to
stream a file a chunk at a time moves letters only from one place to another.
-/

namespace TruenasRos.Net

open List Marked Outbox Option

theorem File.slice_append (file : File) (offset m n : ℕ) :
    file.slice offset (m + n) = file.slice offset m ++ file.slice (offset + m) n := by
  simp [File.slice, range_add, add_assoc]

theorem File.slice_ne_nil {n : ℕ} (file : File) (offset : ℕ) (h : n ≠ 0) :
    file.slice offset n ≠ [] := by
  intro hnil
  have hl := congrArg length hnil
  rw [Reactor.length_slice] at hl
  exact h hl

def SendItem.ends (item : SendItem) : Bool := decide (item.kind = .ReplyLast)

/-- Bytes, each marked where a reply ends with it. -/
abbrev Letters := List (UInt8 × Bool)

def SendItem.letters (item : SendItem) : Letters := markLast item.ends item.bytes

def PendingFile.letters (next : PendingFile) : Letters :=
  markLast true (next.head ++ next.file.slice next.offset next.len)

namespace PendingItem

def letters : PendingItem → Letters
  | .Pdu item => item.letters
  | .File next => next.letters

def Filled : PendingItem → Prop
  | .Pdu item => item.bytes ≠ []
  | .File next => next.len ≠ 0

end PendingItem

namespace Outbox

variable {o : Outbox} {tail : FileTail}

def itemLetters (items : List SendItem) : Letters := items.flatMap SendItem.letters

def pendingLetters (items : List PendingItem) : Letters :=
  items.flatMap PendingItem.letters

def queueLetters (o : Outbox) : Letters := (itemLetters o.send_queue).drop o.front_sent

def tailLetters (tail : FileTail) : Letters :=
  markLast true (tail.file.slice tail.next_offset tail.unread) ++ pendingLetters tail.pending

def heldLetters (o : Outbox) : Letters :=
  o.next_file.elim [] PendingFile.letters ++ pendingLetters o.next_file_pending

def letters (o : Outbox) : Letters :=
  o.queueLetters ++ o.file_tail.elim [] tailLetters ++ o.heldLetters

/-- Everything on the send side has letters, and the cursor stands in the first segment. -/
structure Sound (o : Outbox) : Prop where
  filled : ∀ item ∈ o.send_queue, item.bytes ≠ []
  front : o.front_sent = 0 ∨
    ∃ item queue, o.send_queue = item :: queue ∧ o.front_sent < item.bytes.length
  pending : ∀ tail, o.file_tail = some tail → ∀ item ∈ tail.pending, item.Filled
  next : ∀ next, o.next_file = some next → next.len ≠ 0
  behind : ∀ item ∈ o.next_file_pending, item.Filled

theorem itemLetters_append (items items' : List SendItem) :
    itemLetters (items ++ items') = itemLetters items ++ itemLetters items' :=
  flatMap_append

theorem itemLetters_singleton (item : SendItem) : itemLetters [item] = item.letters :=
  flatMap_singleton _ _

section

variable (h : o.Sound) {items : List SendItem}
include h

theorem Sound.front_le : o.front_sent ≤ (itemLetters o.send_queue).length := by
  rcases h.front with hz | ⟨item, queue, hq, hlt⟩
  · rw [hz]
    exact Nat.zero_le _
  · have hh : itemLetters (item :: queue) = item.letters ++ itemLetters queue := rfl
    rw [hq, hh, length_append, SendItem.letters, length_markLast]
    omega

theorem queueLetters_of_append {o' : Outbox}
    (hq : o'.send_queue = o.send_queue ++ items) (hf : o'.front_sent = o.front_sent) :
    o'.queueLetters = o.queueLetters ++ itemLetters items := by
  rw [queueLetters, queueLetters, hq, hf, itemLetters_append, drop_append_of_le_length h.front_le]

omit h in
theorem letters_of_held (h : o.held = (none, [])) :
    o.letters = o.queueLetters ++ o.file_tail.elim [] tailLetters := by
  obtain ⟨hn, hpn⟩ := Prod.mk.inj h
  rw [letters, heldLetters, hn, hpn]
  exact append_nil _

omit h in
theorem send_queue_enqueue (ht : o.file_tail = none) (bytes : Bytes) (kind : SendKind) :
    (o.enqueue bytes kind).send_queue = o.send_queue ++ [⟨bytes, kind, false⟩] ∧
      (o.enqueue bytes kind).front_sent = o.front_sent ∧
      (o.enqueue bytes kind).file_tail = none := by
  unfold enqueue
  rw [ht]
  exact ⟨rfl, rfl, rfl⟩

theorem queueLetters_enqueue (ht : o.file_tail = none) (bytes : Bytes)
    (kind : SendKind) : (o.enqueue bytes kind).queueLetters =
      o.queueLetters ++ markLast (decide (kind = .ReplyLast)) bytes := by
  obtain ⟨hq, hf, -⟩ := send_queue_enqueue ht bytes kind
  rw [queueLetters_of_append h hq hf, itemLetters_singleton]
  rfl

theorem letters_enqueue (hh : o.held = (none, [])) (bytes : Bytes)
    (kind : SendKind) : (o.enqueue bytes kind).letters =
      o.letters ++ markLast (decide (kind = .ReplyLast)) bytes := by
  have hh' : (o.enqueue bytes kind).held = (none, []) := (held_enqueue o bytes kind).trans hh
  rw [letters_of_held hh, letters_of_held hh']
  cases ht : o.file_tail with
  | none =>
    rw [queueLetters_enqueue h ht, (send_queue_enqueue ht bytes kind).2.2]
    simp
  | some tail =>
    simp [queueLetters, enqueue, ht, tailLetters, pendingLetters, PendingItem.letters,
      SendItem.letters, SendItem.ends]

theorem Sound.front_append :
    o.front_sent = 0 ∨ ∃ item queue, o.send_queue ++ items = item :: queue ∧
      o.front_sent < item.bytes.length := by
  rcases h.front with hz | ⟨item, queue, hq, hlt⟩
  · exact .inl hz
  · refine .inr ⟨item, queue ++ items, ?_, hlt⟩
    rw [hq, cons_append]

theorem Sound.filled_append {item : SendItem} (hne : item.bytes ≠ []) :
    ∀ item' ∈ o.send_queue ++ [item], item'.bytes ≠ [] := by
  refine forall_mem_append.2 ⟨h.filled, forall_mem_singleton.2 ?_⟩
  exact hne

omit h in
theorem filled_concat {items : List PendingItem} {item : PendingItem}
    (h : ∀ item ∈ items, item.Filled) (him : item.Filled) :
    ∀ item' ∈ items ++ [item], item'.Filled := by
  refine forall_mem_append.2 ⟨h, forall_mem_singleton.2 ?_⟩
  exact him

theorem Sound.enqueue {bytes : Bytes} (hne : bytes ≠ []) (kind : SendKind) :
    (o.enqueue bytes kind).Sound := by
  unfold Outbox.enqueue
  dsimp only
  split
  · rename_i tail ht
    refine { h with pending := ?_ }
    rintro _ ⟨⟩
    exact filled_concat (h.pending tail ht) hne
  · exact ⟨h.filled_append hne, h.front_append, h.pending, h.next, h.behind⟩

theorem letters_enqueueSegments {segs : List Bytes} (hh : o.held = (none, []))
    (hne : segs.all List.isEmpty = false) :
    (o.enqueueSegments segs).letters = o.letters ++ markLast true segs.flatten := by
  induction segs generalizing o with
  | nil => cases hne
  | cons seg segs ih =>
    unfold enqueueSegments
    split
    · rename_i he
      obtain rfl : seg = [] := isEmpty_iff.1 he
      exact ih h hh hne
    · rename_i hs
      have hs' : seg ≠ [] := fun hnil => hs (isEmpty_iff.2 hnil)
      split
      · rename_i hl
        have hr : segs.flatten = [] := by
          rw [flatten_eq_nil_iff]
          exact fun seg hmem => isEmpty_iff.1 (all_eq_true.1 hl seg hmem)
        rw [letters_enqueue h hh, flatten_cons, hr, append_nil]
        rfl
      · rename_i hm
        have hm' := eq_false_of_ne_true hm
        have hr : segs.flatten ≠ [] := by
          intro hnil
          rw [flatten_eq_nil_iff] at hnil
          exact hm (all_eq_true.2 fun seg hmem => isEmpty_iff.2 (hnil seg hmem))
        rw [ih (h.enqueue hs' _) ((held_enqueue o _ _).trans hh) hm',
          letters_enqueue h hh, flatten_cons, markLast_append hr, append_assoc]
        rfl

theorem Sound.enqueueSegments (segs : List Bytes) : (o.enqueueSegments segs).Sound := by
  induction segs generalizing o with
  | nil => exact h
  | cons seg segs ih =>
    unfold enqueueSegments
    split
    · exact ih h
    · rename_i hs
      have hs' : seg ≠ [] := fun hnil => hs (isEmpty_iff.2 hnil)
      split
      · exact h.enqueue hs' .ReplyLast
      · exact ih (h.enqueue hs' .ReplyPart)

theorem Sound.enqueueReplyHead (bytes : Bytes) : (o.enqueueReplyHead bytes).Sound := by
  unfold Outbox.enqueueReplyHead
  split
  · exact h
  · next hne => exact h.enqueue (fun hnil => hne (isEmpty_iff.2 hnil)) .ReplyPart

theorem queueLetters_enqueueReplyHead (ht : o.file_tail = none) (bytes : Bytes) :
    (o.enqueueReplyHead bytes).queueLetters = o.queueLetters ++ markLast false bytes := by
  unfold enqueueReplyHead
  split
  · rename_i he
    rw [isEmpty_iff.1 he, markLast_nil, append_nil]
  · exact queueLetters_enqueue h ht bytes .ReplyPart

end

end Outbox

namespace Reactor

variable {o : Outbox}

theorem letters_installed (h : o.Sound) (ht : o.file_tail = none) (hn : o.next_file = none)
    (next : PendingFile) (hlen : next.len ≠ 0) : (installed o next).letters =
      o.queueLetters ++ next.letters ++ pendingLetters o.next_file_pending := by
  obtain ⟨hn', hpn⟩ := Prod.mk.inj (held_enqueueReplyHead o next.head)
  have hq : (installed o next).queueLetters =
      o.queueLetters ++ markLast false next.head := queueLetters_enqueueReplyHead h ht _
  rw [letters, hq, PendingFile.letters, markLast_append (next.file.slice_ne_nil next.offset hlen)]
  simp [installed, installFileTail, heldLetters, tailLetters, pendingLetters, hn', hpn, hn]

theorem sound_installed (h : o.Sound) (next : PendingFile) : (installed o next).Sound := by
  have hh := h.enqueueReplyHead next.head
  refine ⟨hh.filled, hh.front, ?_, hh.next, nofun⟩
  rintro _ ⟨⟩
  exact hh.behind

end Reactor

namespace Outbox

variable {o : Outbox} {tail : FileTail}

theorem letters_deferFileReply (hh : o.held = (none, [])) (ht : o.tailActive = true)
    (next : PendingFile) : (o.deferFileReply next).letters = o.letters ++ next.letters := by
  obtain ⟨tail, hs⟩ := isSome_iff_exists.1 ht
  obtain ⟨hn, hpn⟩ := Prod.mk.inj hh
  simp [letters, deferFileReply, queueLetters, heldLetters, hs, hn, hpn, tailLetters,
    pendingLetters, PendingItem.letters]

theorem Sound.deferFileReply (h : o.Sound) (next : PendingFile) (hlen : next.len ≠ 0) :
    (o.deferFileReply next).Sound := by
  refine { h with pending := ?_ }
  intro tail' ht'
  obtain ⟨tail, ht, rfl⟩ := map_eq_some_iff.1 ht'
  exact filled_concat (h.pending tail ht) hlen

theorem letters_splitPending (items : List PendingItem) :
    pendingLetters items = itemLetters (splitPending items).1 ++
      ((splitPending items).2.1.elim [] PendingFile.letters ++
        pendingLetters (splitPending items).2.2) := by
  induction items with
  | nil => rfl
  | cons item items ih =>
    cases item with
    | File next => rfl
    | Pdu pdu => simpa [pendingLetters, splitPending, itemLetters, PendingItem.letters] using ih

theorem filled_splitPending {items : List PendingItem} (h : ∀ item ∈ items, item.Filled) :
    (∀ item ∈ (splitPending items).1, item.bytes ≠ []) ∧
      (∀ next, (splitPending items).2.1 = some next → next.len ≠ 0) ∧
      ∀ item ∈ (splitPending items).2.2, item.Filled := by
  induction items with
  | nil => simp [splitPending]
  | cons item items ih =>
    obtain ⟨hi, hr⟩ := forall_mem_cons.1 h
    cases item with
    | File next =>
      exact ⟨by simp [splitPending], by simpa [splitPending, PendingItem.Filled] using hi, hr⟩
    | Pdu pdu =>
      obtain ⟨hpd, hn, hb⟩ := ih hr
      exact ⟨forall_mem_cons.2 ⟨hi, hpd⟩, hn, hb⟩

theorem letters_finishFileTail (h : o.Sound) (ht : o.file_tail = some tail)
    (hr : tail.unread = 0) (hh : o.held = (none, [])) : o.finishFileTail.letters = o.letters := by
  have hsp := letters_splitPending tail.pending
  have hq : o.finishFileTail.queueLetters =
      o.queueLetters ++ itemLetters (splitPending tail.pending).1 := by
    apply queueLetters_of_append h
    · rw [finishFileTail, ht]
    · rw [finishFileTail, ht]
  have hre : tailLetters tail = pendingLetters tail.pending := by
    rw [tailLetters, hr]
    rfl
  rw [letters_of_held hh, ht, elim_some, hre, hsp, letters, hq]
  simp [finishFileTail, ht, heldLetters]

theorem Sound.finishFileTail (h : o.Sound) : o.finishFileTail.Sound := by
  unfold Outbox.finishFileTail
  split
  · exact h
  · rename_i tail ht
    obtain ⟨hpd, hnx, hb⟩ := filled_splitPending (h.pending tail ht)
    refine ⟨?_, h.front_append, nofun, hnx, hb⟩
    exact forall_mem_append.2 ⟨h.filled, hpd⟩

def withChunk (o : Outbox) (tail : FileTail) (n : ℕ) : Outbox :=
  ({ o with file_tail := some { tail with
      next_offset := tail.next_offset + n
      unread := tail.unread - n } } : Outbox).enqueueFileChunk
    (tail.file.slice tail.next_offset n) (tail.unread - n == 0)

theorem advanceFileTail_slice (ht : o.file_tail = some tail) (n : ℕ) :
    (o.advanceFileTail (tail.file.slice tail.next_offset n)).1 =
      if tail.unread - n = 0 then (o.withChunk tail n).finishFileTail else o.withChunk tail n := by
  unfold advanceFileTail withChunk
  rw [ht]
  rw [Reactor.length_slice]
  simp

theorem queueLetters_withChunk (h : o.Sound) (n : ℕ) : (o.withChunk tail n).queueLetters =
    o.queueLetters ++ markLast (tail.unread - n == 0) (tail.file.slice tail.next_offset n) := by
  have hq : (o.withChunk tail n).queueLetters = o.queueLetters ++ itemLetters _ :=
    queueLetters_of_append h rfl rfl
  rw [hq, itemLetters_singleton, SendItem.letters, SendItem.ends]
  cases tail.unread - n == 0 <;> rfl

variable {front n : ℕ} {item : SendItem} {queue : List SendItem}

section

variable (h : o.Sound) (ht : o.file_tail = some tail)
include h ht

theorem letters_withChunk (hh : o.held = (none, [])) (hle : n ≤ tail.unread) :
    (o.withChunk tail n).letters = o.letters := by
  have hh' : (o.withChunk tail n).held = (none, []) := hh
  have hs : tail.file.slice tail.next_offset tail.unread = tail.file.slice tail.next_offset n ++
        tail.file.slice (tail.next_offset + n) (tail.unread - n) := by
    rw [← File.slice_append, Nat.add_sub_cancel' hle]
  have hb : markLast true (tail.file.slice tail.next_offset tail.unread) =
      markLast (tail.unread - n == 0) (tail.file.slice tail.next_offset n) ++
        markLast true (tail.file.slice (tail.next_offset + n) (tail.unread - n)) := by
    by_cases hl : tail.unread - n = 0
    · rw [hs, hl]
      exact (congrArg _ (append_nil _)).trans (append_nil _).symm
    · rw [hs, markLast_append (tail.file.slice_ne_nil _ hl), beq_eq_false_iff_ne.2 hl]
  rw [letters_of_held hh, letters_of_held hh', queueLetters_withChunk h, ht,
    elim_some, tailLetters, hb, append_assoc, append_assoc]
  rfl

theorem Sound.withChunk (hpos : 0 < n) : (o.withChunk tail n).Sound := by
  refine ⟨?_, h.front_append, ?_, h.next, h.behind⟩
  · exact h.filled_append (tail.file.slice_ne_nil _ hpos.ne')
  · rintro _ ⟨⟩
    exact h.pending tail ht

theorem letters_advanceFileTail (hh : o.held = (none, [])) (hpos : 0 < n) (hle : n ≤ tail.unread) :
    (o.advanceFileTail (tail.file.slice tail.next_offset n)).1.letters = o.letters := by
  rw [advanceFileTail_slice ht]
  split
  · rename_i hl
    refine Eq.trans ?_ (letters_withChunk h ht hh hle)
    exact letters_finishFileTail (h.withChunk ht hpos) rfl hl hh
  · exact letters_withChunk h ht hh hle

theorem Sound.advanceFileTail (hpos : 0 < n) :
    (o.advanceFileTail (tail.file.slice tail.next_offset n)).1.Sound := by
  rw [advanceFileTail_slice ht]
  split
  · exact (h.withChunk ht hpos).finishFileTail
  · exact h.withChunk ht hpos

end

theorem letters_dropQueuedFileReply :
    o.letters = o.dropQueuedFileReply.letters ++ o.heldLetters := by
  have hd : o.dropQueuedFileReply.letters =
      o.queueLetters ++ o.file_tail.elim [] tailLetters ++ [] := rfl
  rw [hd, append_nil]
  rfl

theorem Sound.dropQueuedFileReply (h : o.Sound) : o.dropQueuedFileReply.Sound :=
  { h with next := nofun, behind := nofun }

theorem Sound.takeQueuedFileReply (h : o.Sound) : o.takeQueuedFileReply.2.Sound :=
  { h with next := nofun }

theorem map_fst_itemLetters (items : List SendItem) :
    (itemLetters items).map (·.1) = items.flatMap SendItem.bytes := by
  simp [itemLetters, map_flatMap, SendItem.letters, map_fst_markLast]

theorem gather_prefix (o : Outbox) (k : ℕ) : o.gather k <+: o.queueLetters.map (·.1) := by
  rw [queueLetters, map_drop, map_fst_itemLetters]
  refine List.IsPrefix.drop ?_ o.front_sent
  conv_rhs => rw [← take_append_drop k o.send_queue, flatMap_append]
  exact prefix_append _ _

theorem gather_take {k : ℕ} (hle : n ≤ (o.gather k).length) :
    (o.gather k).take n = (o.queueLetters.take n).map (·.1) := by
  obtain ⟨rest, hr⟩ := o.gather_prefix k
  rw [map_take, ← hr, take_append_of_le_length hle]

theorem countP_drop_letters (hlt : front < item.bytes.length) :
    (item.letters.drop front).countP (·.2) = replies [item] := by
  have ht : (item.letters.take front).countP (·.2) = 0 := countP_take_markLast hlt
  have hne : item.bytes ≠ [] := ne_nil_of_length_pos (by omega)
  have hto : item.letters.countP (·.2) = replies [item] := by
    rw [SendItem.letters, countP_markLast, replies_singleton, SendItem.ends]
    simp [hne]
  rw [← take_append_drop front item.letters, countP_append, ht, zero_add] at hto
  exact hto

theorem front_lt_length (hf : ∀ item' ∈ item :: queue, item'.bytes ≠ [])
    (hfr : front = 0 ∨ ∃ item' rest, item :: queue = item' :: rest ∧ front < item'.bytes.length) :
    front < item.bytes.length := by
  rcases hfr with rfl | ⟨item', rest, heq, hlt⟩
  · exact length_pos_of_ne_nil (hf item mem_cons_self)
  · obtain ⟨rfl, -⟩ := List.cons.inj heq
    exact hlt

theorem countP_take_drop_letters (hlt : front + n < item.bytes.length) :
    ((item.letters.drop front).take n).countP (·.2) = 0 := by
  have ht : (item.letters.take (front + n)).countP (·.2) = 0 := countP_take_markLast hlt
  have hs : ((item.letters.take (front + n)).drop front).countP (·.2) ≤
      (item.letters.take (front + n)).countP (·.2) := (drop_sublist _ _).countP_le
  rw [drop_take, Nat.add_sub_cancel_left, ht] at hs
  exact Nat.le_zero.1 hs

section

variable (hfi : ∀ item ∈ queue, item.bytes ≠ [])
  (hf : front = 0 ∨ ∃ item rest, queue = item :: rest ∧ front < item.bytes.length)
include hfi hf

/-- A cursor that moves over letters of the queue takes them off, and passes as many replies as
there are marks among them. -/
theorem advanceQueue_letters :
    (itemLetters (advanceQueue queue front n).1).drop (advanceQueue queue front n).2.1 =
        ((itemLetters queue).drop front).drop n ∧
      replies (advanceQueue queue front n).2.2 =
        (((itemLetters queue).drop front).take n).countP (·.2) := by
  fun_induction advanceQueue queue front n with
  | case1 => exact ⟨rfl, rfl⟩
  | case2 => simp [itemLetters, replies]
  | case3 item queue front n _ remaining hlt =>
    have hh : itemLetters (item :: queue) = item.letters ++ itemLetters queue := rfl
    have hl : item.letters.length = item.bytes.length := length_markLast _ _
    have hb : front + n < item.bytes.length := by omega
    refine ⟨(drop_drop).symm, ?_⟩
    rw [hh, drop_append_of_le_length (by omega),
      take_append_of_le_length (by rw [length_drop]; omega), countP_take_drop_letters hb]
    rfl
  | case4 item queue front n _ remaining hle queue' front' popped heq ih =>
    have hf' := front_lt_length hfi hf
    have hh : itemLetters (item :: queue) = item.letters ++ itemLetters queue := rfl
    have hl : (item.letters.drop front).length = remaining := by
      rw [length_drop, SendItem.letters, length_markLast]
    obtain ⟨hd, hc⟩ := ih (fun item hmem => hfi item (mem_cons_of_mem _ hmem)) (.inl rfl)
    rw [heq, drop_zero] at hd hc
    rw [hh, drop_append_of_le_length (by rw [SendItem.letters, length_markLast]; omega)]
    constructor
    · have hpa : (item.letters.drop front).drop n = [] := drop_eq_nil_of_le (by omega)
      rw [drop_append, hl, hpa]
      exact hd
    · rw [take_append, hl, countP_append, take_of_length_le (by omega),
        countP_drop_letters hf', ← hc]
      exact replies_append [item] popped

theorem advanceQueue_front :
    (advanceQueue queue front n).2.1 = 0 ∨ ∃ item rest, (advanceQueue queue front n).1 =
      item :: rest ∧ (advanceQueue queue front n).2.1 < item.bytes.length := by
  fun_induction advanceQueue queue front n with
  | case1 => exact hf
  | case2 => simpa using hf
  | case3 item queue front n _ remaining hlt =>
    have hb : front + n < item.bytes.length := by omega
    exact .inr ⟨item, queue, rfl, hb⟩
  | case4 item queue front n _ remaining hle queue' front' popped heq ih =>
    have hr := ih (fun item hmem => hfi item (mem_cons_of_mem _ hmem)) (.inl rfl)
    rw [heq] at hr
    exact hr

end

theorem queueLetters_advanceSent (h : o.Sound) (hle : n ≤ o.armed_bytes) :
    (o.advanceSent n).1.queueLetters = o.queueLetters.drop n ∧
      (o.advanceSent n).2.replies = (o.queueLetters.take n).countP (·.2) := by
  have hm : min n o.armed_bytes = n := min_eq_left hle
  unfold advanceSent queueLetters
  rw [hm]
  exact advanceQueue_letters h.filled h.front

theorem Sound.advanceSent (h : o.Sound) (n : ℕ) : (o.advanceSent n).1.Sound := by
  have hs := advanceQueue_split o.send_queue o.front_sent (min n o.armed_bytes)
  refine ⟨?_, advanceQueue_front h.filled h.front, h.pending, h.next, h.behind⟩
  intro item hmem
  apply h.filled item
  rw [hs]
  exact mem_append_right _ hmem

end Outbox

end TruenasRos.Net
