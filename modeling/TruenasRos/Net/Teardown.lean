import TruenasRos.Net.Reading

/-! # The last operation on a connection

Every move keeps a connection's accounts in order. Hence the teardown is submitted when no
transfer is in flight, no transfer is staged once the connection closes, and the slot is freed
once, when its close has completed.
-/

namespace TruenasRos.Net

open Accounts.Sound

namespace Reactor

variable {cfg : CoreConfig} {R : Rules} {r r' : Reactor} {op : Op} {f : Flag}

theorem busy_eq_false_iff : r.conn.busy = false ↔ r.accounts.transfers = 0 := by
  simp only [Connection.busy, Accounts.transfers, accounts, Connection.flag]
  cases r.conn.recving <;> cases r.conn.sending <;> cases r.conn.splicing <;>
    cases r.conn.splice_polling <;> simp

theorem transfers_pos (h : r.conn.busy = true) : 0 < r.accounts.transfers := by
  rw [pos_iff_ne_zero, Ne, ← busy_eq_false_iff, h]
  simp

theorem accounts_raise (r : Reactor) (f : Flag) (op : Op) :
    (r.raise f op).accounts = r.accounts.arm f op (r.conn.raise f).busy := by
  cases f <;> refine Accounts.ext rfl (funext fun g => ?_) rfl rfl rfl rfl rfl rfl rfl rfl <;>
    cases g <;> rfl

theorem accounts_submitTeardown (r : Reactor) (first : Bool)
    (h : r.conn.teardown_deferred = false) : (r.submitTeardown first).accounts =
      r.accounts.tear (if first then .Shutdown else .Close) r.conn.busy :=
  Accounts.ext rfl rfl rfl h rfl rfl rfl rfl rfl rfl

theorem accounts_hook (r : Reactor) (rs : CloseReason) (h : r.conn.teardown_deferred = false) :
    (r.hook rs).accounts = r.accounts.hook false := by
  refine Accounts.ext rfl rfl rfl h rfl rfl rfl ?_ rfl rfl
  simp [accounts, hook, Accounts.hook]

theorem accounts_deferTeardown (r : Reactor) (rs : CloseReason) (first : Bool) :
    ((r.hook rs).deferTeardown first).accounts = r.accounts.hook true := by
  refine Accounts.ext rfl rfl rfl rfl rfl rfl rfl ?_ rfl rfl
  simp [accounts, deferTeardown, hook, Accounts.hook]

theorem accounts_live (h : r'.accounts = (r.reap op).accounts) (f : Flag) :
    (r'.live f).accounts = r.accounts.drop f op := by
  have hd : (r'.live f).accounts = r'.accounts.down f := by
    cases f <;> refine Accounts.ext rfl (funext fun g => ?_) rfl rfl rfl rfl rfl rfl rfl rfl <;>
      cases g <;> rfl
  rw [hd, h]
  rfl

theorem isTeardown_ite (first : Bool) :
    (if first then Op.Shutdown else Op.Close).isTeardown = true := by
  cases first <;> rfl

theorem accounts_started (r : Reactor) (next : PendingFile) :
    (r.started next).accounts = r.accounts :=
  view_armIf accounts rfl

theorem accounts_handedOver (r : Reactor) : r.handedOver.accounts = r.accounts := by
  unfold handedOver
  split
  · rfl
  · split
    · rfl
    · exact view_armIf accounts rfl

theorem accounts_toWire (cfg : CoreConfig) (r : Reactor) (res : Res) :
    (r.toWire cfg res).accounts = r.accounts := by
  cases res <;> rfl

namespace Accounted

theorem of_eq {a : Accounts} (h : a.Sound) (heq : r.accounts = a) : r.Accounted := by
  rw [Accounted, heq]
  exact h

section

variable (h : r.Accounted)
include h

theorem closeConn (hpl : r.place = .Serving) (rs : CloseReason) : (r.closeConn rs).Accounted := by
  unfold Reactor.closeConn
  cases hc : r.conn.closing with
  | true => exact h
  | false =>
    have hd : r.conn.teardown_deferred = false := (h.life.untouched hc).1
    cases hb : r.conn.busy with
    | true =>
      exact .of_eq (hook_deferred h hc hpl (transfers_pos hb))
        (accounts_deferTeardown r rs _)
    | false =>
      rw [if_neg (by simp), if_neg (by simp)]
      refine .of_eq (hook_tear h hc hpl (busy_eq_false_iff.1 hb)
        (isTeardown_ite rs.shutdownFirst)) ?_
      rw [accounts_submitTeardown (r.hook rs) _ hd, accounts_hook r rs hd]
      exact congrArg _ hb

section

variable (hc : r.conn.closing = true) (ho : op.flag = some f) (hmem : op ∈ r.inflight)
  (heq : r'.accounts = (r.reap op).accounts)
include hc ho hmem heq

theorem reapClosing_cases : (r.accounts.drop f op).transfers = 0 ∧ (r'.live f).conn.busy = false ∧
        (r'.live f).reapClosing = (r'.live f).submitDeferredTeardown ∨
      0 < (r.accounts.drop f op).transfers ∧ (r'.live f).reapClosing = r'.live f := by
  have hl := accounts_live heq f
  have ht := Accounts.transfers_drop op (h.flag_of_mem ho hmem)
  have hd : (r'.live f).conn.teardown_deferred = true := by
    have hw : r.accounts.teardown_deferred = true := by
      cases h.life with
      | opened hon => exact absurd (hon.symm.trans hc) (by simp)
      | waiting _ hd => exact hd
      | shutting _ _ _ _ _ hz | shut _ _ _ _ _ _ hz => omega
      | freed _ _ _ hnil =>
        rw [show r.inflight = [] from hnil] at hmem
        cases hmem
    exact (congrArg Accounts.teardown_deferred hl).trans hw
  unfold Reactor.reapClosing
  cases hb : (r'.live f).conn.busy with
  | false =>
    refine .inl ⟨?_, rfl, if_pos (by simp [hd])⟩
    rw [← hl]
    exact busy_eq_false_iff.1 hb
  | true =>
    have hpos : 0 < (r'.live f).accounts.transfers := transfers_pos hb
    have hops : (r'.live f).conn.ops ≠ 0 := by
      have hs := (h.toBalanced.drop ho hmem).ops
      rw [← hl] at hs
      change (r'.live f).accounts.ops ≠ 0
      omega
    refine .inr ⟨hl ▸ hpos, ?_⟩
    rw [if_neg (by simp), if_neg hops]

theorem reapClosing : (r'.live f).reapClosing.Accounted := by
  have hl := accounts_live heq f
  obtain ⟨hz, hb, hs⟩ | ⟨hpos, hsa⟩ := h.reapClosing_cases hc ho hmem heq
  · rw [hs]
    refine .of_eq (drop_tear h hc ho hmem hz
      (isTeardown_ite (r'.live f).conn.teardown_shutdown_first)) ?_
    rw [← hl, ← hb]
    rfl
  · rw [hsa]
    exact .of_eq (drop h ho hmem (.inr hpos)) hl

theorem place_reapClosing : (r'.live f).reapClosing.place = r.place := by
  have hpl : r'.place = r.place := congrArg Accounts.place heq
  obtain ⟨-, -, hs⟩ | ⟨-, hsa⟩ := h.reapClosing_cases hc ho hmem heq
  · rw [hs]
    exact hpl
  · rw [hsa]
    exact hpl

end

theorem live (ho : op.flag = some f) (hmem : op ∈ r.inflight)
    (hon : r.conn.closing = false) (heq : r'.accounts = (r.reap op).accounts) :
    (r'.live f).Accounted :=
  .of_eq (drop h ho hmem (.inl hon)) (accounts_live heq f)

theorem raise (ho : r.conn.closing = false)
    (hpl : r.place = .Serving) (hf : r.conn.flag f = false) (hop : op.flag = some f) :
    (r.raise f op).Accounted :=
  .of_eq (arm h ho hpl hf hop _) (accounts_raise r f op)

theorem submitSend (ho : r.conn.closing = false)
    (hpl : r.place = .Serving) (hs : r.conn.sending = false) : (r.submitSend cfg).Accounted :=
  raise (r := r.withOutbox _) h ho hpl hs rfl

theorem kickSend (hpl : r.place = .Serving) : (r.kickSend cfg).Accounted := by
  unfold Reactor.kickSend
  split
  · rename_i hid
    simp only [Bool.and_eq_true, Bool.not_eq_true'] at hid
    exact h.submitSend hid.1.2 hpl hid.1.1
  · exact h

theorem onClosed (hmem : .Close ∈ r.inflight) :
    (r.reap .Close).onClosed.Accounted ∧
      (r.reap .Close).onClosed = (r.reap .Close).opsDown.reclaimSlot := by
  have ho : r.conn.ops = 1 := (inflight_of_close h hmem).2.1
  have heq : (r.reap .Close).onClosed = (r.reap .Close).opsDown.reclaimSlot := by
    apply if_pos
    change r.conn.ops - 1 = 0
    rw [ho]
  refine ⟨?_, heq⟩
  rw [heq]
  exact free h hmem

end

theorem out (h : r.Accounted) (hout : Out cfg R r r') : r'.Accounted := by
  cases hout with
  | pump | timers | stop | drain | evict | flush | reply | vectored | push | answer | defer
    | retire | chunk | reads | chunks => exact h
  | close rs hpl => exact h.closeConn hpl rs
  | closeFlushed rs hpl => exact closeConn (r := { r with conn.close_on_flush := none }) h hpl rs
  | closePeer rs hpl => exact closeConn (r := { r with conn.peer_closed := none }) h hpl rs
  | workerClose req_id ho => exact closeConn (r := r.taken req_id) h ho.place _
  | submitSend hpl ho hse => exact h.submitSend ho hpl hse
  | deferFile => exact h
  | startFile next => exact .of_eq h (accounts_started r next)
  | lastChunk tail hpl =>
    have hk : ((r.chunked tail tail.unread).kickSend cfg).Accounted := by
      apply kickSend
      · exact h
      · exact hpl
    exact .of_eq hk (accounts_handedOver _)
  | sent n hmem ho =>
    have heq := accounts_toWire cfg (r.reap .Send) (.ok n)
    have hl := live h rfl hmem ho heq
    exact hl
  | sendFailed res hmem ho =>
    have heq := accounts_toWire cfg (r.reap .Send) res
    exact live h rfl hmem ho heq
  | sendReaped res hmem hc =>
    have heq := accounts_toWire cfg (r.reap .Send) res
    exact reapClosing h hc rfl hmem heq
  | shutdown hmem =>
    have hz : r.conn.busy = false := busy_eq_false_iff.2 (shutting_of_mem h hmem).1
    have heq : (r.reap .Shutdown).onShutdown.accounts = r.accounts.shutDown false := by
      rw [← hz]
      rfl
    exact .of_eq (shutDown h hmem) heq
  | detach ho hs =>
    have hb : r.conn.busy = false := by
      simp only [settled, Bool.and_eq_true, Bool.not_eq_true'] at hs
      exact hs.1.1.1.2
    exact leave h ho.closing ho.place (busy_eq_false_iff.1 hb) r.conn.busy
  | leave place hmem hpl => exact left h hmem hpl
  | back hpl => exact back h hpl

theorem move (h : r.Accounted) (hm : Move cfg R r r') : r'.Accounted := by
  cases hm with
  | out hout => exact h.out hout
  | data | stash | peerClosed | idle => exact h
  | raise f op hpl hon hq hf ho =>
    refine h.raise hon hpl ?_ ho
    cases f with
    | recv => exact hq.recving
    | send => exact absurd rfl hf
    | splice => exact hq.splicing
    | poll => exact hq.splice_polling
  | reaped f op _ ho hmem hon => exact h.live ho hmem hon rfl
  | reapedClosing f op _ ho hmem hc => exact h.reapClosing hc ho hmem rfl

end Accounted

end Reactor

end TruenasRos.Net
