import TruenasRos.Api.Driver

/-! # What a session can do

Each function of the session said once: which fields it can change, what it sends and whom it
tells. The invariants of a run are proved from these statements alone.
-/

namespace TruenasRos.Api

open List TruenasRos.Ws Option

/-- An act that neither tells a caller anything nor sends more than a pong, nor opens the
session. -/
def Act.quiet : Act → Bool
  | .Send (.pong _) => true
  | .Failed _ => true
  | .SetupFailed _ => true
  | .Update _ => true
  | .SubscriptionEnded _ _ => true
  | .Notification _ _ => true
  | .PeerClosing => true
  | .Fault _ => true
  | .ServerError _ => true
  | _ => false

variable {a : Act} {acts : List Act}

theorem request_of_quiet (h : a.quiet = true) : a.request = none := by
  cases a with
  | Send w => cases w <;> first | rfl | cases h
  | _ => rfl

theorem told_of_quiet (h : a.quiet = true) : a.told = none := by
  cases a <;> first | rfl | cases h

theorem request_of_told {call : CallId} (h : a.told = some call) : a.request = none := by
  cases a <;> first | rfl | cases h

theorem requests_of_quiet (h : ∀ a ∈ acts, a.quiet = true) : requests acts = [] :=
  filterMap_eq_nil_iff.2 fun a ha => request_of_quiet (h a ha)

theorem requests_close {body : Bytes} (h : ∀ a ∈ acts, a.quiet = true) :
    requests (.Send (.close body) :: acts) = [] :=
  show requests acts = [] from requests_of_quiet h

theorem requests_of_told (h : ∀ a ∈ acts, ∃ call, a.told = some call) : requests acts = [] := by
  refine filterMap_eq_nil_iff.2 fun a ha => ?_
  obtain ⟨call, hc⟩ := h a ha
  exact request_of_told hc

theorem reported_of_quiet (h : ∀ a ∈ acts, a.quiet = true) : reported acts = [] :=
  filterMap_eq_nil_iff.2 fun a ha => told_of_quiet (h a ha)

namespace Session

variable {c : Codec} {s : Session} {out : Session × List Act}

section Drain

variable {b : Backlog}

def popped (s : Session) (frame : Bytes) (pending : Ordered Id Pending) : Session :=
  { s with queued_bytes := s.queued_bytes - frame.length, pending := pending }

def launched (s : Session) (id : Id) (frame : Bytes) (p : Pending) : Session :=
  { s with
    queued_bytes := s.queued_bytes - frame.length
    budget := s.budget - 1
    pending := s.pending.insert id { p with sent := true } }

/-- A drain stops, or drops the front of the backlog, or sends it. -/
inductive Drains : Session → Backlog → Session × List Act → Prop
  | stop {s b : _} (h : s.budget = 0 ∨ b = [] ∨ s.phase = .Closing ∨ s.backingOff = true) :
      Drains s b ({ s with backlog := b }, [])
  | stray {s id frame b out : _} (hg : s.pending.get id = none)
      (h : Drains (s.popped frame s.pending) b out) : Drains s ((id, frame) :: b) out
  | drop {s id frame b p out : _} (hg : s.pending.get id = some p) (hp : p.abandoned = true)
      (h : Drains (s.popped frame (s.pending.remove id)) b out) : Drains s ((id, frame) :: b) out
  | send {s id frame b p out : _} (hb : s.budget ≠ 0) (hg : s.pending.get id = some p)
      (hp : p.abandoned = false) (h : Drains (s.launched id frame p) b out) :
      Drains s ((id, frame) :: b) (out.1, .Send (.text id frame) :: out.2)

theorem drains_drain (s : Session) (b : Backlog) : Drains s b (drain s b) := by
  induction b generalizing s with
  | nil => exact .stop (.inr (.inl rfl))
  | cons e rest ih =>
    obtain ⟨id, frame⟩ := e
    rw [drain]
    split_ifs with hb
    · exact .stop (.inl hb)
    · simp only
      cases hg : s.pending.get id with
      | none => exact .stray hg (ih _)
      | some p =>
        simp only
        split_ifs with hp
        · exact .drop hg hp (ih _)
        · exact .send hb hg (Bool.eq_false_iff.2 hp) (ih _)

theorem drainBacklog_of_held (h : s.phase = .Closing ∨ s.backingOff = true) :
    s.drainBacklog = (s, []) := by
  rcases h with h | h <;> simp [drainBacklog, h]

theorem drains (s : Session) : Drains s s.backlog s.drainBacklog := by
  by_cases h : s.phase = .Closing ∨ s.backingOff = true
  · rw [drainBacklog_of_held h]
    exact .stop (.inr (.inr h))
  · rw [not_or] at h
    rw [drainBacklog, if_neg h.1, if_neg h.2]
    exact drains_drain s s.backlog

namespace Drains

variable (h : Drains s b out)
include h

theorem frame : ∃ pending budget backlog queued_bytes,
    out.1 = { s with pending, budget, backlog, queued_bytes } := by
  induction h with
  | stop => exact ⟨_, _, _, _, rfl⟩
  | stray _ _ ih | drop _ _ _ ih | send _ _ _ _ ih => exact ih

theorem sends : ∀ a ∈ out.2, ∃ id frame, a = .Send (.text id frame) := by
  induction h with
  | stop => nofun
  | stray _ _ ih | drop _ _ _ ih => exact ih
  | send _ _ _ _ ih => exact forall_mem_cons.2 ⟨⟨_, _, rfl⟩, ih⟩

theorem clear (hph : s.phase ≠ .Closing) (hb : s.backingOff = false) :
    out.1.budget = 0 ∨ out.1.backlog = [] := by
  induction h with
  | stop h => exact h.imp_right fun h => h.resolve_right (not_or.2 ⟨hph, by simp [hb]⟩)
  | stray _ _ ih | drop _ _ _ ih | send _ _ _ _ ih => exact ih hph hb

end Drains

theorem reported_drainBacklog (s : Session) : reported s.drainBacklog.2 = [] := by
  refine filterMap_eq_nil_iff.2 fun a ha => ?_
  obtain ⟨id, frame, rfl⟩ := s.drains.sends a ha
  rfl

end Drain

section Submit

variable (c : Codec) (s : Session) (call : CallId) (kind : Kind) (method : String)
  (params : Bytes) (deadline : Option Instant)

def sentNow (c : Codec) (s : Session) (p : Pending) : Session :=
  { s with
    caller := s.caller + 1
    pending := s.pending.insert (c.mint s.caller) p
    budget := s.budget - 1 }

def queuedNow (c : Codec) (s : Session) (p : Pending) (frame : Bytes) : Session :=
  { s with
    caller := s.caller + 1
    pending := s.pending.insert (c.mint s.caller) p
    queued_bytes := s.queued_bytes + frame.length
    backlog := s.backlog ++ [(c.mint s.caller, frame)] }

theorem submit_cases : (∃ n e, s.caller ≤ n ∧ s.submit c call kind method params deadline =
        ({ s with caller := n }, .error e)) ∨
      (∃ frame, s.sending = true ∧ s.submit c call kind method params deadline =
        (s.sentNow c (s.entry call kind deadline frame),
          .ok [.Send (.text (c.mint s.caller) frame)])) ∨
      (∃ frame, s.sending = false ∧ s.backlog.length < s.max_queued ∧
        s.queued_bytes + frame.length ≤ s.max_queued_bytes ∧
        s.submit c call kind method params deadline =
          (s.queuedNow c (s.entry call kind deadline frame) frame, .ok [])) := by
  unfold submit
  cases c.request s.caller method params with
  | error e => exact .inl ⟨s.caller, _, Nat.le_refl _, rfl⟩
  | ok frame =>
    have hse : ({ s with caller := s.caller + 1 } : Session).sending = s.sending := rfl
    simp only [hse]
    split
    · exact .inl ⟨s.caller + 1, _, Nat.le_succ _, rfl⟩
    · cases hs : s.sending with
      | true => exact .inr (.inl ⟨frame, rfl, rfl⟩)
      | false =>
        simp only [Bool.not_false, Bool.true_and, decide_eq_true_eq, Bool.false_eq_true, if_false]
        split_ifs with hlen hb
        · exact .inl ⟨s.caller + 1, _, Nat.le_succ _, rfl⟩
        · exact .inl ⟨s.caller + 1, _, Nat.le_succ _, rfl⟩
        · exact .inr (.inr ⟨frame, trivial, not_le.1 hlen, not_lt.1 hb, rfl⟩)

def inSetup (s : Session) : Session := { s with phase := .Setup }

def setupEntry (s : Session) (next : CallId) (frame : Bytes) : Pending :=
  s.inSetup.entry next .SetOptions none frame

theorem onHead_cases (head : Bytes) (next : CallId) :
    (∃ phase n a, (phase = s.phase ∨ phase = .Setup) ∧ a.quiet = true ∧ (a.fatal c).isSome ∧
        s.onHead c head next = ({ s with phase := phase, caller := n }, [a])) ∨
      s.onHead c head next = ({ s with phase := .Open }, [.Ready]) ∨
      (∃ frame, s.sending = true ∧ s.onHead c head next =
        (s.inSetup.sentNow c (s.setupEntry next frame), [.Send (.text (c.mint s.caller) frame)])) ∨
      (∃ frame, s.sending = false ∧
        s.onHead c head next = (s.inSetup.queuedNow c (s.setupEntry next frame) frame, [])) := by
  unfold onHead
  cases c.validate_101 head s.key with
  | error e => exact .inl ⟨s.phase, s.caller, _, .inl rfl, rfl, rfl, rfl⟩
  | ok _ =>
    split_ifs
    · exact .inr (.inl rfl)
    · rcases submit_cases c s.inSetup next .SetOptions "core.set_options" setupParams none with
        ⟨n, e, -, heq⟩ | ⟨frame, hs, heq⟩ | ⟨frame, hs, -, -, heq⟩
      all_goals
        rw [inSetup] at heq
        rw [heq]
      · exact .inl ⟨.Setup, n, _, .inr rfl, rfl, rfl, rfl⟩
      · exact .inr (.inr (.inl ⟨frame, hs, rfl⟩))
      · exact .inr (.inr (.inr ⟨frame, hs, rfl⟩))

end Submit

section Endings

theorem told_of_mem_filterMap {entries : List (Id × Pending)} {f : Pending → Bool}
    {result : Except ApiError Bytes} : ∀ a ∈ entries.filterMap (fun e =>
      if f e.2 = true then some (Act.CallDone e.2.call result) else none),
      ∃ call, a.told = some call := by
  intro a ha
  obtain ⟨e, -, he⟩ := mem_filterMap.1 ha
  split at he
  · rw [← some_inj.1 he]
    exact ⟨e.2.call, rfl⟩
  · cases he

theorem requests_failOutstanding (s : Session) (why : String) :
    requests (s.failOutstanding why).2 = [] :=
  requests_of_told told_of_mem_filterMap

theorem requests_serverError (s : Session) (e : ApiError) (why : String) :
    requests (.ServerError e :: (s.failOutstanding why).2) = [] :=
  requests_failOutstanding s why

theorem requests_failAll (s : Session) (why : String) : requests (s.failAll why).2 = [] :=
  requests_of_told told_of_mem_filterMap

theorem requests_timeOut (s : Session) (now : Instant) : requests (s.timeOut now).2 = [] :=
  requests_of_told told_of_mem_filterMap

theorem tick_frame (c : Codec) (s : Session) (now : Instant) (jitter : ℕ) : ∃ armed ends,
    s.tick c now jitter = { s with backoff_armed := armed, backoff_until := ends } := by
  unfold tick
  split
  · exact ⟨_, _, rfl⟩
  · split
    · exact ⟨s.backoff_armed, none, rfl⟩
    · exact ⟨s.backoff_armed, s.backoff_until, rfl⟩

theorem tick_of_steady (h : s.backingOff = false) (now : Instant)
    (jitter : ℕ) : s.tick c now jitter = s := by
  simp only [backingOff, Bool.or_eq_false_iff, isSome_eq_false_iff,
    isNone_iff_eq_none] at h
  simp [tick, h.1, h.2]

theorem expire_eq (c : Codec) (s : Session) (now : Instant) (jitter : ℕ) :
    s.expire c now jitter = (((s.timeOut now).1.tick c now jitter).drainBacklog.1,
      (s.timeOut now).2 ++ ((s.timeOut now).1.tick c now jitter).drainBacklog.2) := rfl

end Endings

section Answers

variable {p : Pending} {id : Id} {oc : Outcome}

section

variable (c s p oc)

/-- What is said of a call that is settled. -/
inductive Reports :
    Session × List Act → Prop
  | nothing (ha : p.abandoned = true) : Reports (s, [])
  | opens {raw} (ha : p.abandoned = false) (hk : p.kind = .SetOptions) (ho : oc = .Result raw)
      (hl : c.legacy_jobs_in_force raw = some false) :
      Reports ({ s with phase := .Open }, [.Ready])
  | fails {e} (hk : p.kind = .SetOptions) : Reports (s, [.SetupFailed e])
  | tells {subs a} (ha : p.abandoned = false) (hk : p.kind ≠ .SetOptions)
      (ht : a.told = some p.call) : Reports ({ s with subs }, [a])

end

theorem reports_report (ha : p.abandoned = false) : Reports c s p oc (s.report c p oc) := by
  have tells : ∀ {subs a}, p.kind ≠ .SetOptions → a.told = some p.call →
    Reports c s p oc ({ s with subs }, [a]) := .tells ha
  unfold report
  cases hk : p.kind with
  | SetOptions =>
    cases oc with
    | Failure e => exact .fails hk
    | Result raw =>
      simp only [Outcome.toExcept]
      cases hle : c.legacy_jobs_in_force raw with
      | none => exact .fails hk
      | some legacy =>
        cases legacy with
        | true => exact .fails hk
        | false => exact .opens ha hk rfl hle
  | User => exact tells (by simp [hk]) rfl
  | Subscribe collection sub =>
    cases oc with
    | Failure e => exact tells (by simp [hk]) rfl
    | Result raw =>
      simp only [Outcome.toExcept]
      cases c.ident raw with
      | none | some ident => exact tells (by simp [hk]) rfl
  | Unsubscribe sub =>
    cases oc with
    | Failure e | Result raw => exact tells (by simp [hk]) rfl

theorem Reports.requests (h : Reports c s p oc out) : requests out.2 = [] := by
  cases h with
  | nothing | opens | fails => rfl
  | tells _ _ ht => exact requests_singleton (request_of_told ht)

theorem settle_of_waiting (h : p.abandoned = false) :
    s.settle c p oc = ((s.drainBacklog.1.report c p oc).1,
      s.drainBacklog.2 ++ (s.drainBacklog.1.report c p oc).2) := by
  simp [settle, h]

theorem settle_reports (c : Codec) (s : Session) (p : Pending) (oc : Outcome) :
    ∃ out, Reports c s.drainBacklog.1 p oc out ∧
      s.settle c p oc = (out.1, s.drainBacklog.2 ++ out.2) := by
  cases ha : p.abandoned with
  | true => exact ⟨_, .nothing ha, by simp [settle, ha]⟩
  | false => exact ⟨_, reports_report ha, settle_of_waiting ha⟩

theorem retryFrame_eq_some {frame : Bytes} (h : retryFrame p = some frame) :
    p.abandoned = false ∧ p.retries < MAX_CALL_RETRIES ∧ p.retry_frame = some frame := by
  unfold retryFrame at h
  split at h
  · rename_i hp
    simp only [Bool.and_eq_true, Bool.not_eq_true', decide_eq_true_eq] at hp
    exact ⟨hp.1, hp.2, h⟩
  · cases h

theorem onReply_cases (c : Codec) (s : Session) (id : Id) (oc : Outcome) :
    (s.onReply c id oc = (s, [.Fault "response to no outstanding call"])) ∨
      (∃ p, s.pending.get id = some p ∧ p.sent = false ∧ s.onReply c id oc =
        ({ s with pending := s.pending.remove id }, [.Fault "answer for a call never sent"])) ∨
      (∃ p frame, s.pending.get id = some p ∧ p.sent = true ∧ oc.refused = true ∧
        retryFrame p = some frame ∧
        s.onReply c id oc = ((s.credit id true).reissue id p frame, [])) ∨
      (∃ p, s.pending.get id = some p ∧ p.sent = true ∧
        (oc.refused = true → retryFrame p = none) ∧
        s.onReply c id oc = (s.credit id oc.refused).settle c p oc) := by
  unfold onReply
  cases hg : s.pending.get id with
  | none => exact .inl rfl
  | some p =>
    refine .inr ?_
    cases hs : p.sent with
    | false => exact .inl ⟨p, rfl, hs, by simp [hs]⟩
    | true =>
      refine .inr ?_
      simp only [hs, Bool.not_true, Bool.false_eq_true, if_false]
      cases hrf : oc.refused with
      | false => exact .inr ⟨p, rfl, hs, nofun, rfl⟩
      | true =>
        cases hr : retryFrame p with
        | none => exact .inr ⟨p, rfl, hs, fun _ => hr, rfl⟩
        | some frame => exact .inl ⟨p, frame, rfl, hs, rfl, hr, rfl⟩

end Answers

theorem onNotification_cases (c : Codec) (s : Session) (text : Bytes) : ∃ subs a,
    a.quiet = true ∧ s.onNotification c text = ({ s with subs := subs }, [a]) := by
  unfold onNotification
  repeat' split
  all_goals exact ⟨_, _, rfl, rfl⟩

theorem onMessage_cases (c : Codec) (s : Session) (text : Bytes) :
    (∃ subs a, a.quiet = true ∧ s.onMessage c text = ({ s with subs := subs }, [a])) ∨
      (∃ e, s.onMessage c text = ((s.failOutstanding UNATTRIBUTED).1,
        .ServerError e :: (s.failOutstanding UNATTRIBUTED).2)) ∨
      (∃ id oc, id ≠ .Null ∧ c.probe text = some false ∧
        c.parse_answer text = .Single id oc ∧
        s.onMessage c text = s.onReply c id oc) := by
  unfold onMessage
  cases hpr : c.probe text with
  | none => exact .inl ⟨s.subs, _, rfl, rfl⟩
  | some named =>
    cases named with
    | true => exact .inl (onNotification_cases c s text)
    | false =>
      simp only [onAnswer]
      cases ha : c.parse_answer text with
      | Batch | Invalid => exact .inl ⟨s.subs, _, rfl, rfl⟩
      | Single id oc =>
        cases id with
        | Null => exact .inr (.inl ⟨_, rfl⟩)
        | num n => exact .inr (.inr ⟨.num n, oc, by simp, trivial, rfl, rfl⟩)
        | str t => exact .inr (.inr ⟨.str t, oc, by simp, trivial, rfl, rfl⟩)

theorem quiet_fault {what : String} : ∀ a ∈ [Act.Fault what], a.quiet = true := by
  simp [Act.quiet]

def whole (s : Session) : Session := { s with frag := none }

theorem onFrame_cases (c : Codec) (s : Session) (fin : Bool) (op : Opcode) (pl : Bytes) :
    (∃ s' acts, (∃ frag, s' = { s with frag := frag }) ∧ (∀ a ∈ acts, a.quiet = true) ∧
        s.onFrame c fin op pl = (s', acts)) ∨
      (s.phase ≠ .Closing ∧ s.onFrame c fin op pl =
        ({ s with phase := .Closing, close_reason := some (closeReason pl), frag := none },
          [.Send (.close (closeEcho pl)), .PeerClosing])) ∨
      (∃ text, s.completes fin op pl = some text ∧
        s.onFrame c fin op pl = s.whole.onMessage c text) := by
  unfold onFrame
  cases op with
  | Ping => exact .inl ⟨s, _, ⟨s.frag, rfl⟩, by simp [Act.quiet], rfl⟩
  | Pong => exact .inl ⟨s, [], ⟨s.frag, rfl⟩, nofun, rfl⟩
  | Binary => exact .inl ⟨s, _, ⟨s.frag, rfl⟩, quiet_fault, rfl⟩
  | Close =>
    simp only [onCloseFrame]
    split_ifs with hph
    · exact .inl ⟨s, [], ⟨s.frag, rfl⟩, nofun, rfl⟩
    · exact .inr (.inl ⟨hph, rfl⟩)
  | Text =>
    cases hf : s.frag with
    | some buf => exact .inl ⟨s, _, ⟨s.frag, rfl⟩, quiet_fault, rfl⟩
    | none =>
      simp only [isSome_none, Bool.false_eq_true, if_false]
      by_cases hlen : s.max_inbound < pl.length
      · simp only [if_pos hlen]
        cases fin <;> exact .inl ⟨s, _, ⟨s.frag, rfl⟩, quiet_fault, rfl⟩
      · simp only [if_neg hlen]
        cases fin with
        | false => exact .inl ⟨_, [], ⟨some pl, rfl⟩, nofun, rfl⟩
        | true =>
          refine .inr (.inr ⟨pl, ?_, ?_⟩)
          · simp [completes, hf, not_lt.1 hlen]
          · rw [whole, ← hf]
            rfl
  | Cont =>
    cases hf : s.frag with
    | none => exact .inl ⟨s, _, ⟨s.frag, rfl⟩, quiet_fault, rfl⟩
    | some buf =>
      dsimp only
      split_ifs with hlen hfin
      · exact .inl ⟨_, _, ⟨none, rfl⟩, quiet_fault, rfl⟩
      · refine .inr (.inr ⟨buf ++ pl, ?_, rfl⟩)
        simp [completes, hf, hfin, not_lt.1 hlen]
      · exact .inl ⟨_, [], ⟨some (buf ++ pl), rfl⟩, nofun, rfl⟩

variable {fin : Bool} {op : Opcode} {pl : Bytes} {id : Id} {oc : Outcome}

theorem onFrame_of_completes {text : Bytes} (h : s.completes fin op pl = some text) :
    s.onFrame c fin op pl = s.whole.onMessage c text := by
  unfold completes at h
  split at h
  · rename_i hf
    split at h
    · rename_i hc
      obtain rfl := some_inj.1 h
      have hs : s.whole = s := by rw [whole, ← hf]
      rw [hs]
      simp [onFrame, hf, hc.1, not_lt.2 hc.2]
    · cases h
  · rename_i buf hf
    split at h
    · rename_i hc
      obtain rfl := some_inj.1 h
      simp [onFrame, whole, hf, hc.1, not_lt.2 hc.2]
    · cases h
  · cases h

theorem answer_eq_some {e : Event} (h : s.answer c e = some (id, oc)) : ∃ fin op pl text,
      e = .frame fin op pl ∧ s.completes fin op pl = some text ∧
      c.probe text = some false ∧ c.parse_answer text = .Single id oc := by
  cases e with
  | frame fin op pl =>
    obtain ⟨text, hc, h⟩ := bind_eq_some_iff.1 h
    split at h
    · rename_i hpr hpa
      injection h with h
      injection h with hid ho
      exact ⟨fin, op, pl, text, rfl, hc, hpr, hid ▸ ho ▸ hpa⟩
    · cases h
  | _ => cases h

theorem onFrame_of_answer (h : s.answer c (.frame fin op pl) = some (id, oc)) (hid : id ≠ .Null) :
    s.onFrame c fin op pl = s.whole.onReply c id oc := by
  obtain ⟨_, _, _, text, heq, hc, hpr, hpa⟩ := answer_eq_some h
  injection heq with h₁ h₂ h₃
  subst h₁ h₂ h₃
  rw [onFrame_of_completes hc]
  cases id with
  | Null => exact absurd rfl hid
  | num n | str t => simp [onMessage, onAnswer, hpr, hpa]

/-- What a frame, a close or the clock has a session do. -/
inductive Reacts (c : Codec) (s : Session) : Event → Session × List Act → Prop
  | idle {e acts} (frag : Option Bytes) (subs : Ordered SubscriptionId SubEntry)
      (hquiet : ∀ a ∈ acts, a.quiet = true) : Reacts c s e ({ s with frag, subs }, acts)
  | close {e acts} (reason : Option String) (frag : Option Bytes) (body : Bytes)
      (hopen : s.phase ≠ .Closing) (hquiet : ∀ a ∈ acts, a.quiet = true) :
      Reacts c s e
        ({ s with phase := .Closing, close_reason := reason, frag }, .Send (.close body) :: acts)
  | fail {e} (error : ApiError) (hphase : s.phase ≠ .AwaitingHead) :
      Reacts c s e
        ((s.whole.failOutstanding UNATTRIBUTED).1,
          .ServerError error :: (s.whole.failOutstanding UNATTRIBUTED).2)
  | unsent {e id outcome p : _} (hphase : s.phase ≠ .AwaitingHead)
      (hanswer : s.answer c e = some (id, outcome)) (hid : id ≠ .Null)
      (hget : s.pending.get id = some p) (hsent : p.sent = false) :
      Reacts c s e
        ({ s.whole with pending := s.pending.remove id }, [.Fault "answer for a call never sent"])
  | again {e id p frame : _} (hphase : s.phase ≠ .AwaitingHead) (hget : s.pending.get id = some p)
      (hsent : p.sent = true) (hretry : retryFrame p = some frame) :
      Reacts c s e ((s.whole.credit id true).reissue id p frame, [])
  | settle {e id outcome p : _} (hphase : s.phase ≠ .AwaitingHead)
      (hanswer : s.answer c e = some (id, outcome)) (hid : id ≠ .Null)
      (hget : s.pending.get id = some p) (hsent : p.sent = true) :
      Reacts c s e ((s.whole.credit id outcome.refused).settle c p outcome)
  | expire (now : Instant) (jitter : ℕ) : Reacts c s (.expire now jitter) (s.expire c now jitter)

theorem reacts_onFrame (hph : s.phase ≠ .AwaitingHead) (fin : Bool) (op : Opcode)
    (pl : Bytes) : s.Reacts c (.frame fin op pl) (s.onFrame c fin op pl) := by
  rcases onFrame_cases c s fin op pl with
    ⟨s', acts, ⟨frag, rfl⟩, hq, heq⟩ | ⟨ho, heq⟩ | ⟨text, hc, heq⟩ <;> rw [heq]
  · exact .idle frag s.subs hq
  · exact .close _ none _ ho (by simp [Act.quiet])
  · rcases onMessage_cases c s.whole text with
      ⟨subs, a, hq, heq⟩ | ⟨e, heq⟩ | ⟨id, oc, hid, hpr, hpa, heq⟩ <;> rw [heq]
    · exact .idle none subs (by simpa using hq)
    · exact .fail e hph
    · have ha : s.answer c (.frame fin op pl) = some (id, oc) := by simp [answer, hc, hpr, hpa]
      rcases onReply_cases c s.whole id oc with
        heq | ⟨p, hg, hs, heq⟩ | ⟨p, frame, hg, hs, -, hr, heq⟩ |
          ⟨p, hg, hs, -, heq⟩ <;> rw [heq]
      · exact .idle none s.subs quiet_fault
      · exact .unsent hph ha hid hg hs
      · exact .again hph hg hs hr
      · exact .settle hph ha hid hg hs

theorem reacts_startClose (c : Codec) (s : Session) : s.Reacts c .startClose s.startClose := by
  unfold startClose
  split_ifs with hph
  · exact .idle s.frag s.subs nofun
  · exact .close s.close_reason s.frag _ hph nofun

end Session

namespace Driver

variable {c : Codec} {r : Driver} {e : Event}

theorem apply_cases (c : Codec) (r : Driver) (out : Session × List Act) :
    (out.2.findSome? (Act.fatal c) = none ∧
        r.apply c out = { r with sess := out.1, acts := r.acts ++ out.2 }) ∨
      ∃ why, out.2.findSome? (Act.fatal c) = some why ∧
        r.apply c out = { r with sess := out.1, acts := r.acts ++ out.2 }.failAll why := by
  unfold apply
  cases hf : out.2.findSome? (Act.fatal c) with
  | none => exact .inl ⟨rfl, rfl⟩
  | some why => exact .inr ⟨why, rfl, rfl⟩

theorem step_of_answer {id : Id} {oc : Outcome} (hf : r.failed = false)
    (hph : r.sess.phase ≠ .AwaitingHead) (ha : r.sess.answer c e = some (id, oc))
    (hid : id ≠ .Null) : step c r e = r.apply c (r.sess.whole.onReply c id oc) := by
  obtain ⟨fin, op, pl, -, rfl, -, -, -⟩ := Session.answer_eq_some ha
  rw [step_of_live hf, ← Session.onFrame_of_answer ha hid]
  exact if_neg hph

/-- What a step keeps: it is enough to look at what the session does. -/
theorem step_rule {P : Driver → Prop} (hf : r.failed = false) (stay : P r)
    (react : ∀ out, r.sess.Reacts c e out → P (r.apply c out))
    (head : ∀ bytes next, r.sess.phase = .AwaitingHead → P ({ r with
      submitted := r.submitted ++ (r.sess.onHead c bytes next).1.pending.keys }.apply c
        (r.sess.onHead c bytes next)))
    (submit : ∀ call kind method params deadline, r.sess.phase = .Open → kind ≠ .SetOptions →
      P (r.submit c call kind method params deadline))
    (closed : ∀ reason, P (r.failAll reason)) : P (step c r e) := by
  rw [step_of_live hf]
  unfold handle
  cases e with
  | head bytes next =>
    simp only
    split
    · exact head bytes next (by assumption)
    · exact stay
  | submit call kind method params deadline =>
    simp only
    split
    · next ho => exact submit call kind method params deadline ho.1 ho.2
    · exact stay
  | frame fin op pl =>
    simp only
    split
    · exact stay
    · next hph => exact react _ (Session.reacts_onFrame hph fin op pl)
  | expire now jitter => exact react _ (.expire now jitter)
  | startClose => exact react _ (Session.reacts_startClose c r.sess)
  | closed reason => exact closed _

end Driver

end TruenasRos.Api
