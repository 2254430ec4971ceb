import TruenasRos.Api.Concurrency
import TruenasRos.Api.Server

/-! # Closing is final

Behind its close frame a session neither opens again nor sends a request or a second close. The
one event that breaks this is the answer to the setup call: it opens the session whatever the
phase, and a session that was closed while it was set up then serves calls behind its close.
-/

namespace TruenasRos.Api

open List TruenasRos.Ws Finality Act Session Driver

namespace Act

def closes : Act → Bool
  | .Send (.close _) => true
  | _ => false

/-- What may still come out behind a close. -/
def calm : Act → Bool
  | .Ready => false
  | .Send (.pong _) => true
  | .Send _ => false
  | _ => true

variable {a : Act}

theorem closes_of_calm (h : a.calm = true) : a.closes = false := by
  cases a with
  | Send w => cases w <;> first | rfl | cases h
  | _ => rfl

theorem calm_of_quiet (h : a.quiet = true) : a.calm = true := by
  cases a with
  | Send w => cases w <;> first | rfl | cases h
  | _ => first | rfl | cases h

theorem calm_of_told {call : CallId} (h : a.told = some call) : a.calm = true := by
  cases a <;> first | rfl | cases h

end Act

variable {acts : List Act}

theorem not_closed_of_calm (h : ∀ a ∈ acts, a.calm = true) : ¬ Closed closes acts := by
  rintro ⟨a, ha, hc⟩
  rw [closes_of_calm (h a ha)] at hc
  cases hc

section Functions

variable {c : Codec} {s : Session} {out : Session × List Act}

/-- What a function of the session may do: only calm acts behind the first close, and the phase
says whether there was one. -/
structure Closes (s : Session) (out : Session × List Act) : Prop where
  final : Final closes calm out.2
  calm : s.phase = .Closing → ∀ a ∈ out.2, a.calm = true
  closing : out.1.phase = .Closing ↔ s.phase = .Closing ∨ Closed closes out.2

theorem closes_of_calm {s' : Session} (hph : s'.phase = s.phase)
    (ha : ∀ a ∈ acts, a.calm = true) : Closes s (s', acts) where
  final := final_of_not_closed (not_closed_of_calm ha)
  calm _ := ha
  closing := by rw [or_iff_left (not_closed_of_calm ha), hph]

theorem closes_of_open (ho : s.phase ≠ .Closing)
    (hph : out.1.phase ≠ .Closing) (hac : ∀ a ∈ out.2, a.closes = false) : Closes s out := by
  have hn : ¬ Closed closes out.2 := by
    rintro ⟨a, ha, hc⟩
    rw [hac a ha] at hc
    cases hc
  exact ⟨final_of_not_closed hn, fun hc => absurd hc ho, iff_of_false hph (not_or.2 ⟨ho, hn⟩)⟩

theorem closes_drainBacklog (s : Session) : Closes s s.drainBacklog := by
  by_cases ho : s.phase = .Closing
  · rw [drainBacklog_of_held (.inl ho)]
    exact closes_of_calm rfl nofun
  · refine closes_of_open ho (by rw [s.drainBacklog_keeps.1]; exact ho) fun a ha => ?_
    obtain ⟨id, frame, rfl⟩ := s.drains.sends a ha
    rfl

theorem closes_onHead (hph : s.phase = .AwaitingHead) (head : Bytes) (next : CallId) :
    Closes s (s.onHead c head next) := by
  have ho : s.phase ≠ .Closing := by rw [hph]; exact nofun
  rcases s.onHead_cases c head next with
    ⟨phase, n, a, hs, hq, -, heq⟩ | heq | ⟨frame, -, heq⟩ | ⟨frame, -, heq⟩ <;> rw [heq]
  · refine closes_of_open ho ?_ fun b hb => ?_
    · rcases hs with rfl | rfl
      · exact ho
      · exact nofun
    · rw [mem_singleton.1 hb]
      exact Act.closes_of_calm (Act.calm_of_quiet hq)
  · exact closes_of_open ho nofun (by simp [Act.closes])
  · exact closes_of_open ho nofun (by simp [Act.closes])
  · exact closes_of_open ho nofun nofun

theorem closes_expire (s : Session) (now : Instant) (jitter : ℕ) :
    Closes s (s.expire c now jitter) := by
  obtain ⟨armed, ends, hti⟩ := (s.timeOut now).1.tick_frame c now jitter
  have hph : ((s.timeOut now).1.tick c now jitter).phase = s.phase := by
    rw [hti]
    rfl
  have ht : ∀ a ∈ (s.timeOut now).2, a.calm = true := by
    intro a ha
    obtain ⟨call, hcl⟩ := told_of_mem_filterMap a ha
    exact calm_of_told hcl
  have hd := closes_drainBacklog ((s.timeOut now).1.tick c now jitter)
  rw [expire_eq]
  refine ⟨?_, fun hc a ha => ?_, ?_⟩
  · exact final_append (final_of_not_closed (not_closed_of_calm ht)) hd.final
      fun hc => absurd hc (not_closed_of_calm ht)
  · exact (mem_append.1 ha).elim (ht a) (hd.calm (hph.trans hc) a)
  · rw [closed_append, or_iff_right (not_closed_of_calm ht), ← hph]
    exact hd.closing

/-- Whether an event answers the session's own setup call in its favour. -/
def Session.Reopens (c : Codec) (s : Session) (e : Event) : Prop :=
  ∃ id raw p, s.answer c e = some (id, .Result raw) ∧ id ≠ .Null ∧
    s.pending.get id = some p ∧ p.kind = .SetOptions ∧ p.sent = true ∧ p.abandoned = false ∧
    c.legacy_jobs_in_force raw = some false

theorem closes_settle {p : Pending} {oc : Outcome}
    (h : s.phase = .Closing → ∀ raw, p.kind = .SetOptions → p.abandoned = false →
      oc = .Result raw → c.legacy_jobs_in_force raw ≠ some false) : Closes s (s.settle c p oc) := by
  obtain ⟨out, hr, heq⟩ := settle_reports c s p oc
  rw [heq]
  by_cases hc : s.phase = .Closing
  · -- A closing session drains nothing, so the report is all that comes out.
    rw [drainBacklog_of_held (.inl hc)] at hr ⊢
    cases hr with
    | nothing => exact closes_of_calm rfl nofun
    | opens hab hst hr hle => exact absurd hle (h hc _ hst hab hr)
    | fails => exact closes_of_calm rfl (by simp [Act.calm])
    | tells _ _ ht => exact closes_of_calm rfl (by simpa using Act.calm_of_told ht)
  · have ho : s.drainBacklog.1.phase ≠ .Closing := by rw [s.drainBacklog_keeps.1]; exact hc
    have hs : ∀ acts : List Act, (∀ a ∈ acts, a.closes = false) →
        ∀ a ∈ s.drainBacklog.2 ++ acts, a.closes = false := by
      refine fun acts ha => forall_mem_append.2 ⟨fun a ha => ?_, ha⟩
      obtain ⟨id, frame, rfl⟩ := s.drains.sends a ha
      rfl
    cases hr with
    | nothing => exact closes_of_open hc ho (hs _ nofun)
    | opens => exact closes_of_open hc nofun (hs _ (by simp [Act.closes]))
    | fails => exact closes_of_open hc ho (hs _ (by simp [Act.closes]))
    | tells _ _ ht =>
      exact closes_of_open hc ho (hs _ (by simpa using Act.closes_of_calm (Act.calm_of_told ht)))

theorem closes_react {e : Event} (ho : s.Reacts c e out)
    (h : s.phase = .Closing → ¬ s.Reopens c e) : Closes s out := by
  cases ho with
  | idle _ _ hq => exact closes_of_calm rfl fun a ha => calm_of_quiet (hq a ha)
  | @close _ acts _ _ _ hon hq =>
    have hca : ∀ a ∈ acts, a.calm = true := fun a ha => calm_of_quiet (hq a ha)
    refine ⟨pairwise_cons.2 ⟨fun a ha _ => hca a ha, ?_⟩, fun hc => absurd hc hon,
      iff_of_true rfl (.inr ⟨_, mem_cons_self, rfl⟩)⟩
    exact final_of_not_closed (not_closed_of_calm hca)
  | fail =>
    refine closes_of_calm rfl fun a ha => ?_
    rcases mem_cons.1 ha with rfl | ha
    · rfl
    · obtain ⟨call, hcl⟩ := told_of_mem_filterMap a ha
      exact calm_of_told hcl
  | unsent => exact closes_of_calm rfl (by simp [calm])
  | again => exact closes_of_calm rfl nofun
  | @settle _ id oc p _ han hid hg hse =>
    have hs : Closes (s.whole.credit id oc.refused)
        ((s.whole.credit id oc.refused).settle c p oc) := by
      refine closes_settle fun hc raw hst hab hr hle => ?_
      subst hr
      exact h hc ⟨id, raw, p, han, hid, hg, hst, hse, hab, hle⟩
    exact { hs with }
  | expire now jitter => exact closes_expire s now jitter

end Functions

namespace Driver

variable {c : Codec} {r : Driver}

/-- What holds of a driver while closing is final. -/
structure Finished (r : Driver) : Prop where
  final : Final closes calm r.acts
  closing : r.sess.phase = .Closing ↔ Closed closes r.acts

/-- Whether an event answers the setup call in the session's favour behind its close. -/
def Reopens (c : Codec) (r : Driver) (e : Event) : Prop :=
  r.failed = false ∧ Closed closes r.acts ∧ r.sess.Reopens c e

section

variable (h : Finished r) {out : Session × List Act}
include h

theorem finished_failAll (why : String) : Finished (r.failAll why) := by
  have hc : ∀ a ∈ (r.sess.failAll why).2, a.calm = true := by
    intro a ha
    obtain ⟨call, hcl⟩ := told_of_mem_filterMap a ha
    exact calm_of_told hcl
  refine ⟨final_append h.final (final_of_not_closed (not_closed_of_calm hc))
    fun _ => hc, ?_⟩
  rw [failAll, closed_append, or_iff_left (not_closed_of_calm hc)]
  exact h.closing

theorem finished_out (ho : Closes r.sess out) :
    Finished { r with sess := out.1, acts := r.acts ++ out.2 } where
  final := final_append h.final ho.final fun hc => ho.calm (h.closing.2 hc)
  closing := by rw [ho.closing, h.closing, closed_append]

theorem finished_apply (ho : Closes r.sess out) : Finished (r.apply c out) := by
  rcases apply_cases c r out with ⟨-, heq⟩ | ⟨why, -, heq⟩
  · rw [heq]
    exact finished_out h ho
  · rw [heq]
    exact finished_failAll (finished_out h ho) why

theorem finished_step {e : Event} (hre : ¬ Reopens c r e) : Finished (step c r e) := by
  cases hf : r.failed with
  | true =>
    rw [step_of_failed hf]
    exact h
  | false =>
    apply step_rule hf h
    · intro out ho
      refine finished_apply h (closes_react ho fun hc hs => hre ⟨hf, ?_, hs⟩)
      exact h.closing.1 hc
    · intro bytes next hph
      have hr : Finished { r with
          submitted := r.submitted ++ (r.sess.onHead c bytes next).1.pending.keys } :=
        ⟨h.final, h.closing⟩
      exact finished_apply hr (closes_onHead hph bytes next)
    · intro call kind method params deadline hon _
      have hn : r.sess.phase ≠ .Closing := by rw [hon]; exact nofun
      unfold submit
      rcases r.sess.submit_cases c call kind method params deadline with
        ⟨n, e, -, heq⟩ | ⟨frame, -, heq⟩ | ⟨frame, -, -, -, heq⟩
      · rw [heq]
        exact ⟨h.final, h.closing⟩
      · have ho : Closes r.sess (r.sess.sentNow c (r.sess.entry call kind deadline frame),
            [.Send (.text (c.mint r.sess.caller) frame)]) :=
          closes_of_open hn hn (by simp [closes])
        have hnx := finished_out h ho
        rw [heq]
        exact ⟨hnx.final, hnx.closing⟩
      · have ho : Closes r.sess
            (r.sess.queuedNow c (r.sess.entry call kind deadline frame) frame, []) :=
          closes_of_open hn hn nofun
        have hnx := finished_out h ho
        rw [heq]
        exact ⟨hnx.final, hnx.closing⟩
    · exact fun reason => finished_failAll h _

end

theorem finished_run {r₀ : Driver} (h : Finished r₀) {es : List Event}
    (hn : ∀ es₁ e es₂, es = es₁ ++ e :: es₂ → ¬ Reopens c (run c r₀ es₁) e) :
    Finished (run c r₀ es) := by
  induction es using reverseRecOn with
  | nil => exact h
  | append_singleton es e ih =>
    rw [run_concat]
    refine finished_step (ih fun es₁ e' es₂ he => ?_) (hn es e [] rfl)
    exact hn es₁ e' (es₂ ++ [e]) (by simp [he])

theorem open_of_reopens {e : Event} (h : Reopens c r e) (hph : r.sess.phase = .Closing) :
    (step c r e).sess.phase = .Open ∧ Closed closes (step c r e).acts := by
  obtain ⟨hf, hc, id, raw, p, ha, hid, hg, hs, hse, hab, hle⟩ := h
  have hh : (r.sess.whole.credit id false).drainBacklog = (r.sess.whole.credit id false, []) :=
    drainBacklog_of_held (.inl hph)
  have hr : r.sess.whole.onReply c id (.Result raw) =
      (r.sess.whole.credit id false).settle c p (.Result raw) := by
    have hg' : r.sess.whole.pending.get id = some p := hg
    simp [onReply, hg', hse, Outcome.refused]
  have hhd : r.sess.phase ≠ .AwaitingHead := by simp [hph]
  rw [step_of_answer hf hhd ha hid, hr, settle_of_waiting hab, hh]
  simp only [report, hs, Outcome.toExcept, hle]
  exact ⟨rfl, closed_append.2 (.inl hc)⟩

end Driver

/-- A session is silent behind its close, but for pongs and reports, exactly when no answer in
favour of its setup call comes in behind it; a server is silent behind its close altogether. -/
theorem closing_is_final_iff (c : Codec) (key : String) (legacy : Bool)
    (max_outbound max_inbound max_queued max_queued_bytes : ℕ) (es : List Event) (r₀ : Driver)
    (hr₀ : r₀ = .start key legacy max_outbound max_inbound max_queued max_queued_bytes)
    (sc : ServerCodec) (max_message_bytes : ℕ) (ses : List ServerEvent) (r : ServerRun)
    (hr : r = ServerRun.run sc ⟨.new max_message_bytes, []⟩ ses) :
    (((∀ es', es' <+: es → Closed Act.closes (run c r₀ es').acts →
          (run c r₀ es').sess.phase = .Closing) ∧
        Final Act.closes Act.calm (run c r₀ es).acts ∧
        (run c r₀ es).acts.countP Act.closes ≤ 1) ↔
      ∀ es₁ e es₂, es = es₁ ++ e :: es₂ → ¬ Driver.Reopens c (run c r₀ es₁) e) ∧
      (Closed ServerAct.closes r.acts → r.server.phase = .Closing) ∧
      Final ServerAct.closes ServerAct.silent r.acts ∧ r.acts.countP ServerAct.closes ≤ 1 := by
  have hsr : Driver.Finished r₀ := by
    rw [hr₀]
    exact ⟨List.Pairwise.nil, iff_of_false nofun not_closed_nil⟩
  have hs : ServerRun.Sound r := by
    have hnew : ServerRun.Sound ⟨.new max_message_bytes, []⟩ :=
      ⟨List.Pairwise.nil, fun hc => absurd hc not_closed_nil⟩
    rw [hr]
    exact ServerRun.sound_run hnew ses
  refine ⟨⟨?_, fun hn => ⟨?_, ?_⟩⟩, hs.closing, hs.final, countP_le_one hs.final fun a ha => ?_⟩
  · rintro ⟨hph, -, -⟩ es₁ e es₂ he hre
    have hcl := hph es₁ (by rw [he]; exact prefix_append _ _) hre.2.1
    obtain ⟨ho, hcs⟩ := open_of_reopens hre hcl
    have hst := hph (es₁ ++ [e]) (by rw [he]; exact ⟨es₂, by simp⟩)
    rw [run_concat] at hst
    rw [hst hcs] at ho
    cases ho
  · intro es' ⟨rest, he⟩ hcs
    refine (finished_run hsr fun es₁ e es₂ he' => ?_).closing.2 hcs
    exact hn es₁ e (es₂ ++ rest) (by rw [← he, he']; simp)
  · have hf := (finished_run hsr hn).final
    exact ⟨hf, countP_le_one hf fun a => Act.closes_of_calm⟩
  · cases a <;> first | rfl | cases ha

/-- A session closed while it is set up: the answer to its setup call opens it, and it sends a
request and a second close behind its first. -/
theorem closed_session_reopens :
    let es : List Event := [.head [] 0, .startClose, .frame true .Text [0, 0],
      .submit 1 .User "m" [] none, .startClose]
    let r := run .plain (.start "" false 1024 1024 4 4096) es
    r.acts = [.Send (.text (.num 0) [0]), .Send (.close [3, 232]), .Ready,
      .Send (.text (.num 1) [1]), .Send (.close [3, 232])] := by
  rfl

/-- A session that closes once it is open, and a server that answers the peer's close. -/
theorem closing_once :
    let es : List Event := [.head [] 0, .startClose]
    let ses : List ServerEvent := [.head [], .frame true (some .Close) [], .close]
    let r := ServerRun.run .plain ⟨.new 1024, []⟩ ses
    (run .plain (.start "" true 1024 1024 4 4096) es).acts.countP closes = 1 ∧
      r.acts = [.Send (.close []), .PeerClosing] ∧
      Final ServerAct.closes ServerAct.silent r.acts := by
  refine ⟨rfl, rfl, ?_⟩
  exact (closing_is_final_iff .plain "" true 1024 1024 4 4096 [.head [] 0, .startClose] _ rfl
    .plain 1024 [.head [], .frame true (some .Close) [], .close] _ rfl).2.2.1

end TruenasRos.Api
