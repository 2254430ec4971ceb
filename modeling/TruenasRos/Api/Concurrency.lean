import TruenasRos.Api.Books

/-! # The books over a whole run

The books hold after every event of a run in which the session has not been failed, and with
them the stage of the session: its setup call is alone on the wire until it is answered, and an
open session that is not pausing leaves nothing in its backlog that its budget would admit.
-/

namespace TruenasRos.Api

open List Ordered TruenasRos.Ws

def Session.limits (s : Session) : ℕ × ℕ × ℕ := (s.max_outbound, s.max_queued, s.max_queued_bytes)

def Pending.isSetup (p : Pending) : Prop := p.kind = .SetOptions

structure Stage (s : Session) : Prop where
  head : s.phase = .AwaitingHead → s.pending.entries = [] ∧ s.backingOff = false
  alone : ∀ e ∈ s.pending.entries, e.2.isSetup →
    s.pending.entries = [e] ∧ e.2.sent = true ∧ e.2.retry_frame = none ∧ s.phase ≠ .Open
  clear : s.phase = .Open → s.backingOff = false → s.budget = 0 ∨ s.backlog = []

/-- What holds of a session between two events. -/
structure Sound (c : Codec) (limits : ℕ × ℕ × ℕ) (s : Session) (wire submitted : List Id) :
    Prop where
  books : Books c s wire submitted
  stage : Stage s
  limits : s.limits = limits

namespace Session

variable {s : Session}

theorem Drains.kinds {b : Backlog} {out : Session × List Act} (h : Drains s b out) :
    ∀ e ∈ out.1.pending.entries, ∃ e' ∈ s.pending.entries, e'.2.kind = e.2.kind := by
  induction h with
  | stop => exact fun e he => ⟨e, he, rfl⟩
  | stray _ _ ih => exact ih
  | drop _ _ _ ih =>
    intro e he
    obtain ⟨e', he', hk⟩ := ih e he
    exact ⟨e', mem_of_mem_filter he', hk⟩
  | send _ hg _ _ ih =>
    intro e he
    obtain ⟨e', he', hk⟩ := ih e he
    rcases mem_insert he' with rfl | he'
    · exact ⟨_, mem_of_get hg, hk⟩
    · exact ⟨e', he', hk⟩

theorem drainBacklog_of_nil (h : s.backlog = []) : s.drainBacklog = (s, []) := by
  unfold drainBacklog
  split_ifs
  · rfl
  · rfl
  · rw [h, drain, ← h]

theorem drainBacklog_keeps (s : Session) : s.drainBacklog.1.phase = s.phase ∧
    s.drainBacklog.1.backingOff = s.backingOff ∧ s.drainBacklog.1.limits = s.limits := by
  obtain ⟨_, _, _, _, h⟩ := s.drains.frame
  rw [h]
  exact ⟨rfl, rfl, rfl⟩

end Session

section Functions

variable {c : Codec} {lm : ℕ × ℕ × ℕ} {s : Session} {wire sb : List Id}

section

variable (h : Sound c lm s wire sb)
include h

theorem Sound.touch (frag : Option Bytes) (subs : Ordered SubscriptionId SubEntry) :
    Sound c lm { s with frag := frag, subs := subs } wire sb :=
  ⟨h.books.congr le_rfl, { h.stage with }, h.limits⟩

theorem Sound.backlog_of_setup {e : Id × Pending}
    (he : e ∈ s.pending.entries) (hs : e.2.isSetup) : s.backlog = [] := by
  obtain ⟨hen, hse, -, -⟩ := h.stage.alone e he hs
  have hu := h.books.unsent
  rw [hen] at hu
  have hnil : unsentIds [e] = [] := by simp [unsentIds, hse]
  rw [hnil] at hu
  exact map_eq_nil_iff.1 hu.eq_nil

theorem Sound.close (frag : Option Bytes) (reason : Option String) :
    Sound c lm { s with phase := .Closing, close_reason := reason, frag := frag } wire sb := by
  refine ⟨h.books.congr le_rfl, ⟨nofun, ?_, nofun⟩, h.limits⟩
  intro e he hs
  obtain ⟨hen, hse, hf, -⟩ := h.stage.alone e he hs
  exact ⟨hen, hse, hf, nofun⟩

theorem Sound.backlog_of_head (hph : s.phase = .AwaitingHead) : s.backlog = [] := by
  have hu := h.books.unsent
  rw [(h.stage.head hph).1] at hu
  exact map_eq_nil_iff.1 hu.eq_nil

theorem Sound.onHead (hph : s.phase = .AwaitingHead) (head : Bytes) (next : CallId)
    (ho : (s.onHead c head next).2.findSome? (Act.fatal c) = none) :
    Sound c lm (s.onHead c head next).1 (wire ++ requests (s.onHead c head next).2)
      (sb ++ (s.onHead c head next).1.pending.keys) := by
  obtain ⟨hen, hba⟩ := h.stage.head hph
  have hb : s.backlog = [] := h.backlog_of_head hph
  have hbu : s.budget = CALL_BUDGET := by
    have := h.books.budget
    rwa [hen] at this
  have hsn : s.sending = true := by simp [Session.sending, hba, hbu, CALL_BUDGET]
  have hst : Books c s.inSetup wire sb := h.books.congr le_rfl
  rcases Session.onHead_cases c s head next with
    ⟨phase, n, a, -, -, hft, heq⟩ | heq | ⟨frame, hs, heq⟩ | ⟨frame, hs, -⟩
  · rw [heq, findSome?_cons] at ho
    obtain ⟨why, hw⟩ := Option.isSome_iff_exists.1 hft
    rw [hw] at ho
    cases ho
  · have hk : s.pending.keys = [] := by rw [Ordered.keys, hen, map_nil]
    rw [heq, requests_singleton rfl]
    simp only [hk, append_nil]
    refine ⟨h.books.congr le_rfl, ⟨by simp, ?_, ?_⟩, h.limits⟩
    · intro e he
      rw [hen] at he
      cases he
    · exact fun _ _ => .inr hb
  · have hn : (s.pending.insert (c.mint s.caller) (s.setupEntry next frame)).entries =
        [(c.mint s.caller, s.setupEntry next frame)] := by
      rw [h.books.entries_next, hen, nil_append]
    have hk : (s.inSetup.sentNow c (s.setupEntry next frame)).pending.keys = [c.mint s.caller] := by
      rw [Ordered.keys, Session.sentNow, Session.inSetup, hn]
      rfl
    have hf : (s.setupEntry next frame).retry_frame = none := by
      simp [Session.setupEntry, Session.entry]
    rw [heq]
    simp only [hk]
    refine ⟨hst.sentNow ?_ hb hs ?_, ⟨by rintro ⟨⟩, ?_, by rintro ⟨⟩⟩, h.limits⟩
    · change s.budget ≠ 0
      rw [hbu]
      decide
    · rintro _ ⟨⟩
    · intro e he _
      rw [Session.sentNow, Session.inSetup, hn, mem_singleton] at he
      rw [Session.sentNow, Session.inSetup, he]
      exact ⟨hn, hs, hf, by simp⟩
  · rw [hsn] at hs
    cases hs

theorem Sound.submit (hph : s.phase = .Open) {kind : Kind}
    (hk : kind ≠ .SetOptions) (call : CallId) (method : String) (params : Bytes)
    (deadline : Option Instant) :
    match s.submit c call kind method params deadline with
    | (s', .error _) => Sound c lm s' wire sb
    | (s', .ok acts) => Sound c lm s' (wire ++ requests acts) (sb ++ [c.mint s.caller]) := by
  have hno : ∀ e ∈ s.pending.entries, ¬ e.2.isSetup := fun e he hst =>
    (h.stage.alone e he hst).2.2.2 hph
  have het : ∀ frame f, (s.entry call kind deadline frame).retry_frame = some f →
      f.length ≤ s.max_outbound := by
    intro frame f hf
    simp only [Session.entry] at hf
    split at hf
    · rename_i hle
      rw [← Option.some_inj.1 hf]
      exact hle.2
    · cases hf
  have ha : ∀ frame, ∀ e ∈ (s.pending.insert (c.mint s.caller)
      (s.entry call kind deadline frame)).entries, ¬ e.2.isSetup := by
    intro frame e he
    rcases mem_insert he with rfl | he
    · exact hk
    · exact hno e he
  have hh : s.phase ≠ .AwaitingHead := by
    rw [hph]
    exact nofun
  rcases Session.submit_cases c s call kind method params deadline with
    ⟨n, e, hn, heq⟩ | ⟨frame, hse, heq⟩ | ⟨frame, hse, hlen, hby, heq⟩
  · rw [heq]
    exact ⟨h.books.congr hn, { h.stage with }, h.limits⟩
  · rw [heq]
    have hs := hse
    simp only [Session.sending, Bool.and_eq_true, decide_eq_true_eq, Bool.not_eq_true'] at hs
    have hbc : s.backlog = [] :=
      (h.stage.clear hph hs.2).resolve_left (pos_iff_ne_zero.1 hs.1)
    refine ⟨h.books.sentNow (pos_iff_ne_zero.1 hs.1) hbc hse (het frame),
      ⟨fun hp => absurd hp hh, fun e he hst => absurd hst (ha frame e he), ?_⟩,
      h.limits⟩
    exact fun _ _ => .inr hbc
  · rw [heq]
    simp only [requests_nil, append_nil]
    refine ⟨h.books.queuedNow hlen hby hse (het frame),
      ⟨fun hp => absurd hp hh, fun e he hst => absurd hst (ha frame e he), ?_⟩,
      h.limits⟩
    intro _ hb
    have hb' : s.backingOff = false := hb
    simp only [Session.sending, hb', Bool.not_false, Bool.and_true, decide_eq_false_iff_not,
      Nat.not_lt, Nat.le_zero] at hse
    exact .inl hse

theorem Sound.failOutstanding (hph : s.phase ≠ .AwaitingHead) (why : String) :
    Sound c lm (s.failOutstanding why).1 wire sb := by
  refine ⟨h.books.failOutstanding why, ⟨fun hp => absurd hp hph, ?_, fun _ _ => .inr rfl⟩, h.limits⟩
  intro e he hs
  obtain ⟨e', he', rfl⟩ := mem_map.1 he
  have hk : e'.2.isSetup := by
    simp only [Pending.isSetup] at hs ⊢
    split at hs <;> exact hs
  have hmem : e' ∈ s.pending.entries := mem_of_mem_filter he'
  obtain ⟨hen, hse, hf, ho⟩ := h.stage.alone e' hmem hk
  have hl : e'.2.live = false := by
    rw [Pending.live, show e'.2.kind = .SetOptions from hk]
    simp
  refine ⟨?_, by simpa [hl] using hse, by simpa [hl] using hf, ho⟩
  simp [Session.failOutstanding, mapValues, retain, hen, hse]

end

theorem Sound.drainBacklog (hbo : Books c s wire sb) (hl : s.limits = lm)
    (hph : s.phase ≠ .AwaitingHead) (hki : ∀ e ∈ s.pending.entries, ¬ e.2.isSetup) :
    Sound c lm s.drainBacklog.1 (wire ++ requests s.drainBacklog.2) sb := by
  obtain ⟨hpe, hbe, hle⟩ := s.drainBacklog_keeps
  refine ⟨hbo.drained s.drains, ⟨fun hp => absurd (hpe.symm.trans hp) hph, ?_, ?_⟩, hle.trans hl⟩
  · intro e he hs
    obtain ⟨e', he', hk⟩ := s.drains.kinds e he
    exact absurd (hk.trans hs) (hki e' he')
  · intro ho hb
    rw [hpe] at ho
    rw [hbe] at hb
    exact s.drains.clear (by rw [ho]; exact nofun) hb

section Reply

variable {id : Id} {p : Pending} {oc : Outcome}

theorem Sound.kinds_remove (h : Sound c lm s wire sb) (hg : s.pending.get id = some p) :
    ∀ e ∈ (s.pending.remove id).entries, ¬ e.2.isSetup := by
  intro e he hs
  obtain ⟨he, hne⟩ := mem_filter.1 he
  have hmem := mem_of_get hg
  rw [(h.stage.alone e he hs).1, mem_singleton] at hmem
  rw [← hmem] at hne
  simp at hne

end Reply

section

variable (h : Sound c lm s wire sb)
include h

theorem Sound.timeOut (now : Instant) : Sound c lm (s.timeOut now).1 wire sb := by
  refine ⟨h.books.timeOut now, ⟨?_, ?_, h.stage.clear⟩, h.limits⟩
  · intro hph
    obtain ⟨hen, hb⟩ := h.stage.head hph
    exact ⟨by simp [Session.timeOut, mapValues, hen], hb⟩
  · intro e he hs
    obtain ⟨e', he', rfl⟩ := mem_map.1 he
    have hk : e'.2.isSetup := by
      simp only [Pending.isSetup] at hs ⊢
      split at hs <;> exact hs
    obtain ⟨hen, hse, hf, ho⟩ := h.stage.alone e' he' hk
    refine ⟨by simp [Session.timeOut, mapValues, hen], ?_, ?_, ho⟩
    · simp only
      split <;> exact hse
    · simp only
      split <;> exact hf

theorem Sound.expire (now : Instant) (jitter : ℕ) :
    Sound c lm (s.expire c now jitter).1 (wire ++ requests (s.expire c now jitter).2) sb := by
  have h₁ := h.timeOut now
  obtain ⟨armed, ends, heq⟩ := (s.timeOut now).1.tick_frame c now jitter
  have h₂ : Books c ((s.timeOut now).1.tick c now jitter) wire sb := by
    rw [heq]
    exact h₁.books.congr le_rfl
  rw [Session.expire_eq, requests_append, Session.requests_timeOut, nil_append]
  by_cases hb : s.backlog = []
  · have hb' : ((s.timeOut now).1.tick c now jitter).backlog = [] := by rw [heq]; exact hb
    simp only [Session.drainBacklog_of_nil hb', requests_nil, append_nil]
    refine ⟨h₂, ⟨?_, ?_, fun _ _ => .inr hb'⟩, by rw [heq]; exact h.limits⟩
    · intro hph
      rw [heq] at hph
      have hba := (h₁.stage.head hph).2
      rw [Session.tick_of_steady hba]
      exact h₁.stage.head hph
    · rw [heq]
      exact h₁.stage.alone
  · have hph : s.phase ≠ .AwaitingHead := fun hp => hb (h.backlog_of_head hp)
    apply Sound.drainBacklog h₂ (by rw [heq]; exact h.limits) (by rw [heq]; exact hph)
    rw [heq]
    exact fun e he hs => hb (h₁.backlog_of_setup he hs)

theorem Sound.react {e : Event} {out : Session × List Act}
    (ho : s.Reacts c e out) (hok : out.2.findSome? (Act.fatal c) = none) :
    Sound c lm out.1 (wire ++ requests out.2) sb := by
  have hw : Sound c lm s.whole wire sb := h.touch none s.subs
  cases ho with
  | idle frag subs hq =>
    rw [requests_of_quiet hq, append_nil]
    exact h.touch frag subs
  | close reason frag body _ hq =>
    rw [requests_close hq, append_nil]
    exact h.close frag reason
  | fail error hph =>
    rw [Session.requests_serverError, append_nil]
    exact hw.failOutstanding hph Session.UNATTRIBUTED
  | unsent => cases hok
  | again hph hg hs hr =>
    rw [requests_nil, append_nil]
    obtain ⟨-, -, hf⟩ := Session.retryFrame_eq_some hr
    refine ⟨hw.books.reissue hg hs hf true, ⟨fun hp => absurd hp hph, ?_, ?_⟩, hw.limits⟩
    · intro e he hk
      rcases mem_insert he with rfl | he
      · have hn := (hw.stage.alone _ (mem_of_get hg) hk).2.2.1
        rw [hf] at hn
        cases hn
      · exact absurd hk (hw.kinds_remove hg e he)
    · intro _ hb
      cases hb
  | @settle _ id oc p hph _ _ hg hs =>
    have hd := Sound.drainBacklog (hw.books.credit hg hs oc.refused) hw.limits hph
      (hw.kinds_remove hg)
    obtain ⟨out, ho, heq⟩ := Session.settle_reports c (s.whole.credit id oc.refused) p oc
    rw [heq, requests_append, ho.requests, append_nil]
    cases ho with
    | nothing | fails => exact hd
    | tells => exact hd.touch _ _
    | opens _ hst =>
      -- The setup call was alone, so the session that opens here has no backlog.
      have hb : (s.whole.credit id oc.refused).backlog = [] :=
        hw.backlog_of_setup (mem_of_get hg) hst
      refine ⟨hd.books.congr le_rfl, ⟨nofun, ?_, ?_⟩, hd.limits⟩
      · intro e he hk
        rw [Session.drainBacklog_of_nil hb] at he
        exact absurd hk (hw.kinds_remove hg e he)
      · intro _ _
        rw [Session.drainBacklog_of_nil hb]
        exact .inr hb
  | expire now jitter => exact h.expire now jitter

end

end Functions

namespace Driver

variable {c : Codec} {lm : ℕ × ℕ × ℕ} {r : Driver}

/-- The session is sound as long as it has not been failed. -/
def Sound (c : Codec) (limits : ℕ × ℕ × ℕ) (r : Driver) : Prop :=
  r.failed = false → Api.Sound c limits r.sess (requests r.acts) r.submitted

theorem sound_apply {out : Session × List Act} (h : out.2.findSome? (Act.fatal c) = none →
      Api.Sound c lm out.1 (requests r.acts ++ requests out.2) r.submitted) :
    Sound c lm (r.apply c out) := by
  intro hl
  rcases apply_cases c r out with ⟨ho, heq⟩ | ⟨why, -, heq⟩
  · rw [heq, requests_append]
    exact h ho
  · rw [heq] at hl
    cases hl

theorem sound_step (h : Sound c lm r) (e : Event) : Sound c lm (step c r e) := by
  cases hf : r.failed with
  | true =>
    rw [step_of_failed hf]
    exact h
  | false =>
    have hs := h hf
    apply step_rule hf h
    · exact fun out ho => sound_apply (hs.react ho)
    · exact fun bytes next hph => sound_apply (hs.onHead hph bytes next)
    · intro call kind method params deadline hph hk
      have hsub := hs.submit hph hk (c := c) call method params deadline
      unfold submit
      split
      · rename_i heq
        rw [heq] at hsub
        exact fun _ => hsub
      · rename_i heq
        rw [heq] at hsub
        simp only [← requests_append] at hsub
        exact fun _ => hsub
    · exact fun reason => nofun

theorem sound_run (h : Sound c lm r) (es : List Event) : Sound c lm (run c r es) :=
  run_induction (P := Sound c lm) h (fun _ e h => sound_step h e) es

end Driver

section Pause

variable {c : Codec} {s : Session} {e : Event} {out : Session × List Act}

/-- The session pauses, and sends no request in getting there. -/
def Holds (out : Session × List Act) : Prop := out.1.backingOff = true ∧ requests out.2 = []

namespace Driver

variable {lm : ℕ × ℕ × ℕ} {r : Driver}

def Holds (r r' : Driver) : Prop :=
  r'.sess.backingOff = true ∧ requests r'.acts = requests r.acts

end Driver

end Pause

section Run

variable (c : Codec) (key : String) (legacy : Bool)
  (max_outbound max_inbound max_queued max_queued_bytes : ℕ)

theorem sound_start : Driver.Sound c (max_outbound, max_queued, max_queued_bytes)
    (.start key legacy max_outbound max_inbound max_queued max_queued_bytes) :=
  fun _ => ⟨Books.new .., ⟨fun _ => ⟨rfl, rfl⟩, nofun, nofun⟩, rfl⟩

/-- A call waits only while all slots are taken, the session pauses or it is not open yet; and the
call that sets the session up is alone on the wire until it is answered. -/
theorem waiting_calls_have_cause (es : List Event) (r : Driver)
    (hr : r = Driver.run c
      (.start key legacy max_outbound max_inbound max_queued max_queued_bytes) es)
    (hlive : r.failed = false) :
    (r.sess.phase = .Open → r.sess.backingOff = false → r.sess.backlog ≠ [] →
      sentCount r.sess.pending.entries = CALL_BUDGET) ∧
    (r.sess.phase = .AwaitingHead → r.sess.pending.entries = []) ∧
    ∀ e ∈ r.sess.pending.entries, e.2.kind = .SetOptions →
      r.sess.pending.entries = [e] ∧ e.2.sent = true ∧ r.sess.phase ≠ .Open := by
  subst hr
  obtain ⟨hb, hst, -⟩ := Driver.sound_run (sound_start _ _ _ _ _ _ _) es hlive
  refine ⟨fun ho hp hn => ?_, fun hp => (hst.head hp).1, fun e he hk => ?_⟩
  · have hbu := hb.budget
    rwa [(hst.clear ho hp).resolve_right hn, zero_add] at hbu
  · obtain ⟨ha, hse, -, hph⟩ := hst.alone e he hk
    exact ⟨ha, hse, hph⟩

end Run

/-- The ninth call of a session waits. -/
def crowded : Driver :=
  Driver.run .plain (.start "" true 1024 1024 4 4096)
    (.head [] 0 :: List.replicate 9 (.submit 1 .User "m" [] none))

theorem waiting_calls_have_cause_crowded : crowded.sess.backlog ≠ [] ∧
    sentCount crowded.sess.pending.entries = CALL_BUDGET := by
  have hb : crowded.sess.backlog ≠ [] := by decide +kernel
  exact ⟨hb, (waiting_calls_have_cause .plain "" true 1024 1024 4 4096 _ crowded rfl rfl).1
    rfl rfl hb⟩

end TruenasRos.Api
