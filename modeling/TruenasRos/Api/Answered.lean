import TruenasRos.Api.Concurrency

/-! # Every accepted call is answered

The callers still to be told are those of the live entries, so what was accepted is what was
reported and what is live. An answer to a call that waits in the backlog breaks the ledger: it
takes the call's entry away, and the fault that follows finds no entry to report.
-/

namespace TruenasRos.Api

open List Session TruenasRos.Ws Ordered Driver Pending

def liveCalls (entries : List (Id × Pending)) : List CallId :=
  (entries.filter (·.2.live)).map (·.2.call)

/-- What a function reports and leaves live is what was live before it. -/
def Settles (s : Session) (out : Session × List Act) : Prop :=
  (liveCalls s.pending.entries).Perm (reported out.2 ++ liveCalls out.1.pending.entries)

section Entries

variable {l₁ l₂ : List (Id × Pending)} {id : Id} {p : Pending} {o : Ordered Id Pending}

theorem liveCalls_middle : (liveCalls (l₁ ++ (id, p) :: l₂)).Perm
    ((if p.live then [p.call] else []) ++ liveCalls (l₁ ++ l₂)) := by
  cases h : p.live with
  | true =>
    simp only [liveCalls, filter_append, filter_cons, h, if_true, map_append,
      map_cons, singleton_append]
    exact perm_middle
  | false => exact .of_eq (by simp [liveCalls, h])

theorem liveCalls_remove (h : o.get id = some p) : (liveCalls o.entries).Perm
      ((if p.live then [p.call] else []) ++ liveCalls (o.remove id).entries) := by
  obtain ⟨l₁, l₂, he, hr, -, -⟩ := exists_split h
  rw [he, hr]
  exact liveCalls_middle

theorem liveCalls_insert {p' : Pending} (h : o.get id = some p)
    (hl : p'.live = p.live) (hc : p'.call = p.call) :
    (liveCalls o.entries).Perm (liveCalls (o.insert id p').entries) := by
  obtain ⟨l₁, l₂, he, -, hin, -⟩ := exists_split h
  have hn := @liveCalls_middle l₁ l₂ id p'
  rw [hl, hc, ← hin] at hn
  rw [he]
  exact liveCalls_middle.trans hn.symm

end Entries

section Functions

variable {c : Codec} {s : Session} {out : Session × List Act} {id : Id} {p : Pending}

theorem settles_of_drains {b : Backlog} (h : s.Drains b out) : Settles s out := by
  induction h with
  | stop => exact .refl _
  | stray _ _ ih => exact ih
  | @drop _ _ _ _ p _ hg hp _ ih =>
    have hl : p.live = false := by simp [live, hp]
    have hr := liveCalls_remove hg
    rw [hl] at hr
    exact hr.trans ih
  | @send _ _ _ _ p _ _ hg _ _ ih =>
    have hs : ({ p with sent := true } : Pending).live = p.live := rfl
    exact (liveCalls_insert hg hs rfl).trans ih

theorem reported_filterMap {entries : List (Id × Pending)} {f : Pending → Bool}
    {result : Except ApiError Bytes} : reported (entries.filterMap fun e =>
      if f e.2 = true then some (Act.CallDone e.2.call result) else none) =
      (entries.filter fun e => f e.2).map (·.2.call) := by
  induction entries with
  | nil => rfl
  | cons e entries ih =>
    cases h : f e.2 with
    | true => simpa [reported, h, Act.told] using ih
    | false => simpa [h] using ih

theorem settles_failAll (s : Session) (why : String) : Settles s (s.failAll why) := by
  have ht : reported (s.failAll why).2 = liveCalls s.pending.entries := reported_filterMap
  rw [Settles, ht]
  exact .of_eq (append_nil _).symm

theorem settles_failOutstanding (s : Session) (why : String) :
    Settles s (s.failOutstanding why) := by
  have ht : reported (s.failOutstanding why).2 = liveCalls s.pending.entries :=
    reported_filterMap
  have hn : liveCalls (s.failOutstanding why).1.pending.entries = [] := by
    rw [liveCalls, map_eq_nil_iff, filter_eq_nil_iff]
    intro e he
    obtain ⟨e', -, rfl⟩ := mem_map.1 he
    simp only
    split
    · simp [live]
    · assumption
  rw [Settles, ht, hn, append_nil]

theorem settles_timeOut (s : Session) (now : Instant) : Settles s (s.timeOut now) := by
  have ht : reported (s.timeOut now).2 =
      (s.pending.entries.filter fun e => dueAt now e.2).map (·.2.call) :=
    reported_filterMap
  have hd : ∀ p, dueAt now p = (expired now p && p.live) := by
    intro p
    cases hp : p.abandoned <;> simp [dueAt, expired, live, hp]
  have hk : liveCalls (s.timeOut now).1.pending.entries =
      ((s.pending.entries.filter (·.2.live)).filter fun e => !expired now e.2).map
        (·.2.call) := by
    rw [liveCalls, timeOut, mapValues, filter_map, map_map, filter_filter]
    congr 1
    · funext e
      simp only [Function.comp_apply]
      split <;> rfl
    · congr 1
      funext e
      simp only [Function.comp_apply]
      cases h : expired now e.2 <;> simp [live]
  have hs := filter_append_perm (fun e => expired now e.2)
    (s.pending.entries.filter (·.2.live))
  rw [filter_filter] at hs
  rw [Settles, ht, hk, ← map_append]
  simp only [hd]
  exact (hs.map _).symm

theorem settles_expire (s : Session) (now : Instant) (jitter : ℕ) :
    Settles s (s.expire c now jitter) := by
  have ht : ((s.timeOut now).1.tick c now jitter).pending = (s.timeOut now).1.pending := by
    obtain ⟨_, _, heq⟩ := (s.timeOut now).1.tick_frame c now jitter
    rw [heq]
  have hd := settles_of_drains ((s.timeOut now).1.tick c now jitter).drains
  rw [Settles, ht, reported_drainBacklog, nil_append] at hd
  rw [expire_eq, Settles, reported_append, reported_drainBacklog, append_nil]
  exact (settles_timeOut s now).trans (hd.append_left _)

theorem settles_settle (hg : s.pending.get id = some p) (refused : Bool) (oc : Outcome) :
    Settles s ((s.credit id refused).settle c p oc) := by
  have hd := settles_of_drains (s.credit id refused).drains
  refine (liveCalls_remove hg).trans ((hd.append_left _).trans ?_)
  obtain ⟨out, ho, heq⟩ := settle_reports c (s.credit id refused) p oc
  rw [heq, reported_append, reported_drainBacklog, nil_append]
  cases ho with
  | nothing hp | opens _ hp | fails hp =>
    have hl : p.live = false := by simp [live, hp]
    rw [hl]
    exact .refl _
  | @tells _ a ha hk ht =>
    have hl : p.live = true := by simp [live, ha, hk]
    have hr : reported [a] = [p.call] := by simp [reported, ht]
    rw [hl, hr]
    exact .refl _

/-- Whether an event answers a call that waits in the backlog and whose caller waits too. -/
def Session.Strands (c : Codec) (s : Session) (e : Event) : Prop :=
  s.phase ≠ .AwaitingHead ∧ ∃ id outcome p, s.answer c e = some (id, outcome) ∧ id ≠ .Null ∧
    s.pending.get id = some p ∧ p.sent = false ∧ p.live = true

theorem strands_onReply (oc : Outcome)
    (hg : s.pending.get id = some p) (hs : p.sent = false) (hl : p.live = true) :
    (liveCalls s.pending.entries).Perm (p.call :: (reported (s.onReply c id oc).2 ++
      liveCalls (s.onReply c id oc).1.pending.entries)) ∧
      ((s.onReply c id oc).2.findSome? (Act.fatal c)).isSome := by
  have heq : s.onReply c id oc = ({ s with pending := s.pending.remove id },
      [.Fault "answer for a call never sent"]) := by
    simp [onReply, hg, hs]
  have hr := liveCalls_remove hg
  rw [hl] at hr
  rw [heq]
  exact ⟨hr, rfl⟩

theorem settles_react {e : Event} (ho : s.Reacts c e out)
    (h : ¬ s.Strands c e) : Settles s out := by
  cases ho with
  | idle _ _ hq =>
    rw [Settles, reported_of_quiet hq]
    exact .refl _
  | @close _ acts _ _ body _ hq =>
    have hno : reported (.Send (.close body) :: acts) = [] :=
      show reported acts = [] from reported_of_quiet hq
    rw [Settles, hno]
    exact .refl _
  | fail => exact settles_failOutstanding s.whole Session.UNATTRIBUTED
  | @unsent _ id oc p hph ha hid hg hs =>
    have hd : p.live = false := by
      by_contra hl
      exact h ⟨hph, id, oc, p, ha, hid, hg, hs, eq_true_of_ne_false hl⟩
    have hr := liveCalls_remove hg
    rw [hd] at hr
    exact hr
  | @again _ id p frame _ hg =>
    obtain ⟨l₁, l₂, he, hr, -, hk⟩ := exists_split hg
    have hn : ((s.pending.remove id).insert id
        { p with sent := false, retries := p.retries + 1 }).entries =
          l₁ ++ l₂ ++ [(id, { p with sent := false, retries := p.retries + 1 })] := by
      rw [entries_insert_of_notMem (by rw [Ordered.keys, hr]; exact hk), hr]
    rw [Settles, reported_nil, nil_append, he]
    change (liveCalls _).Perm (liveCalls ((s.pending.remove id).insert id _).entries)
    rw [hn]
    refine liveCalls_middle.trans (.trans ?_ liveCalls_middle.symm)
    rw [append_nil]
    exact .refl _
  | settle _ _ _ hg => exact settles_settle (s := s.whole) hg _ _
  | expire now jitter => exact settles_expire s now jitter

end Functions

namespace Driver

variable {c : Codec} {lm : ℕ × ℕ × ℕ} {r : Driver}

/-- What was accepted is what was reported and what is live. -/
def Balanced (r : Driver) : Prop :=
  r.accepted.Perm (reported r.acts ++ liveCalls r.sess.pending.entries)

/-- A session that was failed has reported all that it accepted, but for the call that was
lost. -/
structure Ended (lost : Prop) (r : Driver) : Prop where
  empty : r.sess.pending.entries = []
  told : ¬ lost → r.accepted.Perm (reported r.acts)
  short : lost → ∃ call, r.accepted.Perm (call :: reported r.acts)

/-- The ledger of a run, where `lost` says whether a call was lost in it. -/
def Ledger (lost : Prop) (r : Driver) : Prop :=
  (r.failed = false ∧ ¬ lost ∧ Balanced r) ∨ (r.failed = true ∧ Ended lost r)

theorem reported_failAll (r : Driver) (why : String) : (reported (r.failAll why).acts).Perm
      (reported r.acts ++ liveCalls r.sess.pending.entries) := by
  have hs := settles_failAll r.sess why
  have hn : liveCalls (r.sess.failAll why).1.pending.entries = [] := rfl
  rw [Settles, hn, append_nil] at hs
  rw [failAll, reported_append]
  exact (hs.append_left _).symm

theorem ended_failAll (h : Balanced r) (why : String) : Ended False (r.failAll why) where
  empty := rfl
  told _ := h.trans (reported_failAll r why).symm
  short := False.elim

variable {out : Session × List Act}

theorem balanced_of_settles (h : Balanced r) (hs : Settles r.sess out) :
    Balanced { r with sess := out.1, acts := r.acts ++ out.2 } := by
  rw [Balanced, reported_append, append_assoc]
  exact h.trans (hs.append_left _)

theorem ledger_apply (h : Balanced r) (hf : r.failed = false) (hs : Settles r.sess out) :
    Ledger False (r.apply c out) := by
  have hb := balanced_of_settles h hs
  rcases apply_cases c r out with ⟨-, heq⟩ | ⟨why, -, heq⟩
  · rw [heq]
    exact .inl ⟨hf, id, hb⟩
  · rw [heq]
    exact .inr ⟨rfl, ended_failAll hb why⟩

theorem settles_onHead (hs : Sound c lm r) (hf : r.failed = false) (bytes : Bytes)
    (next : CallId) : Settles r.sess (r.sess.onHead c bytes next) := by
  have hb := (hs hf).books
  have hn : ∀ frame, liveCalls (r.sess.pending.entries ++
        [(c.mint r.sess.caller, r.sess.setupEntry next frame)]) =
      liveCalls r.sess.pending.entries := by
    simp [liveCalls, setupEntry, entry, live]
  rcases r.sess.onHead_cases c bytes next with
    ⟨phase, n, a, -, hq, -, heq⟩ | heq | ⟨frame, -, heq⟩ | ⟨frame, -, heq⟩
  · rw [heq, Settles, reported_singleton (told_of_quiet hq)]
    exact .refl _
  · rw [heq]
    exact .refl _
  · rw [heq, Settles, sentNow, inSetup, hb.entries_next, hn]
    exact .refl _
  · rw [heq, Settles, queuedNow, inSetup, hb.entries_next, hn]
    exact .refl _

theorem balanced_submit (h : Balanced r) (hs : Sound c lm r) (hf : r.failed = false)
    {kind : Kind} (hk : kind ≠ .SetOptions) (call : CallId) (method : String) (params : Bytes)
    (deadline : Option Instant) : Balanced (r.submit c call kind method params deadline) ∧
      (r.submit c call kind method params deadline).failed = false := by
  have hb := (hs hf).books
  have hn : ∀ frame, liveCalls (r.sess.pending.entries ++
      [(c.mint r.sess.caller, r.sess.entry call kind deadline frame)]) =
        liveCalls r.sess.pending.entries ++ [call] := by
    simp [liveCalls, entry, live, hk]
  have hg : (r.accepted ++ [call]).Perm
      (reported r.acts ++ (liveCalls r.sess.pending.entries ++ [call])) := by
    rw [← append_assoc]
    exact h.append_right _
  unfold submit
  rcases r.sess.submit_cases c call kind method params deadline with
    ⟨n, e, -, heq⟩ | ⟨frame, -, heq⟩ | ⟨frame, -, -, -, heq⟩
  · rw [heq]
    exact ⟨h, hf⟩
  · have hno : reported [Act.Send (.text (c.mint r.sess.caller) frame)] = [] := rfl
    rw [heq, Balanced]
    simp only [reported_append, hno, append_nil, sentNow, hb.entries_next, hn]
    exact ⟨hg, hf⟩
  · rw [heq, Balanced]
    simp only [append_nil, queuedNow, hb.entries_next, hn]
    exact ⟨hg, hf⟩

theorem ledger_step {lost : Prop} (h : Ledger lost r) (hsn : Sound c lm r) (e : Event) :
    Ledger (lost ∨ r.sess.Strands c e) (step c r e) := by
  rcases h with ⟨hfa, hl, h⟩ | ⟨hfa, h⟩
  · by_cases hst : r.sess.Strands c e
    · rw [eq_true (Or.inr hst)]
      obtain ⟨hph, id, oc, p, ha, hid, hg, hse, hli⟩ := hst
      rw [step_of_answer hfa hph ha hid]
      obtain ⟨hs, hft⟩ := strands_onReply (s := r.sess.whole) oc hg hse hli
      rcases apply_cases c r (r.sess.whole.onReply c id oc) with ⟨ho, -⟩ | ⟨why, -, heq⟩
      · rw [ho] at hft
        cases hft
      · rw [heq]
        refine .inr ⟨rfl, rfl, fun hn => absurd trivial hn, fun _ => ⟨p.call, ?_⟩⟩
        refine h.trans ((hs.append_left _).trans (perm_middle.trans (.cons p.call ?_)))
        refine .trans ?_ (reported_failAll _ why).symm
        rw [reported_append, append_assoc]
    · rw [eq_false (not_or.2 ⟨hl, hst⟩)]
      apply step_rule hfa
      · exact .inl ⟨hfa, id, h⟩
      · exact fun out ho => ledger_apply h hfa (settles_react ho hst)
      · intro bytes next _
        have hb : Balanced { r with
            submitted := r.submitted ++ (r.sess.onHead c bytes next).1.pending.keys } := h
        exact ledger_apply hb hfa (settles_onHead hsn hfa bytes next)
      · intro call kind method params deadline _ hk
        obtain ⟨hb, hf⟩ :=
          balanced_submit h hsn hfa hk call method params deadline
        exact .inl ⟨hf, id, hb⟩
      · exact fun reason => .inr ⟨rfl, ended_failAll h _⟩
  · have hn : ¬ r.sess.Strands c e := by
      rintro ⟨-, id, oc, p, -, -, hg, -, -⟩
      have hmem := mem_of_get hg
      rw [h.empty] at hmem
      cases hmem
    rw [step_of_failed hfa, or_iff_left hn]
    exact .inr ⟨hfa, h⟩

end Driver

/-- How often each request was put on the wire: once, and once more for each refusal. -/
structure Counted (s : Session) (wire : List Id) : Prop where
  entries : ∀ e ∈ s.pending.entries, e.2.retries ≤ MAX_CALL_RETRIES ∧
    wire.count e.1 = e.2.retries + if e.2.sent then 1 else 0
  total : ∀ id, wire.count id ≤ MAX_CALL_RETRIES + 1

namespace Counted

variable {c : Codec} {lm : ℕ × ℕ × ℕ} {s s' : Session} {wire sb : List Id}

section

variable (h : Counted s wire) {out : Session × List Act}
include h

theorem mono (hs : ∀ e ∈ s'.pending.entries, ∃ e' ∈ s.pending.entries,
      e'.1 = e.1 ∧ e'.2.retries = e.2.retries ∧ e'.2.sent = e.2.sent) : Counted s' wire where
  entries e he := by
    obtain ⟨e', he', hid, hr, hse⟩ := hs e he
    rw [← hid, ← hr, ← hse]
    exact h.entries e' he'
  total := h.total

theorem of_subset (hs : ∀ e ∈ s'.pending.entries, e ∈ s.pending.entries) : Counted s' wire :=
  h.mono fun e he => ⟨e, hs e he, rfl, rfl, rfl⟩

theorem concat {id : Id} (hid : wire.count id ≤ MAX_CALL_RETRIES)
    (hs : ∀ e ∈ s'.pending.entries, e ∈ s.pending.entries ∧ e.1 ≠ id ∨
      e.1 = id ∧ e.2.sent = true ∧ e.2.retries = wire.count id) : Counted s' (wire ++ [id]) where
  entries e he := by
    rw [count_append, count_singleton]
    rcases hs e he with ⟨he, hne⟩ | ⟨rfl, hse, hr⟩
    · rw [if_neg (by simpa using hne.symm)]
      exact h.entries e he
    · simp [hse, hr, hid]
  total id' := by
    have ht := h.total id'
    rw [count_append, count_singleton]
    split
    · rename_i heq
      obtain rfl : id = id' := by simpa using heq
      omega
    · omega

theorem drained {b : Backlog}
    (hb : Books c { s with backlog := b } wire sb) (hd : s.Drains b out) :
    Counted out.1 (wire ++ requests out.2) := by
  induction hd generalizing wire with
  | stop =>
    rw [requests_nil, append_nil]
    exact h.of_subset fun e he => he
  | stray hg =>
    obtain ⟨p, hp, -⟩ := hb.get_front rfl
    rw [hg] at hp
    cases hp
  | drop hg _ _ ih => exact ih (h.of_subset fun e he => mem_of_mem_filter he) (hb.drop rfl hg)
  | @send s id frame _ p _ hbu hg _ _ ih =>
    obtain ⟨q, hq, hu⟩ := hb.get_front rfl
    obtain rfl : q = p := Option.some_inj.1 (hq.symm.trans hg)
    obtain ⟨l₁, l₂, hen, -, hin, hk⟩ := exists_split hg
    obtain ⟨hm, hc⟩ : q.retries ≤ MAX_CALL_RETRIES ∧ _ :=
      h.entries (id, q) (mem_of_get hg)
    simp only [hu, Bool.false_eq_true, if_false, add_zero] at hc
    have hn : Counted (s.launched id frame q) (wire ++ [id]) := by
      refine h.concat (hc.trans_le hm) fun e he => ?_
      rw [launched, hin, mem_append, mem_cons, or_left_comm, ← mem_append] at he
      rcases he with rfl | he
      · exact .inr ⟨rfl, rfl, hc.symm⟩
      · refine .inl ⟨?_, fun heq => hk (heq ▸ mem_map_of_mem he)⟩
        rw [hen]
        rw [mem_append] at he ⊢
        exact he.imp_right (mem_cons_of_mem _)
    have ho := ih hn (hb.launch rfl hbu hg)
    rw [append_assoc] at ho
    exact ho

section

variable (hb : Books c s wire sb)
include hb

theorem settle {id : Id} {p : Pending}
    (hg : s.pending.get id = some p) (hs : p.sent = true) (refused : Bool) (oc : Outcome) :
    Counted ((s.credit id refused).settle c p oc).1
      (wire ++ requests ((s.credit id refused).settle c p oc).2) := by
  have hc : Counted (s.credit id refused) wire :=
    h.of_subset fun e he => mem_of_mem_filter he
  have hd := hc.drained (hb.credit hg hs refused) (drains _)
  obtain ⟨out, ho, heq⟩ := settle_reports c (s.credit id refused) p oc
  rw [heq, requests_append, ho.requests, append_nil]
  cases ho <;> exact hd.of_subset fun e he => he

theorem expire (now : Instant) (jitter : ℕ) :
    Counted (s.expire c now jitter).1 (wire ++ requests (s.expire c now jitter).2) := by
  obtain ⟨armed, ends, ht⟩ := (s.timeOut now).1.tick_frame c now jitter
  have hc : Counted ((s.timeOut now).1.tick c now jitter) wire := by
    rw [ht]
    refine h.mono fun e he => ?_
    obtain ⟨e', he', rfl⟩ := mem_map.1 he
    refine ⟨e', he', rfl, ?_, ?_⟩ <;> (simp only; split <;> rfl)
  have hb' : Books c ((s.timeOut now).1.tick c now jitter) wire sb := by
    rw [ht]
    exact (hb.timeOut now).congr le_rfl
  rw [expire_eq, requests_append, requests_timeOut, nil_append]
  exact hc.drained hb' (drains _)

theorem react {e : Event} (ho : s.Reacts c e out) : Counted out.1 (wire ++ requests out.2) := by
  have hw : Counted s.whole wire := h.of_subset fun e he => he
  cases ho with
  | idle _ _ hq =>
    rw [requests_of_quiet hq, append_nil]
    exact h.of_subset fun e he => he
  | close _ _ _ _ hq =>
    rw [requests_close hq, append_nil]
    exact h.of_subset fun e he => he
  | fail =>
    rw [requests_serverError, append_nil]
    refine h.mono fun e he => ?_
    obtain ⟨e', he', rfl⟩ := mem_map.1 he
    refine ⟨e', mem_of_mem_filter he', rfl, ?_, ?_⟩ <;> (simp only; split <;> rfl)
  | unsent =>
    rw [requests_singleton rfl, append_nil]
    exact h.of_subset fun e he => mem_of_mem_filter he
  | @again _ id p _ _ hg hs hr =>
    obtain ⟨-, hrt, -⟩ := retryFrame_eq_some hr
    obtain ⟨-, hc⟩ := h.entries (id, p) (mem_of_get hg)
    rw [requests_nil, append_nil]
    refine ⟨fun e he => ?_, h.total⟩
    rcases mem_insert he with rfl | he
    · simp only [hs, if_true] at hc
      exact ⟨hrt, hc⟩
    · exact h.entries e (mem_of_mem_filter he)
  | settle _ _ _ hg hs =>
    have hb' : Books c s.whole wire sb := hb.congr le_rfl
    exact hw.settle hb' hg hs _ _
  | expire now jitter => exact h.expire hb now jitter

end

end

variable {p : Pending}

theorem count_next (hb : Books c s wire sb) : wire.count (c.mint s.caller) = 0 :=
  count_eq_zero.2 fun hmem => hb.next_notMem (hb.mem_submitted hmem)

theorem sentNow (h : Counted s wire) (hb : Books c s wire sb) (hs : p.sent = true)
    (hr : p.retries = 0) : Counted (s.sentNow c p) (wire ++ [c.mint s.caller]) := by
  have hz := count_next hb
  refine h.concat (hz.trans_le (Nat.zero_le _)) fun e he => ?_
  rw [Session.sentNow, hb.entries_next] at he
  rcases mem_append.1 he with he | he
  · exact .inl ⟨he, fun heq => hb.next_notMem (heq ▸ hb.known e he)⟩
  · rw [mem_singleton.1 he]
    exact .inr ⟨rfl, hs, hr.trans hz.symm⟩

theorem queuedNow (h : Counted s wire) (hb : Books c s wire sb) {frame : Bytes}
    (hs : p.sent = false) (hr : p.retries = 0) : Counted (s.queuedNow c p frame) wire := by
  refine ⟨fun e he => ?_, h.total⟩
  rw [Session.queuedNow, hb.entries_next] at he
  rcases mem_append.1 he with he | he
  · exact h.entries e he
  · rw [mem_singleton.1 he]
    simp [hs, hr, count_next hb]

theorem onHead (h : Counted s wire) (hb : Books c s wire sb) (head : Bytes) (next : CallId) :
    Counted (s.onHead c head next).1 (wire ++ requests (s.onHead c head next).2) := by
  have h' : Counted s.inSetup wire := h.of_subset fun e he => he
  have hb' : Books c s.inSetup wire sb := hb.congr le_rfl
  rcases s.onHead_cases c head next with
    ⟨phase, n, a, -, hq, -, heq⟩ | heq | ⟨frame, hs, heq⟩ | ⟨frame, hs, heq⟩
  · rw [heq, requests_singleton (request_of_quiet hq), append_nil]
    exact h.of_subset fun e he => he
  · rw [heq, requests_singleton rfl, append_nil]
    exact h.of_subset fun e he => he
  · rw [heq]
    exact h'.sentNow hb' hs rfl
  · rw [heq, requests_nil, append_nil]
    exact h'.queuedNow hb' hs rfl

end Counted

namespace Driver

variable {c : Codec} {lm : ℕ × ℕ × ℕ} {r r₀ : Driver}

/-- The requests of a run are counted, whether or not the session was failed. -/
def Tallied (r : Driver) : Prop := Counted r.sess (requests r.acts)

theorem tallied_failAll (h : Tallied r) (why : String) : Tallied (r.failAll why) := by
  rw [Tallied, failAll, requests_append, requests_failAll, append_nil]
  exact ⟨nofun, h.total⟩

theorem tallied_apply {out : Session × List Act}
    (h : Counted out.1 (requests r.acts ++ requests out.2)) : Tallied (r.apply c out) := by
  have hn : Tallied { r with sess := out.1, acts := r.acts ++ out.2 } := by
    rw [Tallied, requests_append]
    exact h
  rcases apply_cases c r out with ⟨-, heq⟩ | ⟨why, -, heq⟩
  · rw [heq]
    exact hn
  · rw [heq]
    exact tallied_failAll hn why

theorem tallied_step (h : Tallied r) (hsn : Sound c lm r) (e : Event) : Tallied (step c r e) := by
  cases hf : r.failed with
  | true =>
    rw [step_of_failed hf]
    exact h
  | false =>
    have hb := (hsn hf).books
    apply step_rule hf h
    · exact fun out ho => tallied_apply (h.react hb ho)
    · exact fun bytes next _ => tallied_apply (h.onHead hb bytes next)
    · intro call kind method params deadline _ _
      unfold submit
      rcases r.sess.submit_cases c call kind method params deadline with
        ⟨n, e, -, heq⟩ | ⟨frame, hs, heq⟩ | ⟨frame, hs, -, -, heq⟩
      · rw [heq]
        exact h.of_subset fun e he => he
      · rw [heq, Tallied, requests_append]
        exact h.sentNow hb hs rfl
      · rw [heq, Tallied]
        simp only [append_nil]
        exact h.queuedNow hb hs rfl
    · exact fun reason => tallied_failAll h _

/-- Whether some event of a run strands a call. -/
def Lost (c : Codec) (r₀ : Driver) (es : List Event) : Prop :=
  ∃ es₁ e es₂, es = es₁ ++ e :: es₂ ∧ (run c r₀ es₁).sess.Strands c e

theorem lost_nil : ¬ Lost c r₀ [] := by
  rintro ⟨es₁, e, es₂, heq, -⟩
  simp at heq

theorem lost_concat {es : List Event} {e : Event} :
    Lost c r₀ (es ++ [e]) ↔ Lost c r₀ es ∨ (run c r₀ es).sess.Strands c e := by
  constructor
  · rintro ⟨es₁, e', es₂, heq, hs⟩
    rcases eq_nil_or_concat es₂ with rfl | ⟨es₃, e'', rfl⟩
    · obtain ⟨rfl, rfl⟩ := append_singleton_inj.1 heq
      exact .inr hs
    · rw [concat_eq_append, ← cons_append, ← append_assoc] at heq
      exact .inl ⟨es₁, e', es₃, (append_singleton_inj.1 heq).1, hs⟩
  · rintro (⟨es₁, e', es₂, rfl, hs⟩ | hs)
    · exact ⟨es₁, e', es₂ ++ [e], by simp, hs⟩
    · exact ⟨es, e, [], rfl, hs⟩

section

variable (hs : Sound c lm r₀)
include hs

theorem ledger_run (h : Ledger (Lost c r₀ []) r₀) (es : List Event) :
    Ledger (Lost c r₀ es) (run c r₀ es) := by
  induction es using reverseRecOn with
  | nil => exact h
  | append_singleton es e ih =>
    rw [run_concat, propext lost_concat]
    exact ledger_step ih (sound_run hs es) e

theorem tallied_run (h : Tallied r₀) (es : List Event) : Tallied (run c r₀ es) :=
  (run_induction (P := fun r => Sound c lm r ∧ Tallied r) ⟨hs, h⟩
    (fun _ e h => ⟨sound_step h.1 e, tallied_step h.2 h.1 e⟩) es).2

end

end Driver

section Run

variable (c : Codec) (key : String) (legacy : Bool)
  (max_outbound max_inbound max_queued max_queued_bytes : ℕ)

/-- No call is reported more often than it was accepted and none is sent more often than its
retries allow; and once everything was failed each was reported as often as it was accepted,
exactly when no answer named a call that waited in the backlog. -/
theorem accepted_calls_answered_iff (es : List Event) (r₀ r : Driver)
    (hr₀ : r₀ = .start key legacy max_outbound max_inbound max_queued max_queued_bytes)
    (hr : r = run c r₀ es) : (∀ call, (reported r.acts).count call ≤ r.accepted.count call) ∧
      (∀ id, (requests r.acts).count id ≤ 1 + MAX_CALL_RETRIES) ∧
      (r.failed = true →
        ((∀ call ∈ r.accepted, (reported r.acts).count call = r.accepted.count call) ↔
          ∀ es₁ e es₂, es = es₁ ++ e :: es₂ → ¬ (run c r₀ es₁).sess.Strands c e)) := by
  have hs₀ := sound_start c key legacy max_outbound max_inbound max_queued max_queued_bytes
  rw [← hr₀] at hs₀
  have hle := ledger_run hs₀ (by rw [hr₀]; exact .inl ⟨rfl, lost_nil, .refl _⟩) es
  have ht := tallied_run hs₀ (by rw [hr₀]; exact ⟨nofun, fun _ => Nat.zero_le _⟩) es
  rw [← hr] at hle ht
  refine ⟨fun call => ?_, fun id => Nat.add_comm _ _ ▸ ht.total id, fun hf => ?_⟩
  · rcases hle with ⟨-, -, hb⟩ | ⟨-, he⟩
    · rw [hb.count_eq, count_append]
      exact Nat.le_add_right _ _
    · by_cases hl : Driver.Lost c r₀ es
      · obtain ⟨lost, hpe⟩ := he.short hl
        rw [hpe.count_eq, count_cons]
        exact Nat.le_add_right _ _
      · rw [(he.told hl).count_eq]
  · have he : Driver.Ended (Driver.Lost c r₀ es) r := by
      rcases hle with ⟨hli, -, -⟩ | ⟨-, he⟩
      · rw [hf] at hli
        cases hli
      · exact he
    constructor
    · intro hall es₁ e es₂ hes hs
      obtain ⟨call, hpe⟩ := he.short ⟨es₁, e, es₂, hes, hs⟩
      have hc := hall call (hpe.mem_iff.2 mem_cons_self)
      rw [hpe.count_eq, count_cons_self] at hc
      omega
    · intro hn call _
      have hk : ¬ Driver.Lost c r₀ es := by
        rintro ⟨es₁, e, es₂, hes, hs⟩
        exact hn es₁ e es₂ hes hs
      rw [(he.told hk).count_eq]

end Run

/-- Nine calls are accepted, the ninth waits in the backlog, and the peer answers it. -/
def answerToQueuedCall : List Event :=
  .head [] 0 :: (List.range 9).map (fun call => .submit call .User "m" [] none) ++
    [.frame true .Text [0, 8]]

/-- The call that waited in the backlog is never reported. -/
theorem queued_call_stranded :
    let r := run .plain (.start "" true 1024 1024 4 4096) answerToQueuedCall
    r.failed = true ∧ r.accepted = range 9 ∧ reported r.acts = range 8 := by
  decide +kernel

/-- A call that was refused and then timed out went out no more often than its retries allow. -/
theorem refused_call_reported :
    let es : List Event := [.head [] 0, .submit 5 .User "m" [] (some 7),
      .frame true .Text [1, 0], .expire 9 0, .closed "Eof"]
    let r := run .plain (.start "" true 1024 1024 4 4096) es
    r.failed = true ∧ r.accepted = [5] ∧
      ∀ id, (requests r.acts).count id ≤ 1 + MAX_CALL_RETRIES := by
  refine ⟨rfl, rfl, ?_⟩
  exact (accepted_calls_answered_iff .plain "" true 1024 1024 4 4096
    [.head [] 0, .submit 5 .User "m" [] (some 7), .frame true .Text [1, 0], .expire 9 0,
      .closed "Eof"] _ _ rfl rfl).2.1

end TruenasRos.Api
