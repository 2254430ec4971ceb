import TruenasRos.Http.Machine

/-! # Stage order and the interim line

A handler that keeps a log, together with the replies and the workers' answers,
gives the history of a streamed request. Its deliveries come in the order of the
stages, and the interim line goes out once, when the opening is accepted.
-/

namespace TruenasRos.Http

open List Protocol Nat

/-- What happens in the course of a request. -/
inductive Mark
  | saw (redriven : Bool) (seen : Seen)
  | resumed
  | sent (r : Response)
  deriving DecidableEq

/-- Deliveries made in one event, of which the first may be redriven. -/
def tagged (redriven : Bool) : List Seen → List Mark
  | [] => []
  | seen :: ss => .saw redriven seen :: ss.map (.saw false)

def deliveries : Option (Option ParkAnswer) → List Seen → List Mark
  | some none, ss => tagged true ss
  | some (some .resume), ss => .resumed :: tagged false ss
  | _, ss => tagged false ss

def marks (a : Option (Option ParkAnswer)) (ss : List Seen) : Option Response → List Mark
  | none => tagged false ss
  | some r => deliveries a ss ++ [.sent r]

def Phase.isHead : Phase → Bool
  | .head => true
  | _ => false

section

variable {U : Type*}

def logged (handler : Handler U) : Handler (U × List Seen) := fun req s =>
  let (v, u) := handler req s.1
  (v, (u, s.2 ++ [⟨req.stage, v.ruling⟩]))

theorem log_of_calls {handler : Handler U} {s s' : U × List Seen} {ss : List Seen}
    (h : Calls (logged handler) s ss s') : s'.2 = s.2 ++ ss := by
  induction h with
  | nil u => exact (append_nil _).symm
  | cons req _ ih =>
    rw [ih]
    simp [logged]

def Event.logged : Event U → Event (U × List Seen)
  | .recv bytes => .recv bytes
  | .pump handler env owned => .pump (Http.logged handler) env owned
  | .body handler env owned => .body (Http.logged handler) env owned
  | .answer said handler env => .answer said (Http.logged handler) env
  | .hangup => .hangup

def Sys.clear (sys : Sys (U × List Seen)) : Sys (U × List Seen) :=
  { sys with conn := { sys.conn with state := (sys.conn.state.1, []) } }

/-- The history of the request under way: all that happens until the connection is back in
`head`. -/
def Sys.serve (hp : Httparse) (cfg : HttpConfig) (max_request_bytes : ℕ) :
    Sys (U × List Seen) → List (Event U) → List Mark
  | _, [] => []
  | sys, e :: events =>
    let out := sys.clear.next hp cfg max_request_bytes e.logged
    marks e.answer? out.1.conn.state.2 out.2 ++
      if out.1.conn.phase.isHead then [] else Sys.serve hp cfg max_request_bytes out.1 events

end

section

variable (expect : Bool) (tr : List Mark)

def freshStages : List Stage :=
  tr.filterMap fun
    | .saw false seen => some seen.stage
    | _ => none

def lastSeen : Option Seen → List Mark → Option Seen
  | prev, [] => prev
  | _, .saw _ seen :: tr => lastSeen (some seen) tr
  | prev, .resumed :: tr => lastSeen prev tr
  | prev, .sent _ :: tr => lastSeen prev tr

/-- Every redriven delivery repeats the one before, which was parked. -/
def Redrives : Option Seen → List Mark → Prop
  | _, [] => True
  | prev, .saw redriven seen :: tr =>
    (redriven = true → prev = some ⟨seen.stage, .parks⟩) ∧ Redrives (some seen) tr
  | prev, .resumed :: tr => Redrives prev tr
  | prev, .sent _ :: tr => Redrives prev tr

/-- An opening that was parked or refused so far, and no interim line. -/
def Unopened : Prop :=
  ∀ m ∈ tr, m ≠ .resumed ∧ m ≠ .sent (interim true) ∧
    ∀ redriven seen, m = .saw redriven seen → seen.stage = .opening ∧ seen.ruling ≠ .proceeds

/-- What follows the opening: windows and the end, and no interim line. -/
def InFlow : Prop :=
  ∀ m ∈ tr, m ≠ .sent (interim true) ∧
    ∀ redriven seen, m = .saw redriven seen → seen.stage = .window ∨ seen.stage = .fin

/-- An opening that was accepted, by the handler or by a worker, and answered at once. -/
def Opened : Prop :=
  ∃ before accept after, tr = before ++ accept :: .sent (interim expect) :: after ∧
    Unopened before ∧ InFlow after ∧
      (accept = .resumed ∨ ∃ redriven, accept = .saw redriven ⟨.opening, .proceeds⟩)

/-- The discipline of a streamed request. -/
structure Disciplined : Prop where
  order : freshStages tr = [] ∨ ∃ n k, k ≤ 1 ∧
    freshStages tr = .opening :: (replicate n .window ++ replicate k .fin)
  redriven : Redrives none tr
  interim : Unopened tr ∨ Opened expect tr

/-- The opening is parked. -/
structure Opening : Prop where
  order : freshStages tr = [.opening]
  redriven : Redrives none tr
  unopened : Unopened tr

/-- The opening was accepted; `k` ends were delivered. -/
structure Flowing (k : ℕ) (tr : List Mark) : Prop where
  order : ∃ n, freshStages tr = .opening :: (replicate n .window ++ replicate k .fin)
  redriven : Redrives none tr
  opened : Opened expect tr

/-- What a phase says of the history of a request whose head expects `expect`. -/
def Course : Phase → Prop
  | .head => Disciplined expect tr
  | .fail _ _ => Disciplined expect tr
  | .streamOpen _ expect' _ => tr = [] ∧ expect' = expect
  | .streamKnown _ _ => Flowing expect 0 tr
  | .streamBody _ _ _ _ => Flowing expect 0 tr
  | .streamDone _ _ => Flowing expect 0 tr
  | .parked req none =>
    req.stage = .fin ∧ lastSeen none tr = some ⟨.fin, .parks⟩ ∧ Flowing expect 1 tr
  | .parked req (some park) =>
    lastSeen none tr = some ⟨req.stage, .parks⟩ ∧
      (req.stage = .opening ∧ park.expect_interim = expect ∧ park.next.isDone = false ∧ Opening tr ∨
        req.stage = .window ∧ park.expect_interim = false ∧ Flowing expect 0 tr)
  | _ => False

end

section

variable {ex again : Bool} {tr ms : List Mark} {prev : Option Seen}

theorem freshStages_append : freshStages (tr ++ ms) = freshStages tr ++ freshStages ms :=
  filterMap_append

theorem lastSeen_append : lastSeen prev (tr ++ ms) = lastSeen (lastSeen prev tr) ms := by
  induction tr generalizing prev with
  | nil => rfl
  | cons m tr ih => cases m <;> exact ih

theorem redrives_append :
    Redrives prev (tr ++ ms) ↔ Redrives prev tr ∧ Redrives (lastSeen prev tr) ms := by
  induction tr generalizing prev with
  | nil => simp [Redrives, lastSeen]
  | cons m tr ih =>
    cases m with
    | saw redriven seen => simp [Redrives, lastSeen, ih, and_assoc]
    | resumed => exact ih
    | sent r => exact ih

theorem Unopened.append (h : Unopened tr) (h' : Unopened ms) : Unopened (tr ++ ms) := by
  exact forall_mem_append.2 ⟨h, h'⟩

theorem Opened.append (h : Opened ex tr) (h' : InFlow ms) : Opened ex (tr ++ ms) := by
  obtain ⟨before, accept, after, rfl, hb, ha, hap⟩ := h
  refine ⟨before, accept, after ++ ms, ?_, hb, ?_, hap⟩
  · simp
  · exact forall_mem_append.2 ⟨ha, h'⟩

end

variable {ex again : Bool} {tr ms : List Mark} {k : ℕ}

theorem Flowing.disciplined (h : Flowing ex k tr) (hk : k ≤ 1) : Disciplined ex tr := by
  obtain ⟨n, hn⟩ := h.order
  exact ⟨.inr ⟨n, k, hk, hn⟩, h.redriven, .inr h.opened⟩

theorem Opening.disciplined (h : Opening tr) : Disciplined ex tr :=
  ⟨.inr ⟨0, 0, zero_le _, h.order⟩, h.redriven, .inl h.unopened⟩

theorem Course.disciplined {ph : Phase} (h : Course ex tr ph) : Disciplined ex tr := by
  cases ph with
  | head => exact h
  | fail _ _ => exact h
  | streamOpen _ _ _ =>
    obtain ⟨rfl, -⟩ := h
    exact ⟨.inl rfl, trivial, .inl nofun⟩
  | streamKnown _ _ | streamBody _ _ _ _ | streamDone _ _ =>
    exact Flowing.disciplined h (zero_le _)
  | parked req resume =>
    cases resume with
    | none => exact h.2.2.disciplined le_rfl
    | some park =>
      rcases h.2 with ⟨-, -, -, ho⟩ | ⟨-, -, hf⟩
      · exact ho.disciplined
      · exact hf.disciplined (zero_le _)
  | _ => exact h.elim

theorem Flowing.append {k' n : ℕ} (h : Flowing ex k tr) (hf : InFlow ms)
    (hr : Redrives (lastSeen none tr) ms)
    (hfr : replicate k .fin ++ freshStages ms =
      replicate n .window ++ replicate k' .fin) : Flowing ex k' (tr ++ ms) where
  order := by
    obtain ⟨m, hm⟩ := h.order
    refine ⟨m + n, ?_⟩
    rw [freshStages_append, hm, cons_append, append_assoc, hfr, replicate_add, append_assoc]
  redriven := redrives_append.2 ⟨h.redriven, hr⟩
  opened := h.opened.append hf

theorem inFlow_nil : InFlow [] := nofun

theorem inFlow_sent {r : Response} (hr : r ≠ interim true) (h : InFlow ms) :
    InFlow (.sent r :: ms) := by
  exact forall_mem_cons.2 ⟨by simpa using hr, h⟩

theorem inFlow_saw {seen : Seen} (hs : seen.stage = .window ∨ seen.stage = .fin)
    (h : InFlow ms) : InFlow (.saw again seen :: ms) := by
  exact forall_mem_cons.2 ⟨by simpa using hs, h⟩

variable {head : Bytes} {park : StreamPark} {ss : List Seen} {r : Response} {ph : Phase}

theorem ne_interim_of_isClosing (h : r.isClosing) : r ≠ interim true :=
  (Response.isFinal_of_isClosing h).2 true

theorem course_of_last (h : Flowing ex k tr) (hk : k = again.toNat)
    (ha : again = true → lastSeen none tr = some ⟨.fin, .parks⟩) (hl : Last head .fin ss r ph) :
    Course ex (tr ++ (tagged again ss ++ [.sent r])) ph := by
  subst hk
  cases hl with
  | refused hr =>
    refine Flowing.disciplined (k := again.toNat) (h.append (n := 0)
      (inFlow_sent (ne_interim_of_isClosing hr) inFlow_nil) trivial ?_) (Bool.toNat_le _)
    exact append_nil _
  | answered hr =>
    refine Flowing.disciplined (h.append (n := 0)
      (inFlow_saw (.inr rfl) (inFlow_sent (hr.2 true) inFlow_nil)) ⟨ha, trivial⟩ ?_) le_rfl
    cases again <;> rfl
  | parked _ hs _ =>
    refine ⟨hs, ?_, h.append (n := 0)
      (inFlow_saw (.inr rfl) (inFlow_sent nofun inFlow_nil)) ⟨ha, trivial⟩ ?_⟩
    · rw [lastSeen_append]
      rfl
    · cases again <;> rfl

theorem course_toPhase {next : ResumePhase} (hd : next.isDone = false)
    (h : Flowing ex 0 tr) : Course ex tr next.toPhase := by
  cases next with
  | streamDone _ _ => exact nomatch hd
  | _ => exact h

theorem course_of_resumes (h : Flowing ex 0 tr) (he : park.expect_interim = false)
    (hr : Resumes head park ss r ph) : Course ex (tr ++ (tagged false ss ++ [.sent r])) ph := by
  cases hr with
  | body hd =>
    exact course_toPhase hd
      (h.append (n := 0) (inFlow_sent (by rw [he]; decide) inFlow_nil) trivial rfl)
  | fin _ hl => exact course_of_last h rfl nofun hl

theorem course_of_window (h : Flowing ex 0 tr) (he : park.expect_interim = false)
    (ha : again = true → lastSeen none tr = some ⟨.window, .parks⟩)
    (ht : Then head .window (some park) (Resumes head park) ss r ph) :
    Course ex (tr ++ (tagged again ss ++ [.sent r])) ph := by
  have hf : ∃ n, replicate 0 .fin ++ freshStages [.saw again ⟨.window, .proceeds⟩] =
      replicate n .window ++ replicate 0 .fin := ⟨(!again).toNat, by cases again <;> rfl⟩
  obtain ⟨n, hn⟩ := hf
  cases ht with
  | refused hr =>
    exact Flowing.disciplined (h.append (n := 0)
      (inFlow_sent (ne_interim_of_isClosing hr) inFlow_nil) trivial rfl) (zero_le _)
  | answered hr _ =>
    exact Flowing.disciplined (h.append
      (inFlow_saw (.inl rfl) (inFlow_sent (hr.2 true) inFlow_nil)) ⟨ha, trivial⟩
      (by rw [← hn]; cases again <;> rfl)) (zero_le _)
  | parked _ hs _ =>
    refine ⟨?_, .inr ⟨hs, he, h.append
      (inFlow_saw (.inl rfl) (inFlow_sent nofun inFlow_nil)) ⟨ha, trivial⟩
      (by rw [← hn]; cases again <;> rfl)⟩⟩
    rw [lastSeen_append, hs]
    rfl
  | @proceeds ss r _ hres =>
    have hse : Flowing ex 0 (tr ++ [.saw again ⟨.window, .proceeds⟩]) :=
      h.append (inFlow_saw (.inl rfl) inFlow_nil) ⟨ha, trivial⟩ hn
    have hc := course_of_resumes hse he hres
    rw [append_assoc] at hc
    cases ss <;> exact hc

theorem unopened_saw {ruling : Ruling} (hru : ruling ≠ .proceeds) (hr : r ≠ interim true) :
    Unopened [.saw again ⟨.opening, ruling⟩, .sent r] := by
  simp [Unopened, hru, hr]

theorem unopened_sent (hr : r ≠ interim true) : Unopened [.sent r] := by
  simp [Unopened, hr]

theorem flowing_of_opens {accept : Mark} (hr : Redrives none (tr ++ [accept]))
    (hu : Unopened tr) (ho : freshStages (tr ++ [accept]) = [.opening])
    (ha : accept = .resumed ∨ ∃ redriven, accept = .saw redriven ⟨.opening, .proceeds⟩) :
    Flowing ex 0 (tr ++ [accept, .sent (interim ex)]) := by
  have hs : tr ++ [accept, .sent (interim ex)] = tr ++ [accept] ++ [.sent (interim ex)] := by
    rw [append_assoc]
    rfl
  refine ⟨⟨0, ?_⟩, ?_, tr, accept, [], rfl, hu, inFlow_nil, ha⟩
  · rw [hs, freshStages_append, ho]
    rfl
  · rw [hs]
    exact redrives_append.2 ⟨hr, trivial⟩

theorem course_of_opening (hred : Redrives none tr) (hu : Unopened tr)
    (ho : freshStages tr = if again then [.opening] else [])
    (ha : again = true → lastSeen none tr = some ⟨.opening, .parks⟩)
    (hep : park.expect_interim = ex) (hd : park.next.isDone = false)
    (ht : Then head .opening (some park) (Resumes head park) ss r ph) :
    Course ex (tr ++ (tagged again ss ++ [.sent r])) ph := by
  have hred' : ∀ seen ms, seen.stage = .opening → Redrives (some seen) ms →
      Redrives none (tr ++ .saw again seen :: ms) := fun seen ms hs hm =>
    redrives_append.2 ⟨hred, fun h => by rw [ha h, hs], hm⟩
  have hf : ∀ seen ms, seen.stage = .opening → freshStages ms = [] →
      freshStages (tr ++ .saw again seen :: ms) = [.opening] := by
    intro seen ms hs hm
    rw [freshStages_append, ho, show Mark.saw again seen :: ms = [.saw again seen] ++ ms from rfl,
      freshStages_append, hm]
    cases again <;> simp [freshStages, hs]
  have hop : ∀ ruling r, ruling ≠ Ruling.proceeds → r ≠ interim true →
      Opening (tr ++ [.saw again ⟨.opening, ruling⟩, .sent r]) := fun ruling r hru hr =>
    ⟨hf _ _ rfl rfl, hred' _ _ rfl trivial, hu.append (unopened_saw hru hr)⟩
  cases ht with
  | refused hr =>
    refine ⟨?_, redrives_append.2 ⟨hred, trivial⟩,
      .inl (hu.append (unopened_sent (ne_interim_of_isClosing hr)))⟩
    rw [freshStages_append, ho]
    cases again
    · exact .inl rfl
    · exact .inr ⟨0, 0, zero_le _, rfl⟩
  | answered hr hmid =>
    refine Opening.disciplined (hop _ _ ?_ (hr.2 true))
    rw [(hmid (.inl rfl)).2]
    decide
  | parked _ hs _ =>
    refine ⟨?_, .inl ⟨hs, hep, hd, hop _ _ (by decide) (by decide)⟩⟩
    rw [lastSeen_append, hs]
    rfl
  | proceeds hres =>
    cases hres with
    | fin his _ => exact nomatch hd.symm.trans his
    | body _ =>
      rw [hep]
      exact course_toPhase hd (flowing_of_opens (hred' _ [] rfl trivial) hu
        (hf _ [] rfl rfl) (.inr ⟨again, rfl⟩))

variable {header body : Bytes} {ph' : Phase} {hp : Httparse} {cfg : HttpConfig}

theorem disciplined_sent (h : Disciplined ex tr) (hr : r ≠ interim true) :
    Disciplined ex (tr ++ [.sent r]) where
  order := by
    rw [freshStages_append]
    exact (append_nil (freshStages tr)).symm ▸ h.order
  redriven := redrives_append.2 ⟨h.redriven, trivial⟩
  interim := h.interim.imp (fun hu => hu.append (unopened_sent hr))
    (fun ho => ho.append (inFlow_sent hr inFlow_nil))

theorem course_of_glue (h : Course ex tr ph) (hh : ph ≠ .head)
    (hpa : ∀ req resume, ph ≠ .parked req resume) (hg : Glue header body ph ss r ph') :
    Course ex (tr ++ marks none ss (some r)) ph' := by
  cases hg with
  | closes hr _ => exact disciplined_sent h.disciplined (ne_interim_of_isClosing hr)
  | dance => exact h.elim
  | whole hph _ =>
    cases ph with
    | head => exact absurd rfl hh
    | expectBody _ _ => exact h.elim
    | chunkedDone _ => exact h.elim
    | _ => exact hph.elim
  | streamed hph ht =>
    cases hph with
    | opening =>
      obtain ⟨rfl, rfl⟩ := h
      exact course_of_opening trivial nofun rfl nofun rfl (isDone_firstPhase _ _) ht
    | chunk _ | known _ | exhausted _ => exact course_of_window h rfl nofun ht
  | ended hl => exact course_of_last h rfl nofun hl
  | resumed _ _ | replied _ _ _ | redriven _ _ | again _ _ => exact absurd rfl (hpa _ _)

theorem Flowing.resumed (h : Flowing ex k tr) : Flowing ex k (tr ++ [.resumed]) := by
  exact h.append (n := 0) (by simp [InFlow]) trivial (append_nil _)

theorem course_of_answer {req : ParkedRequest} {resume : Option StreamPark}
    {said : Option ParkAnswer} (h : Course ex tr (.parked req resume))
    (hg : Glue header body (.parked { req with answer := said } resume) ss r ph') :
    Course ex (tr ++ marks (some said) ss (some r)) ph' := by
  cases hg with
  | closes hr hpa =>
    cases resume with
    | some park => exact absurd rfl (hpa _ _)
    | none =>
      have hne := ne_interim_of_isClosing hr
      cases said with
      | none => exact disciplined_sent h.disciplined hne
      | some answer =>
        cases answer with
        | reply resp => exact disciplined_sent h.disciplined hne
        | resume =>
          have hd := disciplined_sent (h.2.2.resumed.disciplined le_rfl) hne
          rwa [append_assoc] at hd
  | whole hph _ => exact hph.elim
  | streamed hph _ => cases hph
  | @resumed _ park _ _ _ ha hres =>
    obtain rfl : said = some .resume := ha
    rcases h.2 with ⟨-, he, hd, ho⟩ | ⟨-, he, hf⟩
    · cases hres with
      | fin his _ => exact nomatch hd.symm.trans his
      | body _ =>
        rw [he]
        refine course_toPhase hd (flowing_of_opens ?_ ho.unopened ?_ (.inl rfl))
        · exact redrives_append.2 ⟨ho.redriven, trivial⟩
        · rw [freshStages_append, ho.order]
          rfl
    · have hc := course_of_resumes hf.resumed he hres
      rwa [append_assoc] at hc
  | replied ha hr _ =>
    obtain rfl : said = some (.reply _) := ha
    exact disciplined_sent h.disciplined (hr.2 true)
  | redriven ha ht =>
    obtain rfl : said = none := ha
    obtain ⟨hl, ⟨hs, he, hd, ho⟩ | ⟨hs, he, hf⟩⟩ := h
    · rw [hs] at hl ht
      exact course_of_opening ho.redriven ho.unopened ho.order (fun _ => hl)
        he hd ht
    · rw [hs] at hl ht
      exact course_of_window hf he (fun _ => hl) ht
  | again ha hl =>
    obtain rfl : said = none := ha
    obtain ⟨hs, hse, hf⟩ := h
    rw [hs] at hl
    exact course_of_last hf rfl (fun _ => hse) hl

theorem course_of_framed {cap : Option ℕ+} {buf : Bytes}
    {f : Framing} (h : Course ex tr ph) (hh : ph ≠ .head)
    (hf : Framed hp cfg cap buf ph f ph') : Course ex tr ph' ∧ ph' ≠ .head := by
  cases hf with
  | repeats _ => exact ⟨h, hh⟩
  | holds => exact ⟨h, hh⟩
  | rest hph | starts hph _ => rcases hph with rfl | rfl <;> exact h.elim
  | scans _ => exact h.elim
  | flows hfl =>
    cases hfl with
    | failed => exact ⟨h.disciplined, nofun⟩
    | last _ => exact ⟨h, nofun⟩
    | _ => exact ⟨h, hh⟩
  | heads _ => exact absurd rfl hh

theorem course_of_moves {x x' : Point}
    {a : Option (Option ParkAnswer)} {out : Option Response} (h : Course ex tr x.phase)
    (hh : x.phase ≠ .head) (hpn : ∀ req resume, x.phase = .parked req resume → x.pending = none)
    (hm : Moves hp cfg x a ss out x') : Course ex (tr ++ marks a ss out) x'.phase ∧
      ∀ req resume, x'.phase = .parked req resume → x'.pending = none := by
  have hnil := append_nil tr
  cases hm with
  | idle | recv bytes => exact ⟨hnil.symm ▸ h, hpn⟩
  | waits hf _ => exact ⟨hnil.symm ▸ (course_of_framed h hh hf).1, fun _ _ _ => rfl⟩
  | reads hf _ =>
    exact ⟨hnil.symm ▸ (course_of_framed h hh hf).1,
      fun req resume hph => absurd hph (hf.not_parked req resume)⟩
  | delivers hf _ hg =>
    obtain ⟨hc, hne⟩ := course_of_framed h hh hf
    exact ⟨course_of_glue hc hne hf.not_parked hg, fun _ _ _ => rfl⟩
  | completes hs _ hg =>
    have hpa : ∀ req resume, x.phase ≠ .parked req resume := fun req resume hph =>
      nomatch hs.symm.trans (hpn req resume hph)
    exact ⟨course_of_glue h hh hpa hg, fun _ _ _ => rfl⟩
  | answers said hph hg =>
    rw [hph] at h
    exact ⟨course_of_answer h hg, fun _ _ _ => hpn _ _ hph⟩

section

variable {U : Type*} {hp : Httparse} {cfg : HttpConfig}

/-- A connection in the course of a streamed request, or after it. -/
structure Underway (expect : Bool) (tr : List Mark) (sys : Sys U) : Prop where
  disciplined : Disciplined expect tr
  course : sys.closed = false → Course expect tr sys.conn.phase
  pending : sys.closed = false → ∀ req resume, sys.conn.phase = .parked req resume →
    sys.pending = none

theorem Underway.of_closed {sys : Sys U} (h : Disciplined ex tr) (hc : sys.closed = true) :
    Underway ex tr sys :=
  ⟨h, fun ho => absurd hc (Bool.eq_false_iff.1 ho), fun ho => absurd hc (Bool.eq_false_iff.1 ho)⟩

theorem log_of_event {e : Event U} {s s' : U × List Seen}
    (h : e.logged.Calls s ss s') : s'.2 = s.2 ++ ss := by
  cases e with
  | recv bytes | hangup =>
    obtain ⟨rfl, rfl⟩ := h
    exact (append_nil _).symm
  | pump _ _ _ | body _ _ _ | answer _ _ _ => exact log_of_calls h

theorem answer?_logged (e : Event U) : e.logged.answer? = e.answer? := by cases e <;> rfl

variable {sys : Sys (U × List Seen)}

theorem underway_next (hp : Httparse) (cfg : HttpConfig) (mrb : ℕ)
    (h : Underway ex tr sys) (hh : sys.conn.phase ≠ .head) (e : Event U) :
    let out := sys.clear.next hp cfg mrb e.logged
    Underway ex (tr ++ marks e.answer? out.1.conn.state.2 out.2) out.1 := by
  intro out
  by_cases hc : sys.closed = true
  · have hout : out = (sys.clear, none) := if_pos hc
    rw [hout]
    exact .of_closed ((append_nil tr).symm ▸ h.disciplined) hc
  · have hout : out = sys.clear.exec hp cfg mrb e.logged := if_neg hc
    have ho := Bool.eq_false_iff.2 hc
    obtain ⟨ss, hca, ha⟩ := moves_exec hp cfg mrb sys.clear e.logged
    have hl := log_of_event hca
    rw [← hout] at ha hl
    rw [hl, ← answer?_logged]
    rcases ha with ⟨hm, -⟩ | ⟨hs, rfl, hn⟩
    · obtain ⟨hco, hpn⟩ := course_of_moves (h.course ho) hh (h.pending ho) hm
      exact ⟨hco.disciplined, fun _ => hco, fun _ => hpn⟩
    · rw [hn]
      exact .of_closed ((append_nil tr).symm ▸ h.disciplined) hs

theorem disciplined_serve (mrb : ℕ) (h : Underway ex tr sys) (events : List (Event U)) :
    Disciplined ex
      (tr ++ if sys.conn.phase.isHead then [] else sys.serve hp cfg mrb events) := by
  induction events generalizing sys tr with
  | nil =>
    rw [Sys.serve, ite_self, append_nil]
    exact h.disciplined
  | cons e events ih =>
    split_ifs with hph
    · rw [append_nil]
      exact h.disciplined
    · rw [Sys.serve, ← append_assoc]
      refine ih (underway_next hp cfg mrb h (fun he => hph ?_) e)
      rw [he]
      rfl

theorem underway_first (mrb : ℕ) {kind : StreamedBody}
    (hl : sys.conn.state.2 = [])
    (hsr : (frame hp cfg sys.buf sys.conn).2.phase = .streamOpen head ex kind)
    (handler : Handler U) (env : Env) (owned : Bool) :
    let out := sys.exec hp cfg mrb (.pump (logged handler) env owned)
    Underway ex (marks none out.1.conn.state.2 out.2) out.1 := by
  obtain ⟨-, -, hs⟩ := framed_frame hp cfg sys.buf sys.conn
  simp only [Sys.exec]
  generalize frame hp cfg sys.buf sys.conn = framed at hsr hs
  obtain ⟨f, conn⟩ := framed
  simp only at hsr hs ⊢
  have hc : Course ex [] conn.phase := by
    rw [hsr]
    exact ⟨rfl, rfl⟩
  have hu : ∀ req resume, conn.phase ≠ .parked req resume := by simp [hsr]
  have hq : ∀ sys' : Sys (U × List Seen), sys'.conn = conn →
      Underway ex (marks none sys'.conn.state.2 none) sys' := by
    rintro sys' rfl
    rw [hs, hl]
    exact ⟨hc.disciplined, fun _ => hc, fun _ req resume hph => absurd hph (hu req resume)⟩
  cases f with
  | more => exact hq _ rfl
  | moreInMessage => exact hq _ rfl
  | complete header_len bl =>
    simp only
    split_ifs
    · exact hq _ rfl
    · obtain ⟨ss, r, hca, hr, -, ph, hpo, hg⟩ := moves_deliver hp (logged handler) env
        owned { sys with conn := conn, pending := none } header_len bl
      have hss := log_of_calls hca
      simp only [hs, hl, nil_append] at hss
      rw [hr, hss]
      generalize (Sys.deliver hp (logged handler) env owned _ header_len bl).1 = sys' at hpo
      obtain rfl : sys'.conn.phase = ph := congrArg Point.phase hpo
      have hn := course_of_glue hc (by simp [hsr]) hu hg
      exact ⟨hn.disciplined, fun _ => hn, fun _ _ _ _ => congrArg Point.pending hpo⟩
    · exact hq _ rfl

/-- A head that opens a stream expects an interim line if its `Expect` field asks for one. -/
theorem expects_of_streamOpen {buf : Bytes} {conn : HttpConn U} {kind : StreamedBody}
    (hhead : conn.phase = .head)
    (hopen : (frame hp cfg buf conn).2.phase = .streamOpen head ex kind) :
    ∃ t, tokenize hp buf = .ok (some t) ∧ (ex = true ↔ t.version = .http11 ∧
      hasToken (t.req.views buf) (ascii "expect") (ascii "100-continue") = true) := by
  obtain ⟨hf, -⟩ := framed_frame hp cfg buf conn
  rw [hhead, hopen] at hf
  generalize (frame hp cfg buf conn).1 = f at hf
  cases hf with
  | starts h _ => simp at h
  | flows h => cases h
  | heads h =>
    cases h with
    | chunked _ _ _ hs => cases hs
    | opens hfacts _ _ _ =>
      unfold frameFacts frameFactsIndexed at hfacts
      split at hfacts
      · cases hfacts
      · cases hfacts
      · rename_i t ht
        cases hfacts
        exact ⟨t, ht, by simp [Tokens.facts]⟩

/-- However the handler rules and the parks are resolved, a streamed request's deliveries
come in the order of its stages, and the interim line is sent once if the head's `Expect` field
asked for it, when the opening is accepted. -/
theorem streamed_request_disciplined (hp : Httparse) (cfg : HttpConfig) (max_request_bytes : ℕ)
    (sys : Sys (U × List Seen)) (hlog : sys.conn.state.2 = []) {head : Bytes} {expect : Bool}
    {kind : StreamedBody}
    (hstart : (frame hp cfg sys.buf sys.conn).2.phase = .streamOpen head expect kind)
    (handler : Handler U) (env : Env) (owned : Bool) (events : List (Event U)) :
    (sys.conn.phase = .head → ∃ t, tokenize hp sys.buf = .ok (some t) ∧
      (expect = true ↔ t.version = .http11 ∧
        hasToken (t.req.views sys.buf) (ascii "expect") (ascii "100-continue") = true)) ∧
    Disciplined expect
      (sys.serve hp cfg max_request_bytes (.pump handler env owned :: events)) := by
  refine ⟨fun hhead => expects_of_streamOpen hhead hstart, ?_⟩
  have hcl : sys.clear = sys := by
    rw [Sys.clear, ← hlog]
  have hf : let out := sys.next hp cfg max_request_bytes (.pump (logged handler) env owned)
      Underway expect (marks none out.1.conn.state.2 out.2) out.1 := by
    unfold Sys.next
    split_ifs with hc
    · simp only [hlog]
      exact .of_closed ⟨.inl rfl, trivial, .inl nofun⟩ hc
    · exact underway_first max_request_bytes hlog hstart handler env owned
  rw [Sys.serve, hcl]
  exact disciplined_serve max_request_bytes hf events

end

/-- Park the opening, accept it when it is redriven, and answer at the end. -/
def hesitant : Handler ℕ := fun req n =>
  match req.stage, n with
  | .opening, 0 => (.defer, 1)
  | .fin, _ => (.respond (.new 200), 0)
  | _, _ => (.proceed, 1)

def streaming : Sys (ℕ × List Seen) :=
  { Sys.fresh (HttpConn.newStreaming (0, []) 8) with buf := uploadHead }

theorem streamed_request_disciplined_upload :
    let events : List (Event ℕ) :=
      [.pump hesitant ⟨[], false, fun _ => false⟩ false,
        .answer none hesitant ⟨[], false, fun _ => false⟩, .recv (ascii "1\r\na\r\n0\r\n\r\n"),
        .pump hesitant ⟨[], false, fun _ => false⟩ false,
        .pump hesitant ⟨[], false, fun _ => false⟩ false]
    streaming.serve uploadParse default Usize.MAX events =
        [.saw false ⟨.opening, .parks⟩, .sent .defer, .saw true ⟨.opening, .proceeds⟩,
          .sent (interim true), .saw false ⟨.window, .proceeds⟩, .sent (interim false),
          .saw false ⟨.fin, .answers⟩,
          .sent (.reply (ascii "HTTP/1.1 200 OK\r\nDate: \r\nContent-Length: 0\r\n\r\n"))] ∧
      Disciplined true (streaming.serve uploadParse default Usize.MAX events) := by
  refine ⟨by decide +kernel, ?_⟩
  exact (streamed_request_disciplined uploadParse default Usize.MAX streaming rfl
    (show _ = Phase.streamOpen uploadHead true .chunked by rfl) hesitant
    ⟨[], false, fun _ => false⟩ false _).2

end TruenasRos.Http
