import TruenasRos.Http.Protocol

/-! # What a step of the glue can do

Every arm of the step delivers to the handler at most twice and then answers,
accepts or parks. The relation `Glue` lists the possibilities once, with the stages
the handler saw; what holds of every step is read off it.
-/

namespace TruenasRos.Http.Protocol

open Response

variable {U : Type*} {r : Response}

def Response.isClosing : Response → Bool
  | .replyClose _ => true
  | .replyVectored _ last => last
  | .replyFile _ _ _ _ last => last
  | .close => true
  | .reply _ => false
  | .defer => false

/-- A response that settles a request: neither a park nor one that goes on with the body. -/
def Response.IsFinal (r : Response) : Prop := r ≠ .defer ∧ ∀ expect, r ≠ interim expect

theorem Response.isFinal_of_isClosing (h : r.isClosing) : r.IsFinal := by
  constructor
  · rintro rfl
    exact nomatch h
  · rintro ex rfl
    exact nomatch h

theorem serializeReply_headOnly {resp : HttpResponse} {head_only : Bool} {date bytes : Bytes}
    {conn : ConnHeader} (h : serializeReply resp head_only date conn = .headOnly bytes) :
    bytes = writeHead resp head_only date conn := by
  simp only [serializeReply] at h
  split at h
  all_goals
    split_ifs at h
    exact (Serialized.headOnly.inj h).symm

theorem isFinal_respond (h : Head) (resp : HttpResponse) (date : Bytes)
    (draining abandons_body : Bool) : (respond h resp date draining abandons_body).IsFinal := by
  simp only [respond]
  split
  · exact ⟨by simp, by rintro _ ⟨⟩⟩
  · exact ⟨by simp, by rintro _ ⟨⟩⟩
  · rename_i bytes hs
    have hb := serializeReply_headOnly hs
    split_ifs
    · refine ⟨by simp, fun ex he => ?_⟩
      injection he with he
      cases ex
      · exact absurd (hb.symm.trans he) (by simp [writeHead, CRLF])
      · exact writeHead_ne_continueLine _ _ _ _ (hb.symm.trans he)
    · exact ⟨by simp, by rintro _ ⟨⟩⟩

theorem isClosing_forceFinal (h : r ≠ .defer) : (forceFinal r).isClosing := by
  cases r with
  | defer => exact absurd rfl h
  | _ => rfl

inductive Ruling
  | answers
  | parks
  | proceeds
  deriving DecidableEq

def HttpVerdict.ruling : HttpVerdict → Ruling
  | .respond _ => .answers
  | .defer => .parks
  | .deferStream => .parks
  | .proceed => .proceeds

/-- A delivery as the handler sees it, and its verdict. -/
structure Seen where
  stage : Stage
  ruling : Ruling
  deriving DecidableEq

/-- The handler is called with these deliveries, one after the other. -/
inductive Calls (handler : Handler U) : U → List Seen → U → Prop
  | nil (u : U) : Calls handler u [] u
  | cons {u u' ss} (req : HttpRequest) (h : Calls handler (handler req u).2 ss u') :
      Calls handler u (⟨req.stage, (handler req u).1.ruling⟩ :: ss) u'

theorem Calls.append {handler : Handler U} {u v w : U} {ss ts : List Seen}
    (h : Calls handler u ss v) (h' : Calls handler v ts w) : Calls handler u (ss ++ ts) w := by
  induction h with
  | nil u => exact h'
  | cons req _ ih => exact .cons req (ih h')

/-- The handler is called, and `P` holds of what it sees, the answer and the phase. -/
abbrev Gives (handler : Handler U) (conn : HttpConn U) (P : List Seen → Response → Phase → Prop)
    (out : Response × HttpConn U) : Prop :=
  ∃ ss, Calls handler conn.state ss out.2.state ∧ P ss out.1 out.2.phase

section

variable (head : Bytes) (stage : Stage)

inductive Delivery : List Seen → Dispatched → Prop
  | refused {r : Response} (hr : r.isClosing) : Delivery [] (.done r)
  | answered {ruling} {r : Response} (hr : r.IsFinal)
      (hmid : stage = .opening ∨ stage = .window → r.isClosing ∧ ruling = .answers) :
      Delivery [⟨stage, ruling⟩] (.done r)
  | parked {req} (hhead : req.head = head) (hstage : req.stage = stage)
      (hanswer : req.answer = none) : Delivery [⟨stage, .parks⟩] (.park req)
  | proceeds (hmid : stage = .opening ∨ stage = .window) :
      Delivery [⟨stage, .proceeds⟩] .proceed

/-- The last delivery of a request ends it or parks it. -/
inductive Last : List Seen → Response → Phase → Prop
  | refused {r : Response} (hr : r.isClosing) : Last [] r .head
  | answered {ruling} {r : Response} (hr : r.IsFinal) : Last [⟨stage, ruling⟩] r .head
  | parked {req} (hhead : req.head = head) (hstage : req.stage = stage)
      (hanswer : req.answer = none) : Last [⟨stage, .parks⟩] .defer (.parked req none)

/-- A delivery that may be followed by something: it ends the connection, parks to come back
at `resume`, or goes on as `next` says. -/
inductive Then (resume : Option StreamPark) (next : List Seen → Response → Phase → Prop) :
    List Seen → Response → Phase → Prop
  | refused {r : Response} (hr : r.isClosing) : Then resume next [] r .head
  | answered {ruling} {r : Response} (hr : r.IsFinal)
      (hmid : stage = .opening ∨ stage = .window → r.isClosing ∧ ruling = .answers) :
      Then resume next [⟨stage, ruling⟩] r .head
  | parked {req} (hhead : req.head = head) (hstage : req.stage = stage)
      (hanswer : req.answer = none) :
      Then resume next [⟨stage, .parks⟩] .defer (.parked req resume)
  | proceeds {ss} {r : Response} {phase} (h : next ss r phase) :
      Then resume next (⟨stage, .proceeds⟩ :: ss) r phase

/-- Going on at `r`: with the body, or with the end of a body that is all there. -/
inductive Resumes (r : StreamPark) : List Seen → Response → Phase → Prop
  | body (h : r.next.isDone = false) : Resumes r [] (interim r.expect_interim) r.next.toPhase
  | fin {ss resp phase} (h : r.next.isDone) (hlast : Last head .fin ss resp phase) :
      Resumes r ss resp phase

end

section

variable {hp : Httparse} {handler : Handler U} {env : Env} {conn : HttpConn U} {head body : Bytes}
  {tr : List HeaderView} {stage : Stage}

theorem delivery_dispatched (h : Head) (v : HttpVerdict) : Delivery head stage [⟨stage, v.ruling⟩]
      (dispatched env h (request h head body tr stage) v) := by
  cases v with
  | respond resp =>
    refine .answered (isFinal_respond _ _ _ _ _) fun hm => ?_
    have : ((request h head body tr stage).stage == .opening ||
        (request h head body tr stage).stage == .window) = true := by
      rcases hm with rfl | rfl <;> rfl
    rw [this]
    refine ⟨?_, rfl⟩
    simp only [respond, Bool.not_true, Bool.and_false]
    split <;> rfl
  | defer | deferStream => exact .parked rfl rfl rfl
  | proceed =>
    unfold dispatched
    split_ifs with hl
    · refine .answered (isFinal_of_isClosing rfl) fun hm => ?_
      rcases hm with rfl | rfl <;> simp [request] at hl
    · refine .proceeds ?_
      cases stage with
      | whole => exact absurd (.inl rfl) hl
      | fin => exact absurd (.inr rfl) hl
      | opening => exact .inl rfl
      | window => exact .inr rfl

theorem delivery_dispatch (hp : Httparse) (handler : Handler U) (env : Env) (conn : HttpConn U)
    (head body : Bytes) (tr : List HeaderView) (stage : Stage) : ∃ ss, Calls handler conn.state ss
        (dispatch hp handler env conn head body tr stage).2.state ∧
      Delivery head stage ss (dispatch hp handler env conn head body tr stage).1 ∧
      (dispatch hp handler env conn head body tr stage).2.phase = conn.phase := by
  unfold dispatch
  cases hv : headOrFarewell hp env head conn.index with
  | error r =>
    refine ⟨[], .nil _, .refused ?_, rfl⟩
    unfold headOrFarewell at hv
    split at hv
    · exact nomatch hv
    · cases hv
      rfl
  | ok h => exact ⟨_, .cons (request h head body tr stage) (.nil _), delivery_dispatched h _, rfl⟩

theorem last_deliverLast (hp : Httparse) (handler : Handler U) (env : Env) {conn : HttpConn U}
    (head body : Bytes) (tr : List HeaderView) (hph : conn.phase = .head)
    (hsg : stage = .whole ∨ stage = .fin) :
    Gives handler conn (Last head stage) (deliverLast hp handler env conn head body tr stage) := by
  obtain ⟨ss, hc, hd, hs⟩ := delivery_dispatch hp handler env conn head body tr stage
  unfold deliverLast
  generalize dispatch hp handler env conn head body tr stage = r at hc hd hs
  obtain ⟨d, conn'⟩ := r
  refine ⟨ss, ?_⟩
  rw [hph] at hs
  cases hd with
  | refused hr => exact ⟨hc, hs ▸ .refused hr⟩
  | answered hr _ => exact ⟨hc, hs ▸ .answered hr⟩
  | parked hh hst ha => exact ⟨hc, .parked hh hst ha⟩
  | proceeds hm => rcases hsg with rfl | rfl <;> simp at hm

theorem resumes_resumeAt (hp : Httparse) (handler : Handler U) (env : Env) {conn : HttpConn U}
    (head : Bytes) (r : StreamPark) (hph : conn.phase = .head) :
    Gives handler conn (Resumes head r) (resumeAt hp handler env conn head r) := by
  unfold resumeAt
  split_ifs with hd
  · obtain ⟨ss, hc, hl⟩ := last_deliverLast hp handler env head [] [] hph (.inr rfl)
    exact ⟨ss, hc, .fin hd hl⟩
  · exact ⟨[], .nil _, .body (Bool.eq_false_iff.2 hd)⟩

/-- A delivery whose continuation is `next` when the handler lets it proceed. -/
theorem then_of_dispatch {resume : Option StreamPark} {next : List Seen → Response → Phase → Prop}
    {d : Dispatched} {conn' : HttpConn U} {out : Response × HttpConn U}
    (hd : dispatch hp handler env conn head body tr stage = (d, conn'))
    (hph : conn.phase = .head)
    (hdo : ∀ r, d = .done r → out = (r, conn') ∨ out = (forceFinal r, conn'))
    (hpa : ∀ req, d = .park req → out = (.defer, { conn' with phase := .parked req resume }))
    (hg : conn'.phase = .head → d = .proceed → (stage = .opening ∨ stage = .window) →
      Gives handler conn' next out) : Gives handler conn (Then head stage resume next) out := by
  obtain ⟨ss, hc, hdel, hs⟩ := delivery_dispatch hp handler env conn head body tr stage
  rw [hd] at hc hdel hs
  rw [hph] at hs
  cases hdel with
  | @refused r hr =>
    rcases hdo r rfl with rfl | rfl
    · exact ⟨[], hc, hs ▸ .refused hr⟩
    · exact ⟨[], hc, hs ▸ .refused (isClosing_forceFinal (isFinal_of_isClosing hr).1)⟩
  | @answered ruling r hr hm =>
    rcases hdo r rfl with rfl | rfl
    · exact ⟨_, hc, hs ▸ .answered hr hm⟩
    · have hclo := isClosing_forceFinal hr.1
      exact ⟨_, hc, hs ▸ .answered (isFinal_of_isClosing hclo)
        fun hst => ⟨hclo, (hm hst).2⟩⟩
  | parked hh hst ha =>
    rw [hpa _ rfl]
    exact ⟨_, hc, .parked hh hst ha⟩
  | proceeds hm =>
    obtain ⟨ts, hc', hn⟩ := hg hs rfl hm
    exact ⟨_ :: ts, hc.append hc', .proceeds hn⟩

end

/-- The phases whose message is a request's last. -/
def IsWhole : Phase → Prop
  | .head => True
  | .expectBody _ _ => True
  | .chunkedDone _ => True
  | _ => False

section

variable (header body : Bytes)

/-- A phase mid-body delivers `stage` and goes on at `r`. -/
inductive Streams : Phase → Bytes → Stage → StreamPark → Prop
  | opening {head expect kind} :
      Streams (.streamOpen head expect kind) head .opening
        ⟨firstPhase head kind, expect⟩
  | chunk {head chunk_left decoded left after_payload}
      (hleft : left = owed header chunk_left after_payload body.length - body.length) :
      Streams (.streamBody head chunk_left after_payload decoded) head .window
        ⟨.streamBody head left (left == 0) (Usize.saturatingAdd decoded body.length), false⟩
  | known {head remaining} (hleft : remaining - body.length ≠ 0) :
      Streams (.streamKnown head remaining) head .window
        ⟨.streamKnown head (remaining - body.length), false⟩
  | exhausted {head remaining} (hleft : remaining - body.length = 0) :
      Streams (.streamKnown head remaining) head .window ⟨.streamDone head 0, false⟩

/-- What a step can do with a message, the stages the handler sees and the answer. -/
inductive Glue : Phase → List Seen → Response → Phase → Prop
  | closes {phase r} (hr : r.isClosing) (hphase : ∀ req park, phase ≠ .parked req (some park)) :
      Glue phase [] r .head
  | dance {head kind} :
      Glue (.expectHead head kind) [] (interim true) (.expectBody head kind)
  | whole {phase phase' head ss r} (hphase : IsWhole phase) (h : Last head .whole ss r phase') :
      Glue phase ss r phase'
  | streamed {phase phase' head stage park ss r}
      (hphase : Streams header body phase head stage park)
      (h : Then head stage (some park) (Resumes head park) ss r phase') :
      Glue phase ss r phase'
  | ended {head block_at phase' ss r} (h : Last head .fin ss r phase') :
      Glue (.streamDone head block_at) ss r phase'
  | resumed {req park phase' ss r} (hanswer : req.answer = some .resume)
      (h : Resumes req.head park ss r phase') :
      Glue (.parked req (some park)) ss r phase'
  | replied {req resume resp r} (hanswer : req.answer = some (.reply resp)) (hr : r.IsFinal)
      (hmid : resume.isSome → r.isClosing) : Glue (.parked req resume) [] r .head
  | redriven {req park phase' ss r} (hanswer : req.answer = none)
      (h : Then req.head req.stage (some park) (Resumes req.head park) ss r phase') :
      Glue (.parked req (some park)) ss r phase'
  | again {req phase' ss r} (hanswer : req.answer = none)
      (h : Last req.head req.stage ss r phase') : Glue (.parked req none) ss r phase'

end

section

variable {hp : Httparse} {handler : Handler U} {env : Env} {conn : HttpConn U}
  {header body head : Bytes}

theorem isFinal_respondParked (hp : Httparse) (env : Env) (head : Bytes) (ix : HeadIndex)
    (resp : HttpResponse) (abandons_body : Bool) :
    (respondParked hp env head ix resp abandons_body).IsFinal := by
  unfold respondParked headOrFarewell
  split
  · exact isFinal_respond _ _ _ _ _
  · rename_i r hr
    split at hr
    · exact nomatch hr
    · cases hr
      exact isFinal_of_isClosing rfl

theorem isDone_firstPhase (head : Bytes) (kind : StreamedBody) :
    (firstPhase head kind).isDone = false := by cases kind <;> rfl

/-- A delivery within a stream ends it with any answer. -/
theorem then_of_streamed (park : StreamPark) (out : Response × HttpConn U) {d : Dispatched}
    {conn' : HttpConn U} (hd : dispatch hp handler env conn head body tr stage = (d, conn'))
    (hph : conn.phase = .head)
    (hg : conn'.phase = .head → Gives handler conn' (Resumes head park) out) :
    Gives handler conn (Then head stage (some park) (Resumes head park))
      (match d with
        | .proceed => out
        | .done r => (forceFinal r, conn')
        | .park req => settle conn' (.park req) (some park)) := by
  apply then_of_dispatch hd hph
  · rintro r rfl
    exact .inr rfl
  · rintro req rfl
    rfl
  · rintro hh rfl -
    exact hg hh

theorem glue_deliverMid {ph : Phase} {body' : Bytes} {stage : Stage}
    {park : StreamPark} (hc : conn.phase = .head)
    (hph : Streams header body ph head stage park) (hn : park.next.isDone = false) :
    Gives handler conn (Glue header body ph)
      (deliverMid hp handler env conn head body' stage park) := by
  unfold deliverMid
  cases hd : dispatch hp handler env conn head body' [] stage with
  | mk d conn' =>
    obtain ⟨ss, hca, ht⟩ := then_of_streamed park (advance conn' park) hd hc
      fun _ => ⟨[], .nil _, .body hn⟩
    cases d <;> exact ⟨ss, hca, .streamed hph ht⟩

theorem glue_known {rm : ℕ} (hco : conn.phase = .head) :
    Gives handler conn (Glue header body (.streamKnown head rm))
      (knownWindow hp handler env conn head rm body) := by
  unfold knownWindow
  cases hd : dispatch hp handler env conn head body [] .window with
  | mk d conn' =>
    by_cases hl : rm - body.length = 0
    · simp only [if_pos hl]
      obtain ⟨ss, hc, ht⟩ := then_of_streamed ⟨.streamDone head 0, false⟩ _ hd hco fun hh => by
        obtain ⟨ts, hc, hla⟩ := last_deliverLast hp handler env head [] [] hh (.inr rfl)
        exact ⟨ts, hc, .fin rfl hla⟩
      cases d <;> exact ⟨ss, hc, .streamed (.exhausted hl) ht⟩
    · simp only [if_neg hl]
      obtain ⟨ss, hc, ht⟩ := then_of_streamed ⟨.streamKnown head (rm - body.length), false⟩
        (.reply [], { conn' with phase := .streamKnown head (rm - body.length) }) hd hco
        fun _ => ⟨[], .nil _, .body rfl⟩
      cases d <;> exact ⟨ss, hc, .streamed (.known hl) ht⟩

theorem glue_redeliver {req : ParkedRequest} {resume : Option StreamPark}
    (hco : conn.phase = .head) : Gives handler conn (Glue header body (.parked req resume))
      (redeliver hp handler env conn req resume) := by
  unfold redeliver
  cases ha : req.answer with
  | some answer =>
    cases answer with
    | resume =>
      cases resume with
      | none => exact ⟨[], .nil _, hco ▸ .closes rfl (by simp)⟩
      | some park =>
        obtain ⟨ss, hc, hres⟩ := resumes_resumeAt hp handler env req.head park hco
        exact ⟨ss, hc, .resumed ha hres⟩
    | reply resp =>
      have hf := isFinal_respondParked hp env req.head conn.index resp resume.isSome
      have hfo := isClosing_forceFinal hf.1
      refine ⟨[], .nil _, hco ▸ ?_⟩
      cases resume with
      | some park => exact .replied ha (isFinal_of_isClosing hfo) fun _ => hfo
      | none => exact .replied ha hf (by simp)
  | none =>
    cases hd : dispatch hp handler env conn req.head req.body req.trailers req.stage with
    | mk d conn' =>
      cases resume with
      | some park =>
        refine Exists.imp (fun ss h => ⟨h.1, .redriven ha h.2⟩) (@then_of_dispatch _ hp handler
          env conn req.head req.body req.trailers req.stage (some park) (Resumes req.head park) d
          conn' _ hd hco ?_ ?_ ?_)
        · rintro r rfl
          exact .inl rfl
        · rintro req' rfl
          rfl
        · rintro hh rfl -
          exact resumes_resumeAt hp handler env req.head park hh
      | none =>
        obtain ⟨ss, hc, hdel, hs⟩ := delivery_dispatch hp handler env conn req.head req.body
          req.trailers req.stage
        rw [hd] at hc hdel hs
        rw [hco] at hs
        refine ⟨ss, ?_⟩
        cases hdel with
        | refused hr => exact ⟨hc, .again ha (hs ▸ .refused hr)⟩
        | answered hr _ => exact ⟨hc, .again ha (hs ▸ .answered hr)⟩
        | parked hh hst hans => exact ⟨hc, .again ha (.parked hh hst hans)⟩
        | proceeds _ =>
          exact ⟨hc, .again ha
            (hs ▸ .answered (isFinal_of_isClosing rfl))⟩

theorem glue_step (hp : Httparse) (handler : Handler U) (env : Env) (header : Bytes) (body : Body)
    (conn : HttpConn U) : Gives handler conn (Glue header body.bytes conn.phase)
      (step hp handler env header body conn) := by
  have hb : HttpConn.phase { conn with phase := .head } = .head := rfl
  have hl := fun head bytes tr stage hs =>
    @last_deliverLast _ stage hp handler env _ head bytes tr hb hs
  unfold step
  cases hph : conn.phase with
  | head =>
    obtain ⟨ss, hc, h⟩ := hl header body.bytes [] .whole (.inl rfl)
    exact ⟨ss, hc, .whole trivial h⟩
  | expectHead head kind =>
    split_ifs
    · exact ⟨[], .nil _, .closes rfl nofun⟩
    · exact ⟨[], .nil _, .dance⟩
  | expectBody stash kind =>
    obtain ⟨ss, hc, h⟩ := hl stash body.bytes [] .whole (.inl rfl)
    exact ⟨ss, hc, .whole trivial h⟩
  | chunkedBody stash head_len scan | fail status head_only => exact ⟨[], .nil _, .closes rfl nofun⟩
  | chunkedDone stash =>
    cases dechunk body with
    | none => exact ⟨[], .nil _, .closes rfl nofun⟩
    | some entity =>
      obtain ⟨ss, hc, h⟩ := hl (stash.getD header) entity.1 entity.2 .whole (.inl rfl)
      exact ⟨ss, hc, .whole trivial h⟩
  | streamOpen head expect kind =>
    split_ifs
    · exact ⟨[], .nil _, .closes rfl nofun⟩
    · exact glue_deliverMid hb .opening (isDone_firstPhase head kind)
  | streamKnown head remaining => exact glue_known hb
  | streamBody head chunk_left after_payload decoded => exact glue_deliverMid hb (.chunk rfl) rfl
  | streamDone head block_at =>
    obtain ⟨ss, hc, h⟩ := hl head [] (blockTrailers (header.drop block_at)) .fin (.inr rfl)
    exact ⟨ss, hc, .ended h⟩
  | parked req resume => exact glue_redeliver hb

end

end TruenasRos.Http.Protocol
