import TruenasRos.Http.Machine
import TruenasRos.Http.Requests

/-! # No body byte is framed as a head

An invariant over all phases says where in which request the bytes delivered so far
end. Whatever the handler and the workers do, a connection that stays open is back
in `head` only at the end of a request.
-/

namespace TruenasRos.Http

open List Protocol Nat

/-- A scan that has seen a part of `wire`, and waits for more of it. -/
def Scanned (wire : Bytes) (s : ChunkScan) : Prop :=
  ∃ p, p <+: wire ∧ scan p default = (s, .ok none)

section

variable (hp : Httparse) (consumed : Bytes)

/-- A body of which the part before `next` was delivered. -/
def Mid : ResumePhase → Prop
  | .streamKnown _ remaining =>
    ∃ n part, InBody hp consumed (.known n) part ∧ part.length + remaining = n
  | .streamBody _ chunk_left after_payload _ =>
    ∃ part ent, InBody hp consumed .chunked part ∧ StreamAt part ent chunk_left after_payload
  | .streamDone _ _ => Boundary hp consumed

/-- What a phase says of the bytes delivered, before the next of `buf` are. -/
def Rest (buf : Bytes) : Phase → Prop
  | .head => Boundary hp consumed
  | .expectBody _ kind => InBody hp consumed kind []
  | .chunkedBody _ head_len s =>
    head_len ≤ buf.length ∧ InBody hp (consumed ++ buf.take head_len) .chunked [] ∧
      Scanned (buf.drop head_len) s
  | .streamKnown head remaining => Mid hp consumed (.streamKnown head remaining)
  | .streamBody head chunk_left after_payload decoded =>
    Mid hp consumed (.streamBody head chunk_left after_payload decoded)
  | .parked _ none => Boundary hp consumed
  | .parked req (some park) =>
    Mid hp consumed park.next ∧ (req.stage = .opening ∨ req.stage = .window)
  | _ => False

/-- What is known once a message has been delivered in a phase, before the glue's step. -/
def Delivered (header body consumed : Bytes) : Phase → Prop
  | .head => Boundary hp consumed
  | .expectBody _ _ => Boundary hp consumed
  | .chunkedDone _ => Boundary hp consumed
  | .streamDone _ _ => Boundary hp consumed
  | .expectHead _ kind => InBody hp consumed kind []
  | .streamOpen head _ kind => Mid hp consumed (firstPhase head kind)
  | .streamKnown head remaining =>
    Mid hp consumed (.streamKnown head (remaining - body.length))
  | .streamBody head chunk_left after_payload decoded =>
    let left := owed header chunk_left after_payload body.length - body.length
    Mid hp consumed (.streamBody head left (left == 0) decoded)
  | .parked req resume => Rest hp consumed [] (.parked req resume)
  | _ => True

/-- A reply closes the connection, ends a request, or leaves it to rest mid-request. -/
inductive Leaves : Response → Phase → Prop
  | closes {r phase} (hr : r.isClosing) : Leaves r phase
  | ends {r} (h : Boundary hp consumed) : Leaves r .head
  | parks {req resume} (h : ∀ buf, Rest hp consumed buf (.parked req resume)) :
      Leaves .defer (.parked req resume)
  | goesOn {phase} (expect : Bool) (h : ∀ buf, Rest hp consumed buf phase)
      (hphase : phase ≠ .head) : Leaves (interim expect) phase

end

variable {hp : Httparse} {cfg : HttpConfig} {cn buf header body : Bytes} {s : ChunkScan}

theorem Scanned.resume {wire : Bytes} (h : Scanned wire s) : scan wire s = scan wire default := by
  obtain ⟨p, ⟨x, rfl⟩, hs⟩ := h
  have hr := scan_resume (x := x) (zero_le p.length) (by rw [hs])
  rwa [hs] at hr

theorem rest_toPhase {next : ResumePhase} (h : Mid hp cn next) (hd : next.isDone = false)
    (buf : Bytes) : Rest hp cn buf next.toPhase := by
  cases next with
  | streamKnown _ _ => exact h
  | streamBody _ _ _ _ => exact h
  | streamDone _ _ => exact nomatch hd

variable {head : Bytes} {stage : Stage} {park : StreamPark} {ss : List Seen} {r : Response}
  {ph ph' : Phase}

theorem leaves_of_last (h : Last head stage ss r ph') (he : Boundary hp cn) :
    Leaves hp cn r ph' := by
  cases h with
  | refused hr => exact .closes hr
  | answered _ => exact .ends he
  | parked _ _ _ => exact .parks fun _ => he

theorem leaves_of_resumes (h : Resumes head park ss r ph') (hm : Mid hp cn park.next) :
    Leaves hp cn r ph' := by
  cases h with
  | body hn =>
    refine .goesOn _ (rest_toPhase hm hn) ?_
    cases park.next <;> nofun
  | fin hd hl =>
    apply leaves_of_last hl
    cases hn : park.next with
    | streamDone _ _ => exact (hn ▸ hm : Mid hp cn (.streamDone _ _))
    | _ => exact nomatch hn ▸ hd

theorem leaves_of_then (h : Then head stage (some park) (Resumes head park) ss r ph')
    (hm : Mid hp cn park.next) (hs : stage = .opening ∨ stage = .window) : Leaves hp cn r ph' := by
  cases h with
  | refused hr => exact .closes hr
  | answered _ hc => exact .closes (hc hs).1
  | parked _ hst _ => exact .parks fun _ => ⟨hm, hst ▸ hs⟩
  | proceeds hres => exact leaves_of_resumes hres hm

theorem leaves_of_glue (h : Glue header body ph ss r ph')
    (hd : Delivered hp header body cn ph) : Leaves hp cn r ph' := by
  cases h with
  | closes hr _ => exact .closes hr
  | dance => exact .goesOn true (fun _ => hd) nofun
  | whole hph hl =>
    apply leaves_of_last hl
    cases ph with
    | head => exact hd
    | expectBody _ _ => exact hd
    | chunkedDone _ => exact hd
    | _ => exact hph.elim
  | streamed hph ht =>
    cases hph with
    | opening => exact leaves_of_then ht hd (.inl rfl)
    | chunk hl =>
      subst hl
      exact leaves_of_then ht hd (.inr rfl)
    | known _ => exact leaves_of_then ht hd (.inr rfl)
    | exhausted hl =>
      obtain ⟨n, part, hin, hlen⟩ := hd
      exact leaves_of_then ht (hin.boundary (show part.length = n by omega)) (.inr rfl)
  | ended hl | again _ hl => exact leaves_of_last hl hd
  | resumed _ hres => exact leaves_of_resumes hres hd.1
  | @replied req resume _ _ _ _ hm =>
    cases resume with
    | none => exact .ends hd
    | some park => exact .closes (hm rfl)
  | redriven _ ht => exact leaves_of_then ht hd.1 hd.2

section

variable {buf₀ part ent : Bytes} {cap : Option ℕ+} {header_len bl fr : ℕ} {stash : Option Bytes}
  {ap : Bool} {f : Framing}

theorem delivered_of_scans (hpre : buf₀ <+: buf) (hlen : header_len ≤ buf₀.length)
    (hin : InBody hp (cn ++ buf₀.take header_len) .chunked [])
    (hs : scan (buf₀.drop header_len) s = scan (buf₀.drop header_len) default)
    {h b : ℕ} (hf : Scans cfg buf₀ stash header_len s (.complete h b) ph') :
    Delivered hp header body (cn ++ buf.take (h + b)) ph' := by
  cases hf with
  | failed => trivial
  | done hsc _ =>
    obtain ⟨hle, hb⟩ := isBody_of_scan (hs ▸ hsc)
    obtain ⟨x, rfl⟩ := hpre
    rw [length_drop] at hle
    rw [take_append_of_le_length (by omega), take_add, ← append_assoc]
    exact (hin.append _).boundary hb

theorem delivered_of_heads (hpre : buf₀ <+: buf) (hlen : header_len + bl ≤ buf.length)
    (he : Boundary hp cn) (hf : Heads hp cfg cap buf₀ (.complete header_len bl) ph') :
    Delivered hp header body (cn ++ buf.take (header_len + bl)) ph' := by
  have ht : ∀ {facts kind}, frameFacts hp buf₀ = .ok (some facts) → facts.body = .ok kind →
      InBody hp (cn ++ buf.take facts.len) kind [] := by
    intro facts kind hfa hk
    obtain ⟨x, rfl⟩ := hpre
    rw [take_append_of_le_length (len_le_of_frameFacts hfa)]
    exact .of_isHead he (isHead_of_frameFacts hfa hk)
  cases hf with
  | failed => trivial
  | @known facts n hfa _ hb _ =>
    rw [take_add, ← append_assoc]
    refine ((ht hfa hb).append _).boundary ?_
    rw [IsBody, nil_append, length_take, length_drop]
    omega
  | expects hfa _ hk => exact ht hfa hk.1
  | @opens facts kind hfa _ _ hk =>
    cases kind with
    | known n => exact ⟨n, [], ht hfa hk.1, zero_add n⟩
    | chunked => exact ⟨[], [], ht hfa hk, .nil⟩
  | chunked hfa _ hb hs =>
    have hin := ht hfa hb
    have hle := len_le_of_frameFacts hfa
    refine delivered_of_scans hpre hle ?_ rfl hs
    obtain ⟨x, rfl⟩ := hpre
    rwa [take_append_of_le_length hle] at hin

theorem streamAt_of_chunk {pl : ℕ} (h : StreamAt part ent 0 ap) (hs : step buf₀ ap = .chunk fr pl) :
    0 < pl ∧ StreamAt (part ++ buf₀.take fr) ent pl false := by
  obtain ⟨line, tail, hl, hn, rfl, rfl⟩ := split_of_step_chunk hs
  refine ⟨pos_of_ne_zero hn, ?_⟩
  rw [take_left, ← append_assoc]
  exact h.close.line hl hn

theorem isBody_of_last (h : StreamAt part ent 0 ap) (hs : step buf₀ ap = .last fr) :
    fr ≤ buf₀.length ∧ IsBody .chunked (part ++ buf₀.take fr) := by
  obtain ⟨line, tail, extent, -, rfl, rfl, -, hd⟩ := split_of_step_last hs
  obtain ⟨hle, hb⟩ := isBody_of_scan (Prod.ext rfl hd)
  rw [length_append, take_length_add_append, ← append_assoc part]
  exact ⟨Nat.add_le_add_left hle _, h.close.isBody hb⟩

theorem length_window {i n : ℕ} (h : i + n ≤ buf.length) : ((buf.drop i).take n).length = n := by
  rw [length_take, length_drop]
  omega

section

variable (hpre : buf₀ <+: buf) (hlen : header_len + bl ≤ buf.length) (hr : Rest hp cn buf₀ ph)
include hpre hlen hr

theorem delivered_of_flows (hf : Flows buf₀ ph (.complete header_len bl) ph') :
    Delivered hp (buf.take header_len) ((buf.drop header_len).take bl)
      (cn ++ buf.take (header_len + bl)) ph' := by
  have hb := length_window hlen
  have ht : ∀ n ≤ buf₀.length, buf.take n = buf₀.take n := by
    obtain ⟨x, rfl⟩ := hpre
    exact fun n hn => take_append_of_le_length hn
  rw [take_add, ← append_assoc]
  cases hf with
  | failed => trivial
  | @within head left dc ap hpos =>
    obtain ⟨part, ent, hin, ha⟩ := hr
    rw [take_zero, append_nil]
    refine ⟨_, ent ++ (buf.drop 0).take (min left STREAM_WINDOW), hin.append _, ?_⟩
    simp only [owed, if_pos hpos]
    exact ha.window (hb.trans_le (min_le_left _ _)) hpos
  | @chunk head dc fr pl ap hs =>
    obtain ⟨part, ent, hin, ha⟩ := hr
    obtain ⟨hle, hag⟩ := step_take_of_chunk hs
    obtain ⟨hpos, hl⟩ := streamAt_of_chunk ha hs
    refine ⟨_, ent ++ (buf.drop header_len).take (min pl STREAM_WINDOW),
      (hin.append _).append _, ?_⟩
    rw [ht _ hle]
    simp only [owed, lt_irrefl, if_false, hag]
    exact hl.window (hb.trans_le (min_le_left _ _)) hpos
  | last hs =>
    obtain ⟨part, ent, hin, ha⟩ := hr
    obtain ⟨hle, hbl⟩ := isBody_of_last ha hs
    rw [take_zero, append_nil, ht _ hle]
    exact (hin.append _).boundary hbl
  | @window head rm _ _ =>
    obtain ⟨n, part, hin, hsum⟩ := hr
    rw [take_zero, append_nil]
    refine ⟨n, _, hin.append _, ?_⟩
    rw [length_append, hb]
    omega

theorem delivered_of_framed (hf : Framed hp cfg cap buf₀ ph (.complete header_len bl) ph') :
    Delivered hp (buf.take header_len) ((buf.drop header_len).take bl)
      (cn ++ buf.take (header_len + bl)) ph' := by
  cases hf with
  | repeats hrep => cases ph <;> first | exact hrep.elim | exact hr.elim
  | @rest _ head n hph =>
    rcases hph with rfl | rfl
    · exact hr.elim
    · apply InBody.boundary (InBody.append hr _)
      rw [IsBody, nil_append, zero_add, length_take]
      omega
  | starts hph hs =>
    rcases hph with rfl | rfl
    · exact hr.elim
    · refine delivered_of_scans hpre (zero_le _) ?_ rfl hs
      rwa [take_zero, append_nil]
  | scans hs =>
    obtain ⟨hle, hin, hsc⟩ := hr
    exact delivered_of_scans hpre hle hin hsc.resume hs
  | flows hfl => exact delivered_of_flows hpre hlen hr hfl
  | heads hh => exact delivered_of_heads hpre hlen hr hh

end

theorem rest_append (hr : Rest hp cn buf ph) (bytes : Bytes) : Rest hp cn (buf ++ bytes) ph := by
  cases ph with
  | chunkedBody stash head_len s =>
    obtain ⟨hle, hin, p, hp, hs⟩ := hr
    refine ⟨hle.trans (prefix_append _ _).length_le, ?_, p, ?_, hs⟩
    · rwa [take_append_of_le_length hle]
    · rw [drop_append_of_le_length hle]
      exact hp.trans (prefix_append _ _)
  | parked req resume => cases resume <;> exact hr
  | _ => exact hr

theorem rest_of_scans
    (hlen : header_len ≤ buf.length) (hin : InBody hp (cn ++ buf.take header_len) .chunked [])
    (hs : scan (buf.drop header_len) s = scan (buf.drop header_len) default)
    (hf : Scans cfg buf stash header_len s f ph') (hm : f = .more ∨ f = .moreInMessage) :
    Rest hp cn buf ph' := by
  cases hf with
  | waits hsc _ => exact ⟨hlen, hin, _, prefix_rfl, hs ▸ hsc⟩
  | failed | done _ _ => exact absurd hm (by simp)

theorem rest_of_framed (hr : Rest hp cn buf ph)
    (hf : Framed hp cfg cap buf ph f ph') (hm : f = .more ∨ f = .moreInMessage) :
    Rest hp cn buf ph' := by
  cases hf with
  | repeats _ | rest _ => exact absurd hm (by simp)
  | holds => exact hr
  | starts hph hs =>
    rcases hph with rfl | rfl
    · exact hr.elim
    · refine rest_of_scans (zero_le _) ?_ rfl hs hm
      rwa [take_zero, append_nil]
  | scans hs =>
    obtain ⟨hle, hin, hsc⟩ := hr
    exact rest_of_scans hle hin hsc.resume hs hm
  | flows hfl =>
    cases hfl with
    | waits _ => exact hr
    | between _ _ => exact hr
    | _ => exact absurd hm (by simp)
  | heads hh =>
    cases hh with
    | more _ => exact hr
    | chunked hfa _ hb hs =>
      exact rest_of_scans (len_le_of_frameFacts hfa)
        (.of_isHead hr (isHead_of_frameFacts hfa hb)) rfl hs hm
    | _ => exact absurd hm (by simp)

theorem phase_eq_of_short (hr : Rest hp cn buf ph)
    (hf : Framed hp cfg cap buf ph (.complete header_len bl) ph')
    (hsh : buf.length < header_len + bl) : ph' = ph := by
  have hsn : ∀ {stash n s}, n ≤ buf.length → scan (buf.drop n) s = scan (buf.drop n) default →
      Scans cfg buf stash n s (.complete header_len bl) ph' → False := by
    intro stash n s hn hs hf
    cases hf with
    | failed => omega
    | done hsc _ =>
      have hle := (isBody_of_scan (hs ▸ hsc)).1
      rw [length_drop] at hle
      omega
  cases hf with
  | repeats _ => rfl
  | rest _ => rfl
  | starts _ hs => exact (hsn (zero_le _) rfl hs).elim
  | scans hs => exact (hsn hr.1 hr.2.2.resume hs).elim
  | flows hfl =>
    cases hfl with
    | failed => omega
    | last hst =>
      obtain ⟨part, ent, -, ha⟩ := hr
      have := (isBody_of_last ha hst).1
      omega
    | _ => rfl
  | heads hh =>
    cases hh with
    | failed => omega
    | known _ _ _ _ => rfl
    | expects hfa _ _ | opens hfa _ _ _ =>
      have := len_le_of_frameFacts hfa
      omega
    | chunked hfa _ _ hs => exact (hsn (len_le_of_frameFacts hfa) rfl hs).elim

end

theorem rest_of_leaves (h : Leaves hp cn r ph) (ho : r.isClosing = false)
    (buf : Bytes) : Rest hp cn buf ph := by
  cases h with
  | closes hr => exact nomatch ho.symm.trans hr
  | ends he => exact he
  | parks hre => exact hre buf
  | goesOn _ hre _ => exact hre buf

/-- A connection between two events. -/
structure AtRest (hp : Httparse) (cfg : HttpConfig) (x : Point) : Prop where
  rest : Rest hp x.consumed x.buf x.phase
  pending : ∀ {header_len body_len}, x.pending = some (header_len, body_len) →
    ∃ cap buf₀, buf₀ <+: x.buf ∧ Rest hp x.consumed buf₀ x.phase ∧
      Framed hp cfg cap buf₀ x.phase (.complete header_len body_len) x.phase

variable {x x' : Point} {a : Option (Option ParkAnswer)} {out : Option Response}

section

variable (hx : AtRest hp cfg x)
include hx

theorem not_pending_of_parked {req : ParkedRequest} {resume : Option StreamPark}
    (hph : x.phase = .parked req resume) : x.pending = none := by
  cases hpn : x.pending with
  | none => rfl
  | some lens =>
    obtain ⟨cap, buf₀, -, -, hf⟩ := hx.pending hpn
    exact absurd hph (hf.not_parked req resume)

theorem leaves_of_moves (h : Moves hp cfg x a ss (some r) x') :
    Leaves hp x'.consumed r x'.phase ∧ x'.pending = none := by
  cases h with
  | delivers hf hlen hg =>
    exact ⟨leaves_of_glue hg (delivered_of_framed prefix_rfl hlen hx.rest hf), rfl⟩
  | completes hpn hlen hg =>
    obtain ⟨cap, buf₀, hpre, hr, hf⟩ := hx.pending hpn
    exact ⟨leaves_of_glue hg (delivered_of_framed hpre hlen hr hf), rfl⟩
  | @answers req resume _ _ _ answer hph hg =>
    refine ⟨leaves_of_glue hg ?_, (not_pending_of_parked hx hph : x.pending = none)⟩
    have hr := hx.rest
    rw [hph] at hr
    cases resume <;> exact hr

theorem atRest_of_moves (h : Moves hp cfg x a ss out x')
    (ho : ∀ r, out = some r → r.isClosing = false) : AtRest hp cfg x' := by
  cases out with
  | some r =>
    obtain ⟨hle, hpn⟩ := leaves_of_moves hx h
    exact ⟨rest_of_leaves hle (ho r rfl) _, fun h => nomatch hpn.symm.trans h⟩
  | none =>
    cases h with
    | idle => exact hx
    | recv bytes =>
      refine ⟨rest_append hx.rest bytes, fun hpn => ?_⟩
      obtain ⟨cap, buf₀, hpre, hf⟩ := hx.pending hpn
      exact ⟨cap, buf₀, hpre.trans (prefix_append _ _), hf⟩
    | waits hf hm => exact ⟨rest_of_framed hx.rest hf hm, nofun⟩
    | @reads cap header_len bl _ hf hs =>
      obtain rfl := phase_eq_of_short hx.rest hf hs
      refine ⟨hx.rest, ?_⟩
      rintro _ _ ⟨⟩
      exact ⟨cap, x.buf, prefix_rfl, hx.rest, hf⟩

end

section

variable {U : Type*}

theorem atRest_fresh {conn : HttpConn U} (hc : conn.phase = .head) :
    AtRest hp cfg (Sys.fresh conn).point := by
  refine ⟨?_, nofun⟩
  rw [Sys.point, Sys.fresh, hc]
  exact .start

/-- On every run of a connection, heads are looked for at the end of a request only. A
reply that keeps the connection open ends a request there, or it is the one that goes on
with the body under way. -/
theorem open_reply_at_boundary (hp : Httparse) (cfg : HttpConfig) (max_request_bytes : ℕ)
    (conn : HttpConn U) (hconn : conn.phase = .head) (events : List (Event U)) :
    let sys := (Sys.fresh conn).run hp cfg max_request_bytes events
    (sys.closed = false → sys.conn.phase = .head → Boundary hp sys.consumed) ∧
      ∀ (e : Event U) (r : Response), (sys.next hp cfg max_request_bytes e).2 = some r →
        r.isClosing = false → r ≠ .defer → let sys' := (sys.next hp cfg max_request_bytes e).1
          sys'.conn.phase = .head ∧ Boundary hp sys'.consumed ∨
            sys'.conn.phase ≠ .head ∧ ∃ expect, r = interim expect := by
  intro sys
  have hre : sys.closed = false → AtRest hp cfg sys.point :=
    invariant_run max_request_bytes atRest_of_moves (fun _ => atRest_fresh hconn) events
  constructor
  · intro ho hh
    have := (hre ho).rest
    rw [Sys.point, hh] at this
    exact this
  · intro e r hr ho hrp
    unfold Sys.next at hr ⊢
    split_ifs at hr ⊢ with hcs
    obtain ⟨ss, -, ⟨hm, -⟩ | ⟨-, -, hn⟩⟩ := moves_exec hp cfg max_request_bytes sys e
    · rw [hr] at hm
      obtain ⟨hle, -⟩ := leaves_of_moves (hre (Bool.eq_false_iff.2 hcs)) hm
      simp only [Sys.point] at hle
      generalize (sys.exec hp cfg max_request_bytes e).1 = sys' at hle ⊢
      generalize hph : sys'.conn.phase = phase at hle
      cases hle with
      | closes hc => exact nomatch ho.symm.trans hc
      | ends he => exact .inl ⟨hph, he⟩
      | parks _ => exact absurd rfl hrp
      | goesOn expect _ hne => exact .inr ⟨hph ▸ hne, expect, rfl⟩
    · exact nomatch hn.symm.trans hr

end

def calm : Env := ⟨[], false, fun _ => false⟩

def answerOk : Handler Unit := fun _ u => (.respond (.new 200), u)

def uploading : Sys Unit :=
  (Sys.fresh (HttpConn.new ())).run uploadParse default Usize.MAX [.recv uploadHead]

/-- The upload is over once its terminal chunk is read. -/
theorem open_reply_at_boundary_upload :
    let sys := (Sys.fresh (HttpConn.new ())).run uploadParse default Usize.MAX
      [.recv uploadHead, .pump answerOk calm false, .recv (ascii "0\r\n\r\n")]
    let out := sys.next uploadParse default Usize.MAX (.pump answerOk calm false)
    out.2 = some (.reply (ascii "HTTP/1.1 200 OK\r\nDate: \r\nContent-Length: 0\r\n\r\n")) ∧
      (out.1.conn.phase = .head ∧ Boundary uploadParse out.1.consumed ∨
        out.1.conn.phase ≠ .head ∧ ∃ expect,
          Response.reply (ascii "HTTP/1.1 200 OK\r\nDate: \r\nContent-Length: 0\r\n\r\n") =
            interim expect) := by
  intro sys out
  have hr : out.2 =
      some (.reply (ascii "HTTP/1.1 200 OK\r\nDate: \r\nContent-Length: 0\r\n\r\n")) := by
    decide +kernel
  exact ⟨hr, (open_reply_at_boundary uploadParse default Usize.MAX (HttpConn.new ()) rfl _).2
    _ _ hr rfl nofun⟩

/-- A reply that keeps the connection open, sent when none of the body has been read. -/
theorem interim_before_body :
    let out := uploading.next uploadParse default Usize.MAX (.pump answerOk calm false)
    out.2 = some (.reply CONTINUE_LINE) ∧ (Response.reply CONTINUE_LINE).isClosing = false ∧
      out.1.consumed = uploadHead ∧ IsHead uploadParse uploadHead .chunked ∧
      ¬ IsBody .chunked [] := by
  refine ⟨by decide +kernel, rfl, by decide +kernel, ⟨_, rfl, by decide +kernel, ?_⟩, ?_⟩
  · rfl
  · rw [IsBody]
    decide +kernel

end TruenasRos.Http
