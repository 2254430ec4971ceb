import TruenasRos.Http.Framed
import TruenasRos.Http.Glue

/-! # A connection under the reactor

The reactor reads, frames and delivers; workers answer parked requests. Events come
in any order. `Moves` is the same machine seen from outside: the phase, the bytes
delivered so far and those still buffered.
-/

namespace TruenasRos.Http

open Protocol

/-- A connection: the bytes delivered to the glue, those read and not yet delivered, and the
message whose rest is being read. -/
structure Sys (U : Type*) where
  conn : HttpConn U
  consumed : Bytes
  buf : Bytes
  pending : Option (ℕ × ℕ)
  closed : Bool

/-- What can happen to a connection. A worker redrives its request or leaves an answer. -/
inductive Event (U : Type*)
  | recv (bytes : Bytes)
  | pump (handler : Handler U) (env : Env) (owned : Bool)
  | body (handler : Handler U) (env : Env) (owned : Bool)
  | answer (answer : Option ParkAnswer) (handler : Handler U) (env : Env)
  | hangup

section

variable {U : Type*} {hp : Httparse} {cfg : HttpConfig} {mrb : ℕ} {sys : Sys U}

def Sys.fresh (conn : HttpConn U) : Sys U := ⟨conn, [], [], none, false⟩

def Sys.deliver (hp : Httparse) (handler : Handler U) (env : Env) (owned : Bool) (sys : Sys U)
    (header_len body_len : ℕ) : Sys U × Option Response :=
  let header := sys.buf.take header_len
  let body := (sys.buf.drop header_len).take body_len
  let (r, conn) := Protocol.step hp handler env header ⟨body, owned⟩ sys.conn
  ({ conn := conn
     consumed := sys.consumed ++ sys.buf.take (header_len + body_len)
     buf := sys.buf.drop (header_len + body_len)
     pending := none
     closed := r.isClosing }, some r)

def Sys.exec (hp : Httparse) (cfg : HttpConfig) (max_request_bytes : ℕ) (sys : Sys U) :
    Event U → Sys U × Option Response
  | .recv bytes => ({ sys with buf := sys.buf ++ bytes }, none)
  | .pump handler env owned =>
    let (f, conn) := frame hp cfg sys.buf sys.conn
    let sys := { sys with conn := conn, pending := none }
    match f with
    | .complete header_len body_len =>
      if header_len + body_len = 0 ∨ max_request_bytes < header_len + body_len then
        ({ sys with closed := true }, none)
      else if header_len + body_len ≤ sys.buf.length then
        sys.deliver hp handler env owned header_len body_len
      else ({ sys with pending := some (header_len, body_len) }, none)
    | _ => (sys, none)
  | .body handler env owned =>
    match sys.pending with
    | some (header_len, body_len) =>
      if header_len + body_len ≤ sys.buf.length then
        sys.deliver hp handler env owned header_len body_len
      else (sys, none)
    | none => (sys, none)
  | .answer answer handler env =>
    match sys.conn.phase with
    | .parked req resume =>
      let conn := { sys.conn with phase := .parked { req with answer := answer } resume }
      let (r, conn) := Protocol.step hp handler env [] ⟨[], false⟩ conn
      ({ sys with conn := conn, closed := r.isClosing }, some r)
    | _ => (sys, none)
  | .hangup => ({ sys with closed := true }, none)

def Sys.next (hp : Httparse) (cfg : HttpConfig) (max_request_bytes : ℕ) (sys : Sys U)
    (e : Event U) : Sys U × Option Response :=
  if sys.closed then (sys, none) else sys.exec hp cfg max_request_bytes e

theorem Sys.next_of_open (h : sys.closed = false) (e : Event U) :
    sys.next hp cfg mrb e = sys.exec hp cfg mrb e :=
  if_neg (Bool.eq_false_iff.1 h)

theorem Sys.next_of_closed (h : sys.closed = true) (e : Event U) :
    sys.next hp cfg mrb e = (sys, none) :=
  if_pos h

def Sys.run (hp : Httparse) (cfg : HttpConfig) (max_request_bytes : ℕ) (sys : Sys U)
    (events : List (Event U)) : Sys U :=
  events.foldl (fun sys e => (sys.next hp cfg max_request_bytes e).1) sys

/-- Where a connection stands. -/
structure Point where
  phase : Phase
  consumed : Bytes
  buf : Bytes
  pending : Option (ℕ × ℕ)

def Sys.point (sys : Sys U) : Point := { sys with phase := sys.conn.phase }

section

variable (hp : Httparse) (cfg : HttpConfig) (x : Point)

/-- The point after a message of `n` bytes was delivered and left `phase`. -/
def Point.after (n : ℕ) (phase : Phase) : Point :=
  ⟨phase, x.consumed ++ x.buf.take n, x.buf.drop n, none⟩

/-- The moves of a connection that stays known: what a worker said, what the handler saw
and the reply. -/
inductive Moves :
    Option (Option ParkAnswer) → List Seen → Option Response → Point → Prop
  | idle {a} : Moves a [] none x
  | recv (bytes : Bytes) : Moves none [] none { x with buf := x.buf ++ bytes }
  | waits {cap f phase} (hf : Framed hp cfg cap x.buf x.phase f phase)
      (hmore : f = .more ∨ f = .moreInMessage) :
      Moves none [] none { x with phase := phase, pending := none }
  | reads {cap header_len body_len phase}
      (hf : Framed hp cfg cap x.buf x.phase (.complete header_len body_len) phase)
      (hshort : x.buf.length < header_len + body_len) :
      Moves none [] none { x with phase := phase, pending := some (header_len, body_len) }
  | delivers {cap header_len body_len phase phase' ss r}
      (hf : Framed hp cfg cap x.buf x.phase (.complete header_len body_len) phase)
      (hlen : header_len + body_len ≤ x.buf.length)
      (hg : Glue (x.buf.take header_len) ((x.buf.drop header_len).take body_len) phase ss r
        phase') :
      Moves none ss (some r) (x.after (header_len + body_len) phase')
  | completes {header_len body_len phase' ss r} (hpending : x.pending = some (header_len, body_len))
      (hlen : header_len + body_len ≤ x.buf.length)
      (hg : Glue (x.buf.take header_len) ((x.buf.drop header_len).take body_len) x.phase ss r
        phase') :
      Moves none ss (some r) (x.after (header_len + body_len) phase')
  | answers {req resume phase' ss r} (answer : Option ParkAnswer)
      (hphase : x.phase = .parked req resume)
      (hg : Glue [] [] (.parked { req with answer := answer } resume) ss r phase') :
      Moves (some answer) ss (some r) { x with phase := phase' }

end

/-- What a worker says in an event. -/
def Event.answer? : Event U → Option (Option ParkAnswer)
  | .answer said _ _ => some said
  | _ => none

/-- The calls an event makes on the handler it comes with. -/
def Event.Calls : Event U → U → List Seen → U → Prop
  | .pump handler _ _ => Protocol.Calls handler
  | .body handler _ _ => Protocol.Calls handler
  | .answer _ handler _ => Protocol.Calls handler
  | _ => fun u ss u' => ss = [] ∧ u' = u

variable {hp : Httparse} {cfg : HttpConfig} {sys : Sys U} {handler : Handler U} {env : Env}

theorem moves_deliver (hp : Httparse) (handler : Handler U) (env : Env) (owned : Bool) (sys : Sys U)
    (header_len bl : ℕ) : ∃ ss r, Protocol.Calls handler sys.conn.state ss
        (sys.deliver hp handler env owned header_len bl).1.conn.state ∧
      (sys.deliver hp handler env owned header_len bl).2 = some r ∧
      (sys.deliver hp handler env owned header_len bl).1.closed = r.isClosing ∧
      ∃ ph, (sys.deliver hp handler env owned header_len bl).1.point =
          sys.point.after (header_len + bl) ph ∧
        Glue (sys.buf.take header_len) ((sys.buf.drop header_len).take bl) sys.conn.phase
          ss r ph := by
  obtain ⟨ss, hc, hg⟩ := glue_step hp handler env (sys.buf.take header_len)
    ⟨(sys.buf.drop header_len).take bl, owned⟩ sys.conn
  exact ⟨ss, _, hc, rfl, rfl, _, rfl, hg⟩

/-- An event that `out` answers is a move, and the reply says whether it closes the
connection; an event without an answer may close it, too. -/
def Sys.Acts (hp : Httparse) (cfg : HttpConfig) (sys : Sys U) (a : Option (Option ParkAnswer))
    (ss : List Seen) (out : Sys U × Option Response) : Prop :=
  Moves hp cfg sys.point a ss out.2 out.1.point ∧
      (∀ r, out.2 = some r → out.1.closed = r.isClosing) ∨
    out.1.closed = true ∧ ss = [] ∧ out.2 = none

theorem moves_exec (hp : Httparse) (cfg : HttpConfig) (mrb : ℕ) (sys : Sys U) (e : Event U) :
    ∃ ss, e.Calls sys.conn.state ss (sys.exec hp cfg mrb e).1.conn.state ∧
      sys.Acts hp cfg e.answer? ss (sys.exec hp cfg mrb e) := by
  cases e with
  | recv bytes => exact ⟨[], ⟨rfl, rfl⟩, .inl ⟨.recv bytes, nofun⟩⟩
  | hangup => exact ⟨[], ⟨rfl, rfl⟩, .inr ⟨rfl, rfl, rfl⟩⟩
  | pump handler env owned =>
    obtain ⟨hf, -, hs⟩ := framed_frame hp cfg sys.buf sys.conn
    simp only [Sys.exec]
    generalize frame hp cfg sys.buf sys.conn = out at hf hs
    obtain ⟨f, conn⟩ := out
    cases f with
    | more => exact ⟨[], hs ▸ .nil _, .inl ⟨.waits hf (.inl rfl), nofun⟩⟩
    | moreInMessage => exact ⟨[], hs ▸ .nil _, .inl ⟨.waits hf (.inr rfl), nofun⟩⟩
    | complete header_len bl =>
      simp only
      split_ifs with hcap hlen
      · exact ⟨[], hs ▸ .nil _, .inr ⟨rfl, rfl, rfl⟩⟩
      · obtain ⟨ss, r, hc, hr, hcs, ph, hpo, hg⟩ := moves_deliver hp handler env
          owned { sys with conn := conn, pending := none } header_len bl
        refine ⟨ss, hs ▸ hc, .inl ⟨?_, ?_⟩⟩
        · rw [hr, hpo]
          exact .delivers hf hlen hg
        · rw [hr]
          rintro _ ⟨⟩
          exact hcs
      · exact ⟨[], hs ▸ .nil _, .inl ⟨.reads hf (not_le.1 hlen), nofun⟩⟩
  | body handler env owned =>
    simp only [Sys.exec]
    cases hpn : sys.pending with
    | none => exact ⟨[], .nil _, .inl ⟨.idle, nofun⟩⟩
    | some lens =>
      obtain ⟨header_len, bl⟩ := lens
      simp only
      split_ifs with hlen
      · obtain ⟨ss, r, hc, hr, hcs, ph, hpo, hg⟩ := moves_deliver hp handler env
          owned sys header_len bl
        refine ⟨ss, hc, .inl ⟨?_, ?_⟩⟩
        · rw [hr, hpo]
          exact .completes hpn hlen hg
        · rw [hr]
          rintro _ ⟨⟩
          exact hcs
      · exact ⟨[], .nil _, .inl ⟨.idle, nofun⟩⟩
  | answer answer handler env =>
    simp only [Sys.exec]
    cases hph : sys.conn.phase with
    | parked req resume =>
      obtain ⟨ss, hc, hg⟩ := glue_step hp handler env [] ⟨[], false⟩
        { sys.conn with phase := .parked { req with answer := answer } resume }
      refine ⟨ss, hc, .inl ⟨.answers answer hph hg, ?_⟩⟩
      rintro _ ⟨⟩
      rfl
    | _ => exact ⟨[], .nil _, .inl ⟨.idle, nofun⟩⟩

/-- What every move keeps that leaves the connection open holds as long as it is open. -/
theorem invariant_run {I : Point → Prop} (mrb : ℕ)
    (hI : ∀ {x a ss out x'}, I x → Moves hp cfg x a ss out x' →
      (∀ r, out = some r → r.isClosing = false) → I x')
    (h : sys.closed = false → I sys.point) (events : List (Event U))
    (ho : (sys.run hp cfg mrb events).closed = false) : I (sys.run hp cfg mrb events).point := by
  induction events generalizing sys with
  | nil => exact h ho
  | cons e events ih =>
    refine @ih (sys.next hp cfg mrb e).1 (fun ho' => ?_) ho
    unfold Sys.next at ho' ⊢
    split_ifs at ho' ⊢ with hc
    · exact absurd hc (Bool.eq_false_iff.1 ho')
    · obtain ⟨ss, -, ⟨hm, hr⟩ | ⟨hs, -⟩⟩ := moves_exec hp cfg mrb sys e
      · exact hI (h (Bool.eq_false_iff.2 hc)) hm fun r hout => hr r hout ▸ ho'
      · exact absurd hs (Bool.eq_false_iff.1 ho')

end

end TruenasRos.Http
