import TruenasRos.Http.Framed
import TruenasRos.Http.Glue

/-! # The published buffer bound

However framing and the glue follow each other, the framer asks for more only on a
buffer within `minRequestBytes`, and declares no larger message.
-/

namespace TruenasRos.Http

open Protocol

variable {U : Type*} {hp : Httparse} {cfg : HttpConfig} {conn : HttpConn U}

section

variable (hp cfg)

/-- Connections made from new ones by framing, the glue and workers' answers, in any order
and on any bytes. -/
inductive Reachable : HttpConn U → Prop
  | new (state : U) : Reachable (.new state)
  | newStreaming (state : U) (cap : ℕ+) : Reachable (.newStreaming state cap)
  | framed {conn : HttpConn U} (buf : Bytes) (h : Reachable conn) :
      Reachable (frame hp cfg buf conn).2
  | stepped {conn : HttpConn U} (handler : Handler U) (env : Env) (header : Bytes) (body : Body)
      (h : Reachable conn) :
      Reachable (Protocol.step hp handler env header body conn).2
  | answered {conn : HttpConn U} {req resume} (answer : ParkAnswer) (h : Reachable conn)
      (hphase : conn.phase = .parked req resume) :
      Reachable { conn with phase := .parked { req with answer := some answer } resume }

/-- The lengths a phase carries are within the caps. -/
def Bounded : Phase → Prop
  | .expectHead _ (.known n) => n ≤ cfg.max_body
  | .expectBody _ (.known n) => n ≤ cfg.max_body
  | .chunkedBody _ head_len _ => head_len ≤ cfg.max_head
  | _ => True

end

variable {buf head : Bytes} {f : Framing} {ph ph' : Phase} {ss : List Seen} {r : Response}
  {stash : Option Bytes} {head_len n : ℕ} {s : ChunkScan} {cap : Option ℕ+}

theorem bounded_of_scans
    (h : Scans cfg buf stash head_len s f ph) (hlen : head_len ≤ cfg.max_head) :
    Bounded cfg ph := by
  cases h with
  | failed => trivial
  | waits _ _ => exact hlen
  | done _ _ => trivial

theorem bounded_of_framed (h : Framed hp cfg cap buf ph f ph') (hph : Bounded cfg ph) :
    Bounded cfg ph' := by
  cases h with
  | repeats _ => exact hph
  | holds => trivial
  | rest _ => exact hph
  | starts _ hs => exact bounded_of_scans hs (Nat.zero_le _)
  | scans hs => exact bounded_of_scans hs hph
  | flows hf => cases hf <;> trivial
  | heads hh =>
    cases hh with
    | failed | more _ | known _ _ _ _ | opens _ _ _ _ => trivial
    | @expects facts kind _ _ hk =>
      cases kind with
      | known n => exact hk.2.2.2
      | chunked => trivial
    | chunked _ hlen _ hs => exact bounded_of_scans hs hlen

theorem bounded_of_last {stage : Stage} (h : Last head stage ss r ph) : Bounded cfg ph := by
  cases h <;> trivial

theorem bounded_of_resumes {park : StreamPark} (h : Resumes head park ss r ph) :
    Bounded cfg ph := by
  cases h with
  | body _ => cases park.next <;> trivial
  | fin _ hl => exact bounded_of_last hl

theorem bounded_of_glue {header body : Bytes} (h : Glue header body ph ss r ph')
    (hph : Bounded cfg ph) : Bounded cfg ph' := by
  cases h with
  | closes _ _ => trivial
  | @dance head kind => cases kind <;> exact hph
  | whole _ hl | ended hl | again _ hl => exact bounded_of_last hl
  | streamed _ ht | redriven _ ht =>
    cases ht with
    | proceeds hn => exact bounded_of_resumes hn
    | _ => trivial
  | resumed _ hr => exact bounded_of_resumes hr
  | replied _ _ _ => trivial

theorem bounded_of_reachable (h : Reachable hp cfg conn) : Bounded cfg conn.phase := by
  induction h with
  | new state => trivial
  | newStreaming state cap => trivial
  | framed buf _ ih => exact bounded_of_framed (framed_frame _ _ buf _).1 ih
  | stepped handler env header body _ ih =>
    obtain ⟨_, -, hg⟩ := glue_step hp handler env header body _
    exact bounded_of_glue hg ih
  | answered answer _ hph ih => trivial

theorem le_minRequestBytes_of_buffered (hn : n ≤ Usize.MAX)
    (h : n ≤ cfg.max_head + cfg.max_body + CHUNK_WIRE_OVERHEAD + (TRAILER_LINE_MAX + 1)) :
    n ≤ cfg.minRequestBytes := by
  rw [HttpConfig.minRequestBytes, Usize.saturatingAdd_saturatingAdd cfg.max_head cfg.max_body,
    Usize.saturatingAdd_saturatingAdd (cfg.max_head + cfg.max_body)]
  exact le_max_of_le_left (Usize.le_saturatingAdd h hn)

theorem le_minRequestBytes_of_window (hn : n ≤ Usize.MAX)
    (h : n ≤ cfg.max_head + STREAM_WINDOW + (CHUNK_LINE_MAX + 4)) : n ≤ cfg.minRequestBytes := by
  rw [HttpConfig.minRequestBytes, Usize.saturatingAdd_saturatingAdd cfg.max_head STREAM_WINDOW]
  exact le_max_of_le_right (Usize.le_saturatingAdd h hn)

theorem wireCap_le : cfg.wireCap ≤ cfg.max_body + CHUNK_WIRE_OVERHEAD := min_le_left _ _

def Within (cfg : HttpConfig) (buf : Bytes) : Framing → Prop
  | .complete header_len body_len => Usize.saturatingAdd header_len body_len ≤ cfg.minRequestBytes
  | _ => buf.length ≤ cfg.minRequestBytes

def Failing : Phase → Prop
  | .fail _ _ => True
  | _ => False

theorem within_of_scans (h : Scans cfg buf stash head_len s f ph) (hlen : head_len ≤ cfg.max_head)
    (hb : buf.length ≤ Usize.MAX) (hli : f = .complete buf.length 0 → ¬ Failing ph) :
    Within cfg buf f := by
  have hc := @wireCap_le cfg
  cases h with
  | failed => exact absurd trivial (hli rfl)
  | waits hs hw =>
    have hl := length_le_of_waiting (congrArg Prod.snd hs)
    rw [hs, List.length_drop] at hl
    exact le_minRequestBytes_of_buffered hb (by simp only at hl; omega)
  | @done s' extent hs hw =>
    exact le_minRequestBytes_of_buffered (min_le_right _ _) ((min_le_left _ _).trans (by omega))

theorem within_of_flows (h : Flows buf ph f ph') (hb : buf.length ≤ Usize.MAX)
    (hl : f = .complete buf.length 0 → ¬ Failing ph') : Within cfg buf f := by
  have hw := fun {n : ℕ} (h : n ≤ STREAM_WINDOW + (CHUNK_LINE_MAX + 4)) =>
    @le_minRequestBytes_of_window cfg (min n Usize.MAX) (min_le_right _ _)
      ((min_le_left _ _).trans (by omega))
  cases h with
  | failed => exact absurd trivial (hl rfl)
  | within _ => exact hw (by omega)
  | waits hs =>
    refine le_minRequestBytes_of_window hb ((length_le_of_step_more hs).trans ?_)
    simp only [CHUNK_LINE_MAX, TRAILER_MAX, TRAILER_LINE_MAX, STREAM_WINDOW]
    omega
  | chunk hs =>
    have := framing_le_of_step_chunk hs
    exact hw (by omega)
  | last hs =>
    refine hw ((framing_le_of_step_last hs).trans ?_)
    decide
  | between _ hnil =>
    rw [hnil]
    exact Nat.zero_le _
  | window _ _ => exact hw (by omega)

theorem within_of_framed (h : Framed hp cfg cap buf ph f ph')
    (hph : Bounded cfg ph) (hb : buf.length ≤ Usize.MAX)
    (hd : f = .complete buf.length 0 → ¬ Undelivered ph)
    (hl : f = .complete buf.length 0 → ¬ Failing ph')
    (hu : f = .more → ∀ req resume, ph ≠ .parked req resume) : Within cfg buf f := by
  have hbu := fun {n : ℕ} (h : n ≤ cfg.max_head + cfg.max_body) =>
    @le_minRequestBytes_of_buffered cfg (min n Usize.MAX) (min_le_right _ _)
      ((min_le_left _ _).trans (by omega))
  cases h with
  | repeats hr => exact absurd hr (hd rfl)
  | holds => exact absurd rfl (hu rfl _ _)
  | @rest _ head n hre =>
    have : n ≤ cfg.max_body := by rcases hre with rfl | rfl <;> exact hph
    exact hbu (by omega)
  | starts _ hs => exact within_of_scans hs (Nat.zero_le _) hb hl
  | scans hs => exact within_of_scans hs hph hb hl
  | flows hf => exact within_of_flows hf hb hl
  | heads hh =>
    cases hh with
    | failed => exact absurd trivial (hl rfl)
    | more hlen => exact le_minRequestBytes_of_buffered hb (by omega)
    | known _ hlen _ hn | expects _ hlen _ | opens _ hlen _ _ => exact hbu (by omega)
    | chunked _ hlen _ hs => exact within_of_scans hs hlen hb hl

/-- A buffer the framer asks more of, and a message it declares in a phase whose last
message was delivered, is within `minRequestBytes`. -/
theorem frame_within_minRequestBytes (hp : Httparse) (cfg : HttpConfig) (conn : HttpConn U)
    (hconn : Reachable hp cfg conn) (buf : Bytes) (hbuf : buf.length ≤ Usize.MAX) :
    ((∀ req resume, conn.phase ≠ .parked req resume) →
      ((frame hp cfg buf conn).1 = .more ∨ (frame hp cfg buf conn).1 = .moreInMessage) →
        buf.length ≤ cfg.minRequestBytes) ∧
    (¬ Undelivered conn.phase → ¬ Failing (frame hp cfg buf conn).2.phase →
      ∀ header_len body_len, (frame hp cfg buf conn).1 = .complete header_len body_len →
        Usize.saturatingAdd header_len body_len ≤ cfg.minRequestBytes) := by
  have hf := (framed_frame hp cfg buf conn).1
  have hb := bounded_of_reachable hconn
  constructor
  · rintro hu (hm | hm)
    all_goals
      have := within_of_framed hf hb hbuf (by rw [hm]; nofun) (by rw [hm]; nofun)
        fun _ => hu
      rwa [hm] at this
  · intro hd hl header_len body_len hc
    have := within_of_framed hf hb hbuf (fun _ => hd) (fun _ => hl) (by rw [hc]; nofun)
    rwa [hc] at this

/-- A fresh connection asks for more on part of a head, within the bound. -/
theorem frame_within_minRequestBytes_fresh :
    (frame uploadParse default (uploadHead.take 40) (HttpConn.new ())).1 = .more ∧
      (uploadHead.take 40).length ≤ (default : HttpConfig).minRequestBytes := by
  have hm : (frame uploadParse default (uploadHead.take 40) (HttpConn.new ())).1 = .more := by
    decide +kernel
  exact ⟨hm, (frame_within_minRequestBytes uploadParse default (HttpConn.new ()) (.new ())
    (uploadHead.take 40) (by decide +kernel)).1 nofun (.inl hm)⟩

/-- A connection whose upload was announced to the glue but not delivered. -/
def announced : HttpConn Unit := (frame uploadParse default uploadHead (.newStreaming () 1)).2

/-- Framed again before it is delivered, an announced upload takes a buffer of any length. -/
theorem frame_beyond_minRequestBytes :
    (default : HttpConfig).validate = .ok () ∧ Reachable uploadParse default announced ∧
      ((∀ req resume, announced.phase ≠ .parked req resume) ∧ ¬ Failing (frame uploadParse default
          (List.replicate ((default : HttpConfig).minRequestBytes + 1) 0) announced).2.phase) ∧
      (frame uploadParse default
        (List.replicate ((default : HttpConfig).minRequestBytes + 1) 0) announced).1 =
          .complete ((default : HttpConfig).minRequestBytes + 1) 0 ∧
      (default : HttpConfig).minRequestBytes <
        Usize.saturatingAdd ((default : HttpConfig).minRequestBytes + 1) 0 := by
  have hph : announced.phase = .streamOpen uploadHead true .chunked := by rfl
  refine ⟨rfl, .framed uploadHead (.newStreaming () 1), ⟨by simp [hph], ?_⟩, ?_, ?_⟩
  · simp [frame, hph, Failing]
  · simp [frame, hph]
  · decide

end TruenasRos.Http
