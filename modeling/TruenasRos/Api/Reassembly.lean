import TruenasRos.Api.Moves
import TruenasRos.Api.Server

/-! # Messages in pieces

A message may come cut into frames, with control frames between them. Both roles keep the open
message in `frag`; what they make of it at its last piece is what they make of it in one frame.
-/

namespace TruenasRos.Api

open TruenasRos.Ws List JsonRpcServer

abbrev Frame := Bool × Opcode × Bytes

inductive Control
  | ping (payload : Bytes)
  | pong (payload : Bytes)
  deriving DecidableEq

def Control.frame : Control → Frame
  | ping payload => (true, .Ping, payload)
  | pong payload => (true, .Pong, payload)

def Control.echo : Control → Option Bytes
  | ping payload => some payload
  | pong _ => none

/-- A message in pieces, each behind the control frames sent before it. -/
abbrev Cut := List (List Control × Bytes)

def fragments (op : Opcode) : Cut → List Frame
  | [] => []
  | (before, piece) :: rest =>
    before.map Control.frame ++ (rest.isEmpty, op, piece) :: fragments .Cont rest

def joined (cut : Cut) : Bytes := cut.flatMap (·.2)

def echoes (cut : Cut) : List Bytes := cut.flatMap fun r => r.1.filterMap Control.echo

/-- A cap of `cap` is in force, and the open message is within it. -/
def Fits (cap : ℕ) (frag : Option Bytes) (max_inbound : ℕ) : Prop :=
  max_inbound = cap ∧ ∀ buf ∈ frag, buf.length ≤ cap

theorem fits_none (cap : ℕ) : Fits cap none cap := ⟨rfl, nofun⟩

theorem Fits.open {cap max_inbound : ℕ} {frag : Option Bytes} {p : Bytes}
    (h : Fits cap frag max_inbound) (hp : p.length ≤ max_inbound) : Fits cap (some p) max_inbound :=
  ⟨h.1, by simpa [← h.1] using hp⟩

section

variable {σ α : Type}

def feed (f : σ → Frame → σ × List α) (s : σ) : List Frame → σ × List α
  | [] => (s, [])
  | x :: xs => ((feed f (f s x).1 xs).1, (f s x).2 ++ (feed f (f s x).1 xs).2)

variable {f : σ → Frame → σ × List α} {s : σ}

theorem feed_append (xs ys : List Frame) : feed f s (xs ++ ys) =
    ((feed f (feed f s xs).1 ys).1, (feed f s xs).2 ++ (feed f (feed f s xs).1 ys).2) := by
  induction xs generalizing s with
  | nil => rfl
  | cons x xs ih => simp [feed, ih]

theorem feed_invariant {I : σ → Prop} (h : ∀ s x, I s → I (f s x).1) (xs : List Frame)
    (hs : I s) : I (feed f s xs).1 := by
  induction xs generalizing s with
  | nil => exact hs
  | cons x xs ih => exact ih (h s x hs)

variable (f) (put : Option Bytes → σ) (cap : ℕ) (pong : Bytes → α) (fault : String → α)

/-- The opcode that the next piece has to carry. -/
def nextOpcode : Option Bytes → Opcode
  | none => .Text
  | some _ => .Cont

/-- What an endpoint does with the message that is open in `put o`, at each kind of frame. -/
structure Assembles (message : Bytes → σ × List α) : Prop where
  control : ∀ o (x : Control), f (put o) x.frame = (put o, (x.echo.map pong).toList)
  data : ∀ o fin p, (o.getD [] ++ p).length ≤ cap → f (put o) (fin, nextOpcode o, p) =
    if fin then message (o.getD [] ++ p) else (put (some (o.getD [] ++ p)), [])
  long : ∀ o fin p, cap < (o.getD [] ++ p).length →
    ∃ what, (f (put o) (fin, nextOpcode o, p)).2 = [fault what]

/-- An endpoint whose open message is `o` in the state `put o` treats a message the same however
it is cut, holds at most `cap` bytes of one, and refuses a frame that is out of place. -/
structure Transparent (frag : σ → Option Bytes) : Prop where
  whole : ∀ cut ≠ [], (joined cut).length ≤ cap → feed f (put none) (fragments .Text cut) =
    ((f (put none) (true, .Text, joined cut)).1,
      (echoes cut).map pong ++ (f (put none) (true, .Text, joined cut)).2)
  long : ∀ cut, cap < (joined cut).length →
    ∃ what, fault what ∈ (feed f (put none) (fragments .Text cut)).2
  held : ∀ frames, ∀ buf ∈ frag (feed f (put none) frames).1, buf.length ≤ cap
  inside : ∀ buf fin p, ∃ what, (f (put (some buf)) (fin, .Text, p)).2 = [fault what]
  outside : ∀ fin p, ∃ what, (f (put none) (fin, .Cont, p)).2 = [fault what]

variable {f put cap pong fault} {message : Bytes → σ × List α}

namespace Assembles

variable (h : Assembles f put cap pong fault message) (o : Option Bytes) {cut : Cut}
include h

theorem feed_controls (xs : List Control) :
    feed f (put o) (xs.map Control.frame) = (put o, (xs.filterMap Control.echo).map pong) := by
  induction xs with
  | nil => rfl
  | cons x xs ih =>
    simp only [map_cons, feed, h.control, ih, filterMap_cons]
    cases x <;> rfl

theorem feed_fragments (hc : cut ≠ []) (hl : (o.getD [] ++ joined cut).length ≤ cap) :
    feed f (put o) (fragments (nextOpcode o) cut) =
      ((message (o.getD [] ++ joined cut)).1,
        (echoes cut).map pong ++ (message (o.getD [] ++ joined cut)).2) := by
  induction cut generalizing o with
  | nil => exact absurd rfl hc
  | cons r rest ih =>
    obtain ⟨before, piece⟩ := r
    have hp : (o.getD [] ++ piece).length ≤ cap := by
      simp only [joined, flatMap_cons, length_append] at hl ⊢
      omega
    rw [fragments, feed_append, h.feed_controls, feed, h.data o _ _ hp]
    cases rest with
    | nil => simp [fragments, joined, echoes, feed]
    | cons r rest =>
      have hr := ih (some (o.getD [] ++ piece)) nofun (by simpa [joined] using hl)
      simp only [nextOpcode] at hr
      simp [hr, joined, echoes]

theorem whole (hc : cut ≠ []) (hl : (joined cut).length ≤ cap) :
    feed f (put none) (fragments .Text cut) =
      ((f (put none) (true, .Text, joined cut)).1,
        (echoes cut).map pong ++ (f (put none) (true, .Text, joined cut)).2) := by
  have hm : f (put none) (true, .Text, joined cut) = message (joined cut) := h.data none true _ hl
  rw [hm]
  exact h.feed_fragments none hc hl

theorem fault_fragments (ho : (o.getD []).length ≤ cap)
    (hl : cap < (o.getD [] ++ joined cut).length) :
    ∃ what, fault what ∈ (feed f (put o) (fragments (nextOpcode o) cut)).2 := by
  induction cut generalizing o with
  | nil => simp [joined] at hl; omega
  | cons r rest ih =>
    obtain ⟨before, piece⟩ := r
    rw [fragments, feed_append, h.feed_controls, feed]
    rcases lt_or_ge cap (o.getD [] ++ piece).length with hp | hp
    · obtain ⟨what, hw⟩ := h.long o rest.isEmpty piece hp
      exact ⟨what, by simp [hw]⟩
    · rw [h.data o _ _ hp]
      cases rest with
      | nil => simp [joined] at hl hp; omega
      | cons r rest =>
        obtain ⟨what, hw⟩ := ih (some (o.getD [] ++ piece)) hp (by simpa [joined] using hl)
        exact ⟨what, mem_append_right _ (mem_append_right _ hw)⟩

end Assembles

end

namespace Session

def receive (c : Codec) (s : Session) : Frame → Session × List Act
  | (fin, opcode, payload) => s.onFrame c fin opcode payload

variable (c : Codec) (s : Session) {cap : ℕ}

theorem assembles : Assembles (receive c) (fun o => { s with frag := o }) s.max_inbound
    (fun p => .Send (.pong p)) .Fault ({ s with frag := none }.onMessage c) where
  control o x := by cases x <;> rfl
  data o fin p hp := by
    rw [length_append] at hp
    cases o <;> cases fin <;> simp_all [receive, onFrame, nextOpcode]
  long o fin p hp := by
    rw [length_append] at hp
    cases o <;> cases fin <;> simp_all [receive, onFrame, nextOpcode]

theorem frag_onMessage (text : Bytes) :
    (s.onMessage c text).1.frag = s.frag ∧ (s.onMessage c text).1.max_inbound = s.max_inbound := by
  rcases s.onMessage_cases c text with ⟨subs, a, -, heq⟩ | ⟨e, heq⟩ | ⟨id, oc, -, -, -, heq⟩ <;>
    rw [heq]
  · exact ⟨rfl, rfl⟩
  · exact ⟨rfl, rfl⟩
  · rcases s.onReply_cases c id oc with heq | ⟨p, -, -, heq⟩ | ⟨p, frame, -, -, -, -, heq⟩ |
      ⟨p, -, -, -, heq⟩ <;> rw [heq]
    · exact ⟨rfl, rfl⟩
    · exact ⟨rfl, rfl⟩
    · exact ⟨rfl, rfl⟩
    · obtain ⟨pending, budget, backlog, bytes, hd⟩ := (s.credit id oc.refused).drains.frame
      obtain ⟨out, ho, heq⟩ := settle_reports c (s.credit id oc.refused) p oc
      rw [hd] at ho
      rw [heq]
      cases ho <;> exact ⟨rfl, rfl⟩

theorem fits_onMessage (h : Fits cap s.frag s.max_inbound) (text : Bytes) :
    Fits cap (s.onMessage c text).1.frag (s.onMessage c text).1.max_inbound := by
  obtain ⟨hf, hm⟩ := s.frag_onMessage c text
  rwa [hf, hm]

theorem fits_receive (x : Frame) (h : Fits cap s.frag s.max_inbound) :
    Fits cap (s.receive c x).1.frag (s.receive c x).1.max_inbound := by
  obtain ⟨fin, op, p⟩ := x
  cases op with
  | Ping | Pong | Binary => exact h
  | Close =>
    simp only [receive, onFrame, onCloseFrame]
    split
    · exact h
    · exact ⟨h.1, by simp⟩
  | Text =>
    simp only [receive, onFrame]
    split_ifs with _ _ hl
    · exact h
    · exact h
    · exact h.open (not_lt.1 hl)
    · exact h
    · exact s.fits_onMessage c h p
  | Cont =>
    simp only [receive, onFrame]
    split
    · exact h
    · next buf _ =>
      split_ifs with hl
      · exact ⟨h.1, by simp⟩
      · exact fits_onMessage c { s with frag := none } ⟨h.1, by simp⟩ _
      · exact ⟨h.1, by simpa [← h.1] using hl⟩

end Session

namespace JsonRpcServer

def receive (c : ServerCodec) (s : JsonRpcServer) : Frame → JsonRpcServer × List ServerAct
  | (fin, opcode, payload) => s.onFrame c fin (some opcode) payload

variable (c : ServerCodec) (s : JsonRpcServer) {cap : ℕ}

theorem assembles : Assembles (receive c) (fun o => { s with phase := .Open, frag := o })
    s.max_inbound (fun p => .Send (.pong p)) .Fault
    ({ s with phase := .Open, frag := none }.onMessage c) where
  control o x := by cases x <;> rfl
  data o fin p hp := by
    rw [length_append] at hp
    cases o <;> cases fin <;> simp_all [receive, onFrame, nextOpcode]
  long o fin p hp := by
    rw [length_append] at hp
    cases o <;> simp_all [receive, onFrame, nextOpcode]

theorem fits_onMessage (h : Fits cap s.frag s.max_inbound) (text : Bytes) :
    Fits cap (s.onMessage c text).1.frag (s.onMessage c text).1.max_inbound := by
  unfold onMessage
  split
  · exact ⟨h.1, by simp⟩
  · split <;> try split
    all_goals exact h

theorem fits_receive (x : Frame) (h : Fits cap s.frag s.max_inbound) :
    Fits cap (s.receive c x).1.frag (s.receive c x).1.max_inbound := by
  obtain ⟨fin, op, p⟩ := x
  simp only [receive, onFrame]
  split
  · exact h
  cases op with
  | Ping | Pong | Binary => exact h
  | Close =>
    simp only [onCloseFrame]
    split_ifs
    · exact h
    · exact h
    · exact ⟨h.1, by simp⟩
  | Text =>
    simp only
    split_ifs with _ _ hl
    · exact h
    · exact h
    · exact h
    · exact h.open (not_lt.1 hl)
    · exact s.fits_onMessage c h p
  | Cont =>
    simp only
    split
    · exact h
    · split
      · exact h
      · split_ifs with hl
        · exact ⟨h.1, by simp⟩
        · exact fits_onMessage c { s with frag := none } ⟨h.1, by simp⟩ _
        · exact ⟨h.1, by simpa [← h.1] using hl⟩

end JsonRpcServer

/-- Reassembly does not show in either role, for a server from its accepted upgrade on. -/
theorem reassembly_does_not_show (c : Codec) (s : Session) (sc : ServerCodec)
    (t : JsonRpcServer) :
    Transparent (Session.receive c) (fun o => { s with frag := o }) s.max_inbound
        (fun p => .Send (.pong p)) .Fault Session.frag ∧
      Transparent (receive sc) (fun o => { t with phase := .Open, frag := o })
        t.max_inbound (fun p => .Send (.pong p)) .Fault frag := by
  constructor
  · have h := s.assembles c
    refine ⟨fun cut => h.whole, fun cut => h.fault_fragments none (Nat.zero_le _),
      fun frames => ?_, fun _ _ _ => ⟨_, rfl⟩, fun _ _ => ⟨_, rfl⟩⟩
    have hf := feed_invariant (fun x => Session.fits_receive c x) frames
      (fits_none s.max_inbound : Fits _ { s with frag := none }.frag _)
    exact hf.2
  · have h := t.assembles sc
    refine ⟨fun cut => h.whole, fun cut => h.fault_fragments none (Nat.zero_le _),
      fun frames => ?_, fun _ _ _ => ⟨_, rfl⟩, fun _ _ => ⟨_, rfl⟩⟩
    have hf := feed_invariant (fun x => fits_receive sc x) frames
      (fits_none t.max_inbound : Fits _ { t with phase := .Open, frag := none }.frag _)
    exact hf.2

/-- Before the upgrade a server refuses every frame, so a message in two frames is refused twice. -/
theorem reassembly_shows_before_the_upgrade : (new 8).frag = none ∧ (new 8).phase ≠ .Closing ∧
      (feed (receive .plain) (.new 8) (fragments .Text [([], []), ([], [])])).2 ≠
        ((new 8).receive .plain (true, .Text, [])).2 := by
  decide

end TruenasRos.Api
