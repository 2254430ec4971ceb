import TruenasRos.Lib.Incremental
import TruenasRos.Lib.Search
import TruenasRos.Net.Protocol
import TruenasRos.Ws.Close

/-! # The head of a WebSocket handshake

The framers of both roles cut the first message of a connection at its blank line. The cap on the
length is checked only where no blank line is found, so a head past it is taken if it arrives whole
and refused if it arrives in pieces.
-/

namespace TruenasRos.Ws

open Incremental List Net Search

def MAX_HEAD : ℕ := 16 * 1024

inductive Phase
  | Handshake
  | Frames
  deriving DecidableEq

def BLANK_LINE : Bytes := [13, 10, 13, 10]

/-- Where the first blank line starts. -/
def blankLine (buf : Bytes) : Option ℕ := position BLANK_LINE buf

def headStep (buf : Bytes) (phase : Phase) : Framing × Phase :=
  if buf = [] then (.More, phase)
  else
    match blankLine buf with
    | some k => (.Complete (k + 4) 0, .Frames)
    | none => if MAX_HEAD < buf.length then (.Invalid, phase) else (.MoreInMessage, phase)

/-- The head is shown again, with what has arrived since, until the verdict is not to wait. -/
def answer (phase : Phase) (buf : Bytes) : Option Framing × Phase :=
  match headStep buf phase with
  | (.More, phase) => (none, phase)
  | (.MoreInMessage, phase) => (none, phase)
  | (verdict, phase) => (some verdict, phase)

variable {w : Bytes} {k : ℕ} {phase : Phase}

theorem blankLine_eq_none_iff : blankLine w = none ↔ ¬BLANK_LINE <:+: w :=
  position_eq_none_iff (cons_ne_nil _ _)

theorem answer_of_some (h : blankLine w = some k) :
    answer phase w = (some (.Complete (k + 4) 0), .Frames) := by
  have hw : w ≠ [] := by
    rintro rfl
    exact nomatch h
  simp [answer, headStep, hw, h]

theorem answer_of_none (h : blankLine w = none) :
    answer phase w = (if MAX_HEAD < w.length then some .Invalid else none, phase) := by
  by_cases hw : w = []
  · simp [answer, headStep, hw]
  · simp only [answer, headStep, hw, h, if_false]
    split_ifs <;> rfl

theorem resumable_answer : Resumable answer phase := by
  intro p q _ hp
  cases hb : blankLine p with
  | some k => simp [answer_of_some hb] at hp
  | none => rw [answer_of_none hb]

/-- The outcome does not depend on how the bytes arrive, and no head past the cap is taken, just
when a blank line ends within the cap or there is none. -/
theorem head_independent_iff (w : Bytes) : ((∀ ps qs, GrowsTo w ps → GrowsTo w qs →
        feed answer .Handshake ps = feed answer .Handshake qs) ∧
      ∀ ps n m, GrowsTo w ps → feed answer .Handshake ps = some (.Complete n m) → n ≤ MAX_HEAD) ↔
    BLANK_LINE <:+: w.take MAX_HEAD ∨ ¬BLANK_LINE <:+: w := by
  constructor
  · rintro ⟨-, hc⟩
    cases hb : blankLine w with
    | none => exact .inr (blankLine_eq_none_iff.1 hb)
    | some k =>
      have hk := hc [w] (k + 4) 0 (growsTo_singleton w)
        (feed_cons_of_some (by rw [answer_of_some hb]) [])
      exact .inl (infix_take_of_position hb hk)
  · intro hc
    have hw : ∀ p, p <+: w → ∀ b, (answer .Handshake p).1 = some b →
        (answer .Handshake w).1 = some b := by
      rintro p ⟨x, rfl⟩ b hb
      cases hp : blankLine p with
      | some k => rwa [answer_of_some (position_append hp x), ← answer_of_some hp]
      | none =>
        rw [answer_of_none hp] at hb
        split_ifs at hb with hl
        rcases hc with hc | hc
        · rw [take_append_of_le_length hl.le] at hc
          refine absurd (hc.trans ?_) (blankLine_eq_none_iff.1 hp)
          exact IsPrefix.isInfix <| take_prefix _ p
        · rw [answer_of_none (blankLine_eq_none_iff.2 hc), if_pos, hb]
          rw [length_append]
          omega
    refine ⟨(feed_independent_iff resumable_answer).2 hw, fun ps n m hps hf => ?_⟩
    rw [feed_eq_of_forall resumable_answer hw hps] at hf
    rcases hc with hc | hc
    · cases ht : blankLine (w.take MAX_HEAD) with
      | none => exact absurd hc (blankLine_eq_none_iff.1 ht)
      | some k =>
        have ha := position_append ht (w.drop MAX_HEAD)
        rw [take_append_drop] at ha
        rw [answer_of_some ha] at hf
        cases hf
        exact (add_le_of_position ht).trans (length_take_le _ _)
    · rw [answer_of_none (blankLine_eq_none_iff.2 hc)] at hf
      split_ifs at hf
      cases hf

theorem blankLine_replicate (n : ℕ) (t : Bytes) :
    blankLine (replicate n 97 ++ t) = (blankLine t).map (· + n) := by
  induction n with
  | zero => simp
  | succ n ih =>
    rw [blankLine] at ih ⊢
    rw [replicate_succ, cons_append, position, if_neg (by simp [BLANK_LINE]), ih, Option.map_map]
    rfl

/-- A head of 16389 bytes is taken as a whole, and refused where its last four bytes come apart. -/
theorem head_depends_on_segmentation :
    GrowsTo (replicate 16385 97 ++ BLANK_LINE) [replicate 16385 97 ++ BLANK_LINE] ∧
    GrowsTo (replicate 16385 97 ++ BLANK_LINE)
      [replicate 16385 97, replicate 16385 97 ++ BLANK_LINE] ∧
    feed answer .Handshake [replicate 16385 97 ++ BLANK_LINE] = some (.Complete 16389 0) ∧
    feed answer .Handshake [replicate 16385 97, replicate 16385 97 ++ BLANK_LINE] =
      some .Invalid := by
  have hw : blankLine (replicate 16385 97 ++ BLANK_LINE) = some 16385 := by
    rw [blankLine_replicate]
    decide
  have hp : blankLine (replicate 16385 97) = none := by
    rw [← append_nil (replicate 16385 97), blankLine_replicate]
    rfl
  refine ⟨growsTo_singleton _, growsTo_pair (prefix_append _ _), ?_, ?_⟩
  · apply feed_cons_of_some
    rw [answer_of_some hw]
  · apply feed_cons_of_some
    rw [answer_of_none hp, if_pos (by rw [length_replicate]; decide)]

end TruenasRos.Ws
