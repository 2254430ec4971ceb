import Mathlib.Tactic

/-! # First-match rule lists

A list of allow and deny rules settles a question at the first rule that hits
it. An evaluator that does not know which rules hit may still track a cautious
verdict: one that never allows what the rules deny.
-/

namespace TruenasRos.FirstMatch

open List

variable {ρ : Type*} {hits verdict : ρ → Bool}

/-- The verdict of the first rule that hits, if one does. -/
def settle (hits verdict : ρ → Bool) (rules : List ρ) : Option Bool :=
  (rules.find? hits).map verdict

/-- What a single rule says: its verdict if it hits. -/
def say (hit allow : Bool) : Option Bool :=
  if hit then some allow else none

@[simp] theorem say_false (allow : Bool) : say false allow = none := rfl

@[simp] theorem say_true (allow : Bool) : say true allow = some allow := rfl

@[simp] theorem settle_nil : settle hits verdict [] = none := rfl

@[simp] theorem settle_cons (r : ρ) (rules : List ρ) : settle hits verdict (r :: rules) =
      (say (hits r) (verdict r)).or (settle hits verdict rules) := by
  cases h : hits r <;> simp [settle, h]

@[simp] theorem settle_append (xs ys : List ρ) :
    settle hits verdict (xs ++ ys) = (settle hits verdict xs).or (settle hits verdict ys) := by
  induction xs with
  | nil => simp
  | cons r xs ih => simp [ih, Option.or_assoc]

/-- A run of rules that agree on their verdict gives it whenever one of them hits. -/
theorem settle_of_forall {rules : List ρ} {v : Bool} (h : ∀ r ∈ rules, verdict r = v) :
    settle hits verdict rules = say (rules.any hits) v := by
  induction rules with
  | nil => rfl
  | cons r rules ih =>
    rw [settle_cons, ih fun s hs => h s (mem_cons_of_mem r hs), any_cons,
      h r mem_cons_self]
    cases hits r <;> simp

/-- Blocks of rules of which at most one can hit are that one's block. -/
theorem settle_flatMap {β : Type*} {xs : List β} {f : β → List ρ} {p : β → Bool}
    (hm : ∀ x, p x = false → settle hits verdict (f x) = none)
    (hu : xs.Pairwise fun x y => p x = true → p y = false) : settle hits verdict (xs.flatMap f) =
      (xs.find? p).elim none fun x => settle hits verdict (f x) := by
  induction xs with
  | nil => rfl
  | cons x xs ih =>
    rw [pairwise_cons] at hu
    rw [flatMap_cons, settle_append, ih hu.2]
    cases hx : p x with
    | false => simp [hx, hm x hx]
    | true =>
      have hn : xs.find? p = none := by simpa using fun y hy => hu.1 y hy hx
      simp [hx, hn]

/-- `v` is a safe stand-in for the settled `f`: allowing is right, and staying open
excludes a denial. -/
def Cautious (v f : Option Bool) : Prop :=
  (v = some true → f = some true) ∧ (v = none → f ≠ some false)

theorem cautious_none : Cautious none none := by simp [Cautious]

theorem Cautious.denied (f : Option Bool) : Cautious (some false) f := by simp [Cautious]

theorem Cautious.or {v f : Option Bool} (h : Cautious v f) (x : Option Bool) :
    Cautious (v.or x) (f.or x) := by
  obtain ⟨ha, ho⟩ := h
  match v, f with
  | some true, f => simp_all [Cautious]
  | some false, f => simp [Cautious]
  | none, some true => cases x <;> simp [Cautious]
  | none, some false => simp at ho
  | none, none => rcases x with _ | _ | _ <;> simp [Cautious]

theorem Cautious.or_denied {v f : Option Bool} (h : Cautious v f) :
    Cautious (v.or (some false)) f := by
  match v with
  | some true => exact h
  | some false => exact .denied f
  | none => exact .denied f

theorem Cautious.allow {v f : Option Bool} (h : Cautious v f) (hit : Bool) :
    Cautious v (f.or (say hit true)) := by
  obtain ⟨ha, ho⟩ := h
  match f with
  | some b => exact ⟨by simpa using ha, by simpa using ho⟩
  | none => cases hit <;> simp_all [Cautious]

theorem Cautious.settled {v f : Option Bool} (h : Cautious v f) (hf : f ≠ none) (x : Option Bool) :
    Cautious v (f.or x) := by
  obtain ⟨b, rfl⟩ := Option.ne_none_iff_exists'.1 hf
  simpa using h

/-- A rule that settles an entity settles it for the callers it hits. -/
theorem or_ne_none_of_allowed {e f x : Option Bool} (h : e = some true → f ≠ none)
    (he : e.or x = some true) : f.or x ≠ none := by
  match e, x with
  | some b, x => simp [h (by simpa using he)]
  | none, some b => simp
  | none, none => simp at he

/-- Carry a denial settled elsewhere over to `x`. -/
def spill (d x : Option Bool) : Option Bool :=
  x.or (say (d = some false) false)

@[simp] theorem spill_self (d : Option Bool) : spill d d = d := by
  rcases d with _ | _ | _ <;> rfl

@[simp] theorem spill_eq_allowed_iff {d x : Option Bool} :
    spill d x = some true ↔ x = some true := by
  rcases x with _ | _ | _ <;> simp [spill, say]

/-- What becomes of `x` at a rule for another entity, which leaves that one at `d`: only a
denial is heard. -/
def heard (allow : Bool) (d x : Option Bool) : Option Bool := if allow then x else spill d x

@[simp] theorem heard_self (allow : Bool) (d : Option Bool) : heard allow d d = d := by
  cases allow <;> simp [heard]

@[simp] theorem heard_eq_allowed_iff {allow : Bool} {d x : Option Bool} :
    heard allow d x = some true ↔ x = some true := by
  cases allow <;> simp [heard]

/-- A deny rule for an entity `e` spills into the stand-in `v`. That is safe as long as
what `e` was allowed is settled for the callers the rule hits. -/
theorem Cautious.heard {v f e : Option Bool} {hit allow names : Bool} (h : Cautious v f)
    (hm : hit = true → e = some true → f ≠ none) :
    Cautious (heard allow (e.or (say names allow)) v) (f.or (say (hit && names) allow)) := by
  cases allow with
  | true => exact h.allow _
  | false =>
    have hs : ∀ d, Cautious (spill d v) f := by
      intro d
      by_cases hd : d = some false
      · simpa [spill, hd] using h.or_denied
      · simpa [spill, hd] using h
    by_cases hh : (hit && names) = true
    · obtain ⟨rfl, rfl⟩ := Bool.and_eq_true_iff.1 hh
      rcases e with _ | _ | _
      · exact h.or (some false)
      · exact h.or (some false)
      · exact (hs _).settled (hm rfl rfl) _
    · simpa [FirstMatch.heard, Bool.not_eq_true _ ▸ hh] using hs _

/-- `v` allows exactly what holds, and does not leave open what a rule `last` at the end
of the list would allow. -/
structure Told (v : Option Bool) (holds last : Bool) : Prop where
  allowed : v = some true ↔ holds = true
  settled : last = true → v ≠ none

namespace Told

variable {v : Option Bool} {holds last later : Bool}

theorem of_allow (holds : Bool) : Told (say holds true) holds false := by
  cases holds <;> constructor <;> simp

theorem of_deny_allow (h : last = true → later = true) :
    Told ((say (!holds && later) false).or (say holds true)) holds last := by
  cases holds <;> cases later <;> constructor <;> simp_all

theorem deny (h : Told v holds false) (last : Bool) :
    Told (v.or (say (!holds && last) false)) holds last := by
  obtain ⟨ha, -⟩ := h
  rcases v with _ | _ | _ <;> cases holds <;> cases last <;> constructor <;> simp_all

theorem spill (h : Told v holds last) (d : Option Bool) : Told (spill d v) holds last where
  allowed := spill_eq_allowed_iff.trans h.allowed
  settled hl := by
    obtain ⟨b, rfl⟩ := Option.ne_none_iff_exists'.1 (h.settled hl)
    simp [FirstMatch.spill]

theorem or_last (h : Told v holds last) : Told (v.or (say last true)) holds last := by
  obtain ⟨ha, hs⟩ := h
  rcases v with _ | _ | _ <;> cases last <;> constructor <;> simp_all

end Told

end TruenasRos.FirstMatch
