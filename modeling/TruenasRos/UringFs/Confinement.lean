import TruenasRos.UringFs.Chain

/-! # Walks stay confined

What each operation of a walk names, under which personality and relative to which directory,
said of every operation against what had happened before it was submitted.
-/

namespace TruenasRos.UringFs.Chain

open BitFlags List TruenasRos.Path Call

/-- Each operation was allowed by what had happened before it. -/
def EachSubmission (P : List Entry → Submission → Prop) (log : List Entry) : Prop :=
  ∀ before op after, log = before ++ .submitted op :: after → P before op

/-- An open that cannot leave its directory and creates nothing. -/
structure ConfinedOpen (path : Name) (how : RawOpenHow) : Prop where
  resolve : contains how.resolve CONFINED_RESOLVE = true
  path : relativeDefect path = none
  creat : intersects how.flags O_CREAT = false
  tmpfile : contains how.flags O_TMPFILE = false

/-- The file that the operation before opened, or the anchor where there was none. -/
inductive Previous (anchor : File) (before : List Entry) : File → Prop
  | anchor (hbefore : before = []) : Previous anchor before anchor
  | opened (b : List Entry) (op : Submission) (out : Outcome) (f : File)
      (hbefore : before = b ++ [.submitted op, .completed op out])
      (hfile : out.done.file = some f) : Previous anchor before f

def opens (log : List Entry) : ℕ :=
  log.countP fun e => match e with
    | .submitted _ => true
    | .completed _ _ => false

/-- The operation is the open of the step whose turn it is. -/
def ChainOpen (anchor : File) (steps : List OpenStep) (before : List Entry) (op : Submission) :
    Prop :=
  ∃ step dir path how guarded, steps[opens before]? = some step ∧
    op = .openat2 step.who dir path how guarded ∧ Previous anchor before dir ∧
    (step.path = .Fixed path ∨ ∃ name, step.path = .Derived name ∧ name dir = .ok path) ∧
    ConfinedOpen path how ∧
    (opens before + 1 < steps.length → contains how.flags O_DIRECTORY = true)

/-- The directory that opening these components one after the other has led to. -/
inductive Reached (anchor : File) (log : List Entry) : List Name → File → Prop
  | anchor : Reached anchor log [] anchor
  | opened (names : List Name) (dir : File) (name : Name) (f : File) (who : Personality)
      (how : RawOpenHow) (guarded : Bool) (out : Outcome) (h : Reached anchor log names dir)
      (hmem : Entry.completed (.openat2 who dir name how guarded) out ∈ log)
      (hfile : out.done.file = some f) : Reached anchor log (names ++ [name]) f

/-- The operation is the probe of the whole path, or it makes or opens a component in the
directory that the components before it have led to. -/
def MkdirOp (who : Personality) (anchor : File) (path : Name) (before : List Entry) :
    Submission → Prop
  | .openat2 who' dir name how _ =>
    who' = who ∧ ConfinedOpen name how ∧ contains how.flags O_DIRECTORY = true ∧
      (before = [] ∧ dir = anchor ∧ name = path ∨
        ∃ names rest, components path = names ++ name :: rest ∧ Reached anchor before names dir)
  | .mkdirat who' dir leaf _ =>
    who' = who ∧ componentDefect leaf = none ∧
      ∃ names rest, components path = names ++ leaf :: rest ∧ Reached anchor before names dir

variable {P : List Entry → Submission → Prop} {log log' before : List Entry} {op : Submission}
  {out : Outcome} {c : Call} {an cur : File} {steps : List OpenStep} {how : RawOpenHow}
  {who : Personality} {path : Name} {names : List Name}

theorem EachSubmission.nil : EachSubmission P [] := by
  intro before op after h
  simp at h

section

variable (h : EachSubmission P log)
include h

theorem EachSubmission.concat {e : Entry}
    (hl : ∀ op, e = .submitted op → P log op) : EachSubmission P (log ++ [e]) := by
  intro before op after heq
  rcases eq_nil_or_concat after with rfl | ⟨after, e', rfl⟩
  · obtain ⟨rfl, he⟩ := append_inj' heq rfl
    exact hl op (singleton_inj.1 he)
  · rw [concat_eq_append, ← cons_append, ← append_assoc] at heq
    exact h before op after (append_inj' heq rfl).1

theorem EachSubmission.submitted (ho : P log op) : EachSubmission P (log ++ [.submitted op]) :=
  h.concat fun _ he => Entry.submitted.inj he ▸ ho

theorem EachSubmission.completed :
    EachSubmission P (log ++ [.completed op out]) := h.concat fun _ he => by cases he

end

@[simp] theorem opens_submitted : opens (log ++ [.submitted op]) = opens log + 1 := by
  simp [opens]

@[simp] theorem opens_completed : opens (log ++ [.completed op out]) = opens log := by
  simp [opens]

theorem Reached.mono {dir : File} (h : Reached an log names dir)
    (hs : ∀ e ∈ log, e ∈ log') : Reached an log' names dir := by
  induction h with
  | anchor => exact .anchor
  | opened names dir name f who how guarded out _ hmem hf ih =>
    exact .opened names dir name f who how guarded out ih (hs _ hmem) hf

theorem confinedOpen (hr : contains how.resolve CONFINED_RESOLVE = true)
    (hpa : relativeDefect path = none) (hf : creationRefused how.flags = false) :
    ConfinedOpen path how := by
  rw [creationRefused, intersects_or_right, Bool.or_eq_false_iff] at hf
  refine ⟨hr, hpa, hf.1, ?_⟩
  by_contra ht
  have hb : contains how.flags (TMPFILE_ONLY ||| O_DIRECTORY) = true := by
    simpa [TMPFILE_ONLY, O_TMPFILE, O_DIRECTORY, difference] using ht
  rw [contains_or_right, Bool.and_eq_true] at hb
  have hin := intersects_of_contains hb.1 (by decide)
  rw [hf.2] at hin
  cases hin

theorem creationRefused_or {flags more : BitVec 64} (h : creationRefused flags = false)
    (hm : creationRefused more = false) : creationRefused (flags ||| more) = false := by
  rw [creationRefused, intersects_or_left, Bool.or_eq_false_iff]
  exact ⟨h, hm⟩

theorem stepHow_spec (h : creationRefused how.flags = false) (hpa : relativeDefect path = none)
    (last : Bool) : ConfinedOpen path (stepHow how last).1 ∧
      (last = false → contains (stepHow how last).1.flags O_DIRECTORY = true) := by
  have hr : contains (how.resolve ||| CONFINED_RESOLVE) CONFINED_RESOLVE = true :=
    contains_or_left _ _
  cases last with
  | false =>
    exact ⟨confinedOpen hr hpa (creationRefused_or h (by decide)), fun _ => contains_or_left _ _⟩
  | true =>
    refine ⟨?_, fun h => by cases h⟩
    change ConfinedOpen path (applySpecialFileGuard
      { how with resolve := how.resolve ||| CONFINED_RESOLVE } .Guard).1
    unfold applySpecialFileGuard
    split
    · exact confinedOpen hr hpa h
    · exact confinedOpen hr hpa (creationRefused_or h (by decide))

structure ChainInv (anchor : File) (steps : List OpenStep) (c : Call) : Prop where
  legal : EachSubmission (ChainOpen anchor steps) c.log
  waits : ∀ op k, (op, k) ∈ c.waiting → (∃ b, c.log = b ++ [.submitted op]) ∧
    k = .step (steps.drop (opens c.log)).isEmpty (steps.drop (opens c.log))

theorem ChainInv.onDone (h : EachSubmission (ChainOpen an steps) c.log)
    (hh : c.Held) (done : FsDone) : ChainInv an steps (c.onDone done) where
  legal := h
  waits := by
    intro op k hmem
    rw [Call.onDone, hh.waiting] at hmem
    cases hmem

theorem ChainInv.chain (hsp : ∀ step ∈ steps, stepRefused step = false)
    (h : EachSubmission (ChainOpen an steps) c.log) (hh : c.Held) (hpr : Previous an c.log cur) :
    ChainInv an steps (chain c cur (steps.drop (opens c.log))) := by
  rcases chain_cases c cur (steps.drop (opens c.log)) with
    ⟨done, heq⟩ | ⟨step, rest, path, hd, hn, heq⟩
  · rw [heq]
    exact .onDone h hh done
  · have hst : steps[opens c.log]? = some step := by
      rw [← head?_drop, hd]
      rfl
    have hr : rest = steps.drop (opens c.log + 1) := by
      rw [← tail_drop, hd]
      rfl
    have hmem : step ∈ steps := mem_of_getElem? hst
    have hs := hsp step hmem
    simp only [stepRefused, Bool.or_eq_false_iff] at hs
    have hpa : relativeDefect path = none := by
      rcases hn with hf | ⟨name, -, -, hno⟩
      · simpa [hf] using hs.1.1
      · exact hno
    have hlen : rest.length = steps.length - (opens c.log + 1) := by rw [hr, length_drop]
    obtain ⟨hc, hdi⟩ := stepHow_spec hs.1.2 hpa rest.isEmpty
    rw [heq]
    refine ⟨h.submitted ⟨step, cur, path, _, _, hst, rfl, hpr, ?_, hc, ?_⟩, ?_⟩
    · exact hn.imp_right fun ⟨name, hna, ho, _⟩ => ⟨name, hna, ho⟩
    · intro hlt
      refine hdi ?_
      rw [isEmpty_eq_false_iff, ← length_pos_iff]
      omega
    · intro op k hmem
      simp only [submit, hh.waiting, nil_append, mem_singleton, Prod.mk.injEq] at hmem
      obtain ⟨rfl, rfl⟩ := hmem
      rw [submit, opens_submitted, ← hr]
      exact ⟨⟨_, rfl⟩, rfl⟩

theorem ChainInv.step (hs : ∀ step ∈ steps, stepRefused step = false)
    (h : ChainInv an steps c) (ho : c.Once) (out : Outcome) : ChainInv an steps (c.step out) := by
  rcases ho with ⟨done, hw, ha⟩ | ⟨op, k, hw, ha⟩
  · simpa only [Call.step, hw] using h
  · obtain ⟨⟨b, hl⟩, rfl⟩ := h.waits op k (by simp [hw])
    have hh : Call.Held { c with log := c.log ++ [.completed op out], waiting := [] } :=
      ⟨rfl, ha⟩
    have hle : EachSubmission (ChainOpen an steps) (c.log ++ [.completed op out]) :=
      h.legal.completed
    simp only [Call.step, hw]
    rcases resume_cases { c with log := c.log ++ [.completed op out], waiting := [] } out
      (.step (steps.drop (opens c.log)).isEmpty (steps.drop (opens c.log))) with ⟨done, heq⟩ |
      ⟨rest, f, hk, hf, heq⟩ | ⟨_, _, _, _, _, hk, -⟩ | ⟨_, _, _, _, _, _, hk, -⟩ |
      ⟨_, _, _, _, _, hk, -, -, -⟩
    · rw [heq]
      exact .onDone hle hh done
    · rw [heq]
      obtain ⟨-, rfl⟩ := Callback.step.inj hk
      have hpr : Previous an (c.log ++ [.completed op out]) f :=
        .opened b op out f (by rw [hl, append_assoc]; rfl) hf
      have hc := ChainInv.chain hs hle hh hpr
      simpa only [opens_completed] using hc
    · cases hk
    · cases hk
    · cases hk

theorem openChain_cases (an : File) (steps : List OpenStep) :
    (openChain an steps = new.onDone (refused EINVAL)) ∨
    (steps ≠ [] ∧ (∀ step ∈ steps, stepRefused step = false) ∧
      openChain an steps = chain .new an steps) := by
  unfold openChain
  split_ifs with he hd hr
  · exact .inl rfl
  · exact .inl rfl
  · exact .inl rfl
  · exact .inr ⟨by simpa using he, by simpa using hr, rfl⟩

theorem held_new : new.Held := ⟨rfl, rfl⟩

theorem Goes.log_nil {n : ℕ} (h : Goes .new n c) (ha : c.answers ≠ []) (outs : List Outcome) :
    (c.run outs).log = [] := by
  cases h with
  | answers done =>
    rw [run_of_waiting rfl]
    rfl
  | submits => exact absurd rfl ha

theorem goes_openChain (an : File) (steps : List OpenStep) :
    Goes .new steps.length (openChain an steps) := by
  rcases openChain_cases an steps with heq | ⟨-, -, heq⟩ <;> rw [heq]
  · exact .answers _
  · exact goes_chain ..

theorem chainOpen_run (an : File) (steps : List OpenStep) (outs : List Outcome) :
    EachSubmission (ChainOpen an steps) ((openChain an steps).run outs).log := by
  rcases openChain_cases an steps with heq | ⟨-, hs, heq⟩
  · rw [heq, run_of_waiting rfl]
    exact .nil
  · have hinv : ChainInv an steps (openChain an steps) := by
      rw [heq]
      exact ChainInv.chain hs .nil held_new (.anchor rfl)
    exact (((goes_openChain an steps).once held_new).1.run_invariant hinv
      (fun _ h ho out => h.step hs ho out) outs).legal

section

variable (who : Personality) (anchor : File) (path : Name) (how : RawOpenHow) (c : Call)

/-- What the operation under way carries, and where the walk has got to. -/
inductive MkdirWaits : Submission × Callback → Prop
  | probe (mode : ℕ) (op : Submission) :
      MkdirWaits (op, .probe who anchor (components path) mode how)
  | made (mode : ℕ) (op : Submission) (cur : File) (names : List Name) (part : Name)
      (rest : List Name) (hpath : components path = names ++ part :: rest)
      (hreached : Reached anchor c.log names cur) :
      MkdirWaits (op, .made who cur part rest mode how)
  | opened (mode : ℕ) (cur : File) (names : List Name) (part : Name) (rest : List Name)
      (hpath : components path = names ++ part :: rest)
      (hreached : Reached anchor c.log names cur) :
      MkdirWaits
        (.openat2 who cur part how false, .opened who rest mode how)

structure MkdirInv : Prop where
  legal : EachSubmission (MkdirOp who anchor path) c.log
  waits : ∀ w ∈ c.waiting, MkdirWaits who anchor path how c w

end

/-- The flags every open of the walk is made with. -/
structure WalkHow (how : RawOpenHow) : Prop where
  resolve : contains how.resolve CONFINED_RESOLVE = true
  flags : creationRefused how.flags = false
  directory : contains how.flags O_DIRECTORY = true

section

variable (h : EachSubmission (MkdirOp who an path) c.log)
include h

theorem MkdirInv.onDone (hh : c.Held)
    (done : FsDone) : MkdirInv who an path how (c.onDone done) where
  legal := h
  waits := by
    intro w hw
    rw [Call.onDone, hh.waiting] at hw
    cases hw

theorem MkdirInv.submit {k : Callback} (hh : c.Held) (ho : MkdirOp who an path c.log op)
    (hwt : MkdirWaits who an path how (c.submit op k) (op, k)) :
    MkdirInv who an path how (c.submit op k) where
  legal := h.submitted ho
  waits := by
    intro w hw
    simp only [Call.submit, hh.waiting, nil_append, mem_singleton] at hw
    rw [hw]
    exact hwt

theorem MkdirInv.walk {parts : List Name} (mode : ℕ) (hh : c.Held)
    (hpa : components path = names ++ parts) (hr : Reached an c.log names cur) :
    MkdirInv who an path how (walk c who cur parts mode how) := by
  rcases walk_cases c who cur parts mode how with ⟨done, heq⟩ | ⟨part, rest, rfl, hpr, heq⟩
  · rw [heq]
    exact .onDone h hh done
  · rw [heq]
    refine .submit h hh ⟨rfl, hpr, names, rest, hpa, hr⟩ ?_
    exact .made mode _ cur names part rest hpa
      (hr.mono fun e he => mem_append_left _ he)

end

theorem MkdirInv.step (hh : WalkHow how) (hd : relativeDefect path = none)
    (h : MkdirInv who an path how c) (ho : c.Once) (out : Outcome) :
    MkdirInv who an path how (c.step out) := by
  rcases ho with ⟨done, hw, ha⟩ | ⟨op, k, hw, ha⟩
  · simpa only [Call.step, hw] using h
  · have hhe : Call.Held { c with log := c.log ++ [.completed op out], waiting := [] } :=
      ⟨rfl, ha⟩
    have hle : EachSubmission (MkdirOp who an path) (c.log ++ [.completed op out]) :=
      h.legal.completed
    have hm : ∀ {names dir}, Reached an c.log names dir →
        Reached an (c.log ++ [.completed op out]) names dir :=
      fun hr => hr.mono fun e he => mem_append_left _ he
    have hwt := h.waits (op, k) (by simp [hw])
    simp only [Call.step, hw]
    rcases resume_cases { c with log := c.log ++ [.completed op out], waiting := [] } out k with
      ⟨done, heq⟩ | ⟨rest, f, rfl, -, -⟩ | ⟨_, _, _, mode, _, rfl, heq⟩ |
      ⟨_, cur, part, rest, mode, _, rfl, heq⟩ | ⟨_, rest, mode, _, f, rfl, -, hf, heq⟩
    · rw [heq]
      exact .onDone hle hhe done
    · cases hwt
    · rw [heq]
      cases hwt
      exact MkdirInv.walk hle mode hhe rfl .anchor
    · rw [heq]
      rcases hwt with - | ⟨_, _, _, names, _, _, hpa, hre⟩
      have hpr : componentDefect part = none :=
        componentDefect_eq_none_iff.2 ((relativeDefect_eq_none.1 hd).2.2 part (by simp [hpa]))
      have hon := confinedOpen hh.resolve (relativeDefect_of_component hpr) hh.flags
      refine .submit hle hhe
        ⟨rfl, hon, hh.directory, .inr ⟨names, rest, hpa, hm hre⟩⟩ ?_
      exact .opened mode cur names part rest hpa
        ((hm hre).mono fun e he => mem_append_left _ he)
    · rw [heq]
      rcases hwt with - | - | ⟨_, cur, names, part, _, hpa, hre⟩
      have hpa' : components path = (names ++ [part]) ++ rest := by simp [hpa]
      apply MkdirInv.walk hle mode hhe hpa'
      exact .opened names cur part f who how false out (hm hre) (by simp) hf

theorem mkdirPath_cases (who : Personality) (an : File) (path : Name) (mode : ℕ)
    (how : RawOpenHow) : (mkdirPath who an path mode how = new.onDone (refused EINVAL)) ∨
    (relativeDefect path = none ∧ ∃ raw, WalkHow raw ∧
      mkdirPath who an path mode how = new.submit (.openat2 who an path raw false)
        (.probe who an (components path) mode raw)) := by
  unfold mkdirPath
  split_ifs with hd hc hs
  · exact .inl rfl
  · exact .inl rfl
  · exact .inl rfl
  · have hf : creationRefused how.flags = false := by simpa [creationRefused] using hc
    exact .inr ⟨by simpa using hd, _, ⟨contains_or_left _ _,
      creationRefused_or hf (by decide), contains_or_left _ _⟩, rfl⟩

theorem goes_mkdirPath (who : Personality) (an : File) (path : Name) (mode : ℕ) (how : RawOpenHow) :
    Goes .new (2 * (components path).length + 1) (mkdirPath who an path mode how) := by
  rcases mkdirPath_cases who an path mode how with heq | ⟨-, raw, -, heq⟩ <;> rw [heq]
  · exact .answers _
  · exact .submits _ _ le_rfl

theorem mkdirOp_run (who : Personality) (an : File) (path : Name) (mode : ℕ)
    (how : RawOpenHow) (outs : List Outcome) : EachSubmission (MkdirOp who an path)
      ((mkdirPath who an path mode how).run outs).log := by
  rcases mkdirPath_cases who an path mode how with heq | ⟨hd, raw, hh, heq⟩
  · rw [heq, run_of_waiting rfl]
    exact .nil
  · have hinv : MkdirInv who an path raw (mkdirPath who an path mode how) := by
      rw [heq]
      have hon := confinedOpen hh.resolve hd hh.flags
      exact .submit .nil held_new ⟨rfl, hon, hh.directory, .inl ⟨rfl, rfl, rfl⟩⟩ (.probe mode _)
    exact (((goes_mkdirPath who an path mode how).once held_new).1.run_invariant hinv
      (fun _ h ho out => h.step hh hd ho out) outs).legal

/-- Whatever the operations end with: each open is confined and relative to what the walk has
opened, a component is made only where the ones before it have led, a call that is answered at
once submits nothing, and the callback is called once. -/
theorem walks_stay_confined : (∀ (anchor : File) (steps : List OpenStep) (outs : List Outcome),
      EachSubmission (ChainOpen anchor steps) ((openChain anchor steps).run outs).log ∧
      ((openChain anchor steps).answers ≠ [] → ((openChain anchor steps).run outs).log = []) ∧
      ((openChain anchor steps).run outs).answers.length ≤ 1 ∧
      (steps.length ≤ outs.length → ((openChain anchor steps).run outs).answers.length = 1)) ∧
    ∀ (who : Personality) (anchor : File) (path : Name) (mode : ℕ) (how : RawOpenHow)
      (outs : List Outcome),
      EachSubmission (MkdirOp who anchor path) ((mkdirPath who anchor path mode how).run outs).log ∧
      ((mkdirPath who anchor path mode how).answers ≠ [] →
        ((mkdirPath who anchor path mode how).run outs).log = []) ∧
      ((mkdirPath who anchor path mode how).run outs).answers.length ≤ 1 ∧
      (2 * (components path).length + 1 ≤ outs.length →
        ((mkdirPath who anchor path mode how).run outs).answers.length = 1) := by
  constructor
  · intro anchor steps outs
    have hg := goes_openChain anchor steps
    obtain ⟨ho, hb⟩ := hg.once held_new
    exact ⟨chainOpen_run anchor steps outs, fun h => hg.log_nil h outs, (ho.answers outs).1,
      fun hle => (ho.answers outs).2 (hb.trans hle)⟩
  · intro who anchor path mode how outs
    have hg := goes_mkdirPath who anchor path mode how
    obtain ⟨ho, hb⟩ := hg.once held_new
    exact ⟨mkdirOp_run who anchor path mode how outs, fun h => hg.log_nil h outs,
      (ho.answers outs).1, fun hle => (ho.answers outs).2 (hb.trans hle)⟩

/-- The probe of `a` fails, and the component is made in the anchor, which no operation of the
walk has opened. -/
theorem first_component_made_in_anchor :
    ∃ before, ((mkdirPath 1 3 [97] 493 ⟨0, 0, 0⟩).run [⟨failed 2, false⟩]).log =
        before ++ [.submitted (.mkdirat 1 3 [97] 493)] ∧
      ¬ ∃ op out, Entry.completed op out ∈ before ∧ out.done.file = some 3 := by
  refine ⟨[.submitted (.openat2 1 3 [97] ⟨O_DIRECTORY, 0, CONFINED_RESOLVE⟩ false),
    .completed (.openat2 1 3 [97] ⟨O_DIRECTORY, 0, CONFINED_RESOLVE⟩ false) ⟨failed 2, false⟩],
    by decide +kernel, ?_⟩
  rintro ⟨op, out, hmem, hf⟩
  simp only [mem_cons, Entry.completed.injEq, not_mem_nil, or_false, reduceCtorEq, false_or] at hmem
  rw [hmem.2] at hf
  cases hf

end TruenasRos.UringFs.Chain
