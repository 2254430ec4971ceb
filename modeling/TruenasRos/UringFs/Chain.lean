import TruenasRos.Lib.BitFlags
import TruenasRos.Path.Shape
import TruenasRos.UringFs.OpTable

/-! # Walks of several opens

`open_chain` opens each step relative to the file the step before it opened, and `mkdir_path`
makes and opens one component after the other. Each operation is submitted from the completion
of the one before it, so a walk is known by what it has submitted and what it still waits for.
-/

namespace TruenasRos.UringFs.Chain

open TruenasRos.Path BitFlags

def EBADF : ℕ := 9
def EEXIST : ℕ := 17
def EINVAL : ℕ := 22

def O_CREAT : BitVec 64 := 0x40
def O_NONBLOCK : BitVec 64 := 0x800
def O_DIRECTORY : BitVec 64 := 0x10000
def O_PATH : BitVec 64 := 0x200000
def O_TMPFILE : BitVec 64 := 0x410000

def RESOLVE_NO_XDEV : BitVec 64 := 0x01
def RESOLVE_NO_SYMLINKS : BitVec 64 := 0x04
def RESOLVE_BENEATH : BitVec 64 := 0x08
def RESOLVE_IN_ROOT : BitVec 64 := 0x10

def CONFINED_RESOLVE : BitVec 64 := RESOLVE_BENEATH ||| RESOLVE_NO_SYMLINKS ||| RESOLVE_NO_XDEV

structure RawOpenHow where
  flags : BitVec 64
  mode : BitVec 64
  resolve : BitVec 64
  deriving DecidableEq

abbrev File := ℕ

abbrev Personality := ℕ

inductive NameError
  | errno (e : ℕ)
  | other
  deriving DecidableEq

inductive StepPath
  | Fixed (path : Name)
  | Derived (name : File → Except NameError Name)

structure OpenStep where
  path : StepPath
  who : Personality
  how : RawOpenHow

/-- An operation that is handed to the ring. -/
inductive Submission
  | openat2 (who : Personality) (dir : File) (path : Name) (how : RawOpenHow) (guarded : Bool)
  | mkdirat (who : Personality) (dir : File) (leaf : Name) (mode : ℕ)
  deriving DecidableEq

/-- How an operation ended, and whether the file it opened can serve as an anchor. -/
structure Outcome where
  done : FsDone
  dir : Bool
  deriving DecidableEq

inductive Entry
  | submitted (op : Submission)
  | completed (op : Submission) (out : Outcome)
  deriving DecidableEq

/-- The callback an operation of a walk carries. -/
inductive Callback
  | step (last : Bool) (steps : List OpenStep)
  | probe (who : Personality) (start : File) (parts : List Name) (mode : ℕ) (how : RawOpenHow)
  | made (who : Personality) (cur : File) (part : Name) (parts : List Name) (mode : ℕ)
      (how : RawOpenHow)
  | opened (who : Personality) (parts : List Name) (mode : ℕ) (how : RawOpenHow)

/-- What a call has done: its operations and their ends in order, the operations it waits for,
and the outcomes given to its own callback. -/
structure Call where
  log : List Entry
  waiting : List (Submission × Callback)
  answers : List FsDone

namespace Call

def new : Call := ⟨[], [], []⟩

def onDone (c : Call) (done : FsDone) : Call := { c with answers := c.answers ++ [done] }

def submit (c : Call) (op : Submission) (k : Callback) : Call :=
  { c with log := c.log ++ [.submitted op], waiting := c.waiting ++ [(op, k)] }

end Call

def refused (err : ℕ) : FsDone := ⟨.error err, true, [], none⟩

def failed (err : ℕ) : FsDone := ⟨.error err, false, [], none⟩

/-- The bits of `O_TMPFILE` that a plain open of a directory does not have. -/
def TMPFILE_ONLY : BitVec 64 := difference O_TMPFILE O_DIRECTORY

def creationRefused (flags : BitVec 64) : Bool := intersects flags (O_CREAT ||| TMPFILE_ONLY)

def scopingConflict (resolve : BitVec 64) : Bool := intersects resolve RESOLVE_IN_ROOT

inductive SpecialFiles
  | Guard
  | Allow
  deriving DecidableEq

/-- Open without blocking on a special file, unless the flags rule that out already. -/
def applySpecialFileGuard (raw : RawOpenHow) (special : SpecialFiles) : RawOpenHow × Bool :=
  if special = .Allow || intersects raw.flags O_PATH || intersects raw.flags O_DIRECTORY ||
      intersects raw.flags O_NONBLOCK then (raw, false)
  else ({ raw with flags := raw.flags ||| O_NONBLOCK }, true)

/-- The flags a step is opened with: confined, and a directory unless it is the answer. -/
def stepHow (how : RawOpenHow) (last : Bool) : RawOpenHow × Bool :=
  let raw := { how with resolve := how.resolve ||| CONFINED_RESOLVE }
  if last then applySpecialFileGuard raw .Guard
  else ({ raw with flags := raw.flags ||| O_DIRECTORY }, false)

section

variable (c : Call)

def openComponent (who : Personality) (anchor : File) (path : Name) (how : RawOpenHow)
    (guarded : Bool) (k : Callback) : Call :=
  c.submit (.openat2 who anchor path how guarded) k

def chain (cur : File) : List OpenStep → Call
  | [] => c.onDone (refused EINVAL)
  | step :: steps =>
    let last := steps.isEmpty
    let (raw, guarded) := stepHow step.how last
    match step.path with
    | .Fixed path => openComponent c step.who cur path raw guarded (.step last steps)
    | .Derived name =>
      match name cur with
      | .ok path =>
        if relativeDefect path = none then
          openComponent c step.who cur path raw guarded (.step last steps)
        else c.onDone (refused EINVAL)
      | .error (.errno e) => c.onDone (failed e)
      | .error .other => c.onDone (refused EINVAL)

def stepRefused (step : OpenStep) : Bool :=
  (match step.path with
    | .Fixed path => (relativeDefect path).isSome
    | .Derived _ => false) ||
  creationRefused step.how.flags || scopingConflict step.how.resolve

def startsDerived : List OpenStep → Bool
  | ⟨.Derived _, _, _⟩ :: _ => true
  | _ => false

def openChain (anchor : File) (steps : List OpenStep) : Call :=
  if steps.isEmpty then Call.new.onDone (refused EINVAL)
  else if startsDerived steps then Call.new.onDone (refused EINVAL)
  else if steps.any stepRefused then Call.new.onDone (refused EINVAL)
  else chain .new anchor steps

def walk (who : Personality) (cur : File) (parts : List Name) (mode : ℕ)
    (how : RawOpenHow) : Call :=
  match parts with
  | [] => c.onDone (refused EINVAL)
  | part :: parts =>
    if (componentDefect part).isSome then c.onDone (refused EINVAL)
    else c.submit (.mkdirat who cur part mode) (.made who cur part parts mode how)

def mkdirPath (who : Personality) (anchor : File) (path : Name) (mode : ℕ) (how : RawOpenHow) :
    Call :=
  if (relativeDefect path).isSome then Call.new.onDone (refused EINVAL)
  else if intersects how.flags (O_CREAT ||| TMPFILE_ONLY) then Call.new.onDone (refused EINVAL)
  else if scopingConflict how.resolve then Call.new.onDone (refused EINVAL)
  else
    let raw := { how with
      flags := how.flags ||| O_DIRECTORY
      resolve := how.resolve ||| CONFINED_RESOLVE }
    openComponent .new who anchor path raw false
      (.probe who anchor (components path) mode raw)

def resume (out : Outcome) : Callback → Call
  | .step last steps =>
    match out.done.file with
    | none => c.onDone out.done
    | some f =>
      if last then c.onDone out.done
      else if out.dir then chain c f steps else c.onDone (refused EBADF)
  | .probe who start parts mode how =>
    if out.done.file.isSome then c.onDone out.done else walk c who start parts mode how
  | .made who cur part parts mode how =>
    match out.done.result with
    | .ok _ => openComponent c who cur part how false (.opened who parts mode how)
    | .error e =>
      -- another creator may have been first
      if e = EEXIST then openComponent c who cur part how false (.opened who parts mode how)
      else c.onDone out.done
  | .opened who parts mode how =>
    match out.done.file with
    | none => c.onDone out.done
    | some f =>
      if parts.isEmpty then c.onDone out.done
      else if out.dir then walk c who f parts mode how else c.onDone (refused EBADF)

def Call.step (out : Outcome) : Call :=
  match c.waiting with
  | [] => c
  | (op, k) :: rest =>
    resume { c with log := c.log ++ [.completed op out], waiting := rest } out k

def Call.run (outs : List Outcome) : Call := outs.foldl Call.step c

end

variable {c : Call} {op : Submission} {k : Callback} {out : Outcome}

/-- The call's own callback is still held, by the code that runs. -/
structure Call.Held (c : Call) : Prop where
  waiting : c.waiting = []
  answers : c.answers = []

/-- The callback was called, or the one operation under way holds it. -/
inductive Call.Once (c : Call) : Prop
  | answered (done : FsDone) (hwaiting : c.waiting = []) (hanswers : c.answers = [done])
  | waits (op : Submission) (k : Callback) (hwaiting : c.waiting = [(op, k)])
      (hanswers : c.answers = [])

/-- The operations a callback may still lead to, with the one that carries it. -/
def Callback.bound : Callback → ℕ
  | .step _ steps => steps.length + 1
  | .probe _ _ parts _ _ => 2 * parts.length + 1
  | .made _ _ _ parts _ _ => 2 * parts.length + 2
  | .opened _ parts _ _ => 2 * parts.length + 1

def Call.bound (c : Call) : ℕ := (c.waiting.map fun w => w.2.bound).sum

namespace Call

@[simp] theorem bound_submit (op : Submission) (k : Callback) :
    (c.submit op k).bound = c.bound + k.bound := by simp [bound, Call.submit]

end Call

theorem chain_cases (c : Call) (cur : File) (steps : List OpenStep) :
    (∃ done, chain c cur steps = c.onDone done) ∨
    ∃ step rest path, steps = step :: rest ∧
      (step.path = .Fixed path ∨ ∃ name, step.path = .Derived name ∧ name cur = .ok path ∧
        relativeDefect path = none) ∧
      chain c cur steps = c.submit (.openat2 step.who cur path (stepHow step.how rest.isEmpty).1
        (stepHow step.how rest.isEmpty).2) (.step rest.isEmpty rest) := by
  cases steps with
  | nil => exact .inl ⟨_, rfl⟩
  | cons step rest =>
    cases hpa : step.path with
    | Fixed path => exact .inr ⟨step, rest, path, rfl, .inl hpa, by simp [chain, hpa]; rfl⟩
    | Derived name =>
      cases hn : name cur with
      | error e => cases e <;> exact .inl ⟨_, by simp [chain, hpa, hn]; rfl⟩
      | ok path =>
        by_cases hd : relativeDefect path = none
        · refine .inr ⟨step, rest, path, rfl, .inr ⟨name, hpa, hn, hd⟩, ?_⟩
          simp only [chain, hpa, hn, if_pos hd]
          rfl
        · exact .inl ⟨_, by simp [chain, hpa, hn, if_neg hd]; rfl⟩

theorem walk_cases (c : Call) (who : Personality) (cur : File) (parts : List Name) (mode : ℕ)
    (how : RawOpenHow) : (∃ done, walk c who cur parts mode how = c.onDone done) ∨
    ∃ part rest, parts = part :: rest ∧ componentDefect part = none ∧
      walk c who cur parts mode how =
        c.submit (.mkdirat who cur part mode) (.made who cur part rest mode how) := by
  cases parts with
  | nil => exact .inl ⟨_, rfl⟩
  | cons part rest =>
    by_cases hd : (componentDefect part).isSome
    · exact .inl ⟨_, by rw [walk, if_pos hd]⟩
    · exact .inr ⟨part, rest, rfl, by simpa using hd, by rw [walk, if_neg hd]⟩

/-- A held callback is called, or goes with an operation that leads to at most `n`. -/
inductive Goes (c : Call) (n : ℕ) : Call → Prop
  | answers (done : FsDone) : Goes c n (c.onDone done)
  | submits (op : Submission) (k : Callback) (hbound : k.bound ≤ n) : Goes c n (c.submit op k)

theorem Goes.once {n : ℕ} {c' : Call} (h : Goes c n c') (hh : c.Held) : c'.Once ∧ c'.bound ≤ n := by
  have hb : c.bound = 0 := by rw [Call.bound, hh.waiting]; rfl
  cases h with
  | answers done =>
    exact ⟨.answered done hh.waiting (by rw [Call.onDone, hh.answers]; rfl), hb.trans_le n.zero_le⟩
  | submits op k hk => exact ⟨(.waits op k (by rw [Call.submit, hh.waiting]; rfl) hh.answers), by
      simpa [hb] using hk⟩

theorem goes_chain (c : Call) (cur : File) (steps : List OpenStep) :
    Goes c steps.length (chain c cur steps) := by
  rcases chain_cases c cur steps with ⟨done, heq⟩ | ⟨step, rest, path, rfl, -, heq⟩ <;> rw [heq]
  · exact .answers done
  · exact .submits _ _ le_rfl

theorem goes_walk (c : Call) (who : Personality) (cur : File) (parts : List Name) (mode : ℕ)
    (how : RawOpenHow) : Goes c (2 * parts.length) (walk c who cur parts mode how) := by
  rcases walk_cases c who cur parts mode how with ⟨done, heq⟩ | ⟨part, rest, rfl, -, heq⟩ <;>
    rw [heq]
  · exact .answers done
  · exact .submits _ _ le_rfl

theorem resume_cases (c : Call) (out : Outcome) (k : Callback) :
    (∃ done, resume c out k = c.onDone done) ∨
    (∃ steps f, k = .step false steps ∧ out.done.file = some f ∧ resume c out k = chain c f steps) ∨
    (∃ who start parts mode how, k = .probe who start parts mode how ∧
      resume c out k = walk c who start parts mode how) ∨
    (∃ who cur part parts mode how, k = .made who cur part parts mode how ∧ resume c out k =
        c.submit (.openat2 who cur part how false) (.opened who parts mode how)) ∨
    ∃ who parts mode how f, k = .opened who parts mode how ∧ parts ≠ [] ∧
      out.done.file = some f ∧ resume c out k = walk c who f parts mode how := by
  cases k with
  | step last steps =>
    cases hf : out.done.file with
    | none => exact .inl ⟨_, by simp [resume, hf]; rfl⟩
    | some f =>
      cases last with
      | true => exact .inl ⟨_, by simp [resume, hf]; rfl⟩
      | false =>
        cases hd : out.dir with
        | true => exact .inr (.inl ⟨steps, f, rfl, rfl, by simp [resume, hf, hd]⟩)
        | false => exact .inl ⟨_, by simp [resume, hf, hd]; rfl⟩
  | probe who start parts mode how =>
    by_cases hf : out.done.file.isSome
    · exact .inl ⟨_, by rw [resume, if_pos hf]⟩
    · exact .inr (.inr (.inl ⟨who, start, parts, mode, how, rfl, by rw [resume, if_neg hf]⟩))
  | made who cur part parts mode how =>
    cases hr : out.done.result with
    | ok n =>
      exact .inr (.inr (.inr (.inl ⟨who, cur, part, parts, mode, how, rfl,
        by simp [resume, hr]; rfl⟩)))
    | error e =>
      by_cases he : e = EEXIST
      · exact .inr (.inr (.inr (.inl ⟨who, cur, part, parts, mode, how, rfl,
          by simp [resume, hr, if_pos he]; rfl⟩)))
      · exact .inl ⟨_, by simp [resume, hr, if_neg he]; rfl⟩
  | opened who parts mode how =>
    cases hf : out.done.file with
    | none => exact .inl ⟨_, by simp [resume, hf]; rfl⟩
    | some f =>
      by_cases hpa : parts.isEmpty
      · exact .inl ⟨_, by simp only [resume, hf, if_pos hpa]; rfl⟩
      · cases hd : out.dir with
        | true =>
          exact .inr (.inr (.inr (.inr ⟨who, parts, mode, how, f, rfl, by simpa using hpa, rfl,
            by simp [resume, hf, hd, hpa]⟩)))
        | false => exact .inl ⟨_, by simp [resume, hf, hd, hpa]; rfl⟩

theorem Call.run_of_waiting (h : c.waiting = []) (outs : List Outcome) : c.run outs = c := by
  induction outs with
  | nil => rfl
  | cons out outs ih =>
    have hs : c.step out = c := by simp [Call.step, h]
    rw [Call.run, List.foldl_cons, hs]
    exact ih

/-- One callback consumes the callback it was given, and brings the call nearer its end. -/
theorem resume_once (h : c.Held) (out : Outcome) (k : Callback) :
    (resume c out k).Once ∧ (resume c out k).bound < k.bound := by
  have hg : ∀ {n c'}, Goes c n c' → c'.Once ∧ c'.bound < n + 1 := fun hg =>
    (hg.once h).imp_right Nat.lt_succ_of_le
  rcases resume_cases c out k with ⟨done, heq⟩ | ⟨steps, f, rfl, -, heq⟩ |
    ⟨who, start, parts, mode, how, rfl, heq⟩ | ⟨who, cur, part, parts, mode, how, rfl, heq⟩ |
    ⟨who, parts, mode, how, f, rfl, -, -, heq⟩ <;> rw [heq]
  · cases k <;> exact hg (.answers done)
  · exact hg (goes_chain ..)
  · exact hg (goes_walk ..)
  · exact hg (.submits _ _ le_rfl)
  · exact hg (goes_walk ..)

theorem Call.Once.step (h : c.Once) (out : Outcome) :
    (c.step out).Once ∧ ((c.step out).bound < c.bound ∨ (c.step out).bound = 0) := by
  rcases h with ⟨done, hw, ha⟩ | ⟨op, k, hw, ha⟩
  · simp only [Call.step, hw]
    exact ⟨.answered done hw ha, .inr (by simp [Call.bound, hw])⟩
  · have hh : Call.Held { c with log := c.log ++ [.completed op out], waiting := [] } :=
      ⟨rfl, ha⟩
    have hb : c.bound = k.bound := by simp [Call.bound, hw]
    simp only [Call.step, hw, hb]
    exact ⟨(resume_once hh out k).1, .inl (resume_once hh out k).2⟩

theorem Call.Once.run (h : c.Once) (outs : List Outcome) :
    (c.run outs).Once ∧ (c.run outs).bound ≤ c.bound - outs.length := by
  induction outs generalizing c with
  | nil => exact ⟨h, Nat.le_refl _⟩
  | cons out outs ih =>
    obtain ⟨hs, hb⟩ := h.step out
    obtain ⟨hr, hle⟩ := ih hs
    refine ⟨hr, hle.trans ?_⟩
    rw [List.length_cons]
    omega

/-- The callback is called at most once, and once as many operations have completed as the
call may make it has been called. -/
theorem Call.Once.answers (h : c.Once) (outs : List Outcome) : (c.run outs).answers.length ≤ 1 ∧
      (c.bound ≤ outs.length → (c.run outs).answers.length = 1) := by
  obtain ⟨hr, hb⟩ := h.run outs
  rcases hr with ⟨done, hw, ha⟩ | ⟨op, k, hw, ha⟩
  · simp [ha]
  · refine ⟨by simp [ha], fun hle => ?_⟩
    have hpos : 0 < (c.run outs).bound := by
      rw [Call.bound, hw]
      cases k <;> simp [Callback.bound]
    omega

theorem Call.Once.run_invariant {I : Call → Prop} (h : c.Once) (hI : I c)
    (hs : ∀ c, I c → c.Once → ∀ out, I (c.step out)) (outs : List Outcome) : I (c.run outs) := by
  induction outs generalizing c with
  | nil => exact hI
  | cons out outs ih => exact ih (h.step out).1 (hs c hI h out)

end TruenasRos.UringFs.Chain
