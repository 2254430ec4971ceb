import Mathlib.Data.List.AList
import TruenasRos.Error
import TruenasRos.Lib.Runs

/-! # A process covered by a blocked set

A strict block masks the calling thread, then reads the mask of every other thread off
`/proc/self/task`. The other threads run on meanwhile: each may exit, and each may create
a thread with its own mask, one that the listing need not name.
-/

namespace TruenasRos.Signal

open AList Runs Option

def EBUSY : Errno := .other 16

def ENOSYS : Errno := .other 38

/-- Whether the thread has every signal of the set blocked: bit `n - 1` is signal `n`. -/
def maskCovers (set mask : BitVec 64) : Bool :=
  (List.range 64).all fun n => !set.getLsbD n || mask.getLsbD n

/-- Where the call is. A listing has still to name the threads of `due` that live. -/
inductive Phase
  | blocking
  | opening
  | listing (due : List ℕ)
  | reading (tid : ℕ) (due : List ℕ)
  | returned (result : Except Errno Unit)

structure Process where
  threads : AList fun _ : ℕ => BitVec 64
  phase : Phase

inductive Event
  | exit (tid : ℕ)
  | clone (tid child : ℕ)
  | sigmask (refused : Option Errno)
  | readDir (found : Bool)
  | entry (tid : ℕ)
  /-- The status is read, and parsed or not, or it cannot be read. -/
  | status (parsed : Option Bool)
  | done

variable (set : BitVec 64) (me : ℕ)

def checked (due : List ℕ) : Option Bool → Option (BitVec 64) → Phase
  | some parsed, some mask =>
    if !parsed then .returned (.error ENOSYS)
    else if maskCovers set mask then .listing due
    else .returned (.error EBUSY)
  -- gone, or not to be read: the thread is skipped either way
  | _, _ => .listing due

def blockStrict (p : Process) : Event → Option Process
  | .exit tid => if tid = me then none else some { p with threads := p.threads.erase tid }
  | .clone tid child =>
    if tid = me ∨ child ∈ p.threads then none
    else (p.threads.lookup tid).map fun mask => { p with threads := p.threads.insert child mask }
  | .sigmask refused =>
    match p.phase, refused with
    | .blocking, some e => some { p with phase := .returned (.error e) }
    | .blocking, none => (p.threads.lookup me).map fun mask =>
        ⟨p.threads.insert me (mask ||| set), .opening⟩
    | _, _ => none
  | .readDir found =>
    match p.phase with
    | .opening => some { p with
        phase := if found then .listing p.threads.keys else .returned (.error ENOSYS) }
    | _ => none
  | .entry tid =>
    match p.phase with
    | .listing due =>
      if tid ∉ p.threads then none
      else some { p with
        phase := if tid = me then .listing (due.filter (· ≠ tid))
          else .reading tid (due.filter (· ≠ tid)) }
    | _ => none
  | .status parsed =>
    match p.phase with
    | .reading tid due => some { p with phase := checked set due parsed (p.threads.lookup tid) }
    | _ => none
  | .done =>
    match p.phase with
    | .listing due =>
      if ∀ tid ∈ due, tid ∉ p.threads then some { p with phase := .returned (.ok ()) } else none
    | _ => none

/-- The calling thread has the set blocked. -/
def Phase.masked : Phase → Bool
  | .blocking | .returned (.error _) => false
  | _ => true

def Covered (p : Process) : Prop :=
  ∀ tid mask, p.threads.lookup tid = some mask → (tid = me → p.phase.masked = true) →
    maskCovers set mask = true

variable {set me} {p p' : Process} {ph : Phase}

section Threads

variable {threads : AList fun _ : ℕ => BitVec 64} {k tid : ℕ}

theorem lookup_erase_eq :
    (threads.erase k).lookup tid = if tid = k then none else threads.lookup tid := by
  split_ifs with hk
  · obtain rfl := hk
    exact lookup_erase tid threads
  · exact lookup_erase_ne hk

theorem lookup_insert_eq {mask : BitVec 64} : (threads.insert k mask).lookup tid =
    if tid = k then some mask else threads.lookup tid := by
  split_ifs with hk
  · obtain rfl := hk
    exact lookup_insert threads
  · exact lookup_insert_ne hk

end Threads

theorem Covered.phase (h : Covered set me p) (hp : ph.masked = true → p.phase.masked = true) :
    Covered set me { p with phase := ph } :=
  fun tid mask hl hm => h tid mask hl fun he => hp (hm he)

theorem Covered.step {e : Event} (h : Covered set me p) (hs : blockStrict set me p e = some p') :
    Covered set me p' := by
  cases e with
  | exit tid =>
    simp only [blockStrict, ite_none_left_eq_some, some.injEq] at hs
    obtain ⟨-, rfl⟩ := hs
    intro t mask hl
    rw [lookup_erase_eq, ite_none_left_eq_some] at hl
    exact h t mask hl.2
  | clone tid child =>
    simp only [blockStrict, ite_none_left_eq_some, map_eq_some_iff, not_or] at hs
    obtain ⟨⟨hne, -⟩, mask, hl, rfl⟩ := hs
    intro t mask' hl' hm
    rw [lookup_insert_eq] at hl'
    split_ifs at hl'
    · cases hl'
      exact h tid mask hl fun he => absurd he hne
    · exact h t mask' hl' hm
  | sigmask refused =>
    simp only [blockStrict] at hs
    split at hs
    · cases hs
      exact h.phase nofun
    · obtain ⟨mask, -, rfl⟩ := map_eq_some_iff.1 hs
      intro t mask' hl' _
      rw [lookup_insert_eq] at hl'
      split_ifs at hl' with ht
      · cases hl'
        simp only [maskCovers, List.all_eq_true, BitVec.getLsbD_or]
        intro n _
        cases set.getLsbD n <;> simp
      · exact h t mask' hl' fun he => absurd he ht
    · cases hs
  | readDir | entry | status | done =>
    simp only [blockStrict] at hs
    split at hs
    · rename_i hph
      try split_ifs at hs
      all_goals
        cases hs
        exact h.phase fun _ => hph ▸ rfl
    · cases hs

end TruenasRos.Signal
