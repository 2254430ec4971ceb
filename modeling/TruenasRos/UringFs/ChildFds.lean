import Mathlib.Tactic

/-! # The descriptors of the broker's child

The child moves its socket and its rings to fixed numbers and closes everything else. The moves
go through a scratch range above all sources and targets, so none of them overwrites what a later
one is to copy.
-/

namespace TruenasRos.UringFs.ChildFds

open List Nat Function

/-- The open file behind each descriptor number of a process. -/
abbrev Table (F : Type) := ℕ → Option F

variable {F : Type}

def SOCK_FD : ℕ := 3
def RING_FD_BASE : ℕ := 4

/-- Copy an entry to another number, or die: the source has to be open, and the target below
`RLIMIT_NOFILE`. -/
def dup2OrDie (limit : ℕ) (t : Table F) (move : ℕ × ℕ) : Option (Table F) :=
  match t move.1 with
  | none => none
  | some file => if move.2 < limit then some (update t move.2 (some file)) else none

/-- `last` is `none` for the largest number there is. -/
def closeRange (t : Table F) (first : ℕ) (last : Option ℕ) : Table F :=
  fun fd => if first ≤ fd ∧ last.all (fd ≤ ·) then none else t fd

def maxSrc (sock : ℕ) (ring_fds : List ℕ) : ℕ := ring_fds.foldl max sock

def scratchBase (max_src n : ℕ) : ℕ := max max_src (RING_FD_BASE + n) + 1

def childFdHighWater (max_src n : ℕ) : ℕ := scratchBase max_src n + n

/-- The sources and targets of the calls of `dup2`, in order. -/
def moves (sock : ℕ) (ring_fds : List ℕ) : List (ℕ × ℕ) :=
  let n := ring_fds.length
  let scratch_base := scratchBase (maxSrc sock ring_fds) n
  (sock, scratch_base) :: ring_fds.mapIdx (fun i fd => (fd, scratch_base + 1 + i)) ++
    (scratch_base, SOCK_FD) ::
      (range n).map fun i => (scratch_base + 1 + i, RING_FD_BASE + i)

def tidyChildFds (limit : ℕ) (t : Table F) (sock : ℕ) (ring_fds : List ℕ) : Option (Table F) := do
  let t ← (moves sock ring_fds).foldlM (dup2OrDie limit) t
  let t := closeRange t 0 (some (SOCK_FD - 1))
  return closeRange t (RING_FD_BASE + ring_fds.length) none

/-- Copy descriptors to a range that holds none of them. -/
theorem foldlM_dup2OrDie (limit : ℕ) (t : Table F) (src : List ℕ) (b : ℕ)
    (ho : ∀ fd ∈ src, t fd ≠ none) (hl : b + src.length ≤ limit)
    (hap : ∀ fd ∈ src, fd < b ∨ b + src.length ≤ fd) :
    ∃ t', (src.mapIdx fun i fd => (fd, b + i)).foldlM (dup2OrDie limit) t = some t' ∧
      (∀ i fd, src[i]? = some fd → t' (b + i) = t fd) ∧ ∀ fd < b, t' fd = t fd := by
  induction src generalizing t b with
  | nil => exact ⟨t, rfl, nofun, fun _ _ => rfl⟩
  | cons s src ih =>
    rw [forall_mem_cons] at ho hap
    rw [length_cons] at hl hap
    obtain ⟨file, hf⟩ := Option.ne_none_iff_exists'.1 ho.1
    have hs : ∀ fd ∈ src, update t b (some file) fd = t fd := fun fd hfd => by
      have := hap.2 fd hfd
      exact update_of_ne (by omega) _ _
    obtain ⟨t', ht, hto, hk⟩ := ih (update t b (some file)) (b + 1)
      (fun fd hfd => hs fd hfd ▸ ho.2 fd hfd) (by omega)
      fun fd hfd => by have := hap.2 fd hfd; omega
    refine ⟨t', ?_, ?_, fun fd hfd => ?_⟩
    · have hb : b < limit := by omega
      have hi : (fun (i fd : ℕ) => (fd, b + (i + 1))) = fun i fd => (fd, b + 1 + i) := by
        funext i fd
        rw [add_left_comm, add_comm]
      rw [mapIdx_cons, hi, foldlM_cons, dup2OrDie, hf]
      simp only [add_zero, if_pos hb]
      exact ht
    · rintro (_ | i) fd hfd
      · cases hfd
        rw [add_zero, hk b (lt_succ_self b), update_self, hf]
      · rw [add_left_comm, add_comm i, hto i fd hfd, hs fd (mem_of_getElem? hfd)]
    · rw [hk fd (by omega), update_of_ne hfd.ne]

variable {sock : ℕ} {rings : List ℕ}

theorem le_maxSrc {fd : ℕ} (h : fd ∈ sock :: rings) : fd ≤ maxSrc sock rings := by
  induction rings generalizing sock fd with
  | nil => exact (mem_singleton.1 h).le
  | cons r rings ih =>
    rcases mem_cons.1 h with rfl | h
    · exact (le_max_left _ r).trans (ih mem_cons_self)
    · rcases mem_cons.1 h with rfl | h
      · exact (le_max_right sock _).trans (ih mem_cons_self)
      · exact ih (mem_cons_of_mem _ h)

/-- All sources are copied up, in order, and then down again. -/
theorem moves_eq (sock : ℕ) (rings : List ℕ) : moves sock rings =
    (sock :: rings).mapIdx (fun i fd => (fd, scratchBase (maxSrc sock rings) rings.length + i)) ++
      (range' (scratchBase (maxSrc sock rings) rings.length) (rings.length + 1)).mapIdx
        fun i fd => (fd, SOCK_FD + i) := by
  rw [moves, mapIdx_cons]
  generalize scratchBase (maxSrc sock rings) rings.length = base
  congr 1
  · simp [add_assoc, add_comm 1]
  · apply ext_getElem
    · simp
    · intro i h h'
      cases i with
      | zero => simp
      | succ i => simp [SOCK_FD, RING_FD_BASE]; omega

theorem lt_scratchBase (m n : ℕ) : m < scratchBase m n ∧ SOCK_FD + n + 2 ≤ scratchBase m n := by
  simp only [scratchBase, SOCK_FD, RING_FD_BASE]
  omega

theorem foldlM_moves (limit : ℕ) (t : Table F) (ho : ∀ fd ∈ sock :: rings, t fd ≠ none)
    (hl : childFdHighWater (maxSrc sock rings) rings.length < limit) :
    ∃ t', (moves sock rings).foldlM (dup2OrDie limit) t = some t' ∧
      ∀ i fd, (sock :: rings)[i]? = some fd → t' (SOCK_FD + i) = t fd := by
  have hb := lt_scratchBase (maxSrc sock rings) rings.length
  rw [moves_eq]
  rw [childFdHighWater] at hl
  generalize scratchBase (maxSrc sock rings) rings.length = base at hb hl ⊢
  obtain ⟨t₁, h₁, hup, -⟩ := foldlM_dup2OrDie limit t (sock :: rings) base ho
    (by rw [length_cons]; omega) fun fd hfd => .inl ((le_maxSrc hfd).trans_lt hb.1)
  have ho₁ : ∀ fd ∈ range' base (rings.length + 1), t₁ fd ≠ none := fun fd hfd => by
    obtain ⟨i, hi, rfl⟩ := mem_range'.1 hfd
    rw [one_mul, hup i _ (getElem?_eq_getElem hi)]
    exact ho _ (getElem_mem hi)
  obtain ⟨t₂, h₂, hdown, -⟩ := foldlM_dup2OrDie limit t₁ (range' base (rings.length + 1)) SOCK_FD
    ho₁ (by rw [length_range']; omega) fun fd hfd => .inr (by
      rw [length_range']
      have := mem_range'_1.1 hfd
      omega)
  refine ⟨t₂, by rw [foldlM_append, h₁]; exact h₂, fun i fd hi => ?_⟩
  have hlt : i < rings.length + 1 := (List.getElem?_eq_some_iff.1 hi).1
  rw [hdown i (base + i) (by simp [hlt]), hup i fd hi]

theorem target_le {m : ℕ × ℕ} (h : m ∈ moves sock rings) :
    m.2 ≤ childFdHighWater (maxSrc sock rings) rings.length := by
  have hb := (lt_scratchBase (maxSrc sock rings) rings.length).2
  rw [childFdHighWater]
  rw [moves_eq, mem_append, mem_mapIdx, mem_mapIdx] at h
  rcases h with ⟨i, hi, rfl⟩ | ⟨i, hi, rfl⟩
  · exact Nat.add_le_add_left (Nat.le_of_lt_succ hi) _
  · rw [length_range'] at hi
    dsimp only
    omega

theorem closeRange_closeRange (t : Table F) (n fd : ℕ) :
    closeRange (closeRange t 0 (some (SOCK_FD - 1))) (RING_FD_BASE + n) none fd =
      if SOCK_FD ≤ fd ∧ fd ≤ SOCK_FD + n then t fd else none := by
  have : (RING_FD_BASE + n ≤ fd ∨ fd ≤ SOCK_FD - 1) ↔ ¬(SOCK_FD ≤ fd ∧ fd ≤ SOCK_FD + n) := by
    simp only [SOCK_FD, RING_FD_BASE]
    omega
  by_cases h : SOCK_FD ≤ fd ∧ fd ≤ SOCK_FD + n <;> simp [closeRange, ← ite_or, this, h]

/-- The child is left with the socket and the rings at their numbers and with nothing else, and no
descriptor above the high-water mark is used on the way. -/
theorem keeps_exactly_its_descriptors (limit : ℕ) (t : Table F) (sock : ℕ) (ring_fds : List ℕ)
    (hopen : ∀ fd ∈ sock :: ring_fds, t fd ≠ none)
    (hfits : childFdHighWater (maxSrc sock ring_fds) ring_fds.length < limit) :
    (∃ t', tidyChildFds limit t sock ring_fds = some t' ∧ t' SOCK_FD = t sock ∧
      (∀ i fd, ring_fds[i]? = some fd → t' (RING_FD_BASE + i) = t fd) ∧
      ∀ fd, fd ≠ SOCK_FD → (∀ i < ring_fds.length, fd ≠ RING_FD_BASE + i) → t' fd = none) ∧
    ∀ m ∈ moves sock ring_fds, m.2 ≤ childFdHighWater (maxSrc sock ring_fds) ring_fds.length := by
  obtain ⟨t', h, hto⟩ := foldlM_moves limit t hopen hfits
  refine ⟨⟨_, by rw [tidyChildFds, h]; rfl, ?_, fun i fd hi => ?_, fun fd hs hr => ?_⟩,
    fun m hm => target_le hm⟩
  · rw [closeRange_closeRange, if_pos ⟨le_rfl, le_add_right _ _⟩]
    exact hto 0 sock rfl
  · have hlt := (List.getElem?_eq_some_iff.1 hi).1
    rw [closeRange_closeRange, if_pos (by simp [SOCK_FD, RING_FD_BASE]; omega)]
    exact (congrArg t' (add_assoc 3 1 i)).trans (add_comm 1 i ▸ hto (i + 1) fd hi)
  · rw [closeRange_closeRange, if_neg]
    simp only [SOCK_FD, RING_FD_BASE] at hs hr ⊢
    rintro ⟨hle, hge⟩
    exact hr (fd - 4) (by omega) (by omega)

theorem keeps_exactly_its_descriptors_crossed : ∃ t' : Table Bool,
    tidyChildFds 10 (fun fd => if fd = 4 then some true else if fd = 3 then some false else none)
      4 [3] = some t' ∧ t' SOCK_FD = some true ∧ t' RING_FD_BASE = some false := by
  obtain ⟨⟨t', h, hs, hr, -⟩, -⟩ := keeps_exactly_its_descriptors 10
    (fun fd => if fd = 4 then some true else if fd = 3 then some false else none) 4 [3]
    (by decide) (by decide)
  exact ⟨t', h, hs, hr 0 3 rfl⟩

end TruenasRos.UringFs.ChildFds
