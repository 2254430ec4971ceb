import TruenasRos.Walk.Agenda

/-! # Starting a walk from a cursor

The stack that `queryTree` rebuilds stands for the agenda of the deepest directory
of the cursor's chain that still opens: its entries from the cut on, followed by
what comes after it on every level above.
-/

namespace TruenasRos.Walk

open List

/-- What a walk yields after everything below the directory `a`. -/
def agendaAbove (t : Tree) (opts : QueryOptions) : Anchor → List Node
  | [] => []
  | c :: a =>
    (entriesAfter (some (c ++ [SLASH])) (levelEntries t opts a)).map (Node.mk a) ++
      agendaAbove t opts a

/-- What a walk yields from `cut` on in the directory `a`. -/
def agendaFrom (t : Tree) (opts : QueryOptions) (cut : Option Bytes) (a : Anchor) : List Node :=
  (entriesAfter cut (levelEntries t opts a)).map (Node.mk a) ++ agendaAbove t opts a

/-- How far the chain `comps` below `a` can be opened. -/
def deepest (t : Tree) : Anchor → List Name → Anchor
  | a, [] => a
  | a, c :: comps =>
    match t (c :: a) with
    | .ok _ => deepest t (c :: a) comps
    | .error _ => a

/-- The agenda of a walk resumed from `c`. -/
def resumeAgenda (t : Tree) (opts : TreeOptions) (c : TreeCursor) : List Node :=
  let a := deepest t [] (c.components.take (c.descendTo opts.max_depth))
  agendaFrom t opts.entries (c.cutFor opts.max_depth a.length) a

theorem resumeAgenda_default (t : Tree) (opts : TreeOptions) :
    resumeAgenda t opts default = levelNodes t opts.entries [] := by
  have hc : TreeCursor.components default = [] := rfl
  simp only [resumeAgenda, hc, take_nil, deepest, agendaFrom, agendaAbove,
    append_nil, TreeCursor.cutFor, getElem?_nil]
  rfl

variable {t : StaticTree} {opts : TreeOptions} {q : QueryTree}

/-- The rebuilding loop, from a level `top` whose chain `comps` is still to be opened. -/
theorem rebuild_eq {opts : QueryOptions} {cut_for : ℕ → Option Bytes} {comps : List Name}
    {top : Frame} {below : List Frame} (hs : Stacked (top :: below))
    (hr : top.rest = entriesAfter (cut_for below.length) (levelEntries t.read opts top.anchor))
    (hb : agendaOf below = agendaAbove t.read opts top.anchor) (hco : ∀ c ∈ comps, Component c)
    (hcut : ∀ i c, comps[i]? = some c → cut_for (below.length + i) = some (c ++ [SLASH])) :
    ∃ stack, rebuild t.read opts cut_for below.length comps top below = .ok stack ∧ Stacked stack ∧
      agendaOf stack = agendaFrom t.read opts
        (cut_for (deepest t.read top.anchor comps).length) (deepest t.read top.anchor comps) := by
  induction comps generalizing top below with
  | nil =>
    refine ⟨top :: below, rfl, hs, ?_⟩
    rw [deepest, agendaOf_cons, Frame.nodes, hr, hb, hs.2.1]
    rfl
  | cons c comps ih =>
    have hc := hco c mem_cons_self
    have hpa : (if top.path = [] then c else top.path ++ SLASH :: c) =
        pathOf (c :: top.anchor) := by rw [hs.1.path, pathOf]
    have hcut0 : cut_for below.length = some (c ++ [SLASH]) := hcut 0 c rfl
    have htop : agendaOf (top :: below) = agendaAbove t.read opts (c :: top.anchor) := by
      rw [agendaOf_cons, Frame.nodes, hr, hb, hcut0, agendaAbove]
    rw [rebuild, deepest]
    simp only [hpa]
    cases ht : t.read (c :: top.anchor) with
    | ok dir =>
      obtain ⟨f, ho, hf, hfa, hfr⟩ :=
        openFrame_of_ok ht hc hs.1.anchor opts (cut_for (below.length + 1))
      simp only [ho]
      rw [← hfa] at hfr htop ⊢
      refine @ih f (top :: below) ⟨hf, ?_, hs⟩ hfr htop
        (fun c' hc' => hco c' (mem_cons_of_mem c hc')) ?_
      · rw [hfa, length_cons, hs.2.1, length_cons]
      · intro i c' hi
        rw [length_cons, add_assoc, add_comm 1 i]
        exact hcut (i + 1) c' hi
    | error e =>
      simp only [openFrame, ht, t.skippable ht, if_true]
      refine ⟨top :: below, rfl, hs, ?_⟩
      rw [htop, hs.2.1, hcut0]
      rfl

theorem cutFor_of_lt {c : TreeCursor} {max_depth i : ℕ} {comp : Name}
    (h : (c.components.take (c.descendTo max_depth))[i]? = some comp) :
    c.cutFor max_depth i = some (comp ++ [SLASH]) := by
  rw [getElem?_take] at h
  split_ifs at h with hi
  rw [TreeCursor.cutFor, h]
  exact if_pos hi

/-- A walk as `queryTree` starts it. -/
structure Started (t : Tree) (opts : TreeOptions) (q : QueryTree) : Prop where
  sound : q.Sound
  pending : q.pending = none
  cursor : q.cursor = opts.resume.getD default
  agenda : q.agenda = resumeAgenda t opts (opts.resume.getD default)
  opts : q.opts = opts

theorem queryTree_eq_ok {dir : Directory} (hr : t.read [] = .ok dir)
    (hd : ¬(opts.max_depth = 0 ∨ MAX_DEPTH < opts.max_depth)) :
    ∃ q, queryTree t.read opts = .ok q ∧ Started t.read opts q := by
  let c := opts.resume.getD default
  obtain ⟨hf, hre⟩ := sound_frame hr (fun c hc => nomatch hc) opts.entries
    (c.cutFor opts.max_depth 0)
  obtain ⟨stack, hsc, hst, ha⟩ :=
    @rebuild_eq t opts.entries (c.cutFor opts.max_depth)
      (c.components.take (c.descendTo opts.max_depth)) _ [] ⟨hf, rfl, trivial⟩ hre rfl
      (fun s hs => component_of_mem_components (mem_of_mem_take hs))
      (fun i s hs => by rw [length_nil, zero_add]; exact cutFor_of_lt hs)
  refine ⟨⟨opts, stack, none, c.key, c.skip_subtree, false⟩, ?_, ⟨rfl, hst, nofun⟩, rfl, rfl,
    ha, rfl⟩
  simp only [queryTree, if_neg hd, hr]
  exact bind_eq_ok_iff.2 ⟨stack, hsc, rfl⟩

theorem queryTree_ok_inv (h : queryTree t.read opts = .ok q) :
    (∃ dir, t.read [] = .ok dir) ∧ ¬(opts.max_depth = 0 ∨ MAX_DEPTH < opts.max_depth) := by
  by_cases hd : opts.max_depth = 0 ∨ MAX_DEPTH < opts.max_depth
  · simp only [queryTree, if_pos hd, reduceCtorEq] at h
  · refine ⟨?_, hd⟩
    cases ht : t.read [] with
    | ok dir => exact ⟨dir, rfl⟩
    | error e => simp only [queryTree, if_neg hd, ht, reduceCtorEq] at h

theorem started_of_queryTree (h : queryTree t.read opts = .ok q) : Started t.read opts q := by
  obtain ⟨⟨dir, hr⟩, hd⟩ := queryTree_ok_inv h
  obtain ⟨q', hq', hs⟩ := queryTree_eq_ok hr hd
  rw [h] at hq'
  cases hq'
  exact hs

/-- A directory `a` holding one file `b`, and next to it a file `a-1`, which sorts
before `a/` although its name sorts after `a`. -/
def sampleTree : StaticTree where
  read a :=
    if a = [] then
      .ok ⟨none, [⟨[0x61], .dir, .ok ⟨true, 0⟩⟩, ⟨[0x61, 0x2D, 0x31], .reg, .ok ⟨false, 0⟩⟩]⟩
    else if a = [[0x61]] then .ok ⟨none, [⟨[0x62], .unknown, .ok ⟨false, 0⟩⟩]⟩
    else .error .ENOENT
  wellFormed {a dir} h := by
    split_ifs at h <;> cases h <;> refine ⟨by decide, fun d hd _ _ => ?_⟩ <;>
      simp only [mem_cons, not_mem_nil, or_false] at hd
    · rcases hd with rfl | rfl <;> exact ⟨by decide, nofun⟩
    · cases hd
      exact ⟨by decide, nofun⟩
  skippable {a e} h := by
    split_ifs at h
    cases h
    rfl

def wholeTree : TreeOptions where
  entries := ⟨1, false, false, none, none⟩
  max_depth := MAX_DEPTH
  resume := none

def sampleWalk : QueryTree where
  opts := wholeTree
  stack := [⟨[], [], queryDirectory ⟨none,
    [⟨[0x61], .dir, .ok ⟨true, 0⟩⟩, ⟨[0x61, 0x2D, 0x31], .reg, .ok ⟨false, 0⟩⟩]⟩ wholeTree.entries,
      []⟩]
  pending := none
  last_key := []
  skip_subtree := false
  fatal := false

end TruenasRos.Walk
