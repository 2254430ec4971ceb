import TruenasRos.Walk.Listing
import TruenasRos.Walk.Path
import TruenasRos.Lib.DepthFirst

/-! # The agenda of a walk

Over a tree that does not change, a walk is a depth-first visit: its stack of
listings stands for an agenda of entries to yield, and `next` yields the front of
the agenda after putting the contents of the directory just yielded before it.
-/

namespace TruenasRos.Walk

open List

/-- A tree each of whose directories opens to judgeable entries or fails in a way
that only drops it from the walk. -/
structure StaticTree where
  read : Tree
  wellFormed : ∀ {a dir}, read a = .ok dir → dir.WellFormed
  skippable : ∀ {a e}, read a = .error e → isSubtreeSkip (.errno e) = true

structure Node where
  anchor : Anchor
  entry : DirEntry
  deriving DecidableEq

namespace Node

def path (n : Node) : Bytes := pathOf (n.entry.name :: n.anchor)

def key (n : Node) : Bytes := if n.entry.is_dir then n.path ++ [SLASH] else n.path

def out (n : Node) : TreeEntry := ⟨pathOf n.anchor, n.entry⟩

def enters (opts : TreeOptions) (n : Node) : Bool :=
  n.entry.is_dir && n.anchor.length + 1 < opts.max_depth

end Node

def levelOptions (opts : QueryOptions) (a : Anchor) : QueryOptions :=
  if a = [] then opts else opts.below

/-- What a level of the walk hands out, nothing if it cannot be opened. -/
def levelEntries (t : Tree) (opts : QueryOptions) (a : Anchor) : List DirEntry :=
  match t a with
  | .ok dir => dir.entries (levelOptions opts a)
  | .error _ => []

def levelNodes (t : Tree) (opts : QueryOptions) (a : Anchor) : List Node :=
  (levelEntries t opts a).map (Node.mk a)

/-- The entries a walk owes for going into `n`. -/
def kids (t : Tree) (opts : TreeOptions) (n : Node) : List Node :=
  if n.enters opts then levelNodes t opts.entries (n.entry.name :: n.anchor) else []

namespace Frame

def rest (f : Frame) : List DirEntry := f.buf ++ f.dir.rest

def nodes (f : Frame) : List Node := f.rest.map (Node.mk f.anchor)

structure Sound (f : Frame) : Prop where
  dir : f.dir.Sound
  path : f.path = pathOf f.anchor
  anchor : ∀ c ∈ f.anchor, Component c
  rest : ∀ e ∈ f.rest, Component e.name

end Frame

/-- Every level is sound and stands one component below the next. -/
def Stacked : List Frame → Prop
  | [] => True
  | f :: stack => f.Sound ∧ f.anchor.length = stack.length ∧ Stacked stack

def agendaOf (stack : List Frame) : List Node := stack.flatMap Frame.nodes

@[simp]
theorem agendaOf_cons (f : Frame) (stack : List Frame) :
    agendaOf (f :: stack) = f.nodes ++ agendaOf stack := rfl

namespace QueryTree

/-- The entries the walk has still to yield, the directory just yielded apart. -/
def agenda (q : QueryTree) : List Node := agendaOf q.stack

/-- The walk right after it yielded `n`, with `stack` left. -/
def yielded (q : QueryTree) (n : Node) (stack : List Frame) : QueryTree :=
  { q with
    stack := stack
    last_key := n.key
    skip_subtree := false
    pending := if n.enters q.opts then some n.path else none }

variable {q : QueryTree} {f : Frame} {stack : List Frame}

theorem pull_frame (hf : f.Sound) :
    (f.rest = [] ∧ ∀ (q : QueryTree) stack, q.pull (f :: stack) = q.pull stack) ∨
      ∃ f' : Frame, f'.Sound ∧ f'.anchor = f.anchor ∧ f'.rest = f.rest ∧ f'.buf ≠ [] ∧
        ∀ (q : QueryTree) stack, q.pull (f :: stack) = q.pull (f' :: stack) := by
  induction hn : f.dir.left using Nat.strong_induction_on generalizing f with
  | _ n ih =>
    cases hb : f.buf with
    | cons e buf => exact .inr ⟨f, hf, rfl, rfl, by simp [hb], fun _ _ => rfl⟩
    | nil =>
      rcases hf.dir.next with ⟨d, hnx, hre⟩ | ⟨batch, d, hnx, hre, hd⟩
      · exact .inl ⟨by rw [Frame.rest, hb, hre]; rfl, fun _ _ => by rw [pull]; grind⟩
      · let f₁ : Frame := { f with dir := d, buf := batch }
        have hre₁ : f₁.rest = f.rest := by rw [Frame.rest, Frame.rest, hb, hre]; rfl
        have hf₁ : f₁.Sound := ⟨hd, hf.path, hf.anchor, hre₁ ▸ hf.rest⟩
        have hpu : ∀ (q : QueryTree) stack, q.pull (f :: stack) = q.pull (f₁ :: stack) :=
          fun _ _ => by rw [pull]; grind
        rcases ih _ (hn ▸ QueryDir.left_next_lt hnx) hf₁ rfl with
          ⟨hnil, hdo⟩ | ⟨f', hf', ha, hr, hne, hm⟩
        · exact .inl ⟨hre₁ ▸ hnil, fun q stack => (hpu q stack).trans (hdo q stack)⟩
        · exact .inr ⟨f', hf', ha, hr.trans hre₁, hne,
            fun q stack => (hpu q stack).trans (hm q stack)⟩

theorem pull_eq_none (q : QueryTree) (h : Stacked stack)
    (hnil : agendaOf stack = []) : q.pull stack = (none, { q with stack := [] }) := by
  induction stack with
  | nil => rw [pull]
  | cons f stack ih =>
    obtain ⟨hf, -, hs⟩ := h
    obtain ⟨hn, hre⟩ := append_eq_nil_iff.1 hnil
    rcases pull_frame hf with ⟨-, hd⟩ | ⟨f', hf', -, hr, hne, -⟩
    · rw [hd, ih hs hre]
    · have : f'.rest = [] := hr ▸ map_eq_nil_iff.1 hn
      exact absurd (append_eq_nil_iff.1 this).1 hne

theorem pull_eq_some (q : QueryTree) (h : Stacked stack) {n : Node}
    {agenda : List Node} (hc : agendaOf stack = n :: agenda) :
    ∃ top below, Stacked (top :: below) ∧ agendaOf (top :: below) = agenda ∧
      top.anchor = n.anchor ∧ Component n.entry.name ∧
      q.pull stack = (some (.ok n.out), q.yielded n (top :: below)) := by
  induction stack with
  | nil => cases hc
  | cons f stack ih =>
    obtain ⟨hf, hlen, hs⟩ := h
    rcases pull_frame hf with ⟨hnil, hd⟩ | ⟨f', hf', ha, hr, hne, hm⟩
    · rw [agendaOf_cons, Frame.nodes, hnil] at hc
      rw [hd]
      exact ih hs hc
    · obtain ⟨e, buf, hb⟩ := exists_cons_of_ne_nil hne
      have hre : f.rest = e :: (buf ++ f'.dir.rest) := by rw [← hr, Frame.rest, hb]; rfl
      rw [agendaOf_cons, Frame.nodes, hre, ← ha] at hc
      obtain ⟨rfl, rfl⟩ := cons.inj hc
      have hmem : ∀ e' ∈ e :: (buf ++ f'.dir.rest), Component e'.name := by
        rw [← hre]
        exact hf.rest
      refine ⟨{ f' with buf := buf }, stack, ⟨⟨hf'.dir, hf'.path, hf'.anchor, ?_⟩, ?_, hs⟩,
        rfl, rfl, hmem e mem_cons_self, ?_⟩
      · exact fun e' he' => hmem e' (mem_cons_of_mem e he')
      · exact ha ▸ hlen
      · rw [hm, pull]
        simp only [hb, yield, yielded, Node.enters, hf'.path, length_cons, ha, hlen]
        rfl

end QueryTree

variable {t : StaticTree}
variable {a : Anchor} {dir : Directory} {opts : QueryOptions}

theorem levelEntries_of_ok (h : t.read a = .ok dir) :
    levelEntries t.read opts a = dir.entries (levelOptions opts a) := by
  rw [levelEntries, h]

theorem component_levelEntries {e : DirEntry}
    (h : e ∈ levelEntries t.read opts a) : Component e.name := by
  cases ht : t.read a with
  | ok dir =>
    rw [levelEntries_of_ok ht] at h
    have hd := componentDefect_eq_none_iff.1 ((t.wellFormed ht).name_entries h)
    exact ⟨hd.1, hd.2.2.2.1⟩
  | error e =>
    rw [levelEntries, ht] at h
    exact absurd h not_mem_nil

theorem pairwise_levelEntries (t : StaticTree) (opts : QueryOptions) (a : Anchor) :
    (levelEntries t.read opts a).Pairwise fun e e' => e.key < e'.key := by
  cases ht : t.read a with
  | ok dir =>
    rw [levelEntries_of_ok ht]
    exact (t.wellFormed ht).pairwise_entries
  | error e =>
    rw [levelEntries, ht]
    exact .nil

theorem sound_frame (ht : t.read a = .ok dir) (ha : ∀ c ∈ a, Component c) (opts : QueryOptions)
    (cut : Option Bytes) :
    let f : Frame :=
      ⟨pathOf a, a, queryDirectory dir { levelOptions opts a with start_after := cut }, []⟩
    f.Sound ∧ f.rest = entriesAfter cut (levelEntries t.read opts a) := by
  intro f
  have hr : f.rest = entriesAfter cut (levelEntries t.read opts a) := by
    rw [levelEntries_of_ok ht, Frame.rest]
    exact QueryDir.rest_queryDirectory (t.wellFormed ht) _
  have hs : 0 < f.dir.opts.clump := lt_of_lt_of_le Nat.one_pos (Nat.le_max_right _ _)
  refine ⟨⟨⟨rfl, hs, t.wellFormed ht, nofun⟩, rfl, ha, fun e he => ?_⟩, hr⟩
  exact component_levelEntries (mem_of_mem_entriesAfter (hr ▸ he))

theorem openFrame_of_ok {c : Name} (ht : t.read (c :: a) = .ok dir) (hc : Component c)
    (ha : ∀ c ∈ a, Component c) (opts : QueryOptions) (cut : Option Bytes) :
    ∃ f, openFrame t.read a c (pathOf (c :: a)) opts.below cut = .ok f ∧ f.Sound ∧
      f.anchor = c :: a ∧ f.rest = entriesAfter cut (levelEntries t.read opts (c :: a)) := by
  have hca : ∀ c' ∈ c :: a, Component c' := by
    rintro c' (_ | ⟨_, hc'⟩)
    · exact hc
    · exact ha c' hc'
  obtain ⟨hs, hr⟩ := sound_frame ht hca opts cut
  exact ⟨_, by rw [openFrame, ht]; rfl, hs, rfl, hr⟩

namespace QueryTree

structure Sound (q : QueryTree) : Prop where
  live : q.fatal = false
  stacked : Stacked q.stack
  pending : ∀ path, q.pending = some path →
    ∃ top below c, q.stack = top :: below ∧ Component c ∧ path = pathOf (c :: top.anchor)

def entered (t : Tree) (q : QueryTree) : List Node :=
  match q.pending, q.stack with
  | some path, top :: _ =>
    levelNodes t q.opts.entries (leafName path :: top.anchor) ++ q.agenda
  | _, _ => q.agenda

variable {q : QueryTree} {n : Node}

theorem entered_of_not_pending {t : Tree} (h : q.pending = none) : q.entered t = q.agenda := by
  rw [QueryTree.entered, h]

/-- The walk stands right after `n`, with `rest` to follow what `n` holds. -/
structure At (t : Tree) (q : QueryTree) (n : Node) (rest : List Node) : Prop where
  sound : q.Sound
  agenda : q.agenda = rest
  entered : q.entered t = kids t q.opts n ++ rest
  last_key : q.last_key = n.key
  skip_subtree : q.skip_subtree = false
  pending : q.pending.isSome = n.enters q.opts

theorem at_yielded (hl : q.fatal = false) {top : Frame} {below : List Frame}
    (hs : Stacked (top :: below)) (ha : top.anchor = n.anchor) (hn : Component n.entry.name) :
    (q.yielded n (top :: below)).At t.read n (agendaOf (top :: below)) where
  sound := by
    refine ⟨hl, hs, fun path hp => ⟨top, below, n.entry.name, rfl, hn, ?_⟩⟩
    rw [yielded, Option.ite_none_right_eq_some] at hp
    rw [← Option.some.inj hp.2, ha]
    rfl
  agenda := rfl
  entered := by
    cases he : n.enters q.opts with
    | false => simp [entered, yielded, kids, he, agenda]
    | true => simp [entered, yielded, kids, he, agenda, Node.path, leafName_pathOf hn, ha]
  last_key := rfl
  skip_subtree := rfl
  pending := by
    cases he : n.enters q.opts <;> simp [yielded, he]

theorem Sound.descend (h : q.Sound) {path : Bytes} (hp : q.pending = some path) :
    ∃ stack, { q with pending := none }.descend t.read path =
        .ok { q with pending := none, stack := stack } ∧
      Stacked stack ∧ agendaOf stack = q.entered t.read := by
  obtain ⟨top, below, c, hsc, hc, rfl⟩ := h.pending path hp
  have hs := h.stacked
  rw [hsc] at hs
  have he : q.entered t.read =
      levelNodes t.read q.opts.entries (c :: top.anchor) ++ agendaOf (top :: below) := by
    simp [entered, hp, hsc, leafName_pathOf hc, agenda]
  simp only [QueryTree.descend, hsc, leafName_pathOf hc, hc.1, if_false]
  cases ht : t.read (c :: top.anchor) with
  | ok dir =>
    obtain ⟨f, ho, hf, hfa, hr⟩ :=
      openFrame_of_ok ht hc hs.1.anchor q.opts.entries none
    rw [ho]
    refine ⟨f :: top :: below, rfl, ⟨hf, ?_, hs⟩, ?_⟩
    · rw [hfa, length_cons, hs.2.1, length_cons]
    · rw [he, agendaOf_cons, Frame.nodes, hfa, hr]
      rfl
  | error e =>
    refine ⟨top :: below, ?_, hs, ?_⟩
    · simp [openFrame, ht, t.skippable ht]
    · rw [he, levelNodes, levelEntries, ht]
      rfl

theorem Sound.next_eq_pull (h : q.Sound) :
    ∃ stack, q.next t.read = { q with pending := none, stack := stack }.pull stack ∧
      Stacked stack ∧ agendaOf stack = q.entered t.read := by
  have hl : ¬q.fatal = true := by simp [h.live]
  rw [next, if_neg hl]
  cases hp : q.pending with
  | none =>
    have hq : { q with pending := none, stack := q.stack } = q := by rw [← hp]
    exact ⟨q.stack, by rw [hq], h.stacked, by rw [entered, hp]; rfl⟩
  | some path =>
    obtain ⟨stack, hd, hs, ha⟩ := h.descend hp
    refine ⟨stack, ?_, hs, ha⟩
    simp [hd]

theorem Sound.next_none (h : q.Sound) (hnil : q.entered t.read = []) :
    q.next t.read = (none, { q with pending := none, stack := [] }) := by
  obtain ⟨stack, hn, hs, ha⟩ := h.next_eq_pull
  rw [hn, pull_eq_none _ hs (ha.trans hnil)]

theorem Sound.next_some (h : q.Sound) {rest : List Node} (hc : q.entered t.read = n :: rest) :
    ∃ q', q.next t.read = (some (.ok n.out), q') ∧ q'.At t.read n rest ∧ q'.opts = q.opts := by
  obtain ⟨stack, hnx, hs, hag⟩ := h.next_eq_pull
  obtain ⟨top, below, ht, rfl, ha, hn, hpu⟩ :=
    pull_eq_some { q with pending := none, stack := stack } hs (hag.trans hc)
  exact ⟨_, hnx.trans hpu, at_yielded h.live ht ha hn, rfl⟩

end QueryTree

end TruenasRos.Walk
