import TruenasRos.Walk.Rebuild

/-! # Resuming a walk

The cursor of a walk determines its agenda. A walk resumed from it therefore
continues where the first one stood, whatever was pruned before.
-/

namespace TruenasRos.Walk

open List TreeCursor

/-- Every directory on the way to `a` opens. -/
def Opened (t : Tree) : Anchor → Prop
  | [] => True
  | c :: a => Component c ∧ (∃ dir, t (c :: a) = .ok dir) ∧ Opened t a

/-- An entry a walk can stand on. -/
structure Listed (t : Tree) (opts : TreeOptions) (n : Node) : Prop where
  opened : Opened t n.anchor
  mem : n.entry ∈ levelEntries t opts.entries n.anchor
  depth : n.anchor.length < opts.max_depth

section Deepest

variable {t : Tree} {a b : Anchor}

theorem Opened.component (h : Opened t a) : ∀ c ∈ a, Component c := by
  induction a with
  | nil => exact fun c hc => nomatch hc
  | cons c a ih =>
    rintro c' (_ | ⟨_, hc'⟩)
    · exact h.1
    · exact ih h.2.2 c' hc'

theorem Opened.of_append (h : Opened t (b ++ a)) : Opened t a := by
  induction b with
  | nil => exact h
  | cons c b ih => exact ih h.2.2

theorem deepest_reverse_append (h : Opened t (b ++ a)) (comps : List Name) :
    deepest t a (b.reverse ++ comps) = deepest t (b ++ a) comps := by
  induction b using reverseRecOn generalizing a with
  | nil => rfl
  | append_singleton b c ih =>
    rw [append_assoc, singleton_append] at h ⊢
    obtain ⟨dir, hd⟩ := h.of_append.2.1
    rw [reverse_append, reverse_singleton, singleton_append, cons_append, deepest, hd]
    exact ih h

theorem Opened.deepest {comps : List Name} (h : Opened t a)
    (hc : ∀ c ∈ comps, Component c) : Opened t (deepest t a comps) := by
  induction comps generalizing a with
  | nil => exact h
  | cons c comps ih =>
    rw [Walk.deepest]
    cases ht : t (c :: a) with
    | ok dir =>
      exact ih ⟨hc c mem_cons_self, ⟨dir, ht⟩, h⟩
        fun c' hc' => hc c' (mem_cons_of_mem c hc')
    | error e => exact h

theorem length_deepest_le (t : Tree) (a : Anchor) (comps : List Name) :
    (deepest t a comps).length ≤ a.length + comps.length := by
  induction comps generalizing a with
  | nil => exact le_rfl
  | cons c comps ih =>
    rw [deepest]
    cases t (c :: a) with
    | ok dir =>
      have := ih (c :: a)
      simp only [length_cons] at this ⊢
      omega
    | error e => exact Nat.le_add_right _ _

end Deepest

variable {t : StaticTree} {opts : TreeOptions} {n : Node} {rest : List Node}

theorem entriesAfter_cons {l es : List DirEntry} {cut : Option Bytes} {e : DirEntry}
    (hl : l.Pairwise fun e e' => e.key < e'.key) (h : entriesAfter cut l = e :: es) :
    entriesAfter (some e.key) l = es := by
  -- Whatever sorts after `e` sorts after the cut, so the cut can be made first.
  have hc : entriesAfter (some e.key) l = entriesAfter (some e.key) (entriesAfter cut l) := by
    cases cut with
    | none => rfl
    | some k =>
      have hk : k < e.key := by
        have : e ∈ l.filter (k < ·.key) := by rw [← entriesAfter, h]; exact mem_cons_self
        simpa using (mem_filter.1 this).2
      simp only [entriesAfter, filter_filter]
      refine filter_congr fun e' _ => ?_
      rw [Bool.eq_iff_iff, Bool.and_eq_true, decide_eq_true_eq, decide_eq_true_eq]
      exact ⟨fun he' => ⟨he', List.lt_trans hk he'⟩, And.left⟩
  have hs : (e :: es).Pairwise fun e e' => e.key < e'.key := by
    rw [← h]
    cases cut with
    | none => exact hl
    | some k => exact hl.filter _
  rw [hc, h]
  simp only [entriesAfter, List.filter_cons, List.lt_irrefl, decide_false, Bool.false_eq_true,
    if_false, List.filter_eq_self, decide_eq_true_eq]
  exact (List.pairwise_cons.1 hs).1

theorem agendaFrom_cons {a : Anchor} (ha : Opened t.read a) (hd : a.length < opts.max_depth)
    {cut : Option Bytes} (h : agendaFrom t.read opts.entries cut a = n :: rest) :
    Listed t.read opts n ∧ rest = agendaFrom t.read opts.entries (some n.entry.key) n.anchor := by
  cases he : entriesAfter cut (levelEntries t.read opts.entries a) with
  | cons e es =>
    rw [agendaFrom, he] at h
    obtain ⟨rfl, rfl⟩ := List.cons.inj h
    refine ⟨⟨ha, mem_of_mem_entriesAfter (he ▸ mem_cons_self), hd⟩, ?_⟩
    rw [agendaFrom, entriesAfter_cons (pairwise_levelEntries t opts.entries a) he]
    rfl
  | nil =>
    rw [agendaFrom, he] at h
    cases a with
    | nil => cases h
    | cons c a => exact agendaFrom_cons ha.2.2 (Nat.lt_of_succ_lt hd) h

/-- The agenda a cursor stands for goes on, after its front, as after that entry. -/
theorem resumeAgenda_cons (hd : 0 < opts.max_depth) {c : TreeCursor}
    (h : resumeAgenda t.read opts c = n :: rest) :
    Listed t.read opts n ∧ rest = agendaFrom t.read opts.entries (some n.entry.key) n.anchor := by
  have ho : Opened t.read (deepest t.read [] (c.components.take (c.descendTo opts.max_depth))) :=
    Opened.deepest trivial fun s hs => component_of_mem_components (mem_of_mem_take hs)
  refine agendaFrom_cons ho ?_ h
  have hlen := length_deepest_le t.read [] (c.components.take (c.descendTo opts.max_depth))
  have hm : c.descendTo opts.max_depth ≤ opts.max_depth - 1 := Nat.min_le_right _ _
  rw [length_nil, length_take] at hlen
  omega

namespace Listed

variable {n : Node} (h : Listed t.read opts n) {skip : Bool}

include h

theorem component : ∀ c ∈ n.entry.name :: n.anchor, Component c := by
  rintro c (_ | ⟨_, hc⟩)
  · exact component_levelEntries h.mem
  · exact h.opened.component c hc

theorem components (skip : Bool) :
    components ⟨n.key, skip⟩ = n.anchor.reverse ++ [n.entry.name] := by
  rw [← reverse_cons]
  exact components_pathOf h.component n.entry.is_dir skip

theorem namesDir (skip : Bool) : TreeCursor.namesDir ⟨n.key, skip⟩ = n.entry.is_dir := by
  have hpa : n.path.getLast? ≠ some SLASH :=
    getLast?_pathOf_ne (h.component _ mem_cons_self)
  unfold TreeCursor.namesDir Node.key
  cases n.entry.is_dir with
  | true => simp
  | false => simpa using hpa

theorem deepest_anchor (comps : List Name) :
    deepest t.read [] (n.anchor.reverse ++ comps) = deepest t.read n.anchor comps := by
  have := h.opened
  rw [← append_nil n.anchor] at this
  rw [deepest_reverse_append this, append_nil]

section

variable (hs : skip = true → n.entry.is_dir = true)
include hs

theorem cutFor_anchor : cutFor ⟨n.key, skip⟩ opts.max_depth n.anchor.length = some n.entry.key := by
  have hg : (n.anchor.reverse ++ [n.entry.name])[n.anchor.length]? = some n.entry.name := by simp
  simp only [cutFor, descendTo, intoDir, h.components, h.namesDir, hg, DirEntry.key, sortKey]
  cases hd : n.entry.is_dir with
  | true => cases skip <;> simp
  | false =>
    cases skip with
    | true => exact absurd (hs rfl) (by simp [hd])
    | false => simp

theorem resumeAgenda_level
    (hd : descendTo ⟨n.key, skip⟩ opts.max_depth = n.anchor.length) :
    resumeAgenda t.read opts ⟨n.key, skip⟩ =
      agendaFrom t.read opts.entries (some n.entry.key) n.anchor := by
  have ht : (n.anchor.reverse ++ [n.entry.name]).take n.anchor.length =
      n.anchor.reverse ++ [] := by
    rw [take_left' length_reverse, append_nil]
  simp only [resumeAgenda, hd, h.components, ht, h.deepest_anchor, deepest, h.cutFor_anchor hs]

end

theorem resumeAgenda_skip (hd : n.entry.is_dir = true) : resumeAgenda t.read opts ⟨n.key, true⟩ =
      agendaFrom t.read opts.entries (some n.entry.key) n.anchor := by
  refine h.resumeAgenda_level (fun _ => hd) ?_
  have := h.depth
  simp [descendTo, intoDir, h.components]
  omega

theorem resumeAgenda_key : resumeAgenda t.read opts ⟨n.key, false⟩ =
      kids t.read opts n ++ agendaFrom t.read opts.entries (some n.entry.key) n.anchor := by
  have hdp := h.depth
  have hde : descendTo ⟨n.key, false⟩ opts.max_depth =
      n.anchor.length + (n.enters opts).toNat := by
    simp only [descendTo, intoDir, h.components, h.namesDir, Node.enters]
    cases n.entry.is_dir with
    | false => simp; omega
    | true =>
      by_cases hd : n.anchor.length + 1 < opts.max_depth <;> simp [hd] <;> omega
  cases he : n.enters opts with
  | false =>
    rw [he] at hde
    have hle := h.resumeAgenda_level (fun hf => absurd hf Bool.false_ne_true) hde
    rw [hle, kids, he]
    rfl
  | true =>
    have hdir : n.entry.is_dir = true := by
      rw [Node.enters, Bool.and_eq_true] at he
      exact he.1
    have hk : n.entry.name ++ [SLASH] = n.entry.key := by
      rw [DirEntry.key, sortKey, hdir, if_pos rfl]
    have hta : (n.anchor.reverse ++ [n.entry.name]).take (n.anchor.length + 1) =
        n.anchor.reverse ++ [n.entry.name] := take_of_length_le (by simp)
    rw [he, Bool.toNat_true] at hde
    simp only [resumeAgenda, hde, h.components, hta, h.deepest_anchor, kids, he, if_true]
    cases ht : t.read (n.entry.name :: n.anchor) with
    | ok dir =>
      have hc : cutFor ⟨n.key, false⟩ opts.max_depth (n.anchor.length + 1) = none := by
        rw [cutFor, h.components, getElem?_eq_none (by simp)]
      simp only [deepest, ht, length_cons, hc]
      rw [agendaFrom, agendaAbove, hk]
      rfl
    | error e =>
      simp only [deepest, ht]
      rw [h.cutFor_anchor (fun _ => hdir), levelNodes, levelEntries, ht]
      rfl

end Listed

end TruenasRos.Walk
