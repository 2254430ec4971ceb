import TruenasRos.Walk.Rebuild

/-! # Whole walks

A fresh walk that is never pruned yields every entry above its depth limit, and
sorting each directory by the keys its entries contribute puts the whole listing
in byte order of the full keys.
-/

namespace TruenasRos.Walk

open DepthFirst Lexicographic List DirEntry

variable {t : StaticTree} {opts : TreeOptions}

/-- What `calls` calls answer when the walk yields `out` and then ends. -/
def listing (out : List TreeEntry) (calls : ℕ) : List (Option (Except Error TreeEntry)) :=
  (out.map fun e => some (.ok e)).take calls ++ replicate (calls - out.length) none

namespace QueryTree

theorem Sound.answers_of_visits {q : QueryTree} (h : q.Sound) (hopts : q.opts = opts)
    {out : List Node} (hv : Visits (kids t.read opts) (q.entered t.read) out) (calls : ℕ) :
    q.answers t.read (replicate calls .next) = listing (out.map Node.out) calls := by
  induction calls generalizing q out with
  | zero => simp [listing, answers]
  | succ calls ih =>
    rw [replicate_succ, answers, call]
    generalize he : q.entered t.read = agenda at hv
    cases hv with
    | nil =>
      simp only [h.next_none he]
      rw [ih (q := { q with pending := none, stack := [] }) ⟨h.live, trivial, by simp⟩ hopts .nil]
      simp [listing, replicate_succ]
    | @cons n agenda out hv =>
      obtain ⟨q', hn, ha, ho'⟩ := h.next_some he
      have her : q'.entered t.read = kids t.read opts n ++ agenda := by
        rw [ha.entered, ho', hopts]
      simp only [hn]
      rw [ih ha.sound (ho'.trans hopts) (her ▸ hv)]
      simp [listing]

end QueryTree

/-- The bytes that the keys of all entries of a directory begin with. -/
def dirKey : Anchor → Bytes
  | [] => []
  | c :: a => dirKey a ++ (c ++ [SLASH])

/-- All components of the entry's path are plain. -/
def Node.Plain (n : Node) : Prop := ∀ c ∈ n.entry.name :: n.anchor, Component c

variable {a : Anchor} {m n x : Node} {e e' : DirEntry} {d : Dirent}

theorem dirKey_eq (h : ∀ c ∈ a, Component c) (hne : a ≠ []) : dirKey a = pathOf a ++ [SLASH] := by
  induction a with
  | nil => exact absurd rfl hne
  | cons c a ih =>
    have ha := fun c' hc' => h c' (mem_cons_of_mem c hc')
    cases a with
    | nil => simp [dirKey, pathOf]
    | cons c' a =>
      rw [dirKey, ih ha (cons_ne_nil _ _), pathOf_cons ha (cons_ne_nil _ _)]
      simp

theorem Node.Plain.key_eq (h : n.Plain) : n.key = dirKey n.anchor ++ n.entry.key := by
  have ha := fun c hc => h c (mem_cons_of_mem _ hc)
  have hpa : n.path = dirKey n.anchor ++ n.entry.name := by
    rw [Node.path]
    cases hn : n.anchor with
    | nil => simp [pathOf, dirKey]
    | cons c a =>
      rw [← hn, pathOf_cons ha (by simp [hn]), dirKey_eq ha (by simp [hn])]
      simp
  rw [Node.key, DirEntry.key, sortKey, hpa]
  split_ifs <;> simp

theorem mem_kids :
    m ∈ kids t.read opts n ↔ n.enters opts = true ∧ m.anchor = n.entry.name :: n.anchor ∧
      m.entry ∈ levelEntries t.read opts.entries m.anchor := by
  obtain ⟨a, e⟩ := m
  rw [kids]
  split_ifs with h
  · simp only [h, true_and, levelNodes, mem_map, Node.mk.injEq]
    constructor
    · rintro ⟨e, he, rfl, rfl⟩
      exact ⟨rfl, he⟩
    · rintro ⟨rfl, he⟩
      exact ⟨e, he, rfl, rfl⟩
  · simp [h]

theorem Node.Plain.of_mem_kids (h : n.Plain) (hm : m ∈ kids t.read opts n) : m.Plain := by
  obtain ⟨-, ha, he⟩ := mem_kids.1 hm
  rintro c (_ | ⟨_, hc⟩)
  · exact component_levelEntries he
  · rw [ha] at hc
    exact h c hc

theorem DirEntry.key_ne_nil (h : Component e.name) : e.key ≠ [] := by
  unfold key sortKey
  split_ifs
  · simp
  · exact h.1

theorem Node.Plain.key_kid (h : n.Plain) (hm : m ∈ kids t.read opts n) :
    n.entry.is_dir = true ∧ ∃ b s, m.key = n.key ++ b :: s := by
  obtain ⟨hen, ha, he⟩ := mem_kids.1 hm
  have hd : n.entry.is_dir = true := by
    rw [Node.enters, Bool.and_eq_true] at hen
    exact hen.1
  obtain ⟨b, s, hb⟩ := exists_cons_of_ne_nil (DirEntry.key_ne_nil (component_levelEntries he))
  refine ⟨hd, b, s, ?_⟩
  rw [(h.of_mem_kids hm).key_eq, h.key_eq, ha, dirKey, hb, DirEntry.key, sortKey, hd, if_pos rfl,
    append_assoc]

theorem Node.Plain.key_below (h : n.Plain) (hx : Descends (kids t.read opts) n x) :
    ∃ s, x.key = n.key ++ s ∧ (n.entry.is_dir = true ∨ s = []) := by
  induction hx using Relation.ReflTransGen.head_induction_on with
  | refl => exact ⟨[], by simp, .inr rfl⟩
  | @head n m hm _ ih =>
    obtain ⟨s, hs, -⟩ := ih (h.of_mem_kids hm)
    obtain ⟨hd, b, s', hm'⟩ := h.key_kid hm
    exact ⟨b :: s' ++ s, by rw [hs, hm', append_assoc], .inl hd⟩

theorem DirEntry.key_of_dir (h : e.is_dir = true) : e.key = e.name ++ [SLASH] := by
  rw [key, sortKey, if_pos h]

theorem key_eq_of_isPrefix (hd : e.is_dir = true) (h' : Component e'.name)
    (hp : e.key <+: e'.key) : e.key = e'.key := by
  obtain ⟨w, hw⟩ := hp
  rw [key_of_dir hd] at hw ⊢
  cases hd' : e'.is_dir with
  | false =>
    have hk : e'.key = e'.name := by rw [key, sortKey, hd']; rfl
    exact absurd (by rw [← hk, ← hw]; simp) h'.2
  | true =>
    rw [key_of_dir hd'] at hw ⊢
    rcases eq_nil_or_concat w with rfl | ⟨w, b, rfl⟩
    · rw [← hw, append_nil]
    · rw [concat_eq_append, ← append_assoc] at hw
      have hn := (append_inj' hw rfl).1
      exact absurd (by rw [← hn]; simp) h'.2

theorem key_append_lt (h' : Component e'.name) (hlt : e.key < e'.key)
    {s : Bytes} (hs : e.is_dir = true ∨ s = []) (s' : Bytes) :
    e.key ++ s < e'.key ++ s' := by
  cases hd : e.is_dir with
  | true =>
    refine append_lt_append hlt (fun hp => ?_) s s'
    exact List.lt_irrefl _ (key_eq_of_isPrefix hd h' hp ▸ hlt)
  | false =>
    rcases hs with hs | rfl
    · exact absurd hs (by simp [hd])
    · rw [append_nil]
      cases s' with
      | nil => rwa [append_nil]
      | cons b s' => exact List.lt_trans hlt (lt_append_cons _ _ _)

def KeyBefore (n m : Node) : Prop := n.key < m.key

theorem apart_of_key_lt (hn : n.Plain) (hm : m.Plain) (ha : n.anchor = m.anchor)
    (hlt : n.entry.key < m.entry.key) : Apart (kids t.read opts) KeyBefore n m := by
  intro x y hx hy
  obtain ⟨s, hs, hc⟩ := hn.key_below hx
  obtain ⟨s', hs', -⟩ := hm.key_below hy
  rw [KeyBefore, hs, hs', hn.key_eq, hm.key_eq, ha, append_assoc, append_assoc]
  exact append_left_lt (key_append_lt (hm _ mem_cons_self) hlt hc s')

theorem pairwise_apart_levelNodes (ha : ∀ c ∈ a, Component c) :
    (levelNodes t.read opts.entries a).Pairwise (Apart (kids t.read opts) KeyBefore) := by
  refine pairwise_map.2 ((pairwise_levelEntries t opts.entries a).imp_of_mem ?_)
  intro e e' he he' hlt
  have plain : ∀ e ∈ levelEntries t.read opts.entries a, Node.Plain ⟨a, e⟩ := by
    rintro e he c (_ | ⟨_, hc⟩)
    · exact component_levelEntries he
    · exact ha c hc
  exact apart_of_key_lt (plain e he) (plain e' he') rfl hlt

theorem pairwise_key_of_visits {out : List Node}
    (h : Visits (kids t.read opts) (levelNodes t.read opts.entries []) out) :
    out.Pairwise KeyBefore := by
  refine h.pairwise (P := Node.Plain) (fun n hn m hm => hn.of_mem_kids hm) ?_ ?_ ?_
    (pairwise_apart_levelNodes (by simp))
  · intro n hn m hm x hx
    obtain ⟨-, b, s, hm'⟩ := hn.key_kid hm
    obtain ⟨s', hs', -⟩ := (hn.of_mem_kids hm).key_below hx
    rw [KeyBefore, hs', hm', append_assoc]
    exact lt_append_cons _ _ _
  · intro n hn
    rw [kids]
    split_ifs
    · exact pairwise_apart_levelNodes hn
    · exact .nil
  · intro n hn
    obtain ⟨e, he, rfl⟩ := mem_map.1 hn
    rintro c (_ | ⟨_, hc⟩)
    · exact component_levelEntries he
    · cases hc

/-- Whether the entry is a directory, by its `d_type` or else by `statx`. -/
def Dirent.isDirectory (d : Dirent) : Bool :=
  match d.dtype, d.statx with
  | .dir, _ => true
  | .unknown, .ok st => st.is_dir
  | _, _ => false

/-- `d` is an entry of the directory `a`, which is reached through directories. -/
inductive Holds (t : Tree) : Anchor → Dirent → Prop
  | root {dir d} (hdir : t [] = .ok dir) (hd : d ∈ dir.stream) (hdot : d.name ≠ DOT)
      (hdot' : d.name ≠ DOT_DOT) : Holds t [] d
  | child {a p dir d} (hp : Holds t a p) (hpdir : p.isDirectory = true)
      (hdir : t (p.name :: a) = .ok dir) (hd : d ∈ dir.stream) (hdot : d.name ≠ DOT)
      (hdot' : d.name ≠ DOT_DOT) : Holds t (p.name :: a) d

/-- The path of an entry, with a slash behind it if it is a directory. -/
def entryKey (a : Anchor) (d : Dirent) : Bytes := Node.key ⟨a, ⟨d.name, d.isDirectory⟩⟩

/-- The options drop no entry. -/
structure QueryOptions.Unfiltered (opts : QueryOptions) : Prop where
  name_prefix : opts.name_prefix = none
  same_device_only : opts.same_device_only = false

theorem Dirent.Plain.isDir_resolved (h : d.Plain) : d.resolved.isDir = d.isDirectory := by
  have hr := h.resolve
  obtain ⟨name, dtype, statx⟩ := d
  cases dtype with
  | unknown =>
    cases statx with
    | ok st =>
      obtain ⟨is_dir, dev⟩ := st
      simp only [resolveUnknownDtype, h.name, ne_eq, not_true_eq_false, if_false,
        Option.isSome_none, Bool.false_eq_true, Except.ok.injEq] at hr
      rw [← hr]
      cases is_dir <;> rfl
    | error e =>
      simp only [resolveUnknownDtype, h.name, ne_eq, not_true_eq_false, if_false,
        Option.isSome_none, Bool.false_eq_true, h.statx e rfl, Except.ok.injEq] at hr
      rw [← hr]
      rfl
  | dir => rfl
  | reg => rfl
  | other => rfl

theorem Directory.WellFormed.mem_entries {dir : Directory} (h : dir.WellFormed)
    {opts : QueryOptions} (hopts : opts.Unfiltered) : e ∈ dir.entries opts ↔
      ∃ d ∈ dir.stream, d.name ≠ DOT ∧ d.name ≠ DOT_DOT ∧ e = ⟨d.name, d.isDirectory⟩ := by
  have hy : ∀ d : Dirent, d.yields dir opts = some ⟨d.name, d.isDir⟩ := fun d => by
    simp [Dirent.yields, enrichOne, hopts.same_device_only]
  have hke : ∀ d : Dirent, keeps opts d = true ↔ d.name ≠ DOT ∧ d.name ≠ DOT_DOT := fun d => by
    simp [keeps, hopts.name_prefix]
  have hk : ∀ d ∈ dir.stream, d.name ≠ DOT → d.name ≠ DOT_DOT →
      (⟨d.resolved.name, d.resolved.isDir⟩ : DirEntry) = ⟨d.name, d.isDirectory⟩ :=
    fun d hd hdot hdot' => by
      rw [(h.plain d hd hdot hdot').isDir_resolved, d.resolved_eq.1]
  simp only [Directory.entries, Directory.listed, mem_filterMap, mem_insertionSort,
    mem_map, readClump, mem_filter, hke, hy, Option.some.injEq]
  constructor
  · rintro ⟨_, ⟨d, ⟨hd, hdot, hdot'⟩, rfl⟩, rfl⟩
    exact ⟨d, hd, hdot, hdot', hk d hd hdot hdot'⟩
  · rintro ⟨d, hd, hdot, hdot', rfl⟩
    exact ⟨d.resolved, ⟨d, ⟨hd, hdot, hdot'⟩, rfl⟩, hk d hd hdot hdot'⟩

theorem mem_levelEntries {opts : QueryOptions} (hopts : opts.Unfiltered) :
    e ∈ levelEntries t.read opts a ↔ ∃ dir, t.read a = .ok dir ∧
      ∃ d ∈ dir.stream, d.name ≠ DOT ∧ d.name ≠ DOT_DOT ∧ e = ⟨d.name, d.isDirectory⟩ := by
  have hle : (levelOptions opts a).Unfiltered := by
    unfold levelOptions
    split_ifs
    · exact hopts
    · exact ⟨rfl, hopts.same_device_only⟩
  cases ht : t.read a with
  | ok dir =>
    rw [levelEntries_of_ok ht, (t.wellFormed ht).mem_entries hle]
    simp
  | error e => simp [levelEntries, ht]

section Reached

variable (hopts : opts.entries.Unfiltered)

include hopts

theorem holds_of_reached (hdp : 0 < opts.max_depth) {n : Node}
    (hn : n ∈ levelNodes t.read opts.entries []) (hx : Descends (kids t.read opts) n x) :
    ∃ d, Holds t.read x.anchor d ∧ x.anchor.length < opts.max_depth ∧
      x.entry = ⟨d.name, d.isDirectory⟩ := by
  induction hx with
  | refl =>
    obtain ⟨e, he, rfl⟩ := mem_map.1 hn
    obtain ⟨dir, hdir, d, hd, hdot, hdot', rfl⟩ := (mem_levelEntries hopts).1 he
    exact ⟨d, .root hdir hd hdot hdot', hdp, rfl⟩
  | @tail p x _ hx ih =>
    obtain ⟨d, hh, -, het⟩ := ih
    obtain ⟨hen, ha, he⟩ := mem_kids.1 hx
    obtain ⟨dir, hdir, d', hd, hdot, hdot', hx'⟩ := (mem_levelEntries hopts).1 he
    rw [Node.enters, Bool.and_eq_true, decide_eq_true_eq, het] at hen
    rw [ha, het] at hdir ⊢
    exact ⟨d', .child hh hen.1 hdir hd hdot hdot', hen.2, hx'⟩

theorem reached_of_holds (h : Holds t.read a d) (hlen : a.length < opts.max_depth) :
    ∃ n ∈ levelNodes t.read opts.entries [],
      Descends (kids t.read opts) n ⟨a, ⟨d.name, d.isDirectory⟩⟩ := by
  induction h with
  | root hdir hd hdot hdot' =>
    refine ⟨_, mem_map.2 ⟨_, ?_, rfl⟩, .refl⟩
    exact (mem_levelEntries hopts).2 ⟨_, hdir, _, hd, hdot, hdot', rfl⟩
  | @child a p dir d _ hpd hdir hd hdot hdot' ih =>
    rw [length_cons] at hlen
    obtain ⟨n, hn, hp⟩ := ih (Nat.lt_of_succ_lt hlen)
    refine ⟨n, hn, hp.tail (mem_kids.2 ⟨?_, rfl, ?_⟩)⟩
    · simp [Node.enters, hpd, hlen]
    · exact (mem_levelEntries hopts).2 ⟨dir, hdir, d, hd, hdot, hdot', rfl⟩

end Reached

/-- A fresh walk, asked until it ends, yields the keys of all entries above its depth
limit in strictly increasing byte order. -/
theorem fresh_walk_in_key_order (t : StaticTree) (opts : TreeOptions) {q : QueryTree}
    (hstart : queryTree t.read opts = .ok q) (hfresh : opts.resume = none)
    (hopts : opts.entries.Unfiltered) : ∃ out : List TreeEntry, (∀ calls,
        q.answers t.read (replicate calls .next) = listing out calls) ∧
      (out.map TreeEntry.key).Pairwise (· < ·) ∧
      ∀ key, key ∈ out.map TreeEntry.key ↔
        ∃ a d, Holds t.read a d ∧ a.length < opts.max_depth ∧ key = entryKey a d := by
  have hdp : 0 < opts.max_depth := by
    have := (queryTree_ok_inv hstart).2
    omega
  have h := started_of_queryTree hstart
  have he : q.entered t.read = levelNodes t.read opts.entries [] := by
    rw [QueryTree.entered_of_not_pending h.pending, h.agenda, hfresh]
    exact resumeAgenda_default t.read opts
  have hr : ∀ n, ∀ m ∈ kids t.read opts n,
      opts.max_depth - m.anchor.length < opts.max_depth - n.anchor.length := by
    intro n m hm
    obtain ⟨hen, ha, -⟩ := mem_kids.1 hm
    rw [Node.enters, Bool.and_eq_true, decide_eq_true_eq] at hen
    rw [ha, length_cons]
    omega
  obtain ⟨out, hv⟩ := exists_visits hr (levelNodes t.read opts.entries [])
  refine ⟨out.map Node.out, fun calls => ?_, ?_, fun key => ?_⟩
  · exact h.sound.answers_of_visits h.opts (he ▸ hv) calls
  · rw [map_map]
    exact pairwise_map.2 (pairwise_key_of_visits hv)
  · rw [map_map, mem_map]
    constructor
    · rintro ⟨x, hx, rfl⟩
      obtain ⟨n, hn, hnx⟩ := hv.mem_iff.1 hx
      obtain ⟨d, hd, hlen, het⟩ := holds_of_reached hopts hdp hn hnx
      exact ⟨x.anchor, d, hd, hlen, by rw [entryKey, ← het]; rfl⟩
    · rintro ⟨a, d, hd, hlen, rfl⟩
      exact ⟨_, hv.mem_iff.2 (reached_of_holds hopts hd hlen), rfl⟩

theorem fresh_walk_in_key_order_sample : queryTree sampleTree.read wholeTree = .ok sampleWalk ∧
      ∃ out : List TreeEntry, (∀ calls,
          sampleWalk.answers sampleTree.read (replicate calls .next) = listing out calls) ∧
        (out.map TreeEntry.key).Pairwise (· < ·) ∧
        ∀ key, key ∈ out.map TreeEntry.key ↔
          ∃ a d, Holds sampleTree.read a d ∧ a.length < MAX_DEPTH ∧ key = entryKey a d :=
  ⟨rfl, fresh_walk_in_key_order sampleTree wholeTree rfl rfl ⟨rfl, rfl⟩⟩

example : sampleWalk.answers sampleTree.read (replicate 4 .next) =
    [some (.ok ⟨[], ⟨[0x61, 0x2D, 0x31], false⟩⟩), some (.ok ⟨[], ⟨[0x61], true⟩⟩),
      some (.ok ⟨[0x61], ⟨[0x62], false⟩⟩), none] := by
  decide +kernel

end TruenasRos.Walk
