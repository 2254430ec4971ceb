import TruenasRos.Walk.QueryDir

/-! # What a listing hands out

For a directory whose entries can be judged, the listing machine hands out one
fixed list: the kept entries in strictly increasing key order, from the resume
key on. Clumps only decide where that list is cut into batches.
-/

namespace TruenasRos.Walk

open Dirent List

/-- An entry every listing can judge: its name is a plain component, and a `statx`
of it answers or fails in a way the listing swallows. -/
structure Dirent.Plain (d : Dirent) : Prop where
  name : componentDefect d.name = none
  statx : ∀ e, d.statx = .error e → unresolvedStatxVerdict (some e) = none

structure Directory.WellFormed (dir : Directory) : Prop where
  nodup : (dir.stream.map Dirent.name).Nodup
  plain : ∀ d ∈ dir.stream, d.name ≠ DOT → d.name ≠ DOT_DOT → d.Plain

def Dirent.key (d : Dirent) : Bytes := sortKey d.name d.isDir

def DirEntry.key (e : DirEntry) : Bytes := sortKey e.name e.is_dir

def Dirent.resolved (d : Dirent) : Dirent :=
  match resolveUnknownDtype d with
  | .ok d' => d'
  | .error _ => d

def Dirent.yields (dir : Directory) (opts : QueryOptions) (d : Dirent) : Option DirEntry :=
  match enrichOne dir opts d with
  | .ok e => e
  | .error _ => none

/-- The kept entries of a directory, sorted. -/
def Directory.listed (dir : Directory) (opts : QueryOptions) : List Dirent :=
  ((readClump opts dir.stream).map Dirent.resolved).insertionSort byPathBytes

def Directory.entries (dir : Directory) (opts : QueryOptions) : List DirEntry :=
  (dir.listed opts).filterMap (Dirent.yields dir opts)

variable {d : Dirent} {dir : Directory} {opts : QueryOptions} {e : DirEntry}

theorem Dirent.Plain.resolve (h : d.Plain) : resolveUnknownDtype d = .ok d.resolved := by
  have : ∃ d', resolveUnknownDtype d = .ok d' := by
    unfold resolveUnknownDtype
    split_ifs
    · exact ⟨d, rfl⟩
    · exact ⟨d, rfl⟩
    · cases hs : d.statx with
      | ok st => exact ⟨_, rfl⟩
      | error e =>
        simp only [h.statx e hs]
        exact ⟨d, rfl⟩
  obtain ⟨d', hd⟩ := this
  rw [resolved, hd]

theorem Dirent.Plain.enrich (h : d.Plain) (dir : Directory) (opts : QueryOptions) :
    enrichOne dir opts d = .ok (d.yields dir opts) := by
  have : ∃ e, enrichOne dir opts d = .ok e := by
    unfold enrichOne
    simp only [h.name, Option.isSome_none, Bool.false_eq_true, if_false]
    split
    · cases hs : d.statx with
      | ok st => exact ⟨_, rfl⟩
      | error e =>
        simp only [Except.mapError, h.statx e hs]
        exact ⟨none, rfl⟩
    · exact ⟨_, rfl⟩
  obtain ⟨e, he⟩ := this
  rw [yields, he]

theorem Dirent.resolved_eq (d : Dirent) :
    d.resolved.name = d.name ∧ d.resolved.statx = d.statx := by
  unfold resolved
  split
  · rename_i d' h
    unfold resolveUnknownDtype at h
    grind
  · exact ⟨rfl, rfl⟩

theorem Dirent.yields_eq_some (h : d.yields dir opts = some e) : e = ⟨d.name, d.isDir⟩ := by
  unfold yields enrichOne at h
  grind

theorem sortKey_ne_sortKey {a b : Name} (ha : SLASH ∉ a) (hb : SLASH ∉ b) (hne : a ≠ b)
    (ad bd : Bool) : sortKey a ad ≠ sortKey b bd := by
  intro h
  cases ad <;> cases bd <;> simp only [sortKey, if_true, Bool.false_eq_true, if_false] at h
  · exact hne h
  · exact ha (by simp [h])
  · exact hb (by simp [← h])
  · exact hne (append_cancel_right h)

theorem isLE_cmpPathBytes (a : Name) (ad : Bool) (b : Name) (bd : Bool) :
    (cmpPathBytes a ad b bd).isLE = true ↔ sortKey a ad ≤ sortKey b bd := by
  have hs : compare (sortKey a ad) (sortKey b bd) =
      (compare (sortKey b bd) (sortKey a ad)).swap := Std.OrientedCmp.eq_swap
  rw [cmpPathBytes_eq, ← List.not_lt, ← Lexicographic.compare_eq_lt_iff, hs]
  cases compare (sortKey b bd) (sortKey a ad) <;> simp

theorem byPathBytes_iff {a b : Dirent} : byPathBytes a b ↔ a.key ≤ b.key :=
  isLE_cmpPathBytes a.name a.isDir b.name b.isDir

instance : Std.Total byPathBytes where
  total a b := by simp only [byPathBytes_iff]; exact List.le_total _ _

instance : IsTrans Dirent byPathBytes where
  trans a b c := by simp only [byPathBytes_iff]; exact List.le_trans

theorem dropWhile_eq_filter {α : Type} {p : α → Bool} {l : List α}
    (h : l.Pairwise fun a b => p b → p a) : l.dropWhile p = l.filter (!p ·) := by
  induction l with
  | nil => rfl
  | cons a l ih =>
    obtain ⟨ha, hl⟩ := pairwise_cons.1 h
    cases hp : p a with
    | true => simp [hp, ih hl]
    | false =>
      have hall : ∀ b ∈ a :: l, (!p b) = true := by
        rintro b (_ | ⟨_, hb⟩)
        · simp [hp]
        · simpa [hp] using ha b hb
      rw [filter_eq_self.2 hall, dropWhile_cons, hp]
      rfl

section

variable {dir : Directory} {opts : QueryOptions}

section

variable (h : dir.WellFormed)
include h

theorem Directory.WellFormed.plain_listed (hd : d ∈ dir.listed opts) : d.Plain := by
  rw [Directory.listed, mem_insertionSort, mem_map] at hd
  obtain ⟨d, hd, rfl⟩ := hd
  obtain ⟨hmem, hk⟩ := mem_filter.1 hd
  simp only [keeps, Bool.and_eq_true, bne_iff_ne] at hk
  obtain ⟨hn, hs⟩ := d.resolved_eq
  exact ⟨hn ▸ (h.plain d hmem hk.1.1 hk.1.2).name, fun e he => (h.plain d hmem hk.1.1 hk.1.2).statx
    e (hs ▸ he)⟩

theorem Directory.WellFormed.nodup_listed : ((dir.listed opts).map Dirent.name).Nodup := by
  have hpe : (dir.listed opts).Perm ((readClump opts dir.stream).map resolved) :=
    perm_insertionSort _ _
  have hn : name ∘ resolved = name :=
    funext fun d => d.resolved_eq.1
  rw [(hpe.map _).nodup_iff, map_map, hn]
  exact h.nodup.sublist (filter_sublist.map _)

theorem Directory.WellFormed.pairwise_listed :
    (dir.listed opts).Pairwise fun a b => a.key < b.key := by
  have hle : (dir.listed opts).Pairwise byPathBytes := pairwise_insertionSort _ _
  have hne : ((dir.listed opts).map name).Nodup := h.nodup_listed
  refine (hle.and (pairwise_map.1 hne)).imp_of_mem ?_
  rintro a b ha hb ⟨hab, hn⟩
  have ha' := componentDefect_eq_none_iff.1 (h.plain_listed ha).name
  have hb' := componentDefect_eq_none_iff.1 (h.plain_listed hb).name
  have hk : a.key ≠ b.key := sortKey_ne_sortKey ha'.2.2.2.1 hb'.2.2.2.1 hn _ _
  exact Std.lt_of_le_of_ne (byPathBytes_iff.1 hab) hk

omit h in
theorem Dirent.key_of_yields (h : d.yields dir opts = some e) : e.key = d.key := by
  rw [yields_eq_some h]
  rfl

theorem Directory.WellFormed.pairwise_entries :
    (dir.entries opts).Pairwise fun a b => a.key < b.key :=
  h.pairwise_listed.filterMap _ fun a a' hlt b hb b' hb' => by
    rw [key_of_yields hb, key_of_yields hb']
    exact hlt

theorem Directory.WellFormed.name_entries
    (he : e ∈ dir.entries opts) : componentDefect e.name = none := by
  obtain ⟨d, hd, hde⟩ := mem_filterMap.1 he
  rw [yields_eq_some hde]
  exact (h.plain_listed hd).name

theorem Directory.WellFormed.readAllSorted :
    readAllSorted dir opts = .ok (cutAfter opts.start_after (dir.listed opts)) := by
  have hpn : ∀ d ∈ readClump opts dir.stream, resolveUnknownDtype d = .ok d.resolved := by
    intro d hd
    obtain ⟨hmem, hk⟩ := mem_filter.1 hd
    simp only [keeps, Bool.and_eq_true, bne_iff_ne] at hk
    exact (h.plain d hmem hk.1.1 hk.1.2).resolve
  rw [Walk.readAllSorted, resolveUnknownDtypes, mapM_eq_ok_map hpn]
  rfl

end

end

def entriesAfter (key : Option Bytes) (entries : List DirEntry) : List DirEntry :=
  match key with
  | none => entries
  | some key => entries.filter (key < ·.key)

theorem mem_of_mem_entriesAfter {key : Option Bytes} {entries : List DirEntry}
    (h : e ∈ entriesAfter key entries) : e ∈ entries := by
  cases key with
  | none => exact h
  | some key => exact mem_of_mem_filter h

theorem filterMap_cutAfter (h : dir.WellFormed) (key : Option Bytes) :
    (cutAfter key (dir.listed opts)).filterMap (Dirent.yields dir opts) =
      entriesAfter key (dir.entries opts) := by
  cases key with
  | none => rfl
  | some key =>
    have hle : ∀ d : Dirent,
        (cmpPathBytes d.name d.isDir key false).isLE = decide (d.key ≤ key) := fun d => by
      rw [Bool.eq_iff_iff, isLE_cmpPathBytes, decide_eq_true_iff]
      rfl
    simp only [cutAfter, entriesAfter, hle]
    rw [dropWhile_eq_filter, filterMap_filter, Directory.entries, filter_filterMap]
    · refine filterMap_congr fun d _ => ?_
      cases hd : d.yields dir opts with
      | none => simp
      | some e => simp [Option.filter, key_of_yields hd]
    · refine h.pairwise_listed.imp fun {a b} ha => ?_
      simp only [decide_eq_true_eq]
      exact fun hb => Std.le_of_lt (Std.lt_of_lt_of_le ha hb)

namespace QueryDir

def rest (q : QueryDir) : List DirEntry :=
  match q.queue with
  | .ok queue => queue.filterMap (Dirent.yields q.dir q.opts)
  | .error _ => []

structure Sound (q : QueryDir) : Prop where
  live : q.fatal = false
  clump : 0 < q.opts.clump
  dir : q.dir.WellFormed
  plain : ∀ queue, q.sorted = some queue → ∀ d ∈ queue, d.Plain

variable {q : QueryDir}

theorem Sound.queue (h : q.Sound) : ∃ queue, q.queue = .ok queue ∧ ∀ d ∈ queue, d.Plain := by
  cases hs : q.sorted with
  | some queue => exact ⟨queue, by rw [QueryDir.queue, hs], h.plain queue hs⟩
  | none =>
    refine ⟨_, by rw [QueryDir.queue, hs]; exact h.dir.readAllSorted, fun d hd => ?_⟩
    cases hk : q.opts.start_after with
    | none => exact h.dir.plain_listed (by rwa [hk] at hd)
    | some key =>
      rw [hk] at hd
      exact h.dir.plain_listed ((dropWhile_suffix _).subset hd)

theorem rest_queryDirectory (h : dir.WellFormed) (opts : QueryOptions) :
    (queryDirectory dir opts).rest = entriesAfter opts.start_after (dir.entries opts) := by
  have hq : (queryDirectory dir opts).queue = .ok (cutAfter opts.start_after (dir.listed opts)) :=
    h.readAllSorted
  rw [rest, hq]
  exact filterMap_cutAfter h _

theorem Sound.next (h : q.Sound) : (∃ q', q.next = (none, q') ∧ q.rest = []) ∨
      ∃ batch q', q.next = (some (.ok batch), q') ∧ q.rest = batch ++ q'.rest ∧ q'.Sound := by
  obtain ⟨queue, hqu, hpn⟩ := h.queue
  have hn : q.nextNames =
      .ok (queue.take q.opts.clump, { q with sorted := some (queue.drop q.opts.clump) }) := by
    rw [QueryDir.nextNames, hqu]
    rfl
  have hr : q.rest = queue.filterMap (yields q.dir q.opts) := by rw [rest, hqu]
  have he : enrich q.dir q.opts (queue.take q.opts.clump) =
      .ok ((queue.take q.opts.clump).filterMap (yields q.dir q.opts)) := by
    have ho : ∀ d ∈ queue.take q.opts.clump,
        enrichOne q.dir q.opts d = .ok (d.yields q.dir q.opts) := fun d hd =>
      (hpn d (mem_of_mem_take hd)).enrich q.dir q.opts
    rw [enrich, mapM_eq_ok_map ho]
    simp
  cases hq : queue.take q.opts.clump with
  | nil =>
    rw [hq] at hn
    have hnil : queue = [] := by
      rcases take_eq_nil_iff.1 hq with h0 | h0
      · exact absurd h0 h.clump.ne'
      · exact h0
    refine .inl ⟨{ q with sorted := some (queue.drop q.opts.clump) }, ?_, by rw [hr, hnil]; rfl⟩
    simp [QueryDir.next, h.live, hn]
  | cons d ds =>
    refine .inr ⟨(queue.take q.opts.clump).filterMap (yields q.dir q.opts),
      { q with sorted := some (queue.drop q.opts.clump) }, ?_, ?_, ?_⟩
    · rw [hq] at hn he
      simp [QueryDir.next, h.live, hn, he, hq]
    · rw [hr]
      nth_rewrite 1 [← take_append_drop q.opts.clump queue]
      rw [filterMap_append]
      rfl
    · refine ⟨h.live, h.clump, h.dir, ?_⟩
      rintro _ ⟨⟩ d hd
      exact hpn d (mem_of_mem_drop hd)

end QueryDir

end TruenasRos.Walk
