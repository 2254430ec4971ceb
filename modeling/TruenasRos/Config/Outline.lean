import TruenasRos.Config.Read

/-! # The outline of a document

The outline of a document is its names: the option names of DEFAULT and of each section.
Each line means one thing to the outline, given the option that is open before it. The
read loop gathers the names of the outline, and it fails where the outline does.
-/

namespace TruenasRos.Config

open List Option Ordered SectionId Reader Work

/-- What a line means to the outline. -/
inductive Mark
  | quiet
  | header (name : Text)
  | option (key : Text) (valued : Bool) (indent : ℕ)
  | fault
  deriving DecidableEq

/-- The line names a section or an option. -/
def Mark.naming : Mark → Bool
  | .header name => name ≠ DEFAULT_SECTION
  | .option _ _ _ => true
  | .quiet | .fault => false

/-- The option that is open: whether it has a value, and how deep its line stands. -/
abbrev Opening := Option (Bool × ℕ)

def freshMark (u : Unicode) (allow_no_value : Bool) (indent : ℕ) (clean : Text) : Mark :=
  match sectionHeader clean with
  | some name => .header name
  | none =>
    match parseOption clean allow_no_value with
    | none => .fault
    | some (raw_key, value) =>
      if (optionxform u raw_key).isEmpty then .fault
      else .option (optionxform u raw_key) value.isSome indent

def mark (u : Unicode) (allow_no_value : Bool) (s : Opening) (line : Text) : Mark :=
  let clean := pyStrip line
  let indent := (line.takeWhile isPySpace).length
  if clean.isEmpty || isFullComment clean then .quiet
  else
    match s with
    | some (valued, depth) =>
      if depth < indent then if valued then .quiet else .fault
      else freshMark u allow_no_value indent clean
    | none => freshMark u allow_no_value indent clean

def Opening.after (s : Opening) : Mark → Opening
  | .quiet | .fault => s
  | .header _ => none
  | .option _ valued indent => some (valued, indent)

def marks (u : Unicode) (allow_no_value : Bool) : Opening → List Text → List Mark
  | _, [] => []
  | s, line :: lines =>
    mark u allow_no_value s line ::
      marks u allow_no_value (s.after (mark u allow_no_value s line)) lines

structure Outline where
  default : List Text
  sections : List (Text × List Text)
  cur : Cur
  deriving DecidableEq

namespace Outline

def start : Outline := ⟨[], [], .none⟩

def keys (o : Outline) : Option (List Text) :=
  match o.cur with
  | .none => none
  | .default => some o.default
  | .section i => (o.sections[i]?).map Prod.snd

def setKeys (o : Outline) (ks : List Text) : Outline :=
  match o.cur with
  | .none => o
  | .default => { o with default := ks }
  | .section i => { o with sections := o.sections.modify i fun e => (e.1, ks) }

theorem setKeys_keys {o : Outline} {ks : List Text} (h : o.keys = some ks) : o.setKeys ks = o := by
  obtain ⟨default, sections, cur⟩ := o
  cases cur with
  | none => rfl
  | default =>
    cases h
    rfl
  | «section» i =>
    obtain ⟨e, he, rfl⟩ := map_eq_some_iff.1 h
    have hm : sections.modify i (fun a => (a.1, e.2)) = sections := by
      apply ext_getElem?
      intro j
      by_cases hj : i = j
      · subst hj
        simp [he]
      · simp [hj]
    simp [setKeys, hm]

section

variable (o : Outline)

/-- A repeated name, an option outside every section and a line without a meaning have no
outline. -/
def apply : Mark → Option Outline
  | .quiet => some o
  | .header name =>
    if name = DEFAULT_SECTION then some { o with cur := .default }
    else if name ∈ o.sections.map Prod.fst then none
    else some { o with
      sections := o.sections ++ [(name, [])], cur := .section o.sections.length }
  | .option key _ _ =>
    o.keys.bind fun ks => if key ∈ ks then none else some (o.setKeys (ks ++ [key]))
  | .fault => none

def run (ms : List Mark) : Option Outline := ms.foldlM apply o

theorem run_nil : o.run [] = some o := rfl

theorem run_cons (m : Mark) (ms : List Mark) :
    o.run (m :: ms) = (o.apply m).bind fun o' => o'.run ms := rfl

theorem run_append (ms ms' : List Mark) :
    o.run (ms ++ ms') = (o.run ms).bind fun o' => o'.run ms' :=
  foldlM_append

end

variable {o o' : Outline} {ks : List Text} {m : Mark} {ms : List Mark}

theorem cur_setKeys (o : Outline) (ks : List Text) : (o.setKeys ks).cur = o.cur := by
  obtain ⟨default, sections, cur⟩ := o
  cases cur <;> rfl

theorem keys_setKeys (h : o.keys = some ks) (ks' : List Text) :
    (o.setKeys ks').keys = some ks' := by
  obtain ⟨default, sections, cur⟩ := o
  cases cur with
  | none => cases h
  | default => rfl
  | «section» i =>
    obtain ⟨e, he, -⟩ := map_eq_some_iff.1 h
    simp [keys, setKeys, he]

theorem setKeys_setKeys (o : Outline) (ks ks' : List Text) :
    (o.setKeys ks).setKeys ks' = o.setKeys ks' := by
  obtain ⟨default, sections, cur⟩ := o
  cases cur with
  | none | default => rfl
  | «section» i => simp [setKeys, modify_modify_eq, Function.comp_def]

theorem apply_default (o : Outline) :
    o.apply (.header DEFAULT_SECTION) = some { o with cur := .default } := by
  rw [apply, if_pos rfl]

/-- The lines of `ms` name nothing; at most they go back to DEFAULT. -/
def Calm (ms : List Mark) : Prop := ∀ m ∈ ms, m = .quiet ∨ m = .header DEFAULT_SECTION

theorem run_calm (h : Calm ms) (o : Outline) : o.run ms = some { o with
      cur := if .header DEFAULT_SECTION ∈ ms then .default else o.cur } := by
  induction ms generalizing o with
  | nil => rfl
  | cons m ms ih =>
    obtain ⟨hm, hms⟩ := forall_mem_cons.1 h
    rcases hm with rfl | rfl
    · have ha : o.apply .quiet = some o := rfl
      rw [run_cons, ha, bind_some, ih hms]
      simp
    · rw [run_cons, apply_default, bind_some, ih hms]
      simp

def weight (o : Outline) : ℕ := o.default.length + (o.sections.map fun e => e.2.length + 1).sum

theorem weight_setKeys (h : o.keys = some ks) (key : Text) :
    (o.setKeys (ks ++ [key])).weight = o.weight + 1 := by
  obtain ⟨default, sections, cur⟩ := o
  cases cur with
  | none => cases h
  | default =>
    cases h
    simp only [setKeys, weight, length_append, length_singleton]
    omega
  | «section» i =>
    obtain ⟨e, he, rfl⟩ := map_eq_some_iff.1 h
    obtain ⟨hi, rfl⟩ := List.getElem?_eq_some_iff.1 he
    have hs := take_append_drop i sections
    rw [drop_eq_getElem_cons hi] at hs
    simp only [setKeys, weight, modify_eq_take_cons_drop hi]
    conv_rhs => rw [← hs]
    simp only [map_append, map_cons, sum_append, sum_cons, length_append, length_singleton]
    omega

theorem length_default_setKeys (h : o.keys = some ks) (key : Text) :
    o.default.length ≤ (o.setKeys (ks ++ [key])).default.length := by
  obtain ⟨default, sections, cur⟩ := o
  cases cur with
  | none | «section» i => exact le_refl _
  | default =>
    cases h
    simp [setKeys]

theorem apply_weight (h : o.apply m = some o') :
    o'.weight = o.weight + (if m.naming then 1 else 0) ∧ m ≠ .fault ∧
      o.default.length ≤ o'.default.length := by
  cases m with
  | quiet =>
    cases h
    exact ⟨rfl, by simp, le_refl _⟩
  | fault => cases h
  | header name =>
    rw [apply] at h
    split_ifs at h with hd hmem
    · cases h
      exact ⟨by simp [Mark.naming, hd, weight], by simp, le_refl _⟩
    · cases h
      refine ⟨?_, by simp, le_refl _⟩
      simp only [weight, Mark.naming, hd, map_append, map_cons, map_nil, sum_append, sum_cons,
        sum_nil, ne_eq, not_false_eq_true, decide_true, if_true, length_nil]
      omega
  | option key valued indent =>
    obtain ⟨ks, hk, h⟩ := bind_eq_some_iff.1 h
    split_ifs at h
    cases h
    exact ⟨weight_setKeys hk key, by simp, length_default_setKeys hk key⟩

theorem run_weight (h : o.run ms = some o') :
    o'.weight = o.weight + ms.countP Mark.naming ∧ .fault ∉ ms ∧
      o.default.length ≤ o'.default.length := by
  induction ms generalizing o with
  | nil =>
    cases h
    exact ⟨rfl, not_mem_nil, le_refl _⟩
  | cons m ms ih =>
    obtain ⟨o₁, ha, hr⟩ := bind_eq_some_iff.1 h
    obtain ⟨hw, hf, hle⟩ := apply_weight ha
    obtain ⟨hw', hf', hl'⟩ := ih hr
    refine ⟨?_, ?_, hle.trans hl'⟩
    · rw [hw', hw, countP_cons]
      omega
    · rw [mem_cons, not_or]
      exact ⟨hf.symm, hf'⟩

end Outline

namespace Reader

def opening (r : Reader) : Opening :=
  r.optname.map fun name =>
    (((r.work.curOpts r.cur).bind fun opts => (opts.get name).join).isSome, r.indent_level)

def outline (r : Reader) : Outline :=
  ⟨r.work.default.keys, r.work.sections.entries.map fun e => (e.1, e.2.keys), r.cur⟩

/-- The duplicates on record are the names gathered so far. -/
structure Sound (r : Reader) : Prop where
  added : ∀ name, name ∈ r.work.added_sections ↔ name ∈ r.work.sections.keys
  dups : ∀ cur opts, r.work.curOpts cur = some opts →
    ∀ key, (SectionId.of cur, key) ∈ r.work.dups ↔ key ∈ opts.keys
  beyond : ∀ i key, (SectionId.at i, key) ∈ r.work.dups → i < r.work.sections.entries.length
  cur : r.cur ≠ .none → (r.work.curOpts r.cur).isSome
  optname : r.optname ≠ none → r.cur ≠ .none

end Reader

variable {u : Unicode} {cfg : ConfigFile} {src : String} {ln : ℕ} {r r' : Reader} {m : Mark}

theorem Reader.keys_outline (r : Reader) :
    r.outline.keys = (r.work.curOpts r.cur).map (·.keys) := by
  unfold outline Outline.keys curOpts
  cases r.cur with
  | none => rfl
  | default => rfl
  | «section» i => simp [Function.comp_def]

theorem Reader.outline_setOpts (r : Reader) (opts : Ordered Text Acc) (optname : Option Text)
    (indent : ℕ) (errors : List String) (dups : List (SectionId × Text)) :
    outline
        ⟨{ r.work with dups := dups }.setOpts opts r.cur, r.cur, optname, indent, errors⟩ =
      r.outline.setKeys opts.keys := by
  unfold outline Outline.setKeys setOpts
  cases r.cur with
  | none => rfl
  | default => rfl
  | «section» i =>
    simp only [setAt]
    congr 1
    apply ext_getElem?
    intro j
    simp only [getElem?_map, getElem?_modify]
    cases r.work.sections.entries[j]? with
    | none => rfl
    | some e => by_cases hj : i = j <;> simp [hj]

variable {cur cur' : Cur} {work : Work} {opts : Ordered Text Acc}

theorem curOpts_setOpts_ne (h : cur' ≠ cur) (opts : Ordered Text Acc) :
    (work.setOpts opts cur).curOpts cur' = work.curOpts cur' := by
  cases cur' with
  | none => rfl
  | default =>
    cases cur with
    | default => exact absurd rfl h
    | none | «section» i => rfl
  | «section» j =>
    cases cur with
    | none | default => rfl
    | «section» i =>
      have hij : i ≠ j := fun hij => h (by rw [hij])
      simp [curOpts, setOpts, setAt, hij]

theorem keys_setOpts (work : Work) (opts : Ordered Text Acc) (cur : Cur) :
    (work.setOpts opts cur).sections.keys = work.sections.keys := by
  cases cur with
  | none | default => rfl
  | «section» i => exact keys_setAt work.sections i opts

theorem of_inj (hc : cur ≠ .none) (hc' : cur' ≠ .none) (h : of cur = of cur') : cur = cur' := by
  cases cur with
  | none => exact absurd rfl hc
  | default =>
    cases cur' with
    | none => exact absurd rfl hc'
    | default => rfl
    | «section» j => cases h
  | «section» i =>
    cases cur' with
    | none | default => cases h
    | «section» j =>
      cases h
      rfl

theorem ne_none_of_curOpts (h : work.curOpts cur = some opts) : cur ≠ .none := by
  rintro rfl
  cases h

namespace Reader

theorem Sound.setOpts (h : r.Sound) {opts' : Ordered Text Acc}
    {dups : List (SectionId × Text)} (hop : r.work.curOpts r.cur = some opts)
    (hd : ∀ d, d ∈ dups ↔ d ∈ r.work.dups ∨ d.1 = SectionId.of r.cur ∧ d.2 ∈ opts'.keys)
    (hke : opts.keys ⊆ opts'.keys) (optname : Option Text) (indent : ℕ) (errors : List String) :
    Sound ⟨{ r.work with dups := dups }.setOpts opts' r.cur, r.cur, optname, indent, errors⟩ := by
  have hcur := ne_none_of_curOpts hop
  have hs : ({ r.work with dups := dups }.setOpts opts' r.cur).curOpts r.cur = some opts' :=
    curOpts_setOpts (by rw [curOpts_withDups, hop]) opts'
  constructor
  · intro name
    simp only [setOpts_added, keys_setOpts]
    exact h.added name
  · intro cur o ho key
    simp only [setOpts_dups, hd]
    by_cases hc : cur = r.cur
    · subst hc
      rw [hs] at ho
      cases ho
      rw [h.dups _ opts hop key]
      exact ⟨fun hk => hk.elim (fun hk => hke hk) And.right, fun hk => .inr ⟨rfl, hk⟩⟩
    · rw [curOpts_setOpts_ne hc, curOpts_withDups] at ho
      have hne : of cur ≠ of r.cur := fun he =>
        hc (of_inj (ne_none_of_curOpts ho) hcur he)
      rw [h.dups cur o ho key]
      exact ⟨fun hk => hk.resolve_right fun hk => hne hk.1, .inl⟩
  · intro i key hi
    simp only [setOpts_dups, hd] at hi
    simp only [← length_keys, keys_setOpts]
    rw [length_keys]
    rcases hi with hi | ⟨hi, -⟩
    · exact h.beyond i key hi
    · have hr : r.cur = .section i := of_inj hcur (by simp) hi.symm
      rw [hr] at hop
      obtain ⟨e, he, -⟩ := map_eq_some_iff.1 hop
      exact (List.getElem?_eq_some_iff.1 he).1
  · simp [hs]
  · intro _
    exact hcur

end Reader

/-- Reading a line that means `m` takes `r` to `r'`. -/
structure Takes (r : Reader) (m : Mark) (r' : Reader) : Prop where
  sound : r'.Sound
  outline : r.outline.apply m = some r'.outline
  opening : r'.opening = r.opening.after m
  errors : r'.parse_errors = r.parse_errors

theorem Takes.refl (h : r.Sound) : Takes r .quiet r := ⟨h, rfl, rfl, rfl⟩

variable {work : Work} {line name : Text}

theorem Work.pushLine_eq (line : Text) : work.pushLine cur name line =
      ((work.curOpts cur).bind fun opts => (opts.get name).join.map fun ls =>
        work.setOpts (opts.insert name (some (ls ++ [line]))) cur) := by
  unfold pushLine
  congr 1
  funext opts
  rcases opts.get name with - | - | ls <;> rfl

theorem Work.isSome_pushLine (line : Text) :
    ((work.curOpts cur).bind fun opts => (opts.get name).join).isSome =
      (work.pushLine cur name line).isSome := by
  rw [pushLine_eq]
  cases work.curOpts cur with
  | none => rfl
  | some opts => simp

theorem Takes.pushLine (h : r.Sound) (hn : r.optname = some name)
    (hpu : r.work.pushLine r.cur name line = some work) :
    Takes r .quiet { r with work := work } := by
  rw [pushLine_eq] at hpu
  obtain ⟨opts, ho, hpu⟩ := bind_eq_some_iff.1 hpu
  obtain ⟨ls, hl, rfl⟩ := map_eq_some_iff.1 hpu
  have hget : opts.get name = some (some ls) := by
    cases hg : opts.get name with
    | none => rw [hg] at hl; cases hl
    | some acc => rw [hg] at hl; rw [← hl]; rfl
  have hk : (opts.insert name (some (ls ++ [line]))).keys = opts.keys := by
    rw [keys_insert, if_pos (mem_keys_of_get hget)]
  have hs : ∀ d, d ∈ r.work.dups ↔ d ∈ r.work.dups ∨ d.1 = of r.cur ∧
      d.2 ∈ (opts.insert name (some (ls ++ [line]))).keys := by
    rintro ⟨sid, key⟩
    rw [hk]
    refine ⟨.inl, fun hd => hd.elim id ?_⟩
    rintro ⟨rfl, hkey⟩
    exact (h.dups _ opts ho key).2 hkey
  constructor
  · exact h.setOpts ho hs (by rw [hk]; exact List.Subset.refl _) _ _ _
  · have hou := r.outline_setOpts (opts.insert name (some (ls ++ [line]))) r.optname
      r.indent_level r.parse_errors r.work.dups
    rw [hk] at hou
    refine congrArg some (Eq.trans ?_ hou.symm)
    have hr := r.keys_outline
    rw [ho] at hr
    exact (Outline.setKeys_keys hr).symm
  · simp only [Reader.opening, hn, map_some, Opening.after, curOpts_setOpts ho,
      bind_some, get_insert_self, ho, hget]
    rfl
  · rfl

theorem Takes.default (h : r.Sound) :
    Takes r (.header DEFAULT_SECTION) { r with cur := .default, optname := none } := by
  constructor
  · exact ⟨h.added, h.dups, h.beyond, fun _ => rfl, fun hn => absurd rfl hn⟩
  · rfl
  · rfl
  · rfl

theorem Reader.names_outline (r : Reader) :
    r.outline.sections.map Prod.fst = r.work.sections.keys := by
  simp [outline, Ordered.keys]

theorem Takes.entered (h : r.Sound) (hna : name ≠ DEFAULT_SECTION)
    (hnew : name ∉ r.work.added_sections) : Takes r (.header name) (r.entered name) := by
  have hk : name ∉ r.work.sections.keys := fun hmem => hnew ((h.added name).2 hmem)
  have he : (r.work.sections.insert name .empty).entries =
      r.work.sections.entries ++ [(name, .empty)] := entries_insert_of_notMem hk
  have hc : (r.entered name).cur = .section r.work.sections.entries.length := by
    rw [Reader.entered, position_insert_of_notMem hk, getD_some]
  have hold : ∀ i < r.work.sections.entries.length,
      (r.entered name).work.curOpts (.section i) = r.work.curOpts (.section i) := by
    intro i hi
    simp [curOpts, Reader.entered, he, getElem?_append_left hi]
  have hl : (r.entered name).work.curOpts (.section r.work.sections.entries.length) =
      some .empty := by
    simp [curOpts, Reader.entered, he]
  constructor
  · constructor
    · intro n
      rw [show (r.entered name).work.sections.keys = r.work.sections.keys ++ [name] from
        keys_insert.trans (if_neg hk)]
      simp only [Reader.entered, mem_cons, mem_append, not_mem_nil, or_false, h.added n]
      exact or_comm
    · intro cur opts ho key
      cases cur with
      | none => cases ho
      | default => exact h.dups .default opts ho key
      | «section» i =>
        rcases lt_trichotomy i r.work.sections.entries.length with hi | rfl | hi
        · exact h.dups (.section i) opts (hold i hi ▸ ho) key
        · obtain rfl : empty = opts := Option.some.inj (hl.symm.trans ho)
          refine ⟨fun hmem => absurd (h.beyond _ key hmem) (lt_irrefl _), fun hmem => ?_⟩
          exact absurd hmem not_mem_nil
        · simp only [curOpts, Reader.entered, he, map_eq_some_iff,
            getElem?_eq_some_iff, length_append, length_singleton] at ho
          obtain ⟨_, ⟨hlt, -⟩, -⟩ := ho
          omega
    · intro i key hmem
      have hlt := h.beyond i key hmem
      simp only [Reader.entered, he, length_append]
      omega
    · intro _
      rw [hc, hl]
      rfl
    · exact fun hn => absurd rfl hn
  · have hmem : name ∉ r.outline.sections.map Prod.fst := r.names_outline ▸ hk
    rw [Outline.apply, if_neg hna, if_neg hmem, Option.some.injEq]
    simp only [Reader.outline, hc, length_map]
    simp only [Reader.entered, he, map_append]
    rfl
  · rfl
  · rfl

theorem Takes.option (h : r.Sound) {key : Text} {value : Option Text}
    (ho : r.work.curOpts r.cur = some opts) (hn : (SectionId.of r.cur, key) ∉ r.work.dups)
    (indent : ℕ) :
    Takes r (.option key value.isSome indent) { r with
      work := { r.work with dups := (of r.cur, key) :: r.work.dups }.setOpts
        (opts.insert key (value.map fun v => [v])) r.cur
      optname := some key
      indent_level := indent } := by
  have hf : key ∉ opts.keys := fun hmem => hn ((h.dups _ opts ho key).2 hmem)
  have hk : (opts.insert key (value.map fun v => [v])).keys = opts.keys ++ [key] := by
    rw [keys_insert, if_neg hf]
  constructor
  · refine h.setOpts ho ?_ (by simp [hk]) _ _ _
    rintro ⟨sid, k⟩
    simp only [mem_cons, Prod.mk.injEq, hk, mem_append, not_mem_nil, or_false]
    constructor
    · rintro (⟨rfl, rfl⟩ | hmem)
      · exact .inr ⟨rfl, .inr rfl⟩
      · exact .inl hmem
    · rintro (hmem | ⟨rfl, hmem | rfl⟩)
      · exact .inr hmem
      · exact .inr ((h.dups _ opts ho k).2 hmem)
      · exact .inl ⟨rfl, rfl⟩
  · rw [Outline.apply, r.keys_outline, ho, map_some, bind_some, if_neg hf,
      Reader.outline_setOpts, hk]
  · have hs : ({ r.work with dups := (of r.cur, key) :: r.work.dups }.setOpts
        (opts.insert key (value.map fun v => [v])) r.cur).curOpts r.cur = _ :=
      curOpts_setOpts (by rw [curOpts_withDups, ho]) _
    simp only [Reader.opening, map_some, Opening.after, hs, bind_some, get_insert_self]
    cases value <;> rfl
  · rfl

/-- What reading a line that means `m` may do: follow the outline, or fail with it, at once
or at the end of the text. -/
def Outcome (r : Reader) (m : Mark) : Except Error Reader → Prop
  | .error _ => r.outline.apply m = none
  | .ok r' => Takes r m r' ∨ r.outline.apply m = none ∧ r'.parse_errors ≠ []

theorem outcome_fresh (h : r.Sound)
    (hq : ((pyStrip line).isEmpty || isFullComment (pyStrip line)) = false)
    (hdp : r.optname ≠ none → (line.takeWhile isPySpace).length ≤ r.indent_level) :
    Outcome r (freshMark u cfg.allow_no_value (line.takeWhile isPySpace).length (pyStrip line))
      (readLine u cfg src ln line r) := by
  obtain ⟨hne, hco⟩ := Bool.or_eq_false_iff.1 hq
  rw [readLine]
  simp only [hco, Bool.false_eq_true, if_false, hne]
  split
  · next name hn hdee =>
    have hle := hdp (by rw [hn]; simp)
    have hlt := (of_decide_eq_true hdee).2
    omega
  · rw [freshMark]
    cases hh : sectionHeader (pyStrip line) with
    | some name =>
      dsimp only
      by_cases hde : name = DEFAULT_SECTION
      · subst hde
        exact .inl (.default h)
      · rw [if_neg hde]
        by_cases ha : name ∈ r.work.added_sections
        · rw [if_pos ha, Outcome, Outline.apply, if_neg hde, r.names_outline,
            if_pos ((h.added name).1 ha)]
        · rw [if_neg ha]
          exact .inl (.entered h hde ha)
    | none =>
      dsimp only
      by_cases hc : r.cur = .none
      · have hk : r.outline.keys = none := by
          rw [r.keys_outline, hc]
          rfl
        rw [if_pos hc, Outcome]
        split
        · rfl
        · split_ifs
          · rfl
          · rw [Outline.apply, hk]
            rfl
      · obtain ⟨opts, ho⟩ := isSome_iff_exists.1 (h.cur hc)
        rw [if_neg hc]
        rcases parseOption (pyStrip line) cfg.allow_no_value with - | ⟨raw_key, value⟩
        · exact .inr ⟨rfl, by simp⟩
        · dsimp only
          by_cases he : (optionxform u raw_key).isEmpty = true
          · rw [if_pos he, if_pos he]
            exact .inr ⟨rfl, by simp⟩
          · rw [if_neg he, if_neg he]
            by_cases hd : (of r.cur, optionxform u raw_key) ∈ r.work.dups
            · rw [if_pos hd, Outcome, Outline.apply, r.keys_outline, ho, map_some,
                bind_some, if_pos ((h.dups _ opts ho _).1 hd)]
            · rw [if_neg hd, curOpts_withDups, ho, getD_some]
              exact .inl (.option h ho hd _)

/-- One line of the read loop is one step of the outline. -/
theorem readLine_outcome (h : r.Sound) (line : Text) :
    Outcome r (mark u cfg.allow_no_value r.opening line) (readLine u cfg src ln line r) := by
  unfold mark
  dsimp only
  split_ifs with hq
  · have hcl : (if isFullComment (pyStrip line) then [] else pyStrip line).isEmpty = true := by
      rcases Bool.or_eq_true_iff.1 hq with he | hc
      · split_ifs <;> simp_all
      · simp [hc]
    rw [readLine]
    rw [if_pos hcl]
    split
    · next name hc hna =>
      cases hpu : r.work.pushLine r.cur name [] with
      | none => exact .inl (.refl h)
      | some work => exact .inl (.pushLine h hna hpu)
    · exact .inl (.refl h)
  · rw [Bool.not_eq_true] at hq
    cases hna : r.optname with
    | none =>
      have ho : r.opening = none := by rw [opening, hna]; rfl
      rw [ho]
      exact outcome_fresh h hq fun hn => absurd hna hn
    | some name =>
      have ho : r.opening = some (((r.work.curOpts r.cur).bind fun opts =>
          (opts.get name).join).isSome, r.indent_level) := by
        rw [opening, hna]
        rfl
      rw [ho]
      dsimp only
      by_cases hd : r.indent_level < (line.takeWhile isPySpace).length
      · obtain ⟨hne, hc⟩ := Bool.or_eq_false_iff.1 hq
        have hcur : r.cur ≠ .none := h.optname (by rw [hna]; simp)
        rw [if_pos hd, isSome_pushLine (pyStrip line), readLine, hna]
        simp only [hc, Bool.false_eq_true, if_false, hne, hcur, ne_eq, not_false_eq_true,
          gt_iff_lt, hd, and_self, decide_true]
        cases hpu : r.work.pushLine r.cur name (pyStrip line) with
        | none => rfl
        | some work =>
          have ht := Takes.pushLine h hna hpu
          rw [hna] at ht
          exact .inl ht
      · rw [if_neg hd]
        exact outcome_fresh h hq fun _ => not_lt.1 hd

theorem parse_errors_of_readLines {ls : List Text}
    (h : readLines u cfg src ln ls r = .ok r') (he : r.parse_errors ≠ []) :
    r'.parse_errors ≠ [] := by
  induction ls generalizing r ln with
  | nil =>
    cases h
    exact he
  | cons line ls ih =>
    obtain ⟨r₁, hl, hr⟩ := bind_eq_ok_iff.1 h
    apply ih hr
    unfold readLine at hl
    dsimp only at hl
    repeat' split at hl
    all_goals cases hl
    all_goals simp [he]

/-- The names that the read loop gathers are those of the outline, unless both fail. -/
theorem readLines_outline (h : r.Sound) (he : r.parse_errors = []) (ls : List Text) :
    match readLines u cfg src ln ls r with
    | .error _ => r.outline.run (marks u cfg.allow_no_value r.opening ls) = none
    | .ok r' => r'.parse_errors = [] ∧
          r.outline.run (marks u cfg.allow_no_value r.opening ls) = some r'.outline ∨
        r'.parse_errors ≠ [] ∧
          r.outline.run (marks u cfg.allow_no_value r.opening ls) = none := by
  induction ls generalizing r ln with
  | nil => exact .inl ⟨he, rfl⟩
  | cons line ls ih =>
    have hl : Outcome r _ (readLine u cfg src ln line r) := readLine_outcome h line
    rw [readLines, marks, Outline.run_cons]
    cases hrd : readLine u cfg src ln line r with
    | error e =>
      rw [hrd] at hl
      rw [show r.outline.apply _ = none from hl]
      rfl
    | ok r₁ =>
      rw [hrd] at hl
      rcases hl with ht | ⟨hn, hb⟩
      · rw [ht.outline, ← ht.opening]
        exact ih ht.sound (ht.errors.trans he)
      · rw [hn]
        cases hr : readLines u cfg src (ln + 1) ls r₁ with
        | error e => simp [bind, Except.bind, hr]
        | ok r' =>
          simp only [bind, Except.bind, hr]
          exact .inr ⟨parse_errors_of_readLines hr hb, rfl⟩

end TruenasRos.Config
