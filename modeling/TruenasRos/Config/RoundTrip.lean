import Mathlib
import TruenasRos.Config.Write

/-! # What is written is read back

The text of any store that the calls can build is read without an error, and the reader
finds the sections and options that were put in, in their order. Nothing in a name or a
value opens a section or an option of its own.
-/

namespace TruenasRos.Config

open List Ordered Reader Option

variable {u : Unicode} {cfg : ConfigFile} {r : Reader} {o : Ordered Text Acc}
  {es fs : Entries} {e : Text × Option Text}

/-- A value as the reader gives it back: its lines stripped, no comment among the later
ones, and no blanks at the end. -/
def normalized (v : Text) : Text :=
  pyRstrip (['\n'].intercalate (pyStrip (firstLine v) :: (restLines v).filterMap kept))

/-- The gathered lines `a` make up the option `e`. -/
structure Gathered (e : Text × Option Text) (a : Text × Acc) : Prop where
  key : a.1 = e.1
  lines : a.2 ≠ some []
  value : join a.2 = e.2.map normalized

/-- The open section of `r` has gathered the options `es`, the last of which is open. -/
structure InSection (r : Reader) (es : Entries) (o : Ordered Text Acc) :
    Prop where
  opts : r.work.curOpts r.cur = some o
  gathered : List.Forall₂ Gathered es o.entries
  dups : ∀ k, (SectionId.of r.cur, k) ∈ r.work.dups → k ∈ es.map Prod.fst
  optname : r.optname = es.getLast?.map Prod.fst
  indent : r.indent_level = 0

/-- From `r` to `r'` the open section came to hold `o`, and nothing else changed. -/
structure Within (r r' : Reader) (o : Ordered Text Acc) : Prop where
  cur : r'.cur = r.cur
  default : r'.work.default = (r.work.setOpts o r.cur).default
  sections : r'.work.sections = (r.work.setOpts o r.cur).sections
  added : r'.work.added_sections = r.work.added_sections
  dups : ∀ d ∈ r'.work.dups, d ∈ r.work.dups ∨ d.1 = SectionId.of r.cur
  errors : r'.parse_errors = r.parse_errors

theorem Within.refl (h : r.work.curOpts r.cur = some o) : Within r r o := by
  refine ⟨rfl, ?_, ?_, rfl, fun d hd => .inl hd, rfl⟩
  · cases hc : r.cur with
    | none => rfl
    | default =>
      rw [hc] at h
      exact some.inj h
    | «section» i => rfl
  · cases hc : r.cur with
    | none => rfl
    | default => rfl
    | «section» i =>
      rw [hc] at h
      obtain ⟨a, ha, rfl⟩ := map_eq_some_iff.1 h
      exact (setAt_self ha).symm

theorem Within.trans {r₁ r₂ : Reader} {o₁ o₂ : Ordered Text Acc} (h₁ : Within r r₁ o₁)
    (h₂ : Within r₁ r₂ o₂) : Within r r₂ o₂ := by
  obtain ⟨hcur, hde, hs, ha, hdu, he⟩ := h₁
  refine ⟨h₂.cur.trans hcur, ?_, ?_, h₂.added.trans ha, fun d hd => ?_, h₂.errors.trans he⟩
  · rw [h₂.default, hcur]
    cases hc : r.cur <;> rw [hc] at hde <;> simp_all [Work.setOpts]
  · rw [h₂.sections, hcur]
    cases hc : r.cur <;> rw [hc] at hs <;>
      simp_all [Work.setOpts, setAt_setAt]
  · rcases h₂.dups d hd with hd | hd
    · exact hdu d hd
    · exact .inr (hd.trans (by rw [hcur]))

theorem Within.setOpts (r : Reader) (o : Ordered Text Acc) :
    Within r { r with work := r.work.setOpts o r.cur } o := by
  refine ⟨rfl, rfl, rfl, Work.setOpts_added .., fun d hd => .inl ?_, rfl⟩
  rwa [Work.setOpts_dups] at hd

theorem Within.opened (r : Reader) (o : Ordered Text Acc) (key : Text) :
    Within r (r.opened key o) o := by
  refine ⟨rfl, ?_, ?_, Work.setOpts_added .., fun d hd => ?_, rfl⟩
  · rw [Reader.opened]
    cases r.cur <;> rfl
  · rw [Reader.opened]
    cases r.cur <;> rfl
  · rw [Reader.opened, Work.setOpts_dups] at hd
    rcases mem_cons.1 hd with rfl | hd
    · exact .inr rfl
    · exact .inl hd

theorem reads_rest {os : List (Text × Acc)} {name : Text} {ls : List Text}
    (ho : r.work.curOpts r.cur = some o) (hl : o.entries = os ++ [(name, some ls)])
    (hn : r.optname = some name) (hid : r.indent_level = 0) (rest : List Text) :
    ∃ r' o', Reads u cfg (rest.map fun l => '\t' :: l ++ ['\n']) r r' ∧ Within r r' o' ∧
      r'.work.curOpts r'.cur = some o' ∧ r'.optname = some name ∧ r'.indent_level = 0 ∧
      r'.work.dups = r.work.dups ∧
      o'.entries = os ++ [(name, some (ls ++ rest.filterMap kept))] := by
  induction rest generalizing r o ls with
  | nil => exact ⟨r, o, .nil r, .refl ho, ho, hn, hid, rfl, by simpa using hl⟩
  | cons l rest ih =>
    have hli : ∀ src ln, readLine u cfg src ln _ r = _ := fun _ _ =>
      readLine_continuation hn hid ho hl l
    cases hk : kept l with
    | none =>
      rw [hk] at hli
      obtain ⟨r', o', hr, hrs⟩ := ih ho hl hn hid
      refine ⟨r', o', .cons hli hr, ?_⟩
      rwa [filterMap_cons_none hk]
    | some k =>
      rw [hk] at hli
      obtain ⟨r', o', hr, hw, ho', hn', hin', hd', hl'⟩ :=
        @ih { r with work := r.work.setOpts (o.insert name (some (ls ++ [k]))) r.cur } _ _
          (curOpts_setOpts ho _) (entries_insert_last hl) hn hid
      refine ⟨r', o', .cons hli hr, (Within.setOpts r _).trans hw, ho', hn', hin', ?_, ?_⟩
      · rw [hd', Work.setOpts_dups]
      · rw [hl', filterMap_cons_some hk, append_assoc, singleton_append]

variable {α β : Type*} {R : α → β → Prop} {l : List α} {m : List β} {a : α} {pad : Bool}

theorem forall₂_concat {b : β} (h : List.Forall₂ R l m) (ha : R a b) :
    List.Forall₂ R (l ++ [a]) (m ++ [b]) :=
  rel_append h (.cons ha .nil)

theorem exists_concat_of_forall₂ (h : List.Forall₂ R (l ++ [a]) m) :
    ∃ m' b, m = m' ++ [b] ∧ List.Forall₂ R l m' ∧ R a b := by
  induction l generalizing m with
  | nil =>
    obtain ⟨b, m', ha, hnil, rfl⟩ := forall₂_cons_left_iff.1 h
    rw [forall₂_nil_left_iff.1 hnil]
    exact ⟨[], b, rfl, .nil, ha⟩
  | cons c l ih =>
    obtain ⟨d, m', hc, hl, rfl⟩ := forall₂_cons_left_iff.1 h
    obtain ⟨m'', b, rfl, hl', ha⟩ := ih hl
    exact ⟨d :: m'', b, rfl, .cons hc hl', ha⟩

theorem reads_option (h : InSection r es o) (hkey : IsKey e.1)
    (hlo : u.to_lowercase e.1 = e.1) (hno : e.2 = none → cfg.allow_no_value = true)
    (hn : e.1 ∉ es.map Prod.fst) :
    ∃ r' o', Reads u cfg ((optionLines pad e).map (· ++ ['\n'])) r r' ∧ Within r r' o' ∧
      InSection r' (es ++ [e]) o' := by
  obtain ⟨key, value⟩ := e
  have hke : o.keys = es.map Prod.fst := by
    rw [Ordered.keys, ← forall₂_eq_eq_eq, forall₂_map_left_iff, forall₂_map_right_iff]
    exact h.gathered.flip.imp fun a e ha => ha.key
  have hd : (SectionId.of r.cur, key) ∉ r.work.dups := fun hmem => hn (h.dups key hmem)
  have hn' : key ∉ o.keys := hke ▸ hn
  have hd' : ∀ k, (SectionId.of r.cur, k) ∈ (SectionId.of r.cur, key) :: r.work.dups →
      k ∈ (es ++ [(key, value)]).map Prod.fst := by
    intro k hk
    rw [map_append, mem_append]
    rcases mem_cons.1 hk with hk | hk
    · exact .inr (by simp [(Prod.mk.inj hk).2])
    · exact .inl (h.dups k hk)
  have ho : ∀ o', (r.opened key o').work.curOpts (r.opened key o').cur = some o' := fun o' =>
    curOpts_setOpts ((curOpts_withDups ..).trans h.opts) o'
  cases value with
  | none =>
    have hl : ∀ src ln, readLine u cfg src ln _ r = _ := fun _ _ =>
      readLine_option hkey hlo
        (by rw [hno rfl, parseOption_bare hkey]) h.opts hd
    refine ⟨_, _, .cons hl (.nil _), .opened r _ key, ho _, ?_, ?_, ?_, rfl⟩
    · rw [entries_insert_of_notMem hn']
      exact forall₂_concat h.gathered ⟨rfl, by simp, rfl⟩
    · simpa [opened] using hd'
    · simp [opened]
  | some v =>
    have hl : ∀ src ln, readLine u cfg src ln _ r = _ := fun _ _ =>
      readLine_option hkey hlo (parseOption_valued hkey (gap_cases pad) (firstLine v) _)
        h.opts hd
    obtain ⟨r', o', hr, hw, ho', hna', hin', hrd, hl'⟩ :=
      @reads_rest u cfg (r.opened key _) _ _ key _ (ho _)
        (entries_insert_of_notMem hn') rfl rfl (restLines v)
    refine ⟨r', o', ?_, (Within.opened r _ key).trans hw, ho', ?_, ?_, ?_, hin'⟩
    · have hln := Reads.cons hl hr
      simpa [optionLines, delim_eq, Function.comp_def] using hln
    · rw [hl']
      exact forall₂_concat h.gathered ⟨rfl, by simp, rfl⟩
    · rw [hrd, hw.cur]
      simpa [opened] using hd'
    · simpa using hna'

theorem reads_options (h : InSection r es o) (hk : ∀ e ∈ fs, IsKey e.1 ∧ u.to_lowercase e.1 = e.1 ∧
      (e.2 = none → cfg.allow_no_value = true)) (hn : ((es ++ fs).map Prod.fst).Nodup) :
    ∃ r' o', Reads u cfg ((fs.flatMap (optionLines pad)).map (· ++ ['\n'])) r r' ∧
      Within r r' o' ∧ InSection r' (es ++ fs) o' := by
  induction fs generalizing r es o with
  | nil => exact ⟨r, o, .nil r, .refl h.opts, by rwa [append_nil]⟩
  | cons e fs ih =>
    rw [forall_mem_cons] at hk
    have hnew : e.1 ∉ es.map Prod.fst := by
      rw [map_append, nodup_append] at hn
      exact fun hmem => hn.2.2 e.1 hmem e.1 mem_cons_self rfl
    obtain ⟨r₁, o₁, hr₁, hw₁, hin₁⟩ :=
      @reads_option u cfg r o es e pad h hk.1.1 hk.1.2.1 hk.1.2.2 hnew
    obtain ⟨r₂, o₂, hr₂, hw₂, hin₂⟩ := ih hin₁ hk.2 (by simpa using hn)
    refine ⟨r₂, o₂, ?_, hw₁.trans hw₂, by simpa using hin₂⟩
    rw [flatMap_cons, map_append]
    exact hr₁.append hr₂

theorem join_blank {ls : List Text} (h : ls ≠ []) : join (some (ls ++ [[]])) = join (some ls) := by
  rw [join, join, map_some, map_some, Lines.intercalate_concat _ h, append_nil,
    pyRstrip, pyRstrip, Lines.trimEnd_concat isPySpace_nl]

def Reader.blank (r : Reader) : Reader :=
  match r.optname with
  | some name => { r with work := (r.work.pushLine r.cur name []).getD r.work }
  | none => r

theorem readLine_blank (src : String) (ln : ℕ) : readLine u cfg src ln ['\n'] r = .ok r.blank := by
  obtain ⟨work, cur, optname, indent, errors⟩ := r
  cases optname <;> rfl

theorem reads_blank (h : InSection r es o) :
    ∃ r' o', Reads u cfg [['\n']] r r' ∧ Within r r' o' ∧ r'.indent_level = 0 ∧
      List.Forall₂ Gathered es o'.entries := by
  rcases es.eq_nil_or_concat with rfl | ⟨es', ⟨key, value⟩, rfl⟩
  · refine ⟨r.blank, o, .cons readLine_blank (.nil _), ?_⟩
    have hb : r.blank = r := by simp [blank, h.optname]
    rw [hb]
    exact ⟨.refl h.opts, h.indent, h.gathered⟩
  · -- the last option is the one that is open
    have hg := h.gathered
    have hn : r.optname = some key := by simpa using h.optname
    rw [concat_eq_append] at hg ⊢
    obtain ⟨os, ⟨key', acc⟩, he, ho, hk, hl, hv⟩ :=
      exists_concat_of_forall₂ hg
    obtain rfl : key' = key := hk
    cases acc with
    | none =>
      have hpu : r.work.pushLine r.cur key' [] = none := by
        rw [Work.pushLine, h.opts, bind_some, get_last he]
      have hb : r.blank = r := by
        obtain ⟨work, cur, optname, indent, errors⟩ := r
        obtain rfl : optname = some key' := hn
        simp [blank, hpu]
      refine ⟨r.blank, o, .cons readLine_blank (.nil _), ?_⟩
      rw [hb]
      exact ⟨.refl h.opts, h.indent, hg⟩
    | some ls =>
      have hb : r.blank = { r with
          work := r.work.setOpts (o.insert key' (some (ls ++ [[]]))) r.cur } := by
        simp [blank, hn, pushLine_open h.opts he]
      refine ⟨r.blank, o.insert key' (some (ls ++ [[]])), .cons readLine_blank (.nil _), ?_⟩
      rw [hb]
      refine ⟨.setOpts r _, h.indent, ?_⟩
      rw [entries_insert_last he]
      refine forall₂_concat ho ⟨rfl, by simp, ?_⟩
      rw [join_blank fun hnil => hl (by rw [hnil])]
      exact hv

/-- What `r` has gathered are the sections `secs`, and no other section is known to it. -/
structure Shows (r : Reader) (secs : List (Text × Options)) : Prop where
  sections : List.Forall₂ (fun e a => a.1 = e.1 ∧ List.Forall₂ Gathered e.2.entries a.2.entries)
    secs r.work.sections.entries
  added : ∀ name ∈ r.work.added_sections, name ∈ secs.map Prod.fst
  dups : ∀ i key, (SectionId.at i, key) ∈ r.work.dups → i < secs.length
  indent : r.indent_level = 0
  errors : r.parse_errors = []

theorem forall₂_map_eq {γ : Type*} {f : α → γ} {g : β → γ} (h : List.Forall₂ R l m)
    (hf : ∀ a b, R a b → g b = f a) : m.map g = l.map f := by
  rw [← forall₂_eq_eq_eq, forall₂_map_left_iff, forall₂_map_right_iff]
  exact h.flip.imp fun b a ha => hf a b ha

variable {pad bare allow : Bool} {name : Text} {opts : Options} {secs : List (Text × Options)}

theorem reads_body (h : InSection r [] o) (ho : ScreenedOptions u cfg.allow_no_value opts) :
    ∃ r' o', Reads u cfg ((opts.entries.flatMap (optionLines pad)).map (· ++ ['\n']) ++ [['\n']])
        r r' ∧ Within r r' o' ∧ r'.indent_level = 0 ∧
      List.Forall₂ Gathered opts.entries o'.entries := by
  obtain ⟨r₁, o₁, hr₁, hw₁, hin₁⟩ := @reads_options u cfg r o [] opts.entries pad h
    ho opts.nodup
  obtain ⟨r₂, o₂, hr₂, hw₂, hid, hg⟩ := reads_blank hin₁
  exact ⟨r₂, o₂, hr₁.append hr₂, hw₁.trans hw₂, hid, hg⟩

theorem reads_section (h : Shows r secs) (hna : IsSection name)
    (hnew : name ∉ secs.map Prod.fst) (ho : ScreenedOptions u cfg.allow_no_value opts) :
    ∃ r', Reads u cfg ((sectionLines pad name opts.entries).map (· ++ ['\n'])) r r' ∧
      Shows r' (secs ++ [(name, opts)]) ∧ r'.work.default = r.work.default := by
  have ha : name ∉ r.work.added_sections := fun hmem => hnew (h.added name hmem)
  have hks : r.work.sections.keys = _ := forall₂_map_eq h.sections fun _ _ ha => ha.1
  have hnew' : name ∉ r.work.sections.keys := hks ▸ hnew
  have he : (r.work.sections.insert name .empty).entries =
      r.work.sections.entries ++ [(name, .empty)] := entries_insert_of_notMem hnew'
  have hlen : r.work.sections.entries.length = secs.length := h.sections.length_eq.symm
  have hpos : (r.work.sections.insert name .empty).position name = some secs.length :=
    hlen ▸ position_insert_of_notMem hnew'
  have hl : ∀ src ln, readLine u cfg src ln _ r = .ok (r.entered name) :=
    fun _ _ => (readLine_header hna.ne_nil r).trans
      ((if_neg hna.ne_default).trans (if_neg ha))
  have hc : (r.entered name).cur = .section secs.length := by
    rw [entered, hpos, getD_some]
  have hin : InSection (r.entered name) [] .empty := by
    refine ⟨?_, .nil, fun k hk => ?_, rfl, h.indent⟩
    · rw [hc, Work.curOpts, entered, he, ← hlen]
      simp
    · rw [hc] at hk
      exact absurd (h.dups _ k hk) (lt_irrefl _)
  obtain ⟨r', o', hr, hw, hid, hg⟩ := @reads_body u cfg _ .empty pad opts hin ho
  have hd := hw.default
  have hs := hw.sections
  have hdu := hw.dups
  rw [hc] at hd hs hdu
  refine ⟨r', ?_, ⟨?_, ?_, ?_, hid, hw.errors.trans h.errors⟩, hd⟩
  · have hln := Reads.cons hl hr
    simpa [sectionLines] using hln
  · have hs' : r'.work.sections.entries = r.work.sections.entries ++ [(name, o')] := by
      rw [hs, ← hlen]
      exact entries_setAt_last he o'
    rw [hs']
    exact forall₂_concat h.sections ⟨rfl, hg⟩
  · rw [hw.added]
    intro n hn
    rw [map_append, mem_append]
    rcases mem_cons.1 hn with rfl | hn
    · exact .inr mem_cons_self
    · exact .inl (h.added n hn)
  · intro i k hk
    rw [length_append, length_singleton]
    rcases hdu _ hk with hk | hk
    · exact Nat.lt_succ_of_lt (h.dups i k hk)
    · cases hk
      exact Nat.lt_succ_self _

theorem reads_sections {more : List (Text × Options)} (h : Shows r secs)
    (hm : ∀ e ∈ more, IsSection e.1 ∧ ScreenedOptions u cfg.allow_no_value e.2)
    (hn : ((secs ++ more).map Prod.fst).Nodup) :
    ∃ r', Reads u cfg ((more.flatMap fun e => sectionLines pad e.1 e.2.entries).map
        (· ++ ['\n'])) r r' ∧ Shows r' (secs ++ more) ∧ r'.work.default = r.work.default := by
  induction more generalizing r secs with
  | nil => exact ⟨r, .nil r, by rwa [append_nil], rfl⟩
  | cons e more ih =>
    rw [forall_mem_cons] at hm
    have hnew : e.1 ∉ secs.map Prod.fst := by
      rw [map_append, nodup_append] at hn
      exact fun hmem => hn.2.2 e.1 hmem e.1 mem_cons_self rfl
    obtain ⟨r₁, hr₁, hs₁, hd₁⟩ :=
      @reads_section u cfg r pad e.1 e.2 secs h hm.1.1 hnew hm.1.2
    obtain ⟨r₂, hr₂, hs₂, hd₂⟩ := ih hs₁ hm.2 (by simpa using hn)
    refine ⟨r₂, ?_, by simpa using hs₂, hd₂.trans hd₁⟩
    rw [flatMap_cons, map_append]
    exact hr₁.append hr₂

def heading (defaults : Options) : List (Text × Options) :=
  if defaults.entries.isEmpty then [] else [(DEFAULT_SECTION, defaults)]

/-- The sections that are written. -/
def ConfigFile.written (cfg : ConfigFile) : List (Text × Options) :=
  heading cfg.defaults ++ cfg.sections.entries

theorem toString_eq (cfg : ConfigFile) (pad : Bool) : cfg.toString pad =
    cfg.written.flatMap fun e => writeSection e.1 e.2 (delim pad) cfg.allow_no_value := by
  unfold ConfigFile.toString ConfigFile.written heading
  split_ifs <;> simp

theorem Screened.written (h : Screened u bare allow cfg) : ∀ e ∈ cfg.written,
    e.1 ≠ [] ∧ ('\n' ∉ e.1 ∧ '\r' ∉ e.1) ∧ ScreenedOptions u bare e.2 := by
  intro e he
  rcases mem_append.1 he with he | he
  · unfold heading at he
    split_ifs at he
    · exact absurd he not_mem_nil
    · obtain rfl := mem_singleton.1 he
      have hn : DEFAULT_SECTION ≠ [] := by decide
      exact ⟨hn, (by decide : '\n' ∉ DEFAULT_SECTION ∧ '\r' ∉ DEFAULT_SECTION), h.defaults⟩
  · obtain ⟨hs, ho⟩ := h.sections e he
    exact ⟨hs.ne_nil, hs.line, ho⟩

def documentLines (cfg : ConfigFile) (pad : Bool) : List Text :=
  cfg.written.flatMap fun e => sectionLines pad e.1 e.2.entries

theorem splitInclusive_toString (h : Screened u allow allow cfg) (pad : Bool) :
    Lines.splitInclusive '\n' (cfg.toString pad) = (documentLines cfg pad).map (· ++ ['\n']) := by
  have ht : cfg.toString pad = (documentLines cfg pad).flatMap (· ++ ['\n']) := by
    rw [toString_eq, documentLines, flatMap_assoc]
    exact flatMap_congr fun e he => writeSection_eq fun e' he' =>
      h.allow_no_value.trans ∘ ((h.written e he).2.2 e' he').2.2
  rw [ht, Lines.splitInclusive_flatten]
  intro l hl
  obtain ⟨e, he, hl⟩ := mem_flatMap.1 hl
  obtain ⟨-, hn, ho⟩ := h.written e he
  exact notMem_sectionLines hn.1 (fun e' he' => (ho e' he').1.line.1) hl

theorem reads_document {tg : ConfigFile} (h : Screened u allow allow cfg)
    (ha : tg.allow_no_value = allow) (pad : Bool) :
    ∃ r', Reads u tg ((documentLines cfg pad).map (· ++ ['\n'])) .start r' ∧
      Shows r' cfg.sections.entries ∧
      List.Forall₂ Gathered cfg.defaults.entries r'.work.default.entries := by
  rw [documentLines, ConfigFile.written, flatMap_append, map_append]
  have hd : ∃ r₁, Reads u tg (((heading cfg.defaults).flatMap fun e =>
        sectionLines pad e.1 e.2.entries).map (· ++ ['\n'])) .start r₁ ∧
      Shows r₁ [] ∧ List.Forall₂ Gathered cfg.defaults.entries r₁.work.default.entries := by
    unfold heading
    split_ifs with he
    · rw [List.isEmpty_iff] at he
      rw [he]
      exact ⟨.start, .nil _, ⟨.nil, fun _ hn => absurd hn not_mem_nil,
        fun _ _ hk => absurd hk not_mem_nil, rfl, rfl⟩, .nil⟩
    · have hl : ∀ src ln, readLine u tg src ln _ .start = _ := fun _ _ =>
        (readLine_header (by decide) .start).trans (if_pos rfl)
      obtain ⟨r', o', hr, hw, hid, hg⟩ := @reads_body u tg
        { start with cur := .default, optname := none } .empty pad cfg.defaults
        ⟨rfl, .nil, fun k hk => absurd hk not_mem_nil, rfl, rfl⟩ (ha ▸ h.defaults)
      refine ⟨r', ?_, ⟨?_, ?_, ?_, hid, hw.errors⟩, ?_⟩
      · have hln := Reads.cons hl hr
        simpa [sectionLines] using hln
      · rw [hw.sections]
        exact .nil
      · rw [hw.added]
        exact fun _ hn => absurd hn not_mem_nil
      · intro i k hk
        rcases hw.dups _ hk with hk | hk
        · exact absurd hk not_mem_nil
        · cases hk
      · rw [hw.default]
        exact hg
  obtain ⟨r₁, hr₁, hs₁, hg⟩ := hd
  obtain ⟨r₂, hr₂, hs₂, hd₂⟩ := @reads_sections u tg r₁ pad [] _ hs₁
    (ha ▸ h.sections) cfg.sections.nodup
  exact ⟨r₂, hr₁.append hr₂, hs₂, hd₂ ▸ hg⟩

theorem entries_mergeOptions (tg : Options) (es : List (Text × Acc))
    (h : (tg.keys ++ es.map Prod.fst).Nodup) :
    (mergeOptions tg es).entries = tg.entries ++ es.map fun e => (e.1, join e.2) := by
  induction es generalizing tg with
  | nil => simp [mergeOptions]
  | cons e es ih =>
    have hn : e.1 ∉ tg.keys := fun hmem =>
      (nodup_append.1 h).2.2 e.1 hmem e.1 mem_cons_self rfl
    have he := entries_insert_of_notMem (v := join e.2) hn
    rw [mergeOptions, foldl_cons, ← mergeOptions, ih, he]
    · simp
    · simpa [Ordered.keys, he] using h

theorem entries_mergeSections (tg : Ordered Text Options)
    (es : List (Text × Ordered Text Acc)) (h : (tg.keys ++ es.map Prod.fst).Nodup) :
    (es.foldl (fun sections e => sections.insert e.1
      (mergeOptions ((sections.get e.1).getD .empty) e.2.entries)) tg).entries.map
        (fun e => (e.1, e.2.entries)) =
      tg.entries.map (fun e => (e.1, e.2.entries)) ++
        es.map fun e => (e.1, e.2.entries.map fun a => (a.1, join a.2)) := by
  induction es generalizing tg with
  | nil => simp
  | cons e es ih =>
    have hn : e.1 ∉ tg.keys := fun hmem =>
      (nodup_append.1 h).2.2 e.1 hmem e.1 mem_cons_self rfl
    have ho : (mergeOptions ((tg.get e.1).getD .empty) e.2.entries).entries =
        e.2.entries.map fun a => (a.1, join a.2) := by
      rw [get_of_notMem hn]
      exact entries_mergeOptions .empty _ e.2.nodup
    have he := entries_insert_of_notMem
      (v := mergeOptions ((tg.get e.1).getD .empty) e.2.entries) hn
    rw [foldl_cons, ih, he]
    · simp [ho]
    · simpa [Ordered.keys, he] using h

def normalizedOptions (opts : Options) : Entries :=
  opts.entries.map fun e => (e.1, e.2.map normalized)

theorem normalizedOptions_eq {es : List (Text × Acc)} (h : List.Forall₂ Gathered opts.entries es) :
    es.map (fun a => (a.1, join a.2)) = normalizedOptions opts :=
  forall₂_map_eq h fun _ _ ha => Prod.ext ha.key ha.value

/-- Whatever calls built the store, its text is read back as the same sections and the
same options in the same order, each with its value normalized. -/
theorem read_written (u : Unicode) (interp interp' : Interp) (allow scrub scrub' : Bool)
    (calls : List Call) (cfg : ConfigFile) (hvalue : ∀ call ∈ calls, call.Valued allow)
    (hcalls : applyAll u ⟨.empty, .empty, interp, allow, scrub⟩ calls = .ok cfg)
    (space_around : Bool) :
    ∃ cfg', readStr u ⟨.empty, .empty, interp', allow, scrub'⟩ (cfg.toStringWith space_around) =
        .ok cfg' ∧
      cfg'.sections.keys = cfg.sections.keys ∧
      cfg'.defaults.entries = normalizedOptions cfg.defaults ∧
      cfg'.sections.entries.map (fun e => (e.1, e.2.entries)) =
        cfg.sections.entries.map fun e => (e.1, normalizedOptions e.2) := by
  have hs := (Screened.fresh interp allow scrub).applyAll hvalue hcalls
  obtain ⟨r, hr, hsh, hd⟩ :=
    @reads_document u cfg allow ⟨.empty, .empty, interp', allow, scrub'⟩ hs rfl space_around
  have hrd : readStr u ⟨.empty, .empty, interp', allow, scrub'⟩ (cfg.toStringWith space_around) =
      .ok (merge ⟨.empty, .empty, interp', allow, scrub'⟩ r.work) := by
    rw [readStr, read, ConfigFile.toStringWith, splitInclusive_toString hs, hr "<string>" 1]
    exact if_pos (by rw [hsh.errors]; rfl)
  have hse := entries_mergeSections .empty r.work.sections.entries r.work.sections.nodup
  have hsw : r.work.sections.entries.map (fun e => (e.1, e.2.entries.map fun a =>
      (a.1, join a.2))) = cfg.sections.entries.map fun e => (e.1, normalizedOptions e.2) :=
    forall₂_map_eq hsh.sections fun _ _ ha => Prod.ext ha.1 (normalizedOptions_eq ha.2)
  have hm := hse.trans hsw
  refine ⟨_, hrd, ?_, ?_, hm⟩
  · have hk := congrArg (map Prod.fst) hm
    simpa [Function.comp_def, Ordered.keys, merge] using hk
  · exact (entries_mergeOptions .empty _ r.work.default.nodup).trans (normalizedOptions_eq hd)

/-- A table that knows only the ASCII letters. -/
def ascii : Unicode where
  to_lowercase := List.map Char.toLower
  lowercase_idem s := by simp
  debug s := String.ofList ('"' :: s ++ ['"'])

/-- A value that looks like a section and an option is read back as one value. -/
theorem read_written_header_in_value : ∃ cfg, applyAll ascii ⟨.empty, .empty, .none, false, false⟩
        [.addSection "a".toList, .set "a".toList "Key".toList (some "x\n[b]\n# c\ny=z".toList)] =
        .ok cfg ∧
      ∃ cfg', readStr ascii ⟨.empty, .empty, .basic, false, false⟩ (cfg.toStringWith true) =
          .ok cfg' ∧
        cfg'.sections.entries.map (fun e => (e.1, e.2.entries)) =
          [("a".toList, [("key".toList, some "x\n[b]\ny=z".toList)])] := by
  refine ⟨_, rfl, ?_⟩
  obtain ⟨cfg', hr, -, -, hs⟩ := read_written ascii .none .basic false false false
    [.addSection "a".toList, .set "a".toList "Key".toList (some "x\n[b]\n# c\ny=z".toList)] _
    (by simp [Call.Valued]) rfl true
  exact ⟨cfg', hr, hs.trans (by decide)⟩

end TruenasRos.Config
