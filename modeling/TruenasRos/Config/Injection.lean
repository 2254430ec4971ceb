import TruenasRos.Config.Outline
import TruenasRos.Config.RoundTrip
import TruenasRos.Lib.Octets

/-! # Names in a written file

A file is read with every kind of line break made one. The writer indents what follows a
line feed of a value, but not what follows a lone carriage return, so a value can bring a
line of its own into the file. The names of a store come back from its file just when no
such line means anything to the outline.
-/

namespace TruenasRos.Config

open Lines List ConfigFile Mark

def normalizeNewlinesSlice (buf : Bytes) : Bytes :=
  if buf.contains 0x0d then Lines.unify 0x0d 0x0a buf else buf

theorem normalizeNewlinesSlice_eq (buf : Bytes) :
    normalizeNewlinesSlice buf = unify 0x0d 0x0a buf := by
  rw [normalizeNewlinesSlice]
  split_ifs with hc
  · rfl
  · exact (unify_of_notMem (by simpa using hc)).symm

namespace ConfigFile

def writePath (cfg : ConfigFile) : Bytes := Octets.utf8 cfg.writeString

def readPath (u : Unicode) (cfg : ConfigFile) (path : String) (content : Bytes) :
    Except Error ConfigFile :=
  match Octets.ofUtf8 (normalizeNewlinesSlice content) with
  | some text => read u cfg path text
  | none => .error (.parse "config file is not valid UTF-8")

def names (cfg : ConfigFile) : List Text × List (Text × List Text) :=
  (cfg.defaults.keys, cfg.sections.entries.map fun e => (e.1, e.2.keys))

end ConfigFile

variable {u : Unicode} {cfg : ConfigFile} {c : Char}

theorem readPath_utf8 (path : String) (text : Text) :
    cfg.readPath u path (Octets.utf8 text) = read u cfg path (unify '\r' '\n' text) := by
  rw [readPath, normalizeNewlinesSlice_eq, ← Octets.utf8_unify, Octets.ofUtf8_utf8]

theorem names_merge (interp : Interp) (allow scrub : Bool) (work : Work) :
    (merge ⟨.empty, .empty, interp, allow, scrub⟩ work).names =
      (work.default.keys, work.sections.entries.map fun e => (e.1, e.2.keys)) := by
  have hd := entries_mergeOptions .empty work.default.entries work.default.nodup
  have hs := entries_mergeSections .empty work.sections.entries work.sections.nodup
  have hn := congrArg (map fun e => (e.1, e.2.map Prod.fst)) hs
  simp only [map_map, Function.comp_def, map_append] at hn
  refine Prod.ext ?_ hn
  exact (congrArg (map Prod.fst) hd).trans (map_map ..)

theorem Reader.start_sound : Reader.start.Sound := by
  constructor
  · exact fun _ => Iff.rfl
  · intro cur opts ho key
    cases cur with
    | none | «section» i => cases ho
    | default =>
      cases ho
      exact iff_of_false not_mem_nil not_mem_nil
  · exact fun _ _ hmem => absurd hmem not_mem_nil
  · exact fun hc => absurd rfl hc
  · exact fun hn => absurd rfl hn

theorem names_read (interp : Interp) (allow scrub : Bool) (src : String) (text : Text) :
    (read u ⟨.empty, .empty, interp, allow, scrub⟩ src text).toOption.map names =
      (Outline.start.run (marks u allow none (splitInclusive '\n' text))).map
        fun o => (o.default, o.sections) := by
  have hl := @readLines_outline u ⟨.empty, .empty, interp, allow, scrub⟩ src 1 .start
    Reader.start_sound rfl (splitInclusive '\n' text)
  rw [read]
  cases hrd : readLines u ⟨.empty, .empty, interp, allow, scrub⟩ src 1
      (splitInclusive '\n' text) .start with
  | error e =>
    rw [hrd] at hl
    exact (congrArg (Option.map _) hl).symm
  | ok r =>
    rw [hrd] at hl
    rcases hl with ⟨he, hr⟩ | ⟨he, hr⟩
    · refine Eq.trans ?_ (congrArg (Option.map _) hr).symm
      simp only [bind, Except.bind, he, isEmpty_nil, if_true]
      exact congrArg some (names_merge interp allow scrub r.work)
    · refine Eq.trans ?_ (congrArg (Option.map _) hr).symm
      simp only [bind, Except.bind, List.isEmpty_iff, he, if_false]
      rfl

/-- The first line that a value takes up in the file, and the others. A line feed is
followed by a tab, a lone carriage return by nothing, and one at the end of the value is
joined with the line break after it. -/
def fileLines : Text → Text × List Text
  | [] => ([], [])
  | ['\r'] => ([], [])
  | '\r' :: '\n' :: s => ([], ('\t' :: (fileLines s).1) :: (fileLines s).2)
  | '\r' :: s => ([], (fileLines s).1 :: (fileLines s).2)
  | '\n' :: s => ([], ('\t' :: (fileLines s).1) :: (fileLines s).2)
  | c :: s => (c :: (fileLines s).1, (fileLines s).2)

theorem reindent_cons (hc : c ≠ '\n') (s : Text) : reindent (c :: s) = c :: reindent s := by
  simp [reindent, hc]

theorem reindent_break (s : Text) : reindent ('\n' :: s) = '\n' :: '\t' :: reindent s := rfl

theorem unify_reindent (v : Text) : unify '\r' '\n' (reindent v ++ ['\n']) =
      ((fileLines v).1 :: (fileLines v).2).flatMap (· ++ ['\n']) := by
  fun_induction fileLines v with
  | case1 => rfl
  | case2 => rfl
  | case3 s ih =>
    rw [reindent_cons (by decide), reindent_break]
    simp only [cons_append, unify_pair]
    rw [unify_cons (by decide), ih]
    rfl
  | case4 s hne hb ih =>
    obtain ⟨d, s, rfl⟩ := exists_cons_of_ne_nil hne
    have hd : d ≠ '\n' := fun hd => hb s (by rw [hd])
    rw [reindent_cons hd, cons_append] at ih
    rw [reindent_cons (by decide), reindent_cons hd, cons_append, cons_append, unify_lone hd, ih]
    rfl
  | case5 s ih =>
    rw [reindent_break, cons_append, cons_append, unify_cons (by decide),
      unify_cons (by decide), ih]
    rfl
  | case6 c s _ _ hc hn ih =>
    rw [reindent_cons hn, cons_append, unify_cons hc, ih]
    rfl

theorem notMem_fileLines (v : Text) : ∀ l ∈ (fileLines v).1 :: (fileLines v).2, '\n' ∉ l := by
  fun_induction fileLines v with
  | case1 => simp
  | case2 => simp
  | case3 s ih | case4 s _ _ ih | case5 s ih =>
    simpa using ih
  | case6 c s _ _ _ hn ih =>
    rw [forall_mem_cons] at ih ⊢
    refine ⟨?_, ih.2⟩
    rw [mem_cons, not_or]
    exact ⟨fun hc => hn hc.symm, ih.1⟩

def optionText (allow_no_value : Bool) (e : Text × Option Text) : Text :=
  if e.2.isSome || !allow_no_value then
    e.1 ++ delim true ++ (fileLines (e.2.getD "None".toList)).1
  else e.1

/-- The other lines of an option in the file, all of which come from its value. -/
def laterLines (value : Option Text) : List Text := (fileLines (value.getD [])).2

def optionFileLines (allow_no_value : Bool) (e : Text × Option Text) : List Text :=
  optionText allow_no_value e :: laterLines e.2

variable {e : Text × Option Text} {name : Text} {opts : Options} {value : Option Text}
  {allow : Bool}

theorem unify_writeOption (h : '\r' ∉ e.1) : unify '\r' '\n' (writeOption (delim true) allow e) =
      (optionFileLines allow e).flatMap (· ++ ['\n']) := by
  obtain ⟨key, value⟩ := e
  have hd : '\r' ∉ key ++ delim true := by
    rw [mem_append, not_or]
    exact ⟨h, by decide⟩
  unfold writeOption optionFileLines optionText laterLines
  cases value with
  | some v =>
    simp only [Option.isSome_some, Bool.true_or, if_true, Option.getD_some, append_assoc]
    rw [← append_assoc, unify_append hd, unify_reindent]
    simp
  | none =>
    cases allow with
    | true =>
      simp only [Option.isSome_none, Bool.not_true, Bool.or_false, Bool.false_eq_true, if_false]
      rw [unify_append h]
      simp [unify, fileLines]
    | false =>
      simp only [Option.isSome_none, Bool.not_false, Bool.or_true, if_true, append_assoc]
      rw [← append_assoc, unify_append hd]
      simp [unify, fileLines]

def sectionFileLines (allow_no_value : Bool) (name : Text) (opts : Options) : List Text :=
  ('[' :: name ++ [']']) :: opts.entries.flatMap (optionFileLines allow_no_value) ++ [[]]

theorem unify_writeSection (hn : '\r' ∉ name) (hk : ∀ e ∈ opts.entries, '\r' ∉ e.1) :
    unify '\r' '\n' (writeSection name opts (delim true) allow) =
      (sectionFileLines allow name opts).flatMap (· ++ ['\n']) := by
  have hh : '\r' ∉ '[' :: name ++ [']', '\n'] := by simpa using hn
  have ho : opts.entries.flatMap (fun e => unify '\r' '\n'
      (writeOption (delim true) allow e)) =
      (opts.entries.flatMap (optionFileLines allow)).flatMap (· ++ ['\n']) := by
    rw [flatMap_assoc]
    exact flatMap_congr fun e he => unify_writeOption (hk e he)
  have hen : ∀ e ∈ opts.entries, ∃ s, writeOption (delim true) allow e = s ++ ['\n'] :=
    fun e _ => ⟨_, rfl⟩
  rw [writeSection, append_assoc, unify_append hh, unify_flatMap (by decide) hen, ho]
  simp [sectionFileLines, unify]

def documentFileLines (cfg : ConfigFile) : List Text :=
  cfg.written.flatMap fun e => sectionFileLines cfg.allow_no_value e.1 e.2

theorem unify_writeString (h : Screened u true allow cfg) :
    unify '\r' '\n' cfg.writeString = (documentFileLines cfg).flatMap (· ++ ['\n']) := by
  have hs : ∀ e ∈ cfg.written, unify '\r' '\n'
      (writeSection e.1 e.2 (delim true) cfg.allow_no_value) =
        (sectionFileLines cfg.allow_no_value e.1 e.2).flatMap (· ++ ['\n']) := by
    intro e he
    obtain ⟨-, hn, ho⟩ := h.written e he
    exact unify_writeSection hn.2 fun e' he' => (ho e' he').1.line.2
  have hen : ∀ e ∈ cfg.written,
      ∃ s, writeSection e.1 e.2 (delim true) cfg.allow_no_value = s ++ ['\n'] := fun e _ => ⟨_, rfl⟩
  have hr : unify '\r' '\n' _ = _ := unify_flatMap (by decide) hen []
  simp only [append_nil, unify] at hr
  rw [ConfigFile.writeString, toString_eq, hr, documentFileLines, flatMap_assoc, flatMap_congr hs]

theorem notMem_sectionFileLines (hn : '\n' ∉ name) (hk : ∀ e ∈ opts.entries, '\n' ∉ e.1) :
    ∀ l ∈ sectionFileLines allow name opts, '\n' ∉ l := by
  intro l hl
  simp only [sectionFileLines, cons_append, mem_cons, mem_append, mem_flatMap,
    not_mem_nil, or_false] at hl
  rcases hl with rfl | ⟨e, he, hl⟩ | rfl
  · simpa using hn
  · rcases mem_cons.1 hl with rfl | hl
    · rw [optionText]
      split_ifs
      · have hf := notMem_fileLines (e.2.getD "None".toList) _ mem_cons_self
        have hd : '\n' ∉ delim true := by decide
        simp only [mem_append, not_or]
        exact ⟨⟨hk e he, hd⟩, hf⟩
      · exact hk e he
    · exact notMem_fileLines _ l (mem_cons_of_mem _ hl)
  · exact not_mem_nil

theorem splitInclusive_unify (h : Screened u true allow cfg) :
    splitInclusive '\n' (unify '\r' '\n' cfg.writeString) =
      (documentFileLines cfg).map (· ++ ['\n']) := by
  rw [unify_writeString h, splitInclusive_flatten]
  intro l hl
  obtain ⟨e, he, hl⟩ := mem_flatMap.1 hl
  obtain ⟨-, hn, ho⟩ := h.written e he
  exact notMem_sectionFileLines hn.1 (fun e' he' => (ho e' he').1.line.1) l hl

theorem mark_cons (hc : isPySpace c = false) (hh : c ≠ '#') (hs : c ≠ ';')
    (allow : Bool) (s : Opening) (line : Text) :
    mark u allow s (c :: line) = freshMark u allow 0 (pyStrip (c :: line)) := by
  have hcl : pyStrip (c :: line) = c :: pyRstrip line := trim_cons_not hc
  have hid : ((c :: line).takeWhile isPySpace).length = 0 := by simp [hc]
  have hco : isFullComment (c :: pyRstrip line) = false := by
    simp [isFullComment, startsWith, hh, hs]
  unfold mark
  simp only [hcl, hid, hco]
  rcases s with - | ⟨valued, depth⟩ <;> rfl

theorem mark_header (h : name ≠ []) (allow : Bool) (s : Opening) :
    mark u allow s ('[' :: name ++ [']'] ++ ['\n']) = .header name := by
  have hl : '[' :: name ++ [']'] ++ ['\n'] = '[' :: name ++ [']', '\n'] := by simp
  rw [hl, cons_append, mark_cons rfl (by decide) (by decide), ← cons_append,
    pyStrip_header, freshMark, sectionHeader_header h]

theorem mark_blank (allow : Bool) (s : Opening) : mark u allow s ['\n'] = .quiet := by
  have hc : pyStrip ['\n'] = [] := by decide
  simp [mark, hc]

theorem mark_option (hk : IsKey e.1) (hl : u.to_lowercase e.1 = e.1) (s : Opening) :
    mark u allow s (optionText allow e ++ ['\n']) = .option e.1 (e.2.isSome || !allow) 0 := by
  obtain ⟨key, value⟩ := e
  -- the text after the name, and what the option is parsed as
  have ht : ∃ t v, optionText allow (key, value) ++ ['\n'] = key ++ t ∧
      parseOption (pyStrip (key ++ t)) allow = some (key, v) ∧
      v.isSome = (value.isSome || !allow) := by
    cases hva : (value.isSome || !allow) with
    | true =>
      refine ⟨gap true ++ '=' :: (gap true ++ (fileLines (value.getD "None".toList)).1 ++ ['\n']),
        _, ?_, parseOption_valued hk (gap_cases true) _ allow, rfl⟩
      simp [optionText, hva, delim_eq]
    | false =>
      obtain ⟨hn, ha⟩ := Bool.or_eq_false_iff.1 hva
      obtain rfl : allow = true := by simpa using ha
      refine ⟨['\n'], none, ?_, parseOption_bare hk, rfl⟩
      simp [optionText, hn]
  obtain ⟨t, v, ht, hpa, hv⟩ := ht
  obtain ⟨c, k, rfl, hc, ho, hh, hs⟩ := hk.head
  have hhe : sectionHeader (pyStrip (c :: k ++ t)) = none := by
    have hcl : pyStrip (c :: k ++ t) = c :: pyRstrip (k ++ t) := trim_cons_not hc
    rw [hcl, sectionHeader, if_neg (by simpa using ho)]
  rw [ht, cons_append, mark_cons hc hh hs, ← cons_append, freshMark, hhe, hpa]
  simp [optionxform, hl, hv]

/-- Wherever they stand, the lines mean `ms`. -/
def Means (u : Unicode) (allow : Bool) (lines : List Text) (ms : List Mark) : Prop :=
  ∀ s rest, ∃ s', marks u allow s (lines ++ rest) = ms ++ marks u allow s' rest

variable {allow : Bool} {m : Mark}

theorem Means.nil : Means u allow [] [] := fun s _ => ⟨s, rfl⟩

theorem Means.append {ls lines' : List Text} {ms ms' : List Mark} (h : Means u allow ls ms)
    (h' : Means u allow lines' ms') : Means u allow (ls ++ lines') (ms ++ ms') := by
  intro s rest
  obtain ⟨s₁, hs₁⟩ := h s (lines' ++ rest)
  obtain ⟨s₂, hs₂⟩ := h' s₁ rest
  exact ⟨s₂, by rw [append_assoc, hs₁, hs₂, append_assoc]⟩

theorem Means.flatMap {α : Type*} {f : α → List Text} {g : α → List Mark} {l : List α}
    (h : ∀ a ∈ l, Means u allow (f a) (g a)) : Means u allow (l.flatMap f) (l.flatMap g) := by
  induction l with
  | nil => exact .nil
  | cons a l ih =>
    rw [forall_mem_cons] at h
    exact h.1.append (ih h.2)

theorem Means.line {line : Text} (h : ∀ s, mark u allow s line = m) :
    Means u allow [line] [m] := fun s _ => ⟨s.after m, by rw [← h s]; rfl⟩

theorem marks_append (s : Opening) (ls rest : List Text) :
    ∃ s', marks u allow s (ls ++ rest) = marks u allow s ls ++ marks u allow s' rest := by
  induction ls generalizing s with
  | nil => exact ⟨s, rfl⟩
  | cons line ls ih =>
    obtain ⟨s', hs'⟩ := ih (s.after (mark u allow s line))
    exact ⟨s', congrArg (mark u allow s line :: ·) hs'⟩

def laterMarks (u : Unicode) (allow : Bool) (value : Option Text) : List Mark :=
  marks u allow (some (true, 0)) ((laterLines value).map (· ++ ['\n']))

def optionMarks (u : Unicode) (allow : Bool) (e : Text × Option Text) : List Mark :=
  .option e.1 (e.2.isSome || !allow) 0 :: laterMarks u allow e.2

def sectionMarks (u : Unicode) (allow : Bool) (name : Text) (es : Entries) : List Mark :=
  .header name :: es.flatMap (optionMarks u allow) ++ [.quiet]

theorem means_option (hk : IsKey e.1) (hl : u.to_lowercase e.1 = e.1) :
    Means u allow ((optionFileLines allow e).map (· ++ ['\n'])) (optionMarks u allow e) := by
  intro s rest
  rw [optionFileLines, map_cons, cons_append, marks, mark_option hk hl]
  have hla : ∃ s', marks u allow (some (e.2.isSome || !allow, 0))
      ((laterLines e.2).map (· ++ ['\n']) ++ rest) =
        laterMarks u allow e.2 ++ marks u allow s' rest := by
    cases hv : e.2 with
    | some v => exact marks_append _ _ _
    | none => exact ⟨_, rfl⟩
  obtain ⟨s', hs'⟩ := hla
  exact ⟨s', congrArg (option e.1 (e.2.isSome || !allow) 0 :: ·) hs'⟩

theorem means_section (hn : name ≠ []) (ho : ScreenedOptions u true opts) :
    Means u allow ((sectionFileLines allow name opts).map (· ++ ['\n']))
      (sectionMarks u allow name opts.entries) := by
  have hb : Means u allow ((opts.entries.flatMap (optionFileLines allow)).map (· ++ ['\n']))
      (opts.entries.flatMap (optionMarks u allow)) := by
    rw [map_flatMap]
    exact .flatMap fun e he => means_option (ho e he).1 (ho e he).2.1
  have hall := ((Means.line (mark_header hn allow)).append hb).append
    (Means.line (mark_blank allow))
  simpa [sectionFileLines, sectionMarks] using hall

def documentMarks (u : Unicode) (cfg : ConfigFile) : List Mark :=
  cfg.written.flatMap fun e => sectionMarks u cfg.allow_no_value e.1 e.2.entries

theorem marks_document (h : Screened u true allow cfg) :
    marks u cfg.allow_no_value none ((documentFileLines cfg).map (· ++ ['\n'])) =
      documentMarks u cfg := by
  have hm : Means u cfg.allow_no_value ((documentFileLines cfg).map (· ++ ['\n']))
      (documentMarks u cfg) := by
    rw [documentFileLines, map_flatMap]
    exact .flatMap fun e he => means_section (h.written e he).1 (h.written e he).2.2
  obtain ⟨s, hs⟩ := hm none []
  rw [append_nil] at hs
  exact hs.trans (append_nil _)

/-- The line is a header of DEFAULT: the text up to the last closing bracket is the name. -/
def opensDefault (line : Text) : Bool :=
  (pyStrip line).take 9 == "[DEFAULT]".toList && !((pyStrip line).drop 9).contains ']'

theorem sectionHeader_default (line : Text) :
    sectionHeader (pyStrip line) = some DEFAULT_SECTION ↔ opensDefault line = true := by
  rw [sectionHeader_eq_some_iff, opensDefault, Bool.and_eq_true, beq_iff_eq, Bool.not_eq_true',
    contains_eq_mem, decide_eq_false_iff_not]
  constructor
  · rintro ⟨-, junk, hl, hj⟩
    rw [hl]
    exact ⟨rfl, hj⟩
  · rintro ⟨ht, hj⟩
    refine ⟨by decide, _, ?_, hj⟩
    conv_lhs => rw [← take_append_drop 9 (pyStrip line), ht]
    rfl

/-- The later lines of a value that are blank, comments or indented below it mean nothing.
A header of DEFAULT is let through where `switch` says so, and no line after it continues
the value. -/
def harmless (switch : Bool) : Bool → List Text → Bool
  | _, [] => true
  | inValue, line :: lines =>
    if (pyStrip line).isEmpty || isFullComment (pyStrip line) ||
        inValue && startsWith line isPySpace then
      harmless switch inValue lines
    else opensDefault line && switch && harmless switch false lines

/-- No later line of any of the values means anything: going back to DEFAULT is harmless in
DEFAULT itself and after the last option of a section. -/
def optionsHarmless (inDefault : Bool) : Entries → Bool
  | [] => true
  | e :: es =>
    harmless (inDefault || es.isEmpty) true (laterLines e.2) && optionsHarmless inDefault es

def ConfigFile.harmless (cfg : ConfigFile) : Bool :=
  optionsHarmless true cfg.defaults.entries &&
    cfg.sections.entries.all fun e => optionsHarmless false e.2.entries

theorem freshMark_ne_quiet (indent : ℕ) (clean : Text) :
    freshMark u allow indent clean ≠ .quiet := by
  unfold freshMark
  split
  · simp
  · split
    · simp
    · split_ifs <;> simp

theorem freshMark_eq_default_iff (indent : ℕ) (clean : Text) :
    freshMark u allow indent clean = .header DEFAULT_SECTION ↔
      sectionHeader clean = some DEFAULT_SECTION := by
  unfold freshMark
  cases sectionHeader clean with
  | some name => simp
  | none =>
    simp only [reduceCtorEq, iff_false]
    split
    · simp
    · split_ifs <;> simp

/-- What is open among the lines of a value, and after the value was left. -/
def openingOf (inValue : Bool) : Opening := if inValue then some (true, 0) else none

theorem mark_later (inValue : Bool) (line : Text) :
    mark u allow (openingOf inValue) (line ++ ['\n']) =
      if (pyStrip line).isEmpty || isFullComment (pyStrip line) ||
          inValue && startsWith line isPySpace then .quiet
      else freshMark u allow ((line ++ ['\n']).takeWhile isPySpace).length (pyStrip line) := by
  have hcl : pyStrip (line ++ ['\n']) = pyStrip line := trim_concat isPySpace_nl
  unfold mark
  simp only [hcl]
  cases hq : (pyStrip line).isEmpty || isFullComment (pyStrip line) with
  | true => simp
  | false =>
    have hd : 0 < ((line ++ ['\n']).takeWhile isPySpace).length ↔
        startsWith line isPySpace = true := by
      cases line with
      | nil => cases hq
      | cons c line => cases hc : isPySpace c <;> simp [startsWith, hc]
    cases inValue with
    | false => simp [openingOf]
    | true => simp [openingOf, hd]

theorem harmless_iff (switch inValue : Bool) (ls : List Text) : harmless switch inValue ls = true ↔
      ∀ m ∈ marks u allow (openingOf inValue) (ls.map (· ++ ['\n'])),
        m = .quiet ∨ m = .header DEFAULT_SECTION ∧ switch = true := by
  induction ls generalizing inValue with
  | nil => simp [harmless, marks]
  | cons line ls ih =>
    rw [map_cons, marks, mark_later, harmless, forall_mem_cons]
    split_ifs with hs
    · rw [ih inValue]
      simp [Opening.after]
    · have hq : freshMark u allow _ (pyStrip line) ≠ .quiet :=
        freshMark_ne_quiet ((line ++ ['\n']).takeWhile isPySpace).length _
      have hd : freshMark u allow _ (pyStrip line) = .header DEFAULT_SECTION ↔ _ :=
        freshMark_eq_default_iff ((line ++ ['\n']).takeWhile isPySpace).length _
      rw [sectionHeader_default] at hd
      cases hh : opensDefault line with
      | true =>
        have ha : (openingOf inValue).after (.header DEFAULT_SECTION) = openingOf false := rfl
        rw [hd.2 hh, ha, ← ih false]
        simp
      | false =>
        rw [hh] at hd
        simp [hq, hd]

theorem harmless_of_calm (h : Outline.Calm (laterMarks u allow value)) :
    harmless true true (laterLines value) = true :=
  (harmless_iff true true _).2 fun m hm => (h m hm).imp_right fun hm => ⟨hm, rfl⟩

open Outline

variable {o o' : Outline} {ks : List Text} {es : Entries} {inDefault : Bool}
  {secs : List (Text × Options)}

/-- The options of the open section are added to it, whichever section is open after them. -/
theorem run_body (hk : o.keys = some ks) (hc : inDefault = true → o.cur = .default)
    (hn : (ks ++ es.map Prod.fst).Nodup) (h : optionsHarmless inDefault es = true) :
    ∃ c, o.run (es.flatMap (optionMarks u allow)) =
      some { o.setKeys (ks ++ es.map Prod.fst) with cur := c } := by
  induction es generalizing o ks with
  | nil =>
    refine ⟨o.cur, ?_⟩
    rw [map_nil, append_nil, setKeys_keys hk]
    rfl
  | cons e es ih =>
    rw [optionsHarmless, Bool.and_eq_true] at h
    have hnew : e.1 ∉ ks := fun hmem =>
      (nodup_append.1 hn).2.2 e.1 hmem e.1 mem_cons_self rfl
    have hca : Calm (laterMarks u allow e.2) := fun m hm =>
      ((harmless_iff _ true _).1 h.1 m hm).imp_right And.left
    rw [flatMap_cons, optionMarks, cons_append, run_cons, apply, hk, Option.bind_some,
      if_neg hnew, Option.bind_some, run_append, run_calm hca, Option.bind_some]
    by_cases he : es = []
    · subst he
      exact ⟨_, rfl⟩
    · -- more options follow, so the section is still the open one
      have hs : (if .header DEFAULT_SECTION ∈ laterMarks u allow e.2 then Cur.default
          else (o.setKeys (ks ++ [e.1])).cur) = (o.setKeys (ks ++ [e.1])).cur := by
        split_ifs with hmem
        · cases inDefault with
          | true => rw [cur_setKeys, hc rfl]
          | false =>
            have hsw : (false || es.isEmpty) = false := by simpa using he
            rw [hsw] at h
            rcases (harmless_iff false true _).1 h.1 _ hmem with he | ⟨-, he⟩ <;> cases he
        · rfl
      rw [hs]
      obtain ⟨c, hr⟩ := ih (keys_setKeys hk (ks ++ [e.1])) (by rwa [cur_setKeys])
        (by simpa using hn) h.2
      refine ⟨c, hr.trans ?_⟩
      rw [setKeys_setKeys, map_cons, append_assoc, singleton_append]

theorem run_section {name : Text} (hna : name ≠ DEFAULT_SECTION)
    (hn : name ∉ o.sections.map Prod.fst) (hno : (es.map Prod.fst).Nodup)
    (h : optionsHarmless false es = true) : ∃ c, o.run (sectionMarks u allow name es) =
      some { o with sections := o.sections ++ [(name, es.map Prod.fst)], cur := c } := by
  have hk : Outline.keys { o with
      sections := o.sections ++ [(name, [])], cur := .section o.sections.length } = some [] := by
    simp [Outline.keys]
  obtain ⟨c, hr⟩ := @run_body u allow _ _ es false hk (fun hd => absurd hd (by decide))
    hno h
  refine ⟨c, ?_⟩
  rw [sectionMarks, cons_append, run_cons, apply, if_neg hna, if_neg hn, Option.bind_some,
    run_append, hr, Option.bind_some]
  have hl : (o.sections ++ [(name, [])]).modify o.sections.length
      (fun e => (e.1, es.map Prod.fst)) = o.sections ++ [(name, es.map Prod.fst)] :=
    Ordered.modify_last o.sections (name, []) _
  simp only [setKeys, nil_append, hl]
  rfl

theorem run_sections (hs : ∀ e ∈ secs, e.1 ≠ DEFAULT_SECTION)
    (hn : (o.sections.map Prod.fst ++ secs.map Prod.fst).Nodup)
    (h : ∀ e ∈ secs, optionsHarmless false e.2.entries = true) :
    ∃ c, o.run (secs.flatMap fun e => sectionMarks u allow e.1 e.2.entries) =
      some { o with sections := o.sections ++ secs.map fun e => (e.1, e.2.keys), cur := c } := by
  induction secs generalizing o with
  | nil => exact ⟨o.cur, by simp [run_nil]⟩
  | cons e secs ih =>
    rw [forall_mem_cons] at hs h
    have hnew : e.1 ∉ o.sections.map Prod.fst := fun hmem =>
      (nodup_append.1 hn).2.2 e.1 hmem e.1 mem_cons_self rfl
    obtain ⟨c, hr⟩ := @run_section u allow o _ _ hs.1 hnew e.2.nodup h.1
    rw [flatMap_cons, run_append, hr, Option.bind_some]
    obtain ⟨c', hr'⟩ := @ih { o with
      sections := o.sections ++ [(e.1, e.2.entries.map Prod.fst)], cur := c } hs.2
        (by simpa using hn) h.2
    refine ⟨c', hr'.trans ?_⟩
    simp [Ordered.keys]

theorem run_default (opts : Options) (h : optionsHarmless true opts.entries = true) :
    ∃ c, start.run ((heading opts).flatMap fun e => sectionMarks u allow e.1 e.2.entries) =
      some { start with default := opts.keys, cur := c } := by
  unfold heading
  split_ifs with he
  · rw [List.isEmpty_iff] at he
    exact ⟨.none, by simp [run_nil, Ordered.keys, he, start]⟩
  · have hk : keys { start with cur := .default } = some [] := rfl
    obtain ⟨c, hr⟩ := @run_body u allow _ _ opts.entries true hk (fun _ => rfl) opts.nodup h
    refine ⟨c, ?_⟩
    rw [flatMap_singleton, sectionMarks, cons_append, run_cons, apply_default, Option.bind_some,
      run_append, hr]
    rfl

/-- The names that the later lines of values bring in. -/
def strays (u : Unicode) (allow : Bool) (es : Entries) : ℕ :=
  (es.map fun e => (laterMarks u allow e.2).countP Mark.naming).sum

theorem countP_body (es : Entries) :
    (es.flatMap (optionMarks u allow)).countP naming = es.length + strays u allow es := by
  induction es with
  | nil => rfl
  | cons e es ih =>
    have ho : naming (.option e.1 (e.2.isSome || !allow) 0) = true := rfl
    rw [flatMap_cons, countP_append, ih, optionMarks, countP_cons, ho]
    simp only [strays, map_cons, sum_cons, length_cons, if_true]
    omega

theorem countP_section (name : Text) (es : Entries) :
    (sectionMarks u allow name es).countP naming =
      (if name = DEFAULT_SECTION then 0 else 1) + es.length + strays u allow es := by
  have hq : naming .quiet = false := rfl
  rw [sectionMarks, cons_append, countP_cons, countP_append, countP_body, countP_cons, hq]
  by_cases hn : name = DEFAULT_SECTION
  · simp [naming, hn]
  · simp [naming]
    omega

theorem countP_sections (h : ∀ e ∈ secs, e.1 ≠ DEFAULT_SECTION) :
    (secs.flatMap fun e => sectionMarks u allow e.1 e.2.entries).countP naming =
      (secs.map fun e => e.2.keys.length + 1).sum +
        (secs.map fun e => strays u allow e.2.entries).sum := by
  induction secs with
  | nil => rfl
  | cons e secs ih =>
    rw [forall_mem_cons] at h
    rw [flatMap_cons, countP_append, ih h.2, countP_section, if_neg h.1]
    simp only [map_cons, sum_cons, Ordered.length_keys]
    omega

theorem countP_default (opts : Options) :
    ((heading opts).flatMap fun e => sectionMarks u allow e.1 e.2.entries).countP naming =
      opts.keys.length + strays u allow opts.entries := by
  unfold heading
  split_ifs with he
  · rw [List.isEmpty_iff] at he
    simp [Ordered.keys, he, strays]
  · rw [flatMap_singleton, countP_section, if_pos rfl, zero_add, Ordered.length_keys]

theorem mem_sectionMarks (he : e ∈ es) (hm : m ∈ laterMarks u allow e.2) :
    m ∈ sectionMarks u allow name es := by
  refine mem_cons_of_mem _ (mem_append_left _ ?_)
  exact mem_flatMap.2 ⟨e, he, mem_cons_of_mem _ hm⟩

theorem calm_of_strays (h : strays u allow es = 0)
    (hf : ∀ e ∈ es, .fault ∉ laterMarks u allow e.2) : ∀ e ∈ es, Calm (laterMarks u allow e.2) := by
  intro e he m hm
  have hc := sum_eq_zero_iff.1 h _ (mem_map_of_mem he)
  rw [countP_eq_zero] at hc
  have hm' := hc m hm
  cases m with
  | quiet => exact .inl rfl
  | fault => exact absurd hm (hf e he)
  | header name => exact .inr (by simpa [naming] using hm')
  | option key valued indent => exact absurd rfl hm'

section

variable (h : ∀ e ∈ es, Calm (laterMarks u allow e.2))
include h

theorem optionsHarmless_of_calm : optionsHarmless true es = true := by
  induction es with
  | nil => rfl
  | cons e es ih =>
    rw [forall_mem_cons] at h
    rw [optionsHarmless, Bool.and_eq_true]
    exact ⟨harmless_of_calm h.1, ih h.2⟩

/-- A section that goes back to DEFAULT before its last option loses the next one to it. -/
theorem optionsHarmless_of_run {i : ℕ}
    (hc : o.cur = .section i) (hr : o.run (es.flatMap (optionMarks u allow)) = some o')
    (hd : o'.default.length = o.default.length) : optionsHarmless false es = true := by
  induction es generalizing o with
  | nil => rfl
  | cons e es ih =>
    rw [forall_mem_cons] at h
    rw [flatMap_cons, optionMarks, cons_append, run_cons] at hr
    obtain ⟨o₁, ha, hr⟩ := Option.bind_eq_some_iff.1 hr
    have ho₁ : o₁.cur = .section i ∧ o₁.default = o.default := by
      obtain ⟨ks, -, ha⟩ := Option.bind_eq_some_iff.1 ha
      split_ifs at ha
      cases ha
      refine ⟨(cur_setKeys o _).trans hc, ?_⟩
      rw [setKeys, hc]
    rw [run_append, run_calm h.1, Option.bind_some] at hr
    rw [optionsHarmless, Bool.and_eq_true]
    by_cases hmem : .header DEFAULT_SECTION ∈ laterMarks u allow e.2
    · cases es with
      | nil => exact ⟨harmless_of_calm h.1, rfl⟩
      | cons f es =>
        -- the next option goes to DEFAULT, which then has one name too many
        rw [if_pos hmem, flatMap_cons, optionMarks, cons_append, run_cons] at hr
        obtain ⟨o₂, ha₂, hr₂⟩ := Option.bind_eq_some_iff.1 hr
        have hle := (run_weight hr₂).2.2
        rw [apply] at ha₂
        obtain ⟨ks, hk, ha₂⟩ := Option.bind_eq_some_iff.1 ha₂
        split_ifs at ha₂
        cases ha₂
        cases hk
        simp only [setKeys, length_append, length_singleton, ho₁.2] at hle
        omega
    · rw [if_neg hmem] at hr
      refine ⟨(@harmless_iff u allow _ true _).2 fun m hm => ?_, ih h.2 ho₁.1 hr ?_⟩
      · exact .inl ((h.1 m hm).resolve_right fun he => hmem (he ▸ hm))
      rw [hd, ho₁.2]

end

theorem sectionsHarmless_of_run (hs : ∀ e ∈ secs, e.1 ≠ DEFAULT_SECTION)
    (h : ∀ e ∈ secs, ∀ e' ∈ e.2.entries, Calm (laterMarks u allow e'.2))
    (hr : o.run (secs.flatMap fun e => sectionMarks u allow e.1 e.2.entries) = some o')
    (hd : o'.default.length = o.default.length) :
    ∀ e ∈ secs, optionsHarmless false e.2.entries = true := by
  induction secs generalizing o with
  | nil => exact fun e he => absurd he not_mem_nil
  | cons e secs ih =>
    rw [forall_mem_cons] at hs h ⊢
    rw [flatMap_cons, run_append, sectionMarks, cons_append] at hr
    obtain ⟨o₁, hr₁, hr₂⟩ := Option.bind_eq_some_iff.1 hr
    rw [run_cons] at hr₁
    obtain ⟨o₂, ha, hr₁⟩ := Option.bind_eq_some_iff.1 hr₁
    rw [apply, if_neg hs.1] at ha
    split_ifs at ha
    cases ha
    have hl₁ := (run_weight hr₁).2.2
    have hl₂ := (run_weight hr₂).2.2
    simp only at hl₁
    refine ⟨?_, ih hs.2 h.2 hr₂ (by omega)⟩
    rw [run_append] at hr₁
    obtain ⟨o₃, hr₃, hq⟩ := Option.bind_eq_some_iff.1 hr₁
    obtain rfl : o₃ = o₁ := Option.some.inj hq
    exact optionsHarmless_of_run h.1 rfl hr₃ (by simp only; omega)

theorem names_document_iff (h : Screened u true allow cfg) :
    (start.run (documentMarks u cfg)).map (fun o => (o.default, o.sections)) = some cfg.names ↔
      cfg.harmless = true := by
  have hse : ∀ e ∈ cfg.sections.entries, e.1 ≠ DEFAULT_SECTION :=
    fun e he => (h.sections e he).1.ne_default
  rw [ConfigFile.harmless, Bool.and_eq_true, all_eq_true, documentMarks, ConfigFile.written,
    flatMap_append]
  constructor
  · intro hr
    obtain ⟨o, hr, hn⟩ := Option.map_eq_some_iff.1 hr
    obtain ⟨hd, hn⟩ := Prod.mk.inj hn
    obtain ⟨hw, hf, -⟩ := run_weight hr
    rw [countP_append, countP_default, countP_sections hse] at hw
    simp only [weight, hd, hn, map_map, Function.comp_def] at hw
    have hs : strays u cfg.allow_no_value cfg.defaults.entries = 0 := by omega
    have hs' : (cfg.sections.entries.map fun e =>
        strays u cfg.allow_no_value e.2.entries).sum = 0 := by
      omega
    rw [mem_append, not_or] at hf
    have hc : ∀ e ∈ cfg.defaults.entries, Calm (laterMarks u cfg.allow_no_value e.2) := by
      refine calm_of_strays hs fun e he hmem => hf.1 ?_
      rw [heading, if_neg (by simpa using ne_nil_of_mem he), flatMap_singleton]
      exact mem_sectionMarks he hmem
    have hc' : ∀ e ∈ cfg.sections.entries, ∀ e' ∈ e.2.entries,
        Calm (laterMarks u cfg.allow_no_value e'.2) := by
      intro e he
      have hz := sum_eq_zero_iff.1 hs' _ (mem_map_of_mem he)
      refine calm_of_strays hz fun e' he' hmem => hf.2 ?_
      exact mem_flatMap.2 ⟨e, he, mem_sectionMarks he' hmem⟩
    have hfi := optionsHarmless_of_calm hc
    refine ⟨hfi, ?_⟩
    obtain ⟨c, hr₁⟩ := @run_default u cfg.allow_no_value cfg.defaults hfi
    rw [run_append, hr₁, Option.bind_some] at hr
    exact sectionsHarmless_of_run hse hc' hr (by rw [hd])
  · rintro ⟨hd, hall⟩
    obtain ⟨c, hr⟩ := @run_default u cfg.allow_no_value cfg.defaults hd
    obtain ⟨c', hr'⟩ := @run_sections u cfg.allow_no_value
      { start with default := cfg.defaults.keys, cur := c } _ hse cfg.sections.nodup hall
    rw [run_append, hr, Option.bind_some, hr']
    rfl

/-- The names of a store that calls built come back from its file just when the later lines
of its values mean nothing. -/
theorem names_readPath_writePath_iff (u : Unicode) (interp interp' : Interp)
    (allow scrub scrub' : Bool) (path : String) (calls : List Call) (cfg : ConfigFile)
    (hcalls : applyAll u ⟨.empty, .empty, interp, allow, scrub⟩ calls = .ok cfg) :
    (∃ cfg', readPath u ⟨.empty, .empty, interp', allow, scrub'⟩ path cfg.writePath =
        .ok cfg' ∧ cfg'.names = cfg.names) ↔ cfg.harmless = true := by
  have hs := (Screened.fresh interp allow scrub).applyAll (fun call _ => call.valued_true) hcalls
  have ha := hs.allow_no_value
  have hr := @names_read u interp' allow scrub' path (unify '\r' '\n' cfg.writeString)
  rw [splitInclusive_unify hs, ← ha, marks_document hs, ha] at hr
  rw [← names_document_iff hs, ← hr, writePath, readPath_utf8]
  cases read u ⟨.empty, .empty, interp', allow, scrub'⟩ path
      (unify '\r' '\n' cfg.writeString) with
  | error e | ok cfg' => simp [Except.toOption]

/-- A header after a line feed stays in the value. -/
theorem names_readPath_writePath_lineFeed :
    ∃ cfg, applyAll ascii ⟨.empty, .empty, .none, false, false⟩
        [.addSection "a".toList, .set "a".toList "k".toList (some "x\n[b]\r y".toList)] = .ok cfg ∧
      ∃ cfg', readPath ascii ⟨.empty, .empty, .basic, false, true⟩ "f" cfg.writePath =
        .ok cfg' ∧ cfg'.names = cfg.names := by
  refine ⟨_, rfl, ?_⟩
  exact (names_readPath_writePath_iff ascii .none .basic false false true "f"
    [.addSection "a".toList, .set "a".toList "k".toList (some "x\n[b]\r y".toList)] _ rfl).2
    (by decide)

/-- A header after a lone carriage return opens a section that the store does not have. -/
theorem names_readPath_carriageReturn : ∃ cfg, applyAll ascii ⟨.empty, .empty, .none, false, false⟩
        [.addSection "a".toList, .set "a".toList "k".toList (some "x\r[b]\ry = z".toList)] =
        .ok cfg ∧
      cfg.names = ([], [("a".toList, ["k".toList])]) ∧
      ∃ cfg', readPath ascii ⟨.empty, .empty, .none, false, false⟩ "f" cfg.writePath =
          .ok cfg' ∧
        cfg'.names = ([], [("a".toList, ["k".toList]), ("b".toList, ["y".toList])]) := by
  refine ⟨_, rfl, rfl, ?_⟩
  exact ⟨_, rfl, by decide⟩

end TruenasRos.Config
