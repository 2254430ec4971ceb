import TruenasRos.Config.File
import TruenasRos.Lib.Search

/-! # Reading a configuration

The read loop takes the text line by line. It carries the open section, the open
option, the depth of the last option line and the duplicates met so far, and it merges
what it gathered into the store only when the whole text has been read.
-/

namespace TruenasRos.Config

open List Lines

/-- The lines of a value so far, or no value. -/
abbrev Acc := Option (List Text)

inductive SectionId
  | default
  | at (i : ℕ)
  deriving DecidableEq

/-- The section that option and continuation lines belong to. -/
inductive Cur
  | none
  | default
  | section (i : ℕ)
  deriving DecidableEq

def SectionId.of : Cur → SectionId
  | .none | .default => .default
  | .section i => .at i

structure Work where
  default : Ordered Text Acc
  sections : Ordered Text (Ordered Text Acc)
  dups : List (SectionId × Text)
  added_sections : List Text

/-- The state of the read loop between two lines. -/
structure Reader where
  work : Work
  cur : Cur
  optname : Option Text
  indent_level : ℕ
  parse_errors : List String

def Reader.start : Reader := ⟨⟨.empty, .empty, [], []⟩, .none, none, 0, []⟩

namespace Work

variable (work : Work)

def curOpts : Cur → Option (Ordered Text Acc)
  | .none => none
  | .default => some work.default
  | .section i => (work.sections.entries[i]?).map Prod.snd

def setOpts (opts : Ordered Text Acc) : Cur → Work
  | .none => work
  | .default => { work with default := opts }
  | .section i => { work with sections := work.sections.setAt i opts }

@[simp]
theorem setOpts_dups (opts : Ordered Text Acc) (cur : Cur) :
    (work.setOpts opts cur).dups = work.dups := by
  cases cur <;> rfl

@[simp]
theorem setOpts_added (opts : Ordered Text Acc) (cur : Cur) :
    (work.setOpts opts cur).added_sections = work.added_sections := by
  cases cur <;> rfl

def pushLine (cur : Cur) (name line : Text) : Option Work :=
  (work.curOpts cur).bind fun opts =>
    match opts.get name with
    | some (some lines) => some (work.setOpts (opts.insert name (some (lines ++ [line]))) cur)
    | _ => none

end Work

def sectionHeader (clean : Text) : Option Text :=
  if clean.head? = some '[' then
    (clean.reverse.findIdx? (· = ']')).bind fun j =>
      let close := clean.length - 1 - j
      if close ≤ 1 then none else some ((clean.take close).drop 1)
  else none

def isDelim (c : Char) : Bool := c == '=' || c == ':'

def parseOption (clean : Text) (allow_no_value : Bool) : Option (Text × Option Text) :=
  match clean.findIdx? isDelim with
  | some p => some (pyRstrip (clean.take p), some (pyStrip (clean.drop (p + 1))))
  | none => if allow_no_value then some (pyRstrip clean, none) else none

def isFullComment (trimmed : Text) : Bool :=
  startsWith trimmed (· == '#') || startsWith trimmed (· == ';')

variable (u : Unicode) (cfg : ConfigFile) (source : String)

def readLine (lineno : ℕ) (line : Text) (r : Reader) : Except Error Reader :=
  let trimmed := pyStrip line
  let clean := if isFullComment trimmed then [] else trimmed
  let cur_indent := (line.takeWhile isPySpace).length
  if clean.isEmpty then
    -- a blank line extends an open value, a comment does not
    match isFullComment trimmed, r.optname with
    | false, some name => .ok { r with work := (r.work.pushLine r.cur name []).getD r.work }
    | _, _ => .ok r
  else
    match r.optname, decide (r.cur ≠ .none ∧ cur_indent > r.indent_level) with
    | some name, true =>
      match r.work.pushLine r.cur name clean with
      | some work => .ok { r with work := work }
      | none =>
        .error (.parse s!"{source}:{lineno}: continuation line for a key with no value")
    | _, _ =>
      match sectionHeader clean with
      | some header =>
        if header = DEFAULT_SECTION then .ok { r with cur := .default, optname := none }
        else if header ∈ r.work.added_sections then
          let quoted := u.debug header
          .error (.parse (if cfg.scrub then s!"{source}:{lineno}: duplicate section"
            else s!"{source}:{lineno}: duplicate section {quoted}"))
        else
          let sections := r.work.sections.insert header .empty
          .ok { r with
            work := { r.work with
              added_sections := header :: r.work.added_sections, sections := sections }
            cur := .section ((sections.position header).getD 0)
            optname := none }
      | none =>
        if r.cur = .none then .error (.parse s!"{source}:{lineno}: missing section header")
        else
          match parseOption clean cfg.allow_no_value with
          | none =>
            .ok { r with
              indent_level := cur_indent, parse_errors :=
                r.parse_errors ++ [s!"{source}:{lineno}"] }
          | some (raw_key, value) =>
            let key := optionxform u raw_key
            if key.isEmpty then
              .ok { r with
                indent_level := cur_indent, parse_errors :=
                  r.parse_errors ++ [s!"{source}:{lineno}"] }
            else if (SectionId.of r.cur, key) ∈ r.work.dups then
              let quoted := u.debug key
              .error (.parse (if cfg.scrub then s!"{source}:{lineno}: duplicate option"
                else s!"{source}:{lineno}: duplicate option {quoted}"))
            else
              let work := { r.work with dups := (SectionId.of r.cur, key) :: r.work.dups }
              let opts := (work.curOpts r.cur).getD .empty
              .ok { r with
                work := work.setOpts (opts.insert key (value.map fun v => [v])) r.cur
                optname := some key
                indent_level := cur_indent }

def readLines : ℕ → List Text → Reader → Except Error Reader
  | _, [], r => .ok r
  | lineno, line :: lines, r => do
    let r' ← readLine u cfg source lineno line r
    readLines (lineno + 1) lines r'

def join (acc : Acc) : Option Text := acc.map fun lines => pyRstrip (['\n'].intercalate lines)

def mergeOptions (target : Options) (entries : List (Text × Acc)) : Options :=
  entries.foldl (fun target e => target.insert e.1 (join e.2)) target

def merge (work : Work) : ConfigFile :=
  { cfg with
    defaults := mergeOptions cfg.defaults work.default.entries
    sections := work.sections.entries.foldl (fun sections e =>
      sections.insert e.1 (mergeOptions
        ((sections.get e.1).getD .empty) e.2.entries)) cfg.sections }

def read (text : Text) : Except Error ConfigFile := do
  let r ← readLines u cfg source 1 (Lines.splitInclusive '\n' text) .start
  if r.parse_errors.isEmpty then .ok (merge cfg r.work)
  else
    let list := ", ".intercalate r.parse_errors
    .error (.parse s!"source contains parsing errors at {list}")

def readStr (s : Text) : Except Error ConfigFile := read u cfg "<string>" s

/-- From `r` the lines are read without an error, wherever they stand, to `r'`. -/
def Reads (lines : List Text) (r r' : Reader) : Prop :=
  ∀ source lineno, readLines u cfg source lineno lines r = .ok r'

variable {u cfg} {src : String} {ln : ℕ}

theorem Reads.nil (r : Reader) : Reads u cfg [] r r := fun _ _ => rfl

theorem Reads.cons {line : Text} {lines : List Text} {r r₁ r' : Reader}
    (hl : ∀ src ln, readLine u cfg src ln line r = .ok r₁)
    (hli : Reads u cfg lines r₁ r') : Reads u cfg (line :: lines) r r' := by
  intro src ln
  rw [readLines, hl src ln]
  exact hli src (ln + 1)

theorem readLines_append (lines lines' : List Text) (r : Reader) :
    readLines u cfg src ln (lines ++ lines') r = readLines u cfg src ln lines r >>=
        readLines u cfg src (ln + lines.length) lines' := by
  induction lines generalizing r ln with
  | nil => rfl
  | cons line lines ih =>
    rw [cons_append, readLines, readLines, bind_assoc, length_cons,
      show ln + (lines.length + 1) = ln + 1 + lines.length by omega]
    exact bind_congr fun r' => ih r'

variable {lines : List Text} {r : Reader} {key name : Text} {o : Ordered Text Acc} {work : Work}
  {cur : Cur} {os : List (Text × Acc)}

theorem Reads.append {lines' : List Text} {r₁ r' : Reader} (h : Reads u cfg lines r r₁)
    (h' : Reads u cfg lines' r₁ r') : Reads u cfg (lines ++ lines') r r' := by
  intro src ln
  rw [readLines_append, h src ln]
  exact h' src (ln + lines.length)

theorem pyStrip_header (name : Text) :
    pyStrip ('[' :: name ++ [']', '\n']) = '[' :: name ++ [']'] := by
  rw [pyStrip, cons_append, trim_cons_not isPySpace_open,
    show name ++ [']', '\n'] = (name ++ [']']) ++ ['\n'] by simp,
    trimEnd_concat isPySpace_nl, trimEnd_concat_not isPySpace_close]
  rfl

theorem sectionHeader_eq_some_iff {clean : Text} : sectionHeader clean = some name ↔
    name ≠ [] ∧ ∃ junk, clean = '[' :: name ++ ']' :: junk ∧ ']' ∉ junk := by
  unfold sectionHeader
  constructor
  · intro h
    split_ifs at h with ho
    obtain ⟨j, hj, h⟩ := Option.bind_eq_some_iff.1 h
    obtain ⟨junk, c, pre, hl, rfl, hc, hn⟩ := Search.findIdx?_eq_some_iff_append.1 hj
    obtain rfl : c = ']' := by simpa using hc
    obtain rfl : clean = pre.reverse ++ ']' :: junk.reverse := by simpa using congrArg reverse hl
    generalize pre.reverse = pre at *
    have hk : (pre ++ ']' :: junk.reverse).length - 1 - junk.length = pre.length := by simp
    simp only [hk, take_left] at h
    split_ifs at h with hclo
    cases pre with
    | nil => simp at hclo
    | cons c rest =>
      obtain rfl : c = '[' := by simpa using ho
      obtain rfl : rest = name := by simpa using h
      refine ⟨by rintro rfl; simp at hclo, junk.reverse, rfl, fun hm => ?_⟩
      simpa using hn _ (mem_reverse.1 hm)
  · rintro ⟨hne, junk, rfl, hju⟩
    have hf : ('[' :: name ++ ']' :: junk).reverse.findIdx? (· = ']') = some junk.length := by
      refine Search.findIdx?_eq_some_iff_append.2 ⟨junk.reverse, ']', name.reverse ++ ['['],
        by simp, length_reverse, by simp, fun c hc => ?_⟩
      exact decide_eq_false fun he => hju (he ▸ mem_reverse.1 hc)
    have hlen := length_pos_iff.2 hne
    have hclo : ('[' :: name ++ ']' :: junk).length - 1 - junk.length = name.length + 1 := by
      simp
      omega
    rw [if_pos (by rfl), hf, Option.bind_some]
    simp only [hclo]
    rw [if_neg (by omega)]
    simp

theorem sectionHeader_header (h : name ≠ []) : sectionHeader ('[' :: name ++ [']']) = some name :=
  sectionHeader_eq_some_iff.2 ⟨h, [], rfl, not_mem_nil⟩

def Reader.entered (r : Reader) (name : Text) : Reader :=
  { r with
    work := { r.work with
      added_sections := name :: r.work.added_sections
      sections := r.work.sections.insert name .empty }
    cur := .section (((r.work.sections.insert name .empty).position name).getD 0)
    optname := none }

theorem readLine_header (h : name ≠ []) (r : Reader) :
    readLine u cfg src ln ('[' :: name ++ [']', '\n']) r =
      if name = DEFAULT_SECTION then .ok { r with cur := .default, optname := none }
      else if name ∈ r.work.added_sections then
        let quoted := u.debug name
        .error (.parse (if cfg.scrub then s!"{src}:{ln}: duplicate section"
          else s!"{src}:{ln}: duplicate section {quoted}"))
      else .ok (r.entered name) := by
  have hc : isFullComment ('[' :: name ++ [']']) = false := rfl
  have hid : (('[' :: name ++ [']', '\n']).takeWhile isPySpace).length = 0 := by simp
  rw [readLine, pyStrip_header, hc, hid]
  simp only [Bool.false_eq_true, if_false, gt_iff_lt, Nat.not_lt_zero, and_false, decide_false]
  rw [if_neg (by simp), sectionHeader_header h]
  cases r.optname <;> rfl

section

variable (h : IsKey key)
include h

theorem takeWhile_key (t : Text) : ((key ++ t).takeWhile isPySpace).length = 0 := by
  obtain ⟨c, s, rfl, hc, -⟩ := h.head
  simp [hc]

theorem pyRstrip_key : pyRstrip key = key := by
  obtain ⟨s, c, rfl, hc⟩ := h.last
  exact trimEnd_concat_not hc

theorem findIdx?_key : key.findIdx? isDelim = none := by
  rw [findIdx?_eq_none_iff]
  intro c hc
  rw [isDelim, Bool.or_eq_false_iff, beq_eq_false_iff_ne, beq_eq_false_iff_ne]
  exact ⟨fun he => h.plain.1 (he ▸ hc), fun he => h.plain.2 (he ▸ hc)⟩

theorem pyStrip_key (t : Text) : pyStrip (key ++ t) = pyRstrip (key ++ t) := by
  obtain ⟨c, s, rfl, hc, -⟩ := h.head
  rw [pyStrip, cons_append, trim_cons_not hc, pyRstrip, trimEnd_cons, if_neg (by simp [hc])]

theorem parseOption_bare : parseOption (pyStrip (key ++ ['\n'])) true = some (key, none) := by
  rw [pyStrip_key h, pyRstrip, trimEnd_concat isPySpace_nl, ← pyRstrip, pyRstrip_key h,
    parseOption, findIdx?_key h]
  exact congrArg (fun k => some (k, none)) (pyRstrip_key h)

theorem parseOption_valued {gap : Text} (hg : gap = [] ∨ gap = [' ']) (v : Text) (allow : Bool) :
    parseOption (pyStrip (key ++ (gap ++ '=' :: (gap ++ v ++ ['\n'])))) allow =
      some (key, some (pyStrip v)) := by
  have hc : pyStrip (key ++ (gap ++ '=' :: (gap ++ v ++ ['\n']))) =
      (key ++ gap) ++ '=' :: pyRstrip (gap ++ v) := by
    rw [pyStrip_key h, ← append_assoc, pyRstrip, trimEnd_append_cons isPySpace_equals,
      trimEnd_concat isPySpace_nl, ← pyRstrip]
  have hf : ((key ++ gap) ++ '=' :: pyRstrip (gap ++ v)).findIdx? isDelim =
      some (key ++ gap).length := by
    have hn : (key ++ gap).findIdx? isDelim = none := by
      rw [findIdx?_append, findIdx?_key h]
      rcases hg with rfl | rfl <;> rfl
    exact Search.findIdx?_eq_some_iff_append.2
      ⟨_, _, _, rfl, rfl, rfl, findIdx?_eq_none_iff.1 hn⟩
  have hk : pyRstrip (key ++ gap) = key := by
    rcases hg with rfl | rfl
    · rw [append_nil, pyRstrip_key h]
    · rw [pyRstrip, trimEnd_concat isPySpace_blank, ← pyRstrip, pyRstrip_key h]
  have hv : pyStrip (pyRstrip (gap ++ v)) = pyStrip v := by
    rw [pyRstrip, pyStrip, trim_trimEnd]
    rcases hg with rfl | rfl
    · rfl
    · exact trim_cons isPySpace_blank
  rw [hc, parseOption, hf]
  simp only [take_left, hk, ← drop_drop, drop_left, drop_succ_cons, drop_zero, hv]

end

def Reader.opened (r : Reader) (key : Text) (opts : Ordered Text Acc) : Reader :=
  { r with
    work := { r.work with dups := (SectionId.of r.cur, key) :: r.work.dups }.setOpts opts r.cur
    optname := some key
    indent_level := 0 }

theorem readLine_option {t : Text} {value : Option Text} (h : IsKey key)
    (hl : u.to_lowercase key = key)
    (hpa : parseOption (pyStrip (key ++ t)) cfg.allow_no_value = some (key, value))
    (ho : r.work.curOpts r.cur = some o) (hn : (SectionId.of r.cur, key) ∉ r.work.dups) :
    readLine u cfg src ln (key ++ t) r =
      .ok (r.opened key (o.insert key (value.map fun v => [v]))) := by
  have hcur : r.cur ≠ .none := by
    intro hno
    rw [hno] at ho
    cases ho
  obtain ⟨c, s, rfl, hc, hon, hh, hs⟩ := h.head
  have hcl : ∃ s', pyStrip (c :: s ++ t) = c :: s' := by
    rw [pyStrip, cons_append, trim_cons_not hc]
    exact ⟨_, rfl⟩
  obtain ⟨s', hcl⟩ := hcl
  have hco : isFullComment (c :: s') = false := by simp [isFullComment, startsWith, hh, hs]
  have hhe : sectionHeader (c :: s') = none := by
    rw [sectionHeader, if_neg (by simpa using hon)]
  rw [hcl] at hpa
  rw [readLine, hcl, hco, takeWhile_key h]
  simp only [Bool.false_eq_true, if_false, gt_iff_lt, Nat.not_lt_zero, and_false, decide_false,
    hhe, hpa, optionxform, hl, hcur]
  have hw : { r.work with dups := (SectionId.of r.cur, c :: s) :: r.work.dups }.curOpts r.cur =
      some o := by
    rw [← ho]
    cases r.cur <;> rfl
  rw [if_neg (by simp), if_neg (by simp), if_neg hn, hw]
  cases r.optname <;> rfl

def kept (line : Text) : Option Text :=
  if isFullComment (pyStrip line) then none else some (pyStrip line)

theorem pushLine_open
    (ho : work.curOpts cur = some o) (hl : o.entries = os ++ [(name, some lines)]) (line : Text) :
    work.pushLine cur name line =
      some (work.setOpts (o.insert name (some (lines ++ [line]))) cur) := by
  rw [Work.pushLine, ho, Option.bind_some, Ordered.get_last hl]

@[simp]
theorem curOpts_withDups (work : Work) (dups : List (SectionId × Text)) (cur : Cur) :
    { work with dups := dups }.curOpts cur = work.curOpts cur := by
  cases cur <;> rfl

theorem curOpts_setOpts (ho : work.curOpts cur = some o) (o' : Ordered Text Acc) :
    (work.setOpts o' cur).curOpts cur = some o' := by
  cases cur with
  | none => cases ho
  | default => rfl
  | «section» i =>
    obtain ⟨e, he, -⟩ := Option.map_eq_some_iff.1 ho
    simp [Work.setOpts, Work.curOpts, Ordered.setAt, he]

theorem readLine_continuation (hn : r.optname = some name)
    (hid : r.indent_level = 0) (ho : r.work.curOpts r.cur = some o)
    (hl : o.entries = os ++ [(name, some lines)]) (line : Text) :
    readLine u cfg src ln ('\t' :: line ++ ['\n']) r = .ok (match kept line with
        | none => r
        | some kept =>
          { r with work := r.work.setOpts (o.insert name (some (lines ++ [kept]))) r.cur }) := by
  have hc : r.cur ≠ .none := by
    intro hno
    rw [hno] at ho
    cases ho
  have hs : pyStrip ('\t' :: line ++ ['\n']) = pyStrip line := by
    rw [pyStrip, trim_concat isPySpace_nl, trim_cons isPySpace_tab, pyStrip]
  have hd : (('\t' :: line ++ ['\n']).takeWhile isPySpace).length > r.indent_level := by
    rw [hid, cons_append, takeWhile_cons_of_pos isPySpace_tab]
    exact Nat.succ_pos _
  rw [readLine, hs, kept, decide_eq_true (show r.cur ≠ .none ∧ _ from ⟨hc, hd⟩), hn]
  cases hco : isFullComment (pyStrip line) with
  | true => simp
  | false =>
    cases hcl : pyStrip line with
    | nil | cons c s => simp [pushLine_open ho hl]

end TruenasRos.Config
