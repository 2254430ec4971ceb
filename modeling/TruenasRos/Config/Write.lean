import TruenasRos.Config.Read

/-! # Writing a configuration

DEFAULT comes first if it has options, then each section with its options in order and
a blank line. A value is written as it stands, save that its later lines are indented.
-/

namespace TruenasRos.Config

open List

def delim (space_around : Bool) : Text := if space_around then " = ".toList else "=".toList

def reindent (v : Text) : Text := v.flatMap fun c => if c = '\n' then ['\n', '\t'] else [c]

def writeOption (delim : Text) (allow_no_value : Bool) (e : Text × Option Text) : Text :=
  (if e.2.isSome || !allow_no_value then
      e.1 ++ delim ++ (match e.2 with | some v => reindent v | none => "None".toList)
    else e.1) ++ ['\n']

def writeSection (name : Text) (opts : Options) (delim : Text) (allow_no_value : Bool) : Text :=
  '[' :: name ++ [']', '\n'] ++ opts.entries.flatMap (writeOption delim allow_no_value) ++ ['\n']

namespace ConfigFile

variable (cfg : ConfigFile)

def toString (space_around : Bool) : Text :=
  (if cfg.defaults.entries.isEmpty then []
    else writeSection DEFAULT_SECTION cfg.defaults (delim space_around) cfg.allow_no_value) ++
  cfg.sections.entries.flatMap fun e =>
    writeSection e.1 e.2 (delim space_around) cfg.allow_no_value

def writeString : Text := cfg.toString true

def toStringWith (space_around_delimiters : Bool) : Text :=
  cfg.toString space_around_delimiters

end ConfigFile

def gap (space_around : Bool) : Text := if space_around then [' '] else []

theorem delim_eq (pad : Bool) : delim pad = gap pad ++ '=' :: gap pad := by
  cases pad <;> rfl

theorem gap_cases (pad : Bool) : gap pad = [] ∨ gap pad = [' '] := by
  cases pad
  · exact .inl rfl
  · exact .inr rfl

def firstLine (v : Text) : Text := (v.splitOn '\n').headD []

def restLines (v : Text) : List Text := (v.splitOn '\n').tail

theorem splitOn_eq (v : Text) : v.splitOn '\n' = firstLine v :: restLines v := by
  rw [firstLine, restLines]
  cases hv : v.splitOn '\n' with
  | nil => exact absurd hv (splitOnP_ne_nil _ v)
  | cons l ls => rfl

def optionLines (pad : Bool) : Text × Option Text → List Text
  | (key, none) => [key]
  | (key, some v) => (key ++ delim pad ++ firstLine v) :: (restLines v).map ('\t' :: ·)

def sectionLines (pad : Bool) (name : Text) (entries : Entries) : List Text :=
  ('[' :: name ++ [']']) :: entries.flatMap (optionLines pad) ++ [[]]

variable {l name : Text} {pad allow : Bool} {e : Text × Option Text}

theorem reindent_line (h : '\n' ∉ l) (t : Text) :
    reindent (l ++ '\n' :: t) = l ++ '\n' :: '\t' :: reindent t := by
  induction l with
  | nil => rfl
  | cons c l ih =>
    rw [mem_cons, not_or] at h
    rw [cons_append, reindent, flatMap_cons, ← reindent, ih h.2,
      if_neg fun hc => h.1 hc.symm]
    rfl

theorem reindent_intercalate (l : Text) (ls : List Text) (h : ∀ m ∈ l :: ls, '\n' ∉ m) :
    reindent (['\n'].intercalate (l :: ls)) ++ ['\n'] =
      l ++ ['\n'] ++ (ls.map ('\t' :: ·)).flatMap (· ++ ['\n']) := by
  rw [forall_mem_cons] at h
  induction ls generalizing l with
  | nil =>
    have hpn : reindent l = l.flatMap fun c => [c] :=
      flatMap_congr fun c hc => if_neg fun he => h.1 (by rwa [← he])
    simp [hpn]
  | cons m ms ih =>
    rw [intercalate_cons_cons, append_assoc, singleton_append, reindent_line h.1]
    simp [ih m (forall_mem_cons.1 h.2)]

theorem writeOption_eq (h : e.2 = none → allow = true) :
    writeOption (delim pad) allow e = (optionLines pad e).flatMap (· ++ ['\n']) := by
  obtain ⟨key, value⟩ := e
  cases value with
  | none =>
    obtain rfl := h rfl
    simp [writeOption, optionLines]
  | some v =>
    have hv : v = ['\n'].intercalate (firstLine v :: restLines v) := by
      rw [← splitOn_eq, intercalate_splitOn]
    have hl := reindent_intercalate (firstLine v) (restLines v) fun m hm =>
      Lines.notMem_of_mem_splitOn ((splitOn_eq v) ▸ hm)
    rw [← hv] at hl
    simp only [writeOption, Option.isSome_some, Bool.true_or, if_true, append_assoc, hl]
    simp [optionLines]

theorem writeSection_eq {opts : Options} (h : ∀ e ∈ opts.entries, e.2 = none → allow = true) :
    writeSection name opts (delim pad) allow =
      (sectionLines pad name opts.entries).flatMap (· ++ ['\n']) := by
  have ho : opts.entries.flatMap (writeOption (delim pad) allow) =
      (opts.entries.flatMap (optionLines pad)).flatMap (· ++ ['\n']) := by
    rw [flatMap_assoc]
    exact flatMap_congr fun e he => writeOption_eq (h e he)
  simp [writeSection, sectionLines, ho]

theorem notMem_optionLines (h : '\n' ∉ e.1) (hl : l ∈ optionLines pad e) : '\n' ∉ l := by
  obtain ⟨key, value⟩ := e
  cases value with
  | none => rwa [mem_singleton.1 hl]
  | some v =>
    have hv : ∀ m ∈ firstLine v :: restLines v, '\n' ∉ m := fun m hm =>
      Lines.notMem_of_mem_splitOn ((splitOn_eq v) ▸ hm)
    rw [forall_mem_cons] at hv
    rcases mem_cons.1 hl with rfl | hl
    · have hd : '\n' ∉ delim pad := by cases pad <;> decide
      simp only [mem_append, not_or]
      exact ⟨⟨h, hd⟩, hv.1⟩
    · obtain ⟨m, hm, rfl⟩ := mem_map.1 hl
      simpa using hv.2 m hm

theorem notMem_sectionLines {entries : Entries} (hn : '\n' ∉ name)
    (h : ∀ e ∈ entries, '\n' ∉ e.1) (hl : l ∈ sectionLines pad name entries) : '\n' ∉ l := by
  simp only [sectionLines, cons_append, mem_cons, mem_append, mem_flatMap,
    not_mem_nil, or_false] at hl
  rcases hl with rfl | ⟨e, he, hl⟩ | rfl
  · simpa using hn
  · exact notMem_optionLines (h e he) hl
  · exact not_mem_nil

end TruenasRos.Config
