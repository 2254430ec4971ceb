import TruenasRos.Error
import TruenasRos.Lib.Lines
import TruenasRos.Lib.Ordered

/-! # Configuration files

The store of an INI file: the options of DEFAULT and of each section, in the order in
which they came in, with the calls that change it. A call refuses a section or option
name that would not be read back as itself.
-/

namespace TruenasRos.Config

open List

/-- The text of a `str`, letter by letter. -/
abbrev Text := List Char

instance : LawfulBEq Text := inferInstance

/-- The letter tables of the standard library that the store relies on. Lowercasing a
lowercased text changes nothing. -/
structure Unicode where
  to_lowercase : Text → Text
  lowercase_idem : ∀ s, to_lowercase (to_lowercase s) = to_lowercase s
  /-- A text as an error message quotes it. -/
  debug : Text → String

def DEFAULT_SECTION : Text := "DEFAULT".toList

inductive Interp
  | none
  | basic
  deriving DecidableEq

abbrev Options := Ordered Text (Option Text)

abbrev Entries := List (Text × Option Text)

structure ConfigFile where
  defaults : Options
  sections : Ordered Text Options
  interp : Interp
  allow_no_value : Bool
  scrub : Bool

def isWhitespace (c : Char) : Bool :=
  let n := c.toNat
  (0x9 ≤ n && n ≤ 0xd) || n == 0x20 || n == 0x85 || n == 0xa0 || n == 0x1680 ||
    (0x2000 ≤ n && n ≤ 0x200a) || n == 0x2028 || n == 0x2029 || n == 0x202f || n == 0x205f ||
    n == 0x3000

def isPySpace (c : Char) : Bool := isWhitespace c || (0x1c ≤ c.toNat && c.toNat ≤ 0x1f)

def pyStrip (s : Text) : Text := Lines.trim isPySpace s

def pyRstrip (s : Text) : Text := Lines.trimEnd isPySpace s

@[simp] theorem isPySpace_nl : isPySpace '\n' = true := rfl
@[simp] theorem isPySpace_tab : isPySpace '\t' = true := rfl
@[simp] theorem isPySpace_blank : isPySpace ' ' = true := rfl
@[simp] theorem isPySpace_equals : isPySpace '=' = false := rfl
@[simp] theorem isPySpace_open : isPySpace '[' = false := rfl
@[simp] theorem isPySpace_close : isPySpace ']' = false := rfl

def startsWith (s : Text) (p : Char → Bool) : Bool := s.head?.any p

def endsWith (s : Text) (p : Char → Bool) : Bool := s.getLast?.any p

/-- Why `key` would not be read back as the name it was given. -/
def keyFault (key : Text) : Option String :=
  if key.isEmpty then some "is empty"
  else if key.any fun c => c == '\n' || c == '\r' then some "contains a line break"
  else if key.any fun c => c == '=' || c == ':' then some "contains a key/value delimiter"
  else if startsWith key isPySpace || endsWith key isPySpace then
    some "is surrounded by whitespace"
  else if startsWith key (· == '[') then some "would be read back as a section header"
  else if startsWith key (· == '#') || startsWith key (· == ';') then
    some "would be read back as a comment"
  else none

/-- Why the header of `name` would not be read back as this section. -/
def sectionFault (name : Text) : Option String :=
  if name.isEmpty then some "is empty"
  else if name.any fun c => c == '\n' || c == '\r' then some "contains a line break"
  else none

/-- A name the reader takes for an option. -/
structure IsKey (key : Text) : Prop where
  line : '\n' ∉ key ∧ '\r' ∉ key
  plain : '=' ∉ key ∧ ':' ∉ key
  head : ∃ c s, key = c :: s ∧ isPySpace c = false ∧ c ≠ '[' ∧ c ≠ '#' ∧ c ≠ ';'
  last : ∃ s c, key = s ++ [c] ∧ isPySpace c = false

theorem isKey_of_keyFault {key : Text} (h : keyFault key = none) : IsKey key := by
  unfold keyFault at h
  split_ifs at h with he hl hd hs hh hc
  have hne : key ≠ [] := by simpa using he
  obtain ⟨c, s, rfl⟩ := exists_cons_of_ne_nil hne
  refine ⟨?_, ?_, ⟨c, s, rfl, ?_, ?_, ?_⟩, ?_⟩
  · constructor <;> intro hn <;> exact hl (any_eq_true.2 ⟨_, hn, rfl⟩)
  · constructor <;> intro hn <;> exact hd (any_eq_true.2 ⟨_, hn, rfl⟩)
  · rw [Bool.or_eq_true, not_or] at hs
    simpa [startsWith] using hs.1
  · simpa [startsWith] using hh
  · simpa [startsWith] using hc
  · refine ⟨(c :: s).dropLast, (c :: s).getLast hne, (dropLast_append_getLast hne).symm, ?_⟩
    rw [Bool.or_eq_true, not_or] at hs
    simpa [endsWith, getLast?_eq_some_getLast hne] using hs.2

/-- A name the reader takes for a section. -/
structure IsSection (name : Text) : Prop where
  line : '\n' ∉ name ∧ '\r' ∉ name
  ne_nil : name ≠ []
  ne_default : name ≠ DEFAULT_SECTION

theorem isSection_of_sectionFault {name : Text} (h : sectionFault name = none)
    (hd : name ≠ DEFAULT_SECTION) : IsSection name := by
  unfold sectionFault at h
  split_ifs at h with he hl
  refine ⟨?_, by simpa using he, hd⟩
  constructor <;> intro hn <;> exact hl (any_eq_true.2 ⟨_, hn, rfl⟩)

def dropEscapes : Text → Text
  | '%' :: '%' :: s => dropEscapes s
  | c :: s => c :: dropEscapes s
  | [] => []

def keyRef (s : Text) : Option (Text × Text) :=
  let name := (s.drop 2).takeWhile (· ≠ ')')
  match (s.drop 2).dropWhile (· ≠ ')') with
  | ')' :: 's' :: rest => if name.isEmpty then none else some (name, rest)
  | _ => none

theorem length_keyRef {s name rest : Text} (h : keyRef s = some (name, rest)) :
    rest.length < s.length := by
  unfold keyRef at h
  dsimp only at h
  split at h
  · next t ht =>
    split_ifs at h
    obtain ⟨-, rfl⟩ := Prod.mk.inj (Option.some.inj h)
    have hlen := congrArg length ht
    have hle := ((s.drop 2).dropWhile_suffix (· ≠ ')')).length_le
    simp only [length_cons, length_drop] at hlen hle
    omega
  · cases h

/-- Every percent sign of `rest` opens a reference. -/
def onlyRefs (rest : Text) : Bool :=
  match _ : rest.dropWhile (· ≠ '%') with
  | [] => true
  | '%' :: '(' :: s =>
    match _ : keyRef ('%' :: '(' :: s) with
    | some (_, rest') => onlyRefs rest'
    | none => false
  | _ :: _ => false
termination_by rest.length
decreasing_by
  have hrest := length_keyRef ‹_›
  have hle := (rest.dropWhile_suffix (· ≠ '%')).length_le
  simp_all only [length_cons]
  omega

def validateSet (u : Unicode) (value : Text) (scrub : Bool) : Except Error Unit :=
  if onlyRefs (dropEscapes value) then .ok ()
  else
    let quoted := u.debug value
    .error (.validation (if scrub then "invalid interpolation syntax"
      else s!"invalid interpolation syntax in {quoted}"))

def optionxform (u : Unicode) (option : Text) : Text := u.to_lowercase option

namespace ConfigFile

variable (u : Unicode)

section

variable (cfg : ConfigFile)

def addSection (name : Text) : Except Error ConfigFile :=
  let quoted := u.debug name
  match sectionFault name with
  | some why => .error (.validation s!"section name {quoted} {why}")
  | none =>
    if name = DEFAULT_SECTION then .error (.validation s!"invalid section name: {quoted}")
    else if cfg.sections.contains name then
      .error (.validation s!"section already exists: {quoted}")
    else .ok { cfg with sections := cfg.sections.insert name .empty }

def withSlot (name : Text) (f : Options → Options) : Except Error ConfigFile :=
  if name = DEFAULT_SECTION then .ok { cfg with defaults := f cfg.defaults }
  else
    match cfg.sections.get name with
    | some opts => .ok { cfg with sections := cfg.sections.insert name (f opts) }
    | none =>
      let quoted := u.debug name
      .error (.validation s!"no such section: {quoted}")

/-- Only an interpolating configuration looks at the value. -/
def checkValue : Option Text → Except Error Unit
  | some v => if cfg.interp = .basic then validateSet u v cfg.scrub else .ok ()
  | none => .ok ()

def set (name option : Text) (value : Option Text) : Except Error ConfigFile :=
  let key := optionxform u option
  match keyFault key with
  | some why =>
    let quoted := u.debug option
    .error (.validation s!"option name {quoted} {why}")
  | none => do
    cfg.checkValue u value
    cfg.withSlot u name fun opts => opts.insert key value

def removeSection (name : Text) : ConfigFile × Bool :=
  ({ cfg with sections := cfg.sections.remove name }, cfg.sections.contains name)

def removeOption (name option : Text) : Except Error (ConfigFile × Bool) := do
  let key := optionxform u option
  let cfg' ← cfg.withSlot u name fun opts => opts.remove key
  let slot := if name = DEFAULT_SECTION then cfg.defaults else (cfg.sections.get name).getD .empty
  .ok (cfg', slot.contains key)

end

end ConfigFile

/-- A call that changes the store. -/
inductive Call
  | addSection (name : Text)
  | set (name option : Text) (value : Option Text)
  | removeOption (name option : Text)
  | removeSection (name : Text)

def Call.apply (u : Unicode) (cfg : ConfigFile) : Call → Except Error ConfigFile
  | .addSection name => cfg.addSection u name
  | .set name option value => cfg.set u name option value
  | .removeOption name option => Prod.fst <$> cfg.removeOption u name option
  | .removeSection name => .ok (cfg.removeSection name).1

/-- A value is left out only where the store allows it. -/
def Call.Valued (allow_no_value : Bool) : Call → Prop
  | .set _ _ value => value = none → allow_no_value = true
  | _ => True

theorem Call.valued_true (call : Call) : call.Valued true := by
  cases call with
  | set name option value => exact fun _ => rfl
  | addSection | removeOption | removeSection => trivial

def applyAll (u : Unicode) (cfg : ConfigFile) (calls : List Call) : Except Error ConfigFile :=
  calls.foldlM (Call.apply u) cfg

/-- Every option has a name the reader takes, in its lowercased form. -/
def ScreenedOptions (u : Unicode) (allow_no_value : Bool) (opts : Options) : Prop :=
  ∀ e ∈ opts.entries, IsKey e.1 ∧ u.to_lowercase e.1 = e.1 ∧ (e.2 = none → allow_no_value = true)

/-- Values are left out only if `bare`, whatever the store allows. -/
structure Screened (u : Unicode) (bare allow : Bool) (cfg : ConfigFile) : Prop where
  allow_no_value : cfg.allow_no_value = allow
  defaults : ScreenedOptions u bare cfg.defaults
  sections : ∀ e ∈ cfg.sections.entries, IsSection e.1 ∧ ScreenedOptions u bare e.2

variable {u : Unicode} {cfg cfg' : ConfigFile} {name option : Text} {value : Option Text}
  {bare allow : Bool}

theorem ScreenedOptions.empty : ScreenedOptions u bare .empty :=
  fun _ he => absurd he not_mem_nil

theorem Screened.fresh (interp : Interp) (allow scrub : Bool) :
    Screened u bare allow ⟨.empty, .empty, interp, allow, scrub⟩ :=
  ⟨rfl, .empty, fun _ he => absurd he not_mem_nil⟩

section

variable (h : Screened u bare allow cfg)
include h

theorem Screened.addSection (ha : cfg.addSection u name = .ok cfg') :
    Screened u bare allow cfg' := by
  unfold ConfigFile.addSection at ha
  split at ha
  · cases ha
  · next hf =>
    split_ifs at ha with hd hc
    cases ha
    refine ⟨h.allow_no_value, h.defaults, fun e he => ?_⟩
    rcases Ordered.mem_insert he with rfl | he
    · exact ⟨isSection_of_sectionFault hf hd, .empty⟩
    · exact h.sections e he

theorem Screened.withSlot {f : Options → Options}
    (hf : ∀ opts, ScreenedOptions u bare opts → ScreenedOptions u bare (f opts))
    (hs : cfg.withSlot u name f = .ok cfg') :
    Screened u bare allow cfg' := by
  unfold ConfigFile.withSlot at hs
  split_ifs at hs with hn
  · cases hs
    exact ⟨h.allow_no_value, hf _ h.defaults, h.sections⟩
  · split at hs
    · next opts hg =>
      cases hs
      have hmem := Ordered.mem_of_get hg
      refine ⟨h.allow_no_value, h.defaults, fun e he => ?_⟩
      rcases Ordered.mem_insert he with rfl | he
      · exact ⟨(h.sections _ hmem).1, hf _ (h.sections _ hmem).2⟩
      · exact h.sections e he
    · cases hs

theorem Screened.set (hv : value = none → bare = true)
    (hs : cfg.set u name option value = .ok cfg') :
    Screened u bare allow cfg' := by
  unfold ConfigFile.set at hs
  dsimp only at hs
  split at hs
  · cases hs
  · next hk =>
    obtain ⟨-, -, hslo⟩ := bind_eq_ok_iff.1 hs
    refine h.withSlot (fun opts ho e he => ?_) hslo
    rcases Ordered.mem_insert he with rfl | he
    · exact ⟨isKey_of_keyFault hk, u.lowercase_idem option, hv⟩
    · exact ho e he

theorem Screened.removeOption {found : Bool}
    (hr : cfg.removeOption u name option = .ok (cfg', found)) :
    Screened u bare allow cfg' := by
  obtain ⟨cfg₁, hs, ho⟩ := bind_eq_ok_iff.1 hr
  cases ho
  exact h.withSlot (fun opts hop e he => hop e (mem_of_mem_filter he)) hs

theorem Screened.apply {call : Call} (hv : call.Valued bare)
    (hc : call.apply u cfg = .ok cfg') :
    Screened u bare allow cfg' := by
  cases call with
  | addSection name => exact h.addSection hc
  | set name option value => exact h.set hv hc
  | removeOption name option =>
    simp only [Call.apply] at hc
    cases hr : cfg.removeOption u name option with
    | error e => rw [hr] at hc; cases hc
    | ok r =>
      rw [hr] at hc
      cases hc
      exact h.removeOption hr
  | removeSection name =>
    cases hc
    exact ⟨h.allow_no_value, h.defaults, fun e he => h.sections e (mem_of_mem_filter he)⟩

theorem Screened.applyAll {calls : List Call} (hv : ∀ call ∈ calls, call.Valued bare)
    (hc : applyAll u cfg calls = .ok cfg') :
    Screened u bare allow cfg' := by
  induction calls generalizing cfg with
  | nil =>
    cases hc
    exact h
  | cons call calls ih =>
    obtain ⟨cfg₁, hcl, hr⟩ := bind_eq_ok_iff.1 hc
    rw [forall_mem_cons] at hv
    exact ih (h.apply hv.1 hcl) hv.2 hr

end

end TruenasRos.Config
