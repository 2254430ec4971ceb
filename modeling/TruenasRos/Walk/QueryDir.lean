import TruenasRos.Error
import TruenasRos.Lib.Lexicographic
import Mathlib.Data.List.Sort

/-! # Ordered directory listings

One level of a subtree walk: the directory is read whole, its entries are sorted
by the key they contribute to a full path, everything up to a resume key is
dropped, and the rest is handed out in clumps. Enrichment is modelled as far as
it decides which entries are handed out.
-/

namespace TruenasRos.Walk

open List

abbrev Name := Bytes

def SLASH : UInt8 := 0x2F

def DOT : Name := [0x2E]

def DOT_DOT : Name := [0x2E, 0x2E]

inductive Defect
  | empty
  | dot
  | dotDot
  | separator
  | nul
  deriving DecidableEq

def componentDefect (name : Name) : Option Defect :=
  if name = [] then some .empty
  else if name = DOT then some .dot
  else if name = DOT_DOT then some .dotDot
  else if SLASH ∈ name then some .separator
  else if 0 ∈ name then some .nul
  else none

theorem componentDefect_eq_none_iff {name : Name} : componentDefect name = none ↔
      name ≠ [] ∧ name ≠ DOT ∧ name ≠ DOT_DOT ∧ SLASH ∉ name ∧ 0 ∉ name := by
  unfold componentDefect
  split_ifs <;> simp_all

inductive DType
  | unknown
  | dir
  | reg
  | other
  deriving DecidableEq

structure Stat where
  is_dir : Bool
  dev : ℕ
  deriving DecidableEq

/-- One `readdir` record, together with the answer a `statx` of it gets. -/
structure Dirent where
  name : Name
  dtype : DType
  statx : Except Errno Stat

def Dirent.isDir (d : Dirent) : Bool := d.dtype == .dir

/-- An open directory: its device, when known, and its `readdir` stream. -/
structure Directory where
  dev : Option ℕ
  stream : List Dirent

/-- The bytes an entry contributes to a full path. -/
def sortKey (name : Name) (is_dir : Bool) : Bytes :=
  if is_dir then name ++ [SLASH] else name

def pathByte (s : Name) (i : ℕ) : UInt8 := if h : i < s.length then s[i] else SLASH

/-- The comparison loop at index `i`, with `n` indices to go. -/
def cmpBytesFrom (a b : Name) (la lb : ℕ) : ℕ → ℕ → Ordering
  | _, 0 => compare la lb
  | i, n + 1 =>
    match compare (pathByte a i) (pathByte b i) with
    | .eq => cmpBytesFrom a b la lb (i + 1) n
    | other => other

def cmpPathBytes (a : Name) (a_dir : Bool) (b : Name) (b_dir : Bool) : Ordering :=
  let la := a.length + a_dir.toNat
  let lb := b.length + b_dir.toNat
  cmpBytesFrom a b la lb 0 (min la lb)

theorem length_sortKey (a : Name) (d : Bool) : (sortKey a d).length = a.length + d.toNat := by
  cases d <;> simp [sortKey]

theorem drop_sortKey {a : Name} {d : Bool} {i : ℕ} (h : i < a.length + d.toNat) :
    (sortKey a d).drop i = pathByte a i :: (sortKey a d).drop (i + 1) := by
  have hi : i < (sortKey a d).length := length_sortKey a d ▸ h
  rw [drop_eq_getElem_cons hi]
  congr 1
  unfold pathByte
  cases d with
  | false => simp_all [sortKey]
  | true =>
    split
    · simp [sortKey, *]
    · have : i = a.length := by simp at h; omega
      simp [sortKey, this]

theorem cmpBytesFrom_eq {a b : Name} {ad bd : Bool} {i n : ℕ}
    (h : i + n = min (a.length + ad.toNat) (b.length + bd.toNat)) :
    cmpBytesFrom a b (a.length + ad.toNat) (b.length + bd.toNat) i n =
      compare ((sortKey a ad).drop i) ((sortKey b bd).drop i) := by
  -- One of the two keys ends exactly where the loop does.
  induction n generalizing i with
  | zero =>
    have ha := length_sortKey a ad
    have hb := length_sortKey b bd
    rw [cmpBytesFrom]
    rcases lt_trichotomy (a.length + ad.toNat) (b.length + bd.toNat) with hl | hl | hl
    · have hnil : (sortKey a ad).drop i = [] := List.drop_eq_nil_of_le (by omega)
      rw [hnil, drop_sortKey (by omega), Nat.compare_eq_lt.2 hl]
      rfl
    · have hnil : (sortKey a ad).drop i = [] := List.drop_eq_nil_of_le (by omega)
      have hn' : (sortKey b bd).drop i = [] := List.drop_eq_nil_of_le (by omega)
      rw [hnil, hn', Nat.compare_eq_eq.2 hl]
      rfl
    · have hnil : (sortKey b bd).drop i = [] := List.drop_eq_nil_of_le (by omega)
      rw [hnil, drop_sortKey (by omega), Nat.compare_eq_gt.2 hl]
      rfl
  | succ n ih =>
    have ha : i < a.length + ad.toNat := by omega
    have hb : i < b.length + bd.toNat := by omega
    rw [cmpBytesFrom, drop_sortKey ha, drop_sortKey hb, List.compare_cons_cons, ih (by omega)]
    cases compare (pathByte a i) (pathByte b i) <;> rfl

/-- The index loop compares the two keys as byte strings. -/
theorem cmpPathBytes_eq (a : Name) (ad : Bool) (b : Name) (bd : Bool) :
    cmpPathBytes a ad b bd = compare (sortKey a ad) (sortKey b bd) :=
  cmpBytesFrom_eq (i := 0) (by omega)

/-- The listing options that decide which entries are handed out; `spec_statx` is
whether the enrichment asks for `STATX`. -/
structure QueryOptions where
  clump : ℕ
  spec_statx : Bool
  same_device_only : Bool
  name_prefix : Option Name
  start_after : Option Bytes

structure DirEntry where
  name : Name
  is_dir : Bool
  deriving DecidableEq

/-- `sorted` is filled by the first `next` and drained a clump at a time. -/
structure QueryDir where
  dir : Directory
  opts : QueryOptions
  sorted : Option (List Dirent)
  fatal : Bool

def ECONNABORTED : Errno := .other 103

/-- What an unanswered `statx` does to the listing; `none` swallows the entry. -/
def unresolvedStatxVerdict : Option Errno → Option Errno
  | some .EACCES => none
  | some .EPERM => none
  | some .ENOENT => none
  | some e => some e
  | none => some ECONNABORTED

variable (dir : Directory) (opts : QueryOptions)

def keeps (d : Dirent) : Bool :=
  d.name != DOT && d.name != DOT_DOT &&
    match opts.name_prefix with
    | none => true
    | some p => p.isPrefixOf d.name

/-- `read_clump` without a limit: the ordered modes read the stream to its end. -/
def readClump (stream : List Dirent) : List Dirent :=
  stream.filter (keeps opts)

def resolveUnknownDtype (d : Dirent) : Except Error Dirent :=
  if d.dtype ≠ .unknown then .ok d
  else if (componentDefect d.name).isSome then .ok d
  else
    match d.statx with
    | .ok st => .ok { d with dtype := if st.is_dir then .dir else .reg }
    | .error err =>
      match unresolvedStatxVerdict (some err) with
      | some e => .error (.errno e)
      | none => .ok d

def resolveUnknownDtypes (all : List Dirent) : Except Error (List Dirent) :=
  all.mapM resolveUnknownDtype

def byPathBytes (a b : Dirent) : Prop :=
  (cmpPathBytes a.name a.isDir b.name b.isDir).isLE = true

instance : DecidableRel byPathBytes := fun _ _ => inferInstanceAs (Decidable (_ = _))

/-- Drop the leading entries that do not sort after the literal key `after`. -/
def cutAfter (after : Option Bytes) (all : List Dirent) : List Dirent :=
  match after with
  | none => all
  | some after => all.dropWhile fun d => (cmpPathBytes d.name d.isDir after false).isLE

def readAllSorted : Except Error (List Dirent) := do
  let all ← resolveUnknownDtypes (readClump opts dir.stream)
  return cutAfter opts.start_after (all.insertionSort byPathBytes)

variable (q : QueryDir)

def QueryDir.queue (q : QueryDir) : Except Error (List Dirent) :=
  match q.sorted with
  | some queue => .ok queue
  | none => readAllSorted q.dir q.opts

def QueryDir.nextNames : Except Error (List Dirent × QueryDir) := do
  let queue ← q.queue
  return (queue.take q.opts.clump, { q with sorted := some (queue.drop q.opts.clump) })

def crossDev (dir_dev : Option ℕ) (st : Stat) : Bool :=
  match dir_dev with
  | some dev => st.dev != dev
  | none => false

/-- One entry of a clump: yielded, dropped by the one-filesystem confinement, or
refused because its device could not be judged. -/
def enrichOne (d : Dirent) : Except Errno (Option DirEntry) :=
  let entry : DirEntry := ⟨d.name, d.isDir⟩
  if opts.same_device_only && opts.spec_statx then
    match (if (componentDefect d.name).isSome then .error none else d.statx.mapError some) with
    | .ok st => .ok (if crossDev dir.dev st then none else some entry)
    | .error err =>
      match unresolvedStatxVerdict err with
      | some e => .error e
      | none => .ok none
  else .ok (some entry)

def enrich (names : List Dirent) : Except Error (List DirEntry) :=
  match names.mapM (enrichOne dir opts) with
  | .ok entries => .ok (entries.filterMap id)
  | .error e => .error (.errno e)

def QueryDir.next : Option (Except Error (List DirEntry)) × QueryDir :=
  if q.fatal then (none, q)
  else
    match q.nextNames with
    | .ok ([], q') => (none, q')
    | .ok (names, q') =>
      match enrich q.dir q.opts names with
      | .ok batch => (some (.ok batch), q')
      | .error e => (some (.error e), { q' with fatal := true })
    | .error e => (some (.error e), { q with fatal := true })

def queryDirectory : QueryDir where
  dir := dir
  opts := { opts with clump := max opts.clump 1 }
  sorted := none
  fatal := false

/-- A bound on the names still to come. -/
def QueryDir.left : ℕ :=
  match q.sorted with
  | some queue => queue.length
  | none => q.dir.stream.length

theorem length_cutAfter_le (after : Option Bytes) (all : List Dirent) :
    (cutAfter after all).length ≤ all.length := by
  cases after with
  | none => exact le_rfl
  | some after => exact (dropWhile_suffix _).length_le

theorem length_readAllSorted_le {dir : Directory} {opts : QueryOptions} {queue : List Dirent}
    (h : readAllSorted dir opts = .ok queue) : queue.length ≤ dir.stream.length := by
  obtain ⟨all, hall, hq⟩ := bind_eq_ok_iff.1 h
  cases hq
  calc (cutAfter opts.start_after (all.insertionSort byPathBytes)).length
      ≤ (all.insertionSort byPathBytes).length := length_cutAfter_le _ _
    _ = all.length := length_insertionSort _ _
    _ = (readClump opts dir.stream).length := (mapM_eq_ok_iff.1 hall).length_eq.symm
    _ ≤ dir.stream.length := length_filter_le _ _

theorem QueryDir.length_queue_le {q : QueryDir} {queue : List Dirent} (h : q.queue = .ok queue) :
    queue.length ≤ q.left := by
  unfold QueryDir.queue at h
  unfold QueryDir.left
  cases hs : q.sorted with
  | some s =>
    simp only [hs] at h ⊢
    cases h
    exact le_rfl
  | none =>
    simp only [hs] at h ⊢
    exact length_readAllSorted_le h

theorem QueryDir.left_next_lt {q q' : QueryDir} {batch : List DirEntry}
    (h : q.next = (some (.ok batch), q')) : q'.left < q.left := by
  unfold QueryDir.next at h
  split at h
  · simp at h
  · split at h
    · simp at h
    · rename_i names q'' hne hn
      split at h
      · cases h
        obtain ⟨queue, hq, ho⟩ := bind_eq_ok_iff.1 hn
        cases ho
        have hlen := length_queue_le hq
        have : 0 < (queue.take q.opts.clump).length := length_pos_iff.2 hne
        rw [length_take] at this
        calc (queue.drop q.opts.clump).length
            = queue.length - q.opts.clump := length_drop
          _ < q.left := by omega
      · simp at h
    · simp at h

end TruenasRos.Walk
