import TruenasRos.Walk.Cursor

/-! # The subtree walk

A depth-first walk over a stack of open levels, each an ordered listing. The
directory just yielded is entered by the following call, so that the caller can
prune it first, and a resumed walk rebuilds its stack from a cursor.
-/

namespace TruenasRos.Walk

/-- A directory is named by the components that lead to it, innermost first. -/
abbrev Anchor := List Name

/-- A tree that does not change: what opening each of its directories gives. -/
abbrev Tree := Anchor → Except Errno Directory

def MAX_DEPTH : ℕ := 2048

structure TreeEntry where
  parent : Bytes
  entry : DirEntry
  deriving DecidableEq

def TreeEntry.path (e : TreeEntry) : Bytes :=
  if e.parent = [] then e.entry.name else e.parent ++ SLASH :: e.entry.name

def TreeEntry.key (e : TreeEntry) : Bytes :=
  if e.entry.is_dir then e.path ++ [SLASH] else e.path

structure TreeOptions where
  entries : QueryOptions
  max_depth : ℕ
  resume : Option TreeCursor

structure Frame where
  path : Bytes
  anchor : Anchor
  dir : QueryDir
  buf : List DirEntry

/-- The innermost level is the head of `stack`. -/
structure QueryTree where
  opts : TreeOptions
  stack : List Frame
  pending : Option Bytes
  last_key : Bytes
  skip_subtree : Bool
  fatal : Bool

def isSubtreeSkip : Error → Bool
  | .errno .EACCES => true
  | .errno .EPERM => true
  | .errno .ENOENT => true
  | _ => false

def openFrame (t : Tree) (parent : Anchor) (name : Name) (path : Bytes)
    (opts : QueryOptions) (start_after : Option Bytes) : Except Error Frame :=
  match t (name :: parent) with
  | .ok dir =>
    .ok ⟨path, name :: parent, queryDirectory dir { opts with start_after := start_after }, []⟩
  | .error e => .error (.errno e)

/-- The options of every level but the root: the name filter is the root's own. -/
def QueryOptions.below (opts : QueryOptions) : QueryOptions := { opts with name_prefix := none }

def leafName (path : Bytes) : Name := (path.reverse.takeWhile (· != SLASH)).reverse

namespace QueryTree

variable (q : QueryTree)

def skipDescent : QueryTree :=
  { q with pending := none, skip_subtree := q.skip_subtree || q.pending.isSome }

def cursor : TreeCursor := ⟨q.last_key, q.skip_subtree⟩

def descend (t : Tree) (q : QueryTree) (path : Bytes) : Except Error QueryTree :=
  match q.stack with
  | [] => .ok q
  | top :: _ =>
    if leafName path = [] then .ok q
    else
      match openFrame t top.anchor (leafName path) path q.opts.entries.below none with
      | .ok frame => .ok { q with stack := frame :: q.stack }
      | .error e => if isSubtreeSkip e then .ok q else .error e

def yield (frame : Frame) (entry : DirEntry) (buf : List DirEntry)
    (rest : List Frame) : Except Error TreeEntry × QueryTree :=
  let out : TreeEntry := ⟨frame.path, entry⟩
  let stack := { frame with buf := buf } :: rest
  (.ok out,
    { q with
      stack := stack
      last_key := out.key
      skip_subtree := false
      pending := if entry.is_dir && stack.length < q.opts.max_depth then some out.path else none })

/-- The loop of `next`, once no descent is pending: ascend out of exhausted levels
and refill the top one until an entry can be handed out. -/
def pull (q : QueryTree) : List Frame → Option (Except Error TreeEntry) × QueryTree
  | [] => (none, { q with stack := [] })
  | frame :: rest =>
    match frame.buf with
    | entry :: buf =>
      let (out, q') := q.yield frame entry buf rest
      (some out, q')
    | [] =>
      match _h : frame.dir.next with
      | (none, _) => pull q rest
      | (some (.ok batch), dir) => pull q ({ frame with dir := dir, buf := batch } :: rest)
      | (some (.error e), _) => (some (.error e), { q with stack := rest })
  termination_by stack => (stack.map fun f => f.dir.left + 1).sum
  decreasing_by
    · simp
    · have := QueryDir.left_next_lt _h
      simp only [List.map_cons, List.sum_cons]
      omega

def next (t : Tree) (q : QueryTree) : Option (Except Error TreeEntry) × QueryTree :=
  if q.fatal then (none, q)
  else
    match q.pending with
    | none => q.pull q.stack
    | some path =>
      let q := { q with pending := none }
      match q.descend t path with
      | .ok q => q.pull q.stack
      | .error e => (some (.error e), q)

end QueryTree

namespace TreeCursor

variable (c : TreeCursor)

def intoDir : Bool := c.namesDir && !c.skip_subtree

def descendTo (max_depth : ℕ) : ℕ :=
  min (if c.intoDir then c.components.length else c.components.length - 1) (max_depth - 1)

/-- What the level at `depth` skips past: the directory it descends through, or,
at the deepest level, the entry the cursor names. -/
def cutFor (max_depth depth : ℕ) : Option Bytes :=
  match c.components[depth]? with
  | none => none
  | some comp =>
    if depth < c.descendTo max_depth then some (comp ++ [SLASH])
    else if c.intoDir || c.skip_subtree || depth + 1 < c.components.length then
      some (comp ++ [SLASH])
    else some comp

end TreeCursor

/-- Reopen the chain of directories `comps` below `top`, the level at `depth`. -/
def rebuild (t : Tree) (opts : QueryOptions) (cut_for : ℕ → Option Bytes) :
    ℕ → List Name → Frame → List Frame → Except Error (List Frame)
  | _, [], top, below => .ok (top :: below)
  | depth, comp :: comps, top, below =>
    let path := if top.path = [] then comp else top.path ++ SLASH :: comp
    match openFrame t top.anchor comp path opts.below (cut_for (depth + 1)) with
    | .ok frame => rebuild t opts cut_for (depth + 1) comps frame (top :: below)
    | .error e =>
      if isSubtreeSkip e then .ok (top :: below) else .error (.iteratorRestore depth path)

def queryTree (t : Tree) (opts : TreeOptions) : Except Error QueryTree :=
  let max_depth := opts.max_depth
  if max_depth = 0 ∨ MAX_DEPTH < max_depth then
    .error (.validation s!"query_tree: max_depth must be 1..={MAX_DEPTH}, got {max_depth}")
  else
    let cursor := opts.resume.getD default
    let cut_for := cursor.cutFor max_depth
    match t [] with
    | .error e => .error (.errno e)
    | .ok dir => do
      let root : Frame :=
        ⟨[], [], queryDirectory dir { opts.entries with start_after := cut_for 0 }, []⟩
      let stack ← rebuild t opts.entries cut_for 0
        (cursor.components.take (cursor.descendTo max_depth)) root []
      return {
        opts := opts
        stack := stack
        pending := none
        last_key := cursor.key
        skip_subtree := cursor.skip_subtree
        fatal := false }

inductive Call
  | next
  | skipDescent
  deriving DecidableEq

namespace QueryTree

/-- One call by the owner of the walk, and what it answers if it is a `next`. -/
def call (t : Tree) (q : QueryTree) : Call → Option (Option (Except Error TreeEntry)) × QueryTree
  | .next =>
    let (out, q') := q.next t
    (some out, q')
  | .skipDescent => (none, q.skipDescent)

def answers (t : Tree) : QueryTree → List Call → List (Option (Except Error TreeEntry))
  | _, [] => []
  | q, c :: cs => (q.call t c).1.toList ++ answers t (q.call t c).2 cs

def after (t : Tree) : QueryTree → List Call → QueryTree
  | q, [] => q
  | q, c :: cs => after t (q.call t c).2 cs

theorem answers_append (t : Tree) (q : QueryTree) (cs ds : List Call) :
    q.answers t (cs ++ ds) = q.answers t cs ++ (q.after t cs).answers t ds := by
  induction cs generalizing q with
  | nil => rfl
  | cons c cs ih => rw [List.cons_append, answers, answers, ih, List.append_assoc, after]

end QueryTree

end TruenasRos.Walk
