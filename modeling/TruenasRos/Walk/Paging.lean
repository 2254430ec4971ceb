import TruenasRos.Walk.Resume

/-! # Walks in pages

Along every run the cursor accounts for what the walk still owes, so a walk that is
stopped at any point and resumed from its cursor answers as the first one would.
-/

namespace TruenasRos.Walk

variable {t : StaticTree} {opts : TreeOptions} {q : QueryTree} {dir : Directory}

namespace QueryTree

/-- The cursor accounts for what the walk owes, as it stands and with the pending
directory pruned. -/
structure Tracked (t : Tree) (opts : TreeOptions) (q : QueryTree) : Prop where
  sound : q.Sound
  same_opts : q.opts = opts
  depth : 0 < opts.max_depth
  entered : q.entered t = resumeAgenda t opts q.cursor
  agenda : q.pending.isSome = true → q.agenda = resumeAgenda t opts ⟨q.last_key, true⟩

variable {q r : QueryTree}

theorem skipDescent_of_not_pending (h : q.pending = none) : q.skipDescent = q := by
  obtain ⟨opts, stack, pending, last_key, skip, fatal⟩ := q
  subst h
  simp [skipDescent]

theorem Sound.skipDescent (h : q.Sound) : q.skipDescent.Sound :=
  ⟨h.live, h.stacked, nofun⟩

theorem Sound.finished (h : q.Sound) : Sound { q with pending := none, stack := [] } :=
  ⟨h.live, trivial, nofun⟩

theorem tracked_of_started (h : Started t.read opts q) (hd : 0 < opts.max_depth) :
    Tracked t.read opts q where
  sound := h.sound
  same_opts := h.opts
  depth := hd
  entered := by rw [entered_of_not_pending h.pending, h.agenda, h.cursor]
  agenda hp := by rw [h.pending] at hp; exact nomatch hp

section

variable (h : Tracked t.read opts q)
include h

theorem Tracked.next : Tracked t.read opts (q.next t.read).2 := by
  cases he : q.entered t.read with
  | nil =>
    rw [h.sound.next_none he]
    refine ⟨h.sound.finished, h.same_opts, h.depth, ?_, nofun⟩
    exact he.symm.trans h.entered
  | cons n rest =>
    obtain ⟨q', hnx, ha, ho⟩ := h.sound.next_some he
    obtain ⟨hn, hr⟩ := resumeAgenda_cons h.depth (h.entered.symm.trans he)
    rw [h.same_opts] at ho
    rw [hnx]
    refine ⟨ha.sound, ho, h.depth, ?_, fun hp => ?_⟩
    · rw [ha.entered, cursor, ha.last_key, ha.skip_subtree, hn.resumeAgenda_key, hr, ho]
    · have hd : n.entry.is_dir = true := by
        rw [ha.pending, Node.enters, Bool.and_eq_true] at hp
        exact hp.1
      rw [ha.agenda, ha.last_key, hn.resumeAgenda_skip hd, hr]

theorem Tracked.skipDescent : Tracked t.read opts q.skipDescent := by
  cases hp : q.pending with
  | none => rwa [skipDescent_of_not_pending hp]
  | some path =>
    have hs : q.pending.isSome = true := by rw [hp]; rfl
    refine ⟨h.sound.skipDescent, h.same_opts, h.depth, ?_, nofun⟩
    have hc : q.skipDescent.cursor = ⟨q.last_key, true⟩ := by
      simp [cursor, QueryTree.skipDescent, hs]
    rw [entered_of_not_pending rfl, hc]
    exact h.agenda hs

theorem Tracked.call (c : Call) : Tracked t.read opts (q.call t.read c).2 := by
  cases c with
  | next => exact h.next
  | skipDescent => exact h.skipDescent

theorem Tracked.after (calls : List Call) : Tracked t.read opts (q.after t.read calls) := by
  induction calls generalizing q with
  | nil => exact h
  | cons c calls ih => exact ih (h.call c)

end

/-- Two walks with the same options and cursor that owe the same entries. -/
structure Rejoins (t : Tree) (q r : QueryTree) : Prop where
  left : q.Sound
  right : r.Sound
  opts : r.opts = { q.opts with resume := r.opts.resume }
  cursor : r.cursor = q.cursor
  entered : r.entered t = q.entered t

/-- They also owe the same entries once the pending directory is pruned. -/
structure Twin (t : Tree) (q r : QueryTree) : Prop extends Rejoins t q r where
  agenda : r.agenda = q.agenda
  pending : r.pending.isSome = q.pending.isSome

theorem Rejoins.next (h : Rejoins t.read q r) :
    (r.next t.read).1 = (q.next t.read).1 ∧ Twin t.read (q.next t.read).2 (r.next t.read).2 := by
  cases he : q.entered t.read with
  | nil =>
    rw [h.left.next_none he, h.right.next_none (h.entered.trans he)]
    exact ⟨rfl, ⟨h.left.finished, h.right.finished, h.opts, h.cursor, rfl⟩, rfl, rfl⟩
  | cons n rest =>
    obtain ⟨q', hq, hq', hqo⟩ := h.left.next_some he
    obtain ⟨r', hr, hr', hro⟩ := h.right.next_some (h.entered.trans he)
    rw [hq, hr]
    have ho : r'.opts = { q'.opts with resume := r'.opts.resume } := by
      rw [hro, hqo]
      exact h.opts
    refine ⟨rfl, ⟨hq'.sound, hr'.sound, ho, ?_, ?_⟩, ?_, ?_⟩
    · rw [QueryTree.cursor, QueryTree.cursor, hq'.last_key, hr'.last_key, hq'.skip_subtree,
        hr'.skip_subtree]
    · rw [hq'.entered, hr'.entered, ho]
      rfl
    · rw [hq'.agenda, hr'.agenda]
    · rw [hq'.pending, hr'.pending, ho]
      rfl

theorem Twin.skipDescent (h : Twin t.read q r) : Twin t.read q.skipDescent r.skipDescent where
  left := h.left.skipDescent
  right := h.right.skipDescent
  opts := h.opts
  cursor := by
    have hc := h.cursor
    simp only [QueryTree.cursor, TreeCursor.mk.injEq] at hc ⊢
    simp [QueryTree.skipDescent, hc.1, hc.2, h.pending]
  entered := by
    exact h.agenda
  agenda := h.agenda
  pending := rfl

theorem Twin.answers {q r : QueryTree} (h : Twin t.read q r) (calls : List Call) :
    r.answers t.read calls = q.answers t.read calls := by
  induction calls generalizing q r with
  | nil => rfl
  | cons c calls ih =>
    cases c with
    | next =>
      obtain ⟨ho, ht⟩ := h.toRejoins.next
      simp [QueryTree.answers, call, ho, ih ht]
    | skipDescent => exact ih h.skipDescent

theorem Twin.after (h : Twin t.read q r) (calls : List Call) :
    Twin t.read (q.after t.read calls) (r.after t.read calls) := by
  induction calls generalizing q r with
  | nil => exact h
  | cons c calls ih =>
    cases c with
    | next => exact ih h.toRejoins.next.2
    | skipDescent => exact ih h.skipDescent

theorem Rejoins.answers {q r : QueryTree} (h : Rejoins t.read q r) (calls : List Call) :
    r.answers t.read (.next :: calls) = q.answers t.read (.next :: calls) := by
  obtain ⟨ho, ht⟩ := h.next
  simp [QueryTree.answers, call, ho, ht.answers calls]

end QueryTree

open QueryTree

theorem rejoins_of_tracked (h : Tracked t.read opts q)
    (hd : opts.max_depth ≤ MAX_DEPTH) (hro : t.read [] = .ok dir) :
    ∃ r, queryTree t.read { opts with resume := some q.cursor } = .ok r ∧ Rejoins t.read q r := by
  have hv : ¬(opts.max_depth = 0 ∨ MAX_DEPTH < opts.max_depth) := by
    have := h.depth
    omega
  obtain ⟨r, hr, hs⟩ :=
    @queryTree_eq_ok t { opts with resume := some q.cursor } dir hro hv
  refine ⟨r, hr, h.sound, hs.sound, ?_, hs.cursor, ?_⟩
  · rw [hs.opts, h.same_opts]
  · rw [entered_of_not_pending hs.pending, hs.agenda, h.entered]
    rfl

/-- A walk may be left at any point, after any calls, and resumed from its cursor:
from the next `next` on, the resumed walk answers every call as the first one would. -/
theorem resumed_walk_answers_alike (t : StaticTree) (opts : TreeOptions) {q : QueryTree}
    (hstart : queryTree t.read opts = .ok q) (past future : List Call) :
    (∃ r, queryTree t.read { opts with resume := some (q.after t.read past).cursor } = .ok r ∧
        r.answers t.read (.next :: future) =
          (q.after t.read past).answers t.read (.next :: future)) ∧
      ((q.after t.read past).cursor.key.length < 2 ^ 32 →
        TreeCursor.fromBytes (q.after t.read past).cursor.toBytes =
          .ok (q.after t.read past).cursor) := by
  obtain ⟨⟨dir, hro⟩, hv⟩ := queryTree_ok_inv hstart
  have ht := (tracked_of_started (started_of_queryTree hstart) (by omega)).after past
  obtain ⟨r, hr, hre⟩ := rejoins_of_tracked ht (by omega) hro
  exact ⟨⟨r, hr, hre.answers future⟩, TreeCursor.fromBytes_toBytes⟩

/-- The answers of a walk made in pages: each page is a walk of its own, resumed
from the cursor the page before it ended on. -/
def pagedAnswers (t : Tree) (opts : TreeOptions) :
    TreeCursor → List (List Call) → Except Error (List (Option (Except Error TreeEntry)))
  | _, [] => .ok []
  | c, page :: pages => do
    let q ← queryTree t { opts with resume := some c }
    let rest ← pagedAnswers t opts (q.after t (.next :: page)).cursor pages
    return q.answers t (.next :: page) ++ rest

theorem pagedAnswers_eq (hd : opts.max_depth ≤ MAX_DEPTH)
    (hro : t.read [] = .ok dir) (h : Tracked t.read opts q) (pages : List (List Call)) :
    pagedAnswers t.read opts q.cursor pages =
      .ok (q.answers t.read (pages.flatMap (.next :: ·))) := by
  induction pages generalizing q with
  | nil => rfl
  | cons page pages ih =>
    obtain ⟨r, hr, hre⟩ := rejoins_of_tracked h hd hro
    have hc : (r.after t.read (.next :: page)).cursor =
        (q.after t.read (.next :: page)).cursor := (hre.next.2.after page).cursor
    refine bind_eq_ok_iff.2 ⟨r, hr, bind_eq_ok_iff.2 ⟨_, hc ▸ ih (h.after _), ?_⟩⟩
    rw [List.flatMap_cons, answers_append, hre.answers page]
    rfl

theorem resumed_walk_answers_alike_sample : queryTree sampleTree.read wholeTree = .ok sampleWalk ∧
      (∃ r, queryTree sampleTree.read
          { wholeTree with
            resume := some
              (sampleWalk.after sampleTree.read [.next, .next, .skipDescent]).cursor } = .ok r ∧
        r.answers sampleTree.read [.next] =
          (sampleWalk.after sampleTree.read [.next, .next, .skipDescent]).answers sampleTree.read
            [.next]) ∧
      TreeCursor.fromBytes
          (sampleWalk.after sampleTree.read [.next, .next, .skipDescent]).cursor.toBytes =
        .ok (sampleWalk.after sampleTree.read [.next, .next, .skipDescent]).cursor := by
  obtain ⟨hw, ht⟩ :=
    resumed_walk_answers_alike sampleTree wholeTree rfl [.next, .next, .skipDescent] []
  exact ⟨rfl, hw, ht (by decide +kernel)⟩

/-- Pruning the entry the cursor stands on has to come before the cursor: the
resumed walk has not yielded that entry, and enters it. -/
theorem skipDescent_after_resume_differs : queryTree sampleTree.read wholeTree = .ok sampleWalk ∧
      (sampleWalk.after sampleTree.read [.next, .next]).answers sampleTree.read
        [.skipDescent, .next] = [none] ∧
      ∃ r, queryTree sampleTree.read
          { wholeTree with
            resume := some (sampleWalk.after sampleTree.read [.next, .next]).cursor } = .ok r ∧
        r.answers sampleTree.read [.skipDescent, .next] =
          [some (.ok ⟨[0x61], ⟨[0x62], false⟩⟩)] := by
  have hc : (sampleWalk.after sampleTree.read [.next, .next]).cursor =
      ⟨[0x61, SLASH], false⟩ := by decide +kernel
  refine ⟨rfl, by decide +kernel, ?_⟩
  rw [hc]
  exact ⟨_, rfl, by decide +kernel⟩

/-- A walk may be left at any point and finished in pages of any calls, each a walk of its own
resumed from the cursor of the one before it: together they answer as the walk would have. -/
theorem paged_walk_answers_alike (t : StaticTree) (opts : TreeOptions) {q : QueryTree}
    (hstart : queryTree t.read opts = .ok q) (past : List Call) (pages : List (List Call)) :
    pagedAnswers t.read opts (q.after t.read past).cursor pages =
      .ok ((q.after t.read past).answers t.read (pages.flatMap (.next :: ·))) := by
  obtain ⟨⟨dir, hro⟩, hv⟩ := queryTree_ok_inv hstart
  have ht := tracked_of_started (started_of_queryTree hstart) (by omega)
  exact pagedAnswers_eq (by omega) hro (ht.after past) pages

theorem paged_walk_answers_alike_sample : queryTree sampleTree.read wholeTree = .ok sampleWalk ∧
    pagedAnswers sampleTree.read wholeTree sampleWalk.cursor [[], [.next], [.skipDescent]] =
      .ok (sampleWalk.answers sampleTree.read [.next, .next, .next, .next, .skipDescent]) :=
  ⟨rfl, paged_walk_answers_alike sampleTree wholeTree rfl [] _⟩

end TruenasRos.Walk
