import TruenasRos.Walk.QueryTree
import TruenasRos.Lib.Steps

/-! # The cursors a client can hold

`queryTree` cuts past a pruned directory on the understanding that the pruned bit
only ever comes with a directory's key. Walks and constructors keep to that; the
token decoder does not look.
-/

namespace TruenasRos.Walk

open TreeCursor Except

/-- A pruned position is a directory's. -/
def TreeCursor.WellFormed (c : TreeCursor) : Prop :=
  c.skip_subtree = true → c.key.getLast? = some SLASH

namespace QueryTree

/-- One call by the owner of the walk, on the tree as it is at that moment. -/
def step (q : QueryTree) (e : Tree × Call) : QueryTree := (q.call e.1 e.2).2

/-- The walk's cursor is well formed, and so is the one it would have once the pending
directory is pruned. -/
structure WellFormed (q : QueryTree) : Prop where
  cursor : q.cursor.WellFormed
  pending : q.pending.isSome = true → q.last_key.getLast? = some SLASH

variable {q : QueryTree}

section

variable (h : q.WellFormed)
include h

theorem WellFormed.pull (stack : List Frame) : (q.pull stack).2.WellFormed := by
  fun_induction QueryTree.pull q stack with
  | case1 => exact ⟨h.cursor, h.pending⟩
  | case2 frame rest entry buf hb out q' hy =>
    have hw : (q.yield frame entry buf rest).2.WellFormed := by
      refine ⟨nofun, fun h => ?_⟩
      have hdir : entry.is_dir = true := by
        simp only [yield] at h
        split_ifs at h with hd
        · exact (Bool.and_eq_true_iff.1 hd).1
        · simp at h
      simp [yield, TreeEntry.key, hdir]
    rwa [hy] at hw
  | case3 => assumption
  | case4 => assumption
  | case5 => exact ⟨h.cursor, h.pending⟩

theorem WellFormed.descend {t : Tree} {path : Bytes} {q' : QueryTree}
    (hd : q.descend t path = .ok q') : q'.WellFormed := by
  unfold QueryTree.descend at hd
  split at hd
  · exact ok.inj hd ▸ h
  · split_ifs at hd
    · exact ok.inj hd ▸ h
    · split at hd
      · exact ok.inj hd ▸ ⟨h.cursor, h.pending⟩
      · split_ifs at hd
        exact ok.inj hd ▸ h

theorem WellFormed.next (t : Tree) : (q.next t).2.WellFormed := by
  unfold QueryTree.next
  split_ifs with hf
  · exact h
  · cases hp : q.pending with
    | none => exact h.pull _
    | some path =>
      have hn : WellFormed { q with pending := none } := ⟨h.cursor, nofun⟩
      simp only
      split
      · next q' hd => exact (hn.descend hd).pull _
      · exact hn

theorem WellFormed.step (e : Tree × Call) : (q.step e).WellFormed := by
  obtain ⟨t, c⟩ := e
  cases c with
  | next => exact h.next t
  | skipDescent =>
    refine ⟨fun hs => ?_, nofun⟩
    rcases Bool.or_eq_true_iff.1 hs with hs | hpn
    · exact h.cursor hs
    · exact h.pending hpn

end

end QueryTree

/-- The cursors a client comes by through the public operations, where `tokens` are the byte
strings it hands to the decoder. The tree under a walk may change from call to call. -/
inductive Obtainable (tokens : Set Bytes) : TreeCursor → Prop
  | start : Obtainable tokens default
  | key (key : Bytes) : Obtainable tokens (.fromKey key)
  | skipping {c} : Obtainable tokens c → Obtainable tokens c.skippingSubtree
  | token {data c} : data ∈ tokens → fromBytes data = .ok c → Obtainable tokens c
  | walk {t opts q} (calls : List (Tree × Call)) :
      (∀ c ∈ opts.resume, Obtainable tokens c) → queryTree t opts = .ok q → Obtainable tokens
        (Steps.run QueryTree.step q calls).cursor

/-- The token of a pruned position that is not a directory's. -/
def Forged (data : Bytes) : Prop :=
  ∃ key : Bytes, key.length < 2 ^ 32 ∧ key.getLast? ≠ some SLASH ∧
    data = toBytes ⟨key, true⟩

theorem wellFormed_queryTree {t : Tree} {opts : TreeOptions} {q : QueryTree}
    (h : queryTree t opts = .ok q) (hre : ∀ c ∈ opts.resume, c.WellFormed) : q.WellFormed := by
  have hc : (opts.resume.getD default).WellFormed := by
    cases hr : opts.resume with
    | none => exact nofun
    | some c => exact hre c hr
  unfold queryTree at h
  dsimp only at h
  split_ifs at h
  split at h
  · cases h
  · obtain ⟨stack, -, hq⟩ := bind_eq_ok_iff.1 h
    obtain rfl := ok.inj hq
    exact ⟨hc, nofun⟩

theorem Obtainable.wellFormed {tokens : Set Bytes} {c : TreeCursor}
    (h : Obtainable tokens c) (ht : ∀ data ∈ tokens, ¬ Forged data) : c.WellFormed := by
  induction h with
  | start => exact nofun
  | key key => exact nofun
  | skipping _ _ =>
    intro hs
    simpa [skippingSubtree, namesDir] using hs
  | @token data c hmem ho =>
    intro hs
    by_contra hk
    obtain ⟨hd, hlen⟩ := eq_toBytes_of_fromBytes ho
    obtain ⟨key, skip⟩ := c
    obtain rfl : skip = true := hs
    exact ht data hmem ⟨key, hlen, hk, hd⟩
  | walk calls _ hq ih =>
    exact (Steps.invariant (wellFormed_queryTree hq ih) (fun q e h => h.step e) calls).cursor

/-- Every cursor a client can hold is well formed exactly if no token it decodes is forged. A
token gives back the cursor it was made from, and is the only one that does. -/
theorem obtainable_wellFormed_iff (tokens : Set Bytes) :
    ((∀ c, Obtainable tokens c → c.WellFormed) ↔ ∀ data ∈ tokens, ¬ Forged data) ∧
      (∀ c : TreeCursor, c.key.length < 2 ^ 32 → fromBytes c.toBytes = .ok c) ∧
      ∀ data c, fromBytes data = .ok c → data = c.toBytes := by
  refine ⟨⟨?_, fun ht c hc => hc.wellFormed ht⟩, fun c hlen => fromBytes_toBytes hlen,
    fun data c h => (eq_toBytes_of_fromBytes h).1⟩
  rintro hall data hmem ⟨key, hlen, hk, rfl⟩
  exact hk (hall ⟨key, true⟩ (.token hmem (fromBytes_toBytes hlen)) rfl)

def forgedToken : Bytes :=
  [0x54, 0x6E, 0x54, 0x63, 1, 0, 1, 0, 1, 0, 0, 0, 0x78]

/-- It is accepted, and the cursor it gives steps over a directory it does not name. -/
theorem fromBytes_accepts_forgedToken :
    ∃ c, fromBytes forgedToken = .ok c ∧ Obtainable {forgedToken} c ∧
      c.skip_subtree = true ∧ c.key = [0x78] ∧ c.key.getLast? ≠ some SLASH := by
  have ho : fromBytes forgedToken = .ok ⟨[0x78], true⟩ := by decide
  exact ⟨_, ho, .token rfl ho, rfl, rfl, by decide⟩

end TruenasRos.Walk
