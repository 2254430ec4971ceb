import TruenasRos.Lib.Ordered

/-! # The store behind a configuration

The entries stand in insertion order beside an index from each key to its position, which a removal
has to shift. Every sequence of calls answers as the insertion-ordered map does.
-/

namespace TruenasRos.Config

open List Ordered Function Prod

/-- The store of the source: the index is a second copy of where each key stands. -/
structure Indexed (K V : Type*) where
  entries : List (K × V)
  index : K → Option ℕ

namespace Indexed

variable {K V : Type*}

def new : Indexed K V := ⟨[], fun _ => none⟩

variable [DecidableEq K]

/-- A lookup, which fails when the index points past the entries. -/
def get (d : Indexed K V) (key : K) : Option (Option V) :=
  match d.index key with
  | none => some none
  | some i => d.entries[i]?.map fun e => some e.2

def insert (d : Indexed K V) (key : K) (value : V) : Option (Option V × Indexed K V) :=
  match d.index key with
  | some i => d.entries[i]?.map fun e =>
    (some e.2, { d with entries := d.entries.set i (e.1, value) })
  | none =>
    some (none, ⟨d.entries ++ [(key, value)],
      update d.index key (some d.entries.length)⟩)

def shift (index : K → Option ℕ) (pos : ℕ) : List (K × V) → K → Option ℕ
  | [] => index
  | e :: es =>
    shift (if (index e.1).isSome then update index e.1 (some pos) else index) (pos + 1) es

/-- Both copies of the key are handed back with the value. -/
def remove (d : Indexed K V) (key : K) : Option (Option (K × K × V) × Indexed K V) :=
  match d.index key with
  | none => some (none, d)
  | some i => d.entries[i]?.map fun e =>
    let entries := d.entries.eraseIdx i
    (some (key, e), ⟨entries, shift (update d.index key none) i (entries.drop i)⟩)

inductive Call (K V : Type*)
  | insert (key : K) (value : V)
  | remove (key : K)
  | get (key : K)
  | iter

inductive Reply (K V : Type*)
  | displaced (value : Option V)
  | removed (entry : Option (K × K × V))
  | found (value : Option V)
  | entries (es : List (K × V))

def step (d : Indexed K V) : Call K V → Option (Reply K V × Indexed K V)
  | .insert key value => (d.insert key value).map (map .displaced id)
  | .remove key => (d.remove key).map (map .removed id)
  | .get key => (d.get key).map fun v => (.found v, d)
  | .iter => some (.entries d.entries, d)

def run (d : Indexed K V) : List (Call K V) → Option (List (Reply K V) × Indexed K V)
  | [] => some ([], d)
  | call :: calls => do
    let (reply, d) ← d.step call
    let (replies, d) ← d.run calls
    return (reply :: replies, d)

/-- The same call on a list of pairs with distinct keys. -/
def plainStep (o : Ordered K V) : Call K V → Reply K V × Ordered K V
  | .insert key value => (.displaced (o.get key), o.insert key value)
  | .remove key => (.removed ((o.get key).map fun v => (key, key, v)), o.remove key)
  | .get key => (.found (o.get key), o)
  | .iter => (.entries o.entries, o)

def plainRun (o : Ordered K V) : List (Call K V) → List (Reply K V) × Ordered K V
  | [] => ([], o)
  | call :: calls =>
    let next := plainRun (plainStep o call).2 calls
    ((plainStep o call).1 :: next.1, next.2)

/-- The index knows each key's position and nothing else. -/
structure Represents (d : Indexed K V) (o : Ordered K V) : Prop where
  entries : d.entries = o.entries
  index : ∀ k i, d.index k = some i ↔ o.keys[i]? = some k

variable {d : Indexed K V} {o : Ordered K V} {index : K → Option ℕ} {ks : List K} {c k : K}

omit [DecidableEq K] in
theorem getElem?_append_iff {l : List K} (h : k ∉ ks) {j : ℕ} :
    (l ++ ks)[j]? = some k ↔ l[j]? = some k := by
  rw [getElem?_append]
  split
  · rfl
  · rename_i hj
    rw [getElem?_eq_none (not_lt.1 hj)]
    exact ⟨fun he => absurd (mem_of_getElem? he) h, nofun⟩

theorem update_iff (hc : c ∉ ks) (h : k ≠ c → ∀ j, index k = some j ↔ ks[j]? = some k) (j : ℕ) :
    update index c (some ks.length) k = some j ↔ (ks ++ [c])[j]? = some k := by
  by_cases hk : k = c
  · subst hk
    rw [update_self, getElem?_append]
    split
    · rename_i hj
      exact iff_of_false (fun he => hj.ne (Option.some.inj he).symm) fun he =>
        hc (mem_of_getElem? he)
    · simp [getElem?_singleton]
      omega
  · rw [update_of_ne hk, h hk, getElem?_append_iff (by simpa using hk)]

theorem shift_iff {es : List (K × V)} (hn : (ks ++ es.map fst).Nodup)
    (hs : ∀ k ∈ es.map fst, (index k).isSome)
    (hi : ∀ k ∉ es.map fst, ∀ j, index k = some j ↔ ks[j]? = some k) (j : ℕ) :
    shift index ks.length es k = some j ↔ (ks ++ es.map fst)[j]? = some k := by
  induction es generalizing ks index with
  | nil => simpa [shift] using hi k not_mem_nil j
  | cons e es ih =>
    have hc : e.1 ∉ ks ++ es.map fst := (nodup_middle.1 hn).notMem
    rw [mem_append, not_or] at hc
    rw [map_cons, append_cons] at hn ⊢
    rw [shift, if_pos (hs e.1 mem_cons_self), ← ih hn, length_append]
    · rfl
    · intro k hk
      rw [update_of_ne (ne_of_mem_of_not_mem hk hc.2)]
      exact hs k (mem_cons_of_mem _ hk)
    · intro k hk
      exact update_iff hc.1 fun hne => hi k (by simpa [hne] using hk)

theorem Represents.cases (h : Represents d o) (key : K) :
    (d.index key = none ∧ o.get key = none ∧ key ∉ o.keys) ∨ ∃ v l₁ l₂,
      o.get key = some v ∧ d.index key = some l₁.length ∧ d.entries = l₁ ++ (key, v) :: l₂ ∧
      (o.remove key).entries = l₁ ++ l₂ ∧
      ∀ w, (o.insert key w).entries = l₁ ++ (key, w) :: l₂ := by
  cases hg : o.get key with
  | none =>
    have hk : key ∉ o.keys := fun hk => by
      obtain ⟨e, he, rfl⟩ := mem_map.1 hk
      exact nomatch (Ordered.get_of_mem he).symm.trans hg
    refine .inl ⟨Option.eq_none_iff_forall_ne_some.2 fun i hi => hk ?_, rfl, hk⟩
    exact mem_of_getElem? ((h.index key i).1 hi)
  | some v =>
    obtain ⟨l₁, l₂, he, hr, hi, -⟩ := Ordered.exists_split hg
    refine .inr ⟨v, l₁, l₂, rfl, (h.index key _).2 ?_, h.entries.trans he, hr, hi⟩
    simp [Ordered.keys, he]

/-- One call answers as on the list of pairs and keeps the index right. -/
theorem Represents.step (h : Represents d o) (call : Call K V) : ∃ d', d.step call =
    some ((plainStep o call).1, d') ∧ Represents d' (plainStep o call).2 := by
  cases call with
  | iter => exact ⟨d, by rw [Indexed.step, plainStep, h.entries], h⟩
  | get key =>
    refine ⟨d, ?_, h⟩
    rcases h.cases key with ⟨hi, hg, -⟩ | ⟨v, l₁, l₂, hg, hi, he, -, -⟩
    · simp [Indexed.step, Indexed.get, plainStep, hi, hg]
    · simp [Indexed.step, Indexed.get, plainStep, hi, hg, he]
  | insert key value =>
    rcases h.cases key with ⟨hi, hg, hk⟩ | ⟨v, l₁, l₂, hg, hi, he, -, hin⟩
    · refine ⟨_, by rw [Indexed.step, Indexed.insert, hi, plainStep, hg]; rfl, ?_, ?_⟩
      · simp [plainStep, h.entries, entries_insert_of_notMem hk]
      · intro k i
        rw [plainStep, keys_insert, if_neg hk, ← update_iff hk fun _ => h.index k,
          o.length_keys, ← h.entries]
        rfl
    · refine ⟨⟨l₁ ++ (key, value) :: l₂, d.index⟩, ?_, (hin value).symm, fun k i => ?_⟩
      · simp [Indexed.step, Indexed.insert, plainStep, hi, hg, he]
      · have hk : key ∈ o.keys := mem_keys_of_get hg
        rw [plainStep, keys_insert, if_pos hk]
        exact h.index k i
  | remove key =>
    rcases h.cases key with ⟨hi, hg, hk⟩ | ⟨v, l₁, l₂, hg, hi, he, hr, -⟩
    · refine ⟨d, by simp [Indexed.step, Indexed.remove, plainStep, hi, hg], ?_⟩
      have ho : o.remove key = o := by
        ext1
        refine filter_eq_self.2 fun e he => ?_
        simpa using fun hek => hk (mem_map.2 ⟨e, he, hek⟩)
      rwa [plainStep, ho]
    · refine ⟨⟨l₁ ++ l₂, shift (update d.index key none) l₁.length l₂⟩, ?_, hr.symm,
        fun k i => ?_⟩
      · simp [Indexed.step, Indexed.remove, plainStep, hi, hg, he, eraseIdx_append_of_length_le]
      · have hks : o.keys = l₁.map fst ++ key :: l₂.map fst := by
          simp [Ordered.keys, ← h.entries, he]
        have hn : (key :: (l₁.map fst ++ l₂.map fst)).Nodup := by
          rw [← nodup_middle, ← hks]
          exact o.nodup
        obtain ⟨h₁, h₂⟩ := not_or.1 (mt mem_append.2 hn.notMem)
        have hl : l₁.length = (l₁.map fst).length := (length_map _).symm
        rw [plainStep, Ordered.keys, hr, map_append, hl]
        refine shift_iff hn.of_cons (fun k hk => ?_) (fun k hk j => ?_) i
        · obtain ⟨j, hj⟩ := getElem?_of_mem (by rw [hks]; simp [hk] : k ∈ o.keys)
          rw [update_of_ne (ne_of_mem_of_not_mem hk h₂), (h.index k j).2 hj]
          rfl
        · by_cases he : k = key
          · rw [he, update_self]
            exact ⟨by simp, fun hj => absurd (mem_of_getElem? hj) h₁⟩
          · rw [update_of_ne he, h.index, hks, getElem?_append_iff (by simp [he, hk])]

/-- The store is an insertion-ordered dictionary: whatever the calls, no index is out of bounds,
every reply is that of the list of pairs, and afterwards the index holds each key's position. -/
theorem answers_as_plain (calls : List (Call K V)) :
    ∃ d, run new calls = some ((plainRun empty calls).1, d) ∧
      Represents d (plainRun empty calls).2 := by
  have hrun : ∀ {d : Indexed K V} {o : Ordered K V}, Represents d o → ∃ d',
      run d calls = some ((plainRun o calls).1, d') ∧ Represents d' (plainRun o calls).2 := by
    induction calls with
    | nil => exact fun h => ⟨_, rfl, h⟩
    | cons call calls ih =>
      intro d o h
      obtain ⟨d₁, hs, h₁⟩ := h.step call
      obtain ⟨d₂, hr, h₂⟩ := ih h₁
      exact ⟨d₂, by simp [run, plainRun, hs, hr], h₂⟩
  exact hrun ⟨rfl, fun k i => by simp [new, empty, Ordered.keys]⟩

end Indexed

end TruenasRos.Config
