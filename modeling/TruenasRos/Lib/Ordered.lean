import Mathlib.Tactic

/-! # Insertion-ordered maps

A map is the list of its entries, in the order in which their keys came in. No key
occurs twice, so an entry is found by its key wherever it stands.
-/

namespace TruenasRos

open List Prod

/-- Entries in insertion order, with distinct keys. -/
@[ext]
structure Ordered (K V : Type*) where
  entries : List (K × V)
  nodup : (entries.map fst).Nodup

namespace Ordered

variable {K V : Type*} {o : Ordered K V} {e : K × V} {w : V}

def keys (o : Ordered K V) : List K := o.entries.map fst

theorem length_keys (o : Ordered K V) : o.keys.length = o.entries.length := length_map _

def empty : Ordered K V := ⟨[], nodup_nil⟩

def setAt (o : Ordered K V) (i : ℕ) (v : V) : Ordered K V where
  entries := o.entries.modify i fun e => (e.1, v)
  nodup := by
    have hkeys : (o.entries.modify i fun e => (e.1, v)).map fst = o.entries.map fst := by
      apply ext_getElem?
      intro j
      simp only [getElem?_map, getElem?_modify]
      cases o.entries[j]? <;> simp [apply_ite fst]
    rw [hkeys]
    exact o.nodup

theorem keys_setAt (o : Ordered K V) (i : ℕ) (v : V) : (o.setAt i v).keys = o.keys := by
  apply ext_getElem?
  intro j
  simp only [keys, setAt, getElem?_map, getElem?_modify]
  cases o.entries[j]? <;> simp [apply_ite fst]

theorem setAt_self {i : ℕ} (h : o.entries[i]? = some e) : o.setAt i e.2 = o := by
  ext j a
  simp only [setAt, getElem?_modify]
  by_cases hj : i = j
  · subst hj
    simp [h]
  · simp [hj]

theorem setAt_setAt (o : Ordered K V) (i : ℕ) (v w : V) :
    (o.setAt i v).setAt i w = o.setAt i w := by
  ext j a
  simp only [setAt, getElem?_modify]
  by_cases hj : i = j
  · cases o.entries[j]? <;> simp [hj]
  · simp [hj]

theorem modify_last {α : Type*} (l : List α) (a : α) (f : α → α) :
    (l ++ [a]).modify l.length f = l ++ [f a] := by
  induction l with
  | nil => rfl
  | cons b l ih => simp [ih]

theorem entries_setAt_last {es : List (K × V)} {k : K} (h : o.entries = es ++ [(k, w)]) (v : V) :
    (o.setAt es.length v).entries = es ++ [(k, v)] := by
  simp only [setAt, h]
  exact modify_last es (k, w) _

def mapValues (o : Ordered K V) (f : V → V) : Ordered K V where
  entries := o.entries.map fun e => (e.1, f e.2)
  nodup := by
    rw [List.map_map]
    exact o.nodup

def retain (o : Ordered K V) (p : V → Bool) : Ordered K V where
  entries := o.entries.filter fun e => p e.2
  nodup := o.nodup.sublist (filter_sublist.map _)

variable [DecidableEq K]

section

variable (o)

def contains (k : K) : Bool := k ∈ o.keys

def position (k : K) : Option ℕ := o.keys.findIdx? (· = k)

def get (k : K) : Option V := (o.entries.find? fun e => e.1 = k).map snd

/-- Set the value of `k`; a new key comes last. -/
def upsert (k : K) (v : V) : List (K × V) → List (K × V)
  | [] => [(k, v)]
  | e :: es => if e.1 = k then (k, v) :: es else e :: upsert k v es

theorem keys_upsert (k : K) (v : V) (es : List (K × V)) : (upsert k v es).map fst =
      if k ∈ es.map fst then es.map fst else es.map fst ++ [k] := by
  induction es with
  | nil => rfl
  | cons e es ih =>
    by_cases he : e.1 = k
    · simp [upsert, he]
    · have hk : k ≠ e.1 := fun h => he h.symm
      simp only [upsert, if_neg he, map_cons, ih, mem_cons, hk, false_or]
      split_ifs <;> rfl

def insert (k : K) (v : V) : Ordered K V where
  entries := upsert k v o.entries
  nodup := by
    rw [keys_upsert]
    split_ifs with hk
    · exact o.nodup
    · exact o.nodup.append (nodup_singleton k) (by simpa using hk)

def remove (k : K) : Ordered K V where
  entries := o.entries.filter fun e => e.1 ≠ k
  nodup := o.nodup.sublist (filter_sublist.map _)

end

variable {o : Ordered K V} {k : K} {v : V} {es : List (K × V)}

theorem entries_insert : (o.insert k v).entries = upsert k v o.entries := rfl

theorem keys_insert : (o.insert k v).keys = if k ∈ o.keys then o.keys else o.keys ++ [k] :=
  keys_upsert k v o.entries

theorem upsert_of_notMem (h : k ∉ es.map fst) : upsert k v es = es ++ [(k, v)] := by
  induction es with
  | nil => rfl
  | cons e es ih =>
    rw [map_cons, mem_cons, not_or] at h
    rw [upsert, if_neg fun he => h.1 he.symm, ih h.2]
    rfl

theorem entries_insert_of_notMem (h : k ∉ o.keys) :
    (o.insert k v).entries = o.entries ++ [(k, v)] :=
  upsert_of_notMem h

theorem position_insert_of_notMem (h : k ∉ o.keys) :
    (o.insert k v).position k = some o.entries.length := by
  have hke : (o.insert k v).keys = o.keys ++ [k] := by
    rw [keys, entries_insert_of_notMem h, map_append]
    rfl
  have hn : o.keys.findIdx? (· = k) = none := by
    rw [findIdx?_eq_none_iff]
    exact fun x hx => decide_eq_false fun hk => h (hk ▸ hx)
  rw [position, hke, findIdx?_append, hn]
  simp [keys]

theorem entries_insert_last (h : o.entries = es ++ [(k, w)]) :
    (o.insert k v).entries = es ++ [(k, v)] := by
  have hk : k ∉ es.map fst := by
    have hn := o.nodup
    rw [h, map_append, nodup_append] at hn
    exact fun hmem => hn.2.2 k hmem k (mem_singleton_self k) rfl
  rw [entries_insert, h]
  clear h
  induction es with
  | nil => simp [upsert]
  | cons e es ih =>
    rw [map_cons, mem_cons, not_or] at hk
    rw [cons_append, upsert, if_neg fun he => hk.1 he.symm, ih hk.2]
    rfl

theorem get_last (h : o.entries = es ++ [(k, w)]) : o.get k = some w := by
  have hk : ∀ e ∈ es, e.1 ≠ k := by
    have hn := o.nodup
    rw [h, map_append, nodup_append] at hn
    exact fun e he => hn.2.2 e.1 (mem_map_of_mem he) k (mem_singleton_self k)
  rw [get, h, find?_append, find?_eq_none.2 (by simpa using hk)]
  simp

theorem get_of_notMem (h : k ∉ o.keys) : o.get k = none := by
  have hn : o.entries.find? (fun e => e.1 = k) = none := by
    rw [find?_eq_none]
    exact fun e he hk => h (mem_map.2 ⟨e, he, of_decide_eq_true hk⟩)
  rw [get, hn, Option.map_none]

theorem mem_of_get (h : o.get k = some v) : (k, v) ∈ o.entries := by
  obtain ⟨e, hf, rfl⟩ := Option.map_eq_some_iff.1 h
  have hk : e.1 = k := by simpa using find?_some hf
  rw [← hk]
  exact mem_of_find?_eq_some hf

theorem get_of_mem (h : (k, v) ∈ o.entries) : o.get k = some v := by
  have hs : (o.entries.find? fun e => e.1 = k).isSome :=
    find?_isSome.2 ⟨(k, v), h, decide_eq_true rfl⟩
  obtain ⟨e, he⟩ := Option.isSome_iff_exists.1 hs
  have hk : e.1 = k := by simpa using find?_some he
  have heq : e = (k, v) :=
    inj_on_of_nodup_map o.nodup (mem_of_find?_eq_some he) h hk
  rw [get, he, heq]
  rfl

theorem mem_insert_self : (k, v) ∈ (o.insert k v).entries := by
  rw [entries_insert]
  induction o.entries with
  | nil => exact mem_singleton_self _
  | cons e es ih =>
    rw [upsert]
    split_ifs
    · exact mem_cons_self
    · exact mem_cons_of_mem e ih

theorem get_insert_self : (o.insert k v).get k = some v := get_of_mem mem_insert_self

theorem mem_keys_of_get (h : o.get k = some v) : k ∈ o.keys := mem_map_of_mem (mem_of_get h)

/-- Where an entry stands, and what removing or replacing it leaves. -/
theorem exists_split (h : o.get k = some v) : ∃ l₁ l₂, o.entries = l₁ ++ (k, v) :: l₂ ∧
    (o.remove k).entries = l₁ ++ l₂ ∧ (∀ w, (o.insert k w).entries = l₁ ++ (k, w) :: l₂) ∧
    k ∉ (l₁ ++ l₂).map fst := by
  obtain ⟨l₁, l₂, hs⟩ := append_of_mem (mem_of_get h)
  have hn := o.nodup
  rw [hs, map_append, map_cons, nodup_middle, ← map_append, nodup_cons] at hn
  have hk : k ∉ (l₁ ++ l₂).map fst := hn.1
  have hne : ∀ e ∈ l₁ ++ l₂, e.1 ≠ k := fun e he hek =>
    hk (mem_map.2 ⟨e, he, hek⟩)
  refine ⟨l₁, l₂, hs, ?_, fun w => ?_, hk⟩
  · have hke : (l₁ ++ l₂).filter (fun e => e.1 ≠ k) = l₁ ++ l₂ :=
      filter_eq_self.2 fun e he => by simpa using hne e he
    have hr : (o.remove k).entries = o.entries.filter fun e => e.1 ≠ k := rfl
    rw [hr, hs, ← hke]
    simp
  · have hk₁ : k ∉ l₁.map fst := fun hmem => hk (by simp [mem_map.1 hmem])
    rw [entries_insert, hs]
    clear hs hn hk hne
    induction l₁ with
    | nil => simp [upsert]
    | cons e l₁ ih =>
      rw [map_cons, mem_cons, not_or] at hk₁
      rw [cons_append, upsert, if_neg fun he => hk₁.1 he.symm, ih hk₁.2]
      rfl

theorem mem_insert (h : e ∈ (o.insert k v).entries) : e = (k, v) ∨ e ∈ o.entries := by
  rw [entries_insert] at h
  generalize o.entries = es at h ⊢
  induction es with
  | nil => exact .inl (mem_singleton.1 h)
  | cons f es ih =>
    rw [upsert] at h
    split_ifs at h
    · rcases mem_cons.1 h with rfl | h
      · exact .inl rfl
      · exact .inr (mem_cons_of_mem f h)
    · rcases mem_cons.1 h with rfl | h
      · exact .inr mem_cons_self
      · exact (ih h).imp_right (mem_cons_of_mem f)

end Ordered

end TruenasRos
