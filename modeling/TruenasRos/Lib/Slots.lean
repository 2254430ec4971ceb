import Mathlib.Data.List.ReduceOption
import Mathlib.Tactic

/-! # Tables of slots with generations

A table holds one entry a slot, and a stack lists the slots that are free. A slot's
generation counts the tenants it has had, so that a token of an earlier tenant does not
name the next one.
-/

namespace TruenasRos.Slots

open List

structure SlotEntry (α : Type*) where
  generation : ℕ
  state : α
  deriving DecidableEq

variable {α : Type*} {l l' l'' : List (SlotEntry α)} {free : α → Prop} {stack rest : List ℕ}
variable {i j g : ℕ} {a b : α} {x y : SlotEntry α}

theorem getElem?_set_cases (h : (l.set i x)[j]? = some y) : j = i ∧ y = x ∨ l[j]? = some y := by
  rw [getElem?_set] at h
  split_ifs at h with hij hlt
  · exact .inl ⟨hij.symm, (Option.some.inj h).symm⟩
  · exact .inr h

theorem getElem?_set_of_some (h : l[i]? = some x) : (l.set i y)[i]? = some y := by
  rw [List.getElem?_set_self (List.getElem?_eq_some_iff.1 h).1]

theorem modify_eq_set (h : l[i]? = some x) (f : SlotEntry α → SlotEntry α) :
    l.modify i f = l.set i (f x) := by
  rw [modify_eq_set_getElem?, h]
  rfl

theorem countP_set_add (h : l[i]? = some x) (p : SlotEntry α → Bool) :
    (l.set i y).countP p + (if p x then 1 else 0) = l.countP p + (if p y then 1 else 0) := by
  obtain ⟨hi, hx⟩ := List.getElem?_eq_some_iff.1 h
  have hpos : p x → 0 < l.countP p := fun hp =>
    countP_pos_iff.2 ⟨x, hx ▸ getElem_mem hi, hp⟩
  rw [countP_set hi, hx]
  split_ifs with h₁ h₂ h₂ <;> simp_all

/-- The stack lists exactly the free slots, each once. -/
structure Exact (free : α → Prop) (l : List (SlotEntry α)) (stack : List ℕ) : Prop where
  nodup : stack.Nodup
  mem_iff : ∀ i, i ∈ stack ↔ ∃ x, l[i]? = some x ∧ free x.state

namespace Exact

theorem head (h : Exact free l (i :: rest)) : ∃ x, l[i]? = some x ∧ free x.state :=
  (h.mem_iff i).1 mem_cons_self

theorem update (h : Exact free l stack) (hx : l[i]? = some x)
    (hy : free x.state ↔ free y.state) : Exact free (l.set i y) stack := by
  refine ⟨h.nodup, fun j => (h.mem_iff j).trans ?_⟩
  rcases eq_or_ne j i with rfl | hne
  · simp [hx, getElem?_set_of_some hx, hy]
  · rw [getElem?_set_ne hne.symm]

theorem occupy (h : Exact free l (i :: rest)) (hy : ¬ free y.state) :
    Exact free (l.set i y) rest := by
  obtain ⟨hn, hno⟩ := nodup_cons.1 h.nodup
  obtain ⟨x, hx, -⟩ := h.head
  refine ⟨hno, fun j => ?_⟩
  rcases eq_or_ne j i with rfl | hne
  · simp only [getElem?_set_of_some hx, Option.some.injEq, exists_eq_left', hy, iff_false]
    exact hn
  · rw [getElem?_set_ne hne.symm, ← h.mem_iff, mem_cons, or_iff_right hne]

theorem vacate (h : Exact free l stack) (hx : l[i]? = some x) (ho : ¬ free x.state)
    (hy : free y.state) : Exact free (l.set i y) (i :: stack) := by
  have hn : i ∉ stack := fun hi => by
    obtain ⟨z, hz, hf⟩ := (h.mem_iff i).1 hi
    rw [hx, Option.some.injEq] at hz
    exact ho (hz ▸ hf)
  refine ⟨nodup_cons.2 ⟨hn, h.nodup⟩, fun j => ?_⟩
  rcases eq_or_ne j i with rfl | hne
  · simp [getElem?_set_of_some hx, hy]
  · rw [getElem?_set_ne hne.symm, ← h.mem_iff, mem_cons, or_iff_right hne]

theorem length_add_countP [DecidablePred free] (h : Exact free l stack) :
    stack.length + l.countP (fun x => ¬ free x.state) = l.length := by
  have hc : l.countP (fun x => free x.state) = stack.length := by
    have hpe : stack.Perm
        (((finRange l.length).filter fun i => free (l.get i).state).map (·.1)) := by
      refine (perm_ext_iff_of_nodup h.nodup
        (((nodup_finRange _).filter _).map Fin.val_injective)).2 fun i => ?_
      rw [h.mem_iff]
      simp only [getElem?_eq_some_iff, mem_map, mem_filter, mem_finRange,
        true_and, decide_eq_true_eq, get_eq_getElem]
      constructor
      · rintro ⟨x, ⟨hi, rfl⟩, hf⟩
        exact ⟨⟨i, hi⟩, hf, rfl⟩
      · rintro ⟨j, hf, rfl⟩
        exact ⟨_, ⟨j.2, rfl⟩, hf⟩
    rw [hpe.length_eq, length_map, ← countP_eq_length_filter]
    nth_rewrite 1 [← map_get_finRange l]
    rw [countP_map]
    rfl
  rw [← hc, length_eq_countP_add_countP (fun x => decide (free x.state))]
  simp

end Exact

/-- A later table: a slot keeps its generation only as long as what is in it stays the same. -/
structure Later (same : α → α → Prop) (l l' : List (SlotEntry α)) : Prop where
  length : l'.length = l.length
  entry : ∀ (i : ℕ) (x y : SlotEntry α), l[i]? = some x → l'[i]? = some y →
    x.generation < y.generation ∨ x.generation = y.generation ∧ same x.state y.state

namespace Later

variable {same : α → α → Prop}

theorem refl (hr : ∀ a, same a a) (l : List (SlotEntry α)) : Later same l l := by
  refine ⟨rfl, fun i x y hx hy => ?_⟩
  rw [hx, Option.some.injEq] at hy
  exact .inr ⟨by rw [hy], hy ▸ hr x.state⟩

theorem trans (ht : ∀ a b c, same a b → same b c → same a c) (h : Later same l l')
    (h' : Later same l' l'') : Later same l l'' := by
  refine ⟨h'.length.trans h.length, fun i x z hx hz => ?_⟩
  have hi : i < l'.length := h.length ▸ (List.getElem?_eq_some_iff.1 hx).1
  have hy := getElem?_eq_getElem hi
  rcases h.entry i x _ hx hy with hlt | ⟨heq, hxy⟩ <;>
    rcases h'.entry i _ z hy hz with hl' | ⟨he', hyz⟩
  · exact .inl (hlt.trans hl')
  · exact .inl (he' ▸ hlt)
  · exact .inl (heq ▸ hl')
  · exact .inr ⟨heq.trans he', ht _ _ _ hxy hyz⟩

theorem set (hr : ∀ a, same a a) (hx : l[i]? = some x)
    (h : x.generation < y.generation ∨ x.generation = y.generation ∧ same x.state y.state) :
    Later same l (l.set i y) := by
  refine ⟨length_set, fun j z w hz hw => ?_⟩
  rcases eq_or_ne j i with rfl | hne
  · rw [hx, Option.some.injEq] at hz
    rw [getElem?_set_of_some hx, Option.some.injEq] at hw
    exact hz ▸ hw ▸ h
  · rw [getElem?_set_ne hne.symm] at hw
    exact (refl hr l).entry j z w hz hw

end Later

section Roster

variable {β : Type*} {f : ℕ → SlotEntry α → Option β}

/-- What the slots have to show, in the order of the table. -/
def roster (f : ℕ → SlotEntry α → Option β) (l : List (SlotEntry α)) : List β :=
  (l.mapIdx f).reduceOption

theorem mem_roster {b : β} : b ∈ roster f l ↔ ∃ i x, l[i]? = some x ∧ f i x = some b := by
  rw [roster, reduceOption_mem_iff, mem_iff_getElem?]
  simp

theorem roster_set (h : l[i]? = some x) :
    ((f i x).toList ++ roster f (l.set i y)).Perm ((f i y).toList ++ roster f l) := by
  have hc : ∀ (o : Option β) (m : List (Option β)),
      (o :: m).reduceOption = o.toList ++ m.reduceOption := by rintro (_ | b) m <;> simp
  have hm : (l.mapIdx f)[i]? = some (f i x) := by rw [getElem?_mapIdx, h]; rfl
  obtain ⟨hlt, hg⟩ := List.getElem?_eq_some_iff.1 hm
  -- both rosters are split at the slot
  have ho : roster f l = ((l.mapIdx f).take i).reduceOption ++
      ((f i x).toList ++ ((l.mapIdx f).drop (i + 1)).reduceOption) := by
    rw [← hc, ← reduceOption_append, ← hg, getElem_cons_drop, take_append_drop]
    rfl
  have hn : roster f (l.set i y) = ((l.mapIdx f).take i).reduceOption ++
      ((f i y).toList ++ ((l.mapIdx f).drop (i + 1)).reduceOption) := by
    rw [roster, mapIdx_set, set_eq_take_append_cons_drop, if_pos hlt, reduceOption_append, hc]
  rw [ho, hn, ← append_assoc, ← append_assoc]
  refine (perm_append_comm.append_right _).trans ?_
  simp only [append_assoc]
  exact (perm_append_comm_assoc _ _ _).append_left _

theorem roster_set_of_eq (h : l[i]? = some x) (hf : f i y = f i x) :
    (roster f (l.set i y)).Perm (roster f l) := by
  have hs := roster_set (f := f) (y := y) h
  rw [hf] at hs
  exact (perm_append_left_iff _).1 hs

theorem length_roster {p : SlotEntry α → Bool} (h : ∀ i x, (f i x).isSome = p x) :
    (roster f l).length = l.countP p := by
  induction l using reverseRecOn with
  | nil => rfl
  | append_singleton l x ih =>
    rw [roster, mapIdx_concat, reduceOption_append, length_append, countP_append, ← ih,
      countP_singleton, ← h l.length]
    cases f l.length x <;> rfl

end Roster

end TruenasRos.Slots
