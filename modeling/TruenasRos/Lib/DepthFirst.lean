import Mathlib.Tactic

/-! # Depth-first visits

A depth-first visit keeps an agenda: it takes the front node, and puts that
node's children where the node stood. The visit ends when children have smaller
rank, it sees exactly what can be reached from the agenda, and it sees it in
order when subtrees are apart from each other.
-/

namespace TruenasRos.DepthFirst

open List

variable {α : Type*} {kids : α → List α}

/-- `Visits kids agenda out`: the visit that starts at `agenda` ends and sees `out`. -/
inductive Visits (kids : α → List α) : List α → List α → Prop
  | nil : Visits kids [] []
  | cons {a : α} {agenda out : List α} :
      Visits kids (kids a ++ agenda) out → Visits kids (a :: agenda) (a :: out)

/-- `b` is `a` or lies below it. -/
def Descends (kids : α → List α) : α → α → Prop := Relation.ReflTransGen fun a b => b ∈ kids a

theorem descends_iff {a x : α} : Descends kids a x ↔ a = x ∨ ∃ b ∈ kids a, Descends kids b x := by
  rw [Descends, Relation.ReflTransGen.cases_head_iff]

theorem exists_visits {rank : α → ℕ} (hra : ∀ a, ∀ b ∈ kids a, rank b < rank a)
    (agenda : List α) : ∃ out, Visits kids agenda out := by
  -- Children have smaller rank than `n` when their parent has rank at most `n`.
  have visit : ∀ n l rest, (∀ a ∈ l, rank a < n) → (∃ out, Visits kids rest out) →
      ∃ out, Visits kids (l ++ rest) out := by
    intro n
    induction n with
    | zero =>
      rintro (_ | ⟨a, l⟩) rest hl hr
      · exact hr
      · exact absurd (hl a mem_cons_self) (Nat.not_lt_zero _)
    | succ n ihn =>
      intro l rest hl hr
      induction l with
      | nil => exact hr
      | cons a l ihl =>
        have ha := hl a mem_cons_self
        have ht := ihl fun b hb => hl b (mem_cons_of_mem a hb)
        have hk : ∀ b ∈ kids a, rank b < n := fun b hb =>
          lt_of_lt_of_le (hra a b hb) (Nat.le_of_lt_succ ha)
        obtain ⟨out, ho⟩ := ihn (kids a) (l ++ rest) hk ht
        exact ⟨a :: out, ho.cons⟩
  induction agenda with
  | nil => exact ⟨[], .nil⟩
  | cons a agenda ih => exact visit (rank a + 1) [a] agenda (by simp) ih

/-- A visit sees exactly the nodes below its agenda. -/
theorem Visits.mem_iff {agenda out : List α} (h : Visits kids agenda out) {x : α} :
    x ∈ out ↔ ∃ a ∈ agenda, Descends kids a x := by
  induction h with
  | nil => simp
  | @cons a agenda out _ ih =>
    rw [mem_cons, ih, exists_mem_cons_iff, descends_iff, or_assoc, eq_comm]
    simp [or_and_right, exists_or]

def Apart (kids : α → List α) (r : α → α → Prop) (a b : α) : Prop :=
  ∀ x y, Descends kids a x → Descends kids b y → r x y

/-- If each node is before what lies below it, and the subtrees of its children are
apart, then a visit goes in order. -/
theorem Visits.pairwise {r : α → α → Prop} {P : α → Prop} (hP : ∀ a, P a → ∀ b ∈ kids a, P b)
    (hd : ∀ a, P a → ∀ b ∈ kids a, ∀ x, Descends kids b x → r a x)
    (hk : ∀ a, P a → (kids a).Pairwise (Apart kids r))
    {agenda out : List α} (h : Visits kids agenda out)
    (hag : ∀ a ∈ agenda, P a) (hap : agenda.Pairwise (Apart kids r)) : out.Pairwise r := by
  induction h with
  | nil => exact .nil
  | @cons a agenda out hv ih =>
    obtain ⟨ha, hr⟩ := pairwise_cons.1 hap
    have hPa := hag a mem_cons_self
    have hl : ∀ {b x}, b ∈ kids a → Descends kids b x → Descends kids a x :=
      fun hb hx => descends_iff.2 (.inr ⟨_, hb, hx⟩)
    refine pairwise_cons.2 ⟨fun x hx => ?_, ih ?_ ?_⟩
    · obtain ⟨b, hb, hbx⟩ := hv.mem_iff.1 hx
      rcases mem_append.1 hb with hb | hb
      · exact hd a hPa b hb x hbx
      · exact ha b hb a x .refl hbx
    · intro b hb
      rcases mem_append.1 hb with hb | hb
      · exact hP a hPa b hb
      · exact hag b (mem_cons_of_mem a hb)
    · refine pairwise_append.2 ⟨hk a hPa, hr, fun b hb c hc x y hx hy => ?_⟩
      exact ha c hc x y (hl hb hx) hy

end TruenasRos.DepthFirst
