import TruenasRos.UringFs.SingleFlight

/-! # Mints of one key

Between the checks of two successful mints of a key there is an invalidation of it. A call
that starts after an invalidation gets no value whose mint had begun, and a failed mint
leaves neither its slot nor its error to anyone else.
-/

namespace TruenasRos.UringFs.SingleFlight

open Function Runs Option

variable {K V E : Type*}

variable (i : ℕ) (key : K) (slot : ℕ) (err : E)

/-- The call has passed its check and its mint has not failed. -/
inductive Call.Minter : Call K V E → Prop
  | checked : Minter (.checked key slot)
  | minting : Minter (.minting key slot)
  | publish (v : V) : Minter (.publish key slot v)

/-- The call's own mint has failed. -/
inductive Call.Failed : Call K V E → Prop
  | evict (key : K) (slot : ℕ) (e : E) : Failed (.evict key slot e)
  | leave (key : K) (slot : ℕ) (e : E) : Failed (.leave key slot (.failed e))
  | returned (key : K) (e : E) : Failed (.returned key (.failed e))
  | panicked (key : K) : Failed (.returned key .panicked)

/-- The mint of call `i` for the key has given a value. -/
inductive Call.Minted : Call K V E → Prop
  | publish (slot : ℕ) (v : V) : Minted (.publish key slot v)
  | leave (slot : ℕ) (v : V) : Minted (.leave key slot (.value i v))
  | returned (v : V) : Minted (.returned key (.value i v))

/-- The call has passed its check, and its mint has not failed. -/
inductive Call.Cleared : Call K V E → Prop
  | checked (slot : ℕ) : Cleared (.checked key slot)
  | minting (slot : ℕ) : Cleared (.minting key slot)
  | minted {c : Call K V E} (h : c.Minted i key) : Cleared c

/-- The mint has begun, or the call is done without one. -/
inductive Call.Begun : Call K V E → Prop
  | minting (key : K) (slot : ℕ) : Begun (.minting key slot)
  | publish (key : K) (slot : ℕ) (v : V) : Begun (.publish key slot v)
  | evict (key : K) (slot : ℕ) (e : E) : Begun (.evict key slot e)
  | leave (key : K) (slot : ℕ) (r : Result V E) : Begun (.leave key slot r)
  | returned (key : K) (r : Result V E) : Begun (.returned key r)

inductive Call.Over : Call K V E → Prop
  | leave (key : K) (slot : ℕ) (r : Result V E) : Over (.leave key slot r)
  | returned (key : K) (r : Result V E) : Over (.returned key r)

/-- A call whose mint had begun stays on the slots there were, or has its answer. -/
inductive Call.Late (n : ℕ) : Call K V E → Prop
  | minting (key : K) (slot : ℕ) (h : slot < n) : Late n (.minting key slot)
  | publish (key : K) (slot : ℕ) (v : V) (h : slot < n) : Late n (.publish key slot v)
  | evict (key : K) (slot : ℕ) (e : E) : Late n (.evict key slot e)
  | answered {c : Call K V E} (h : c.Over) : Late n c

/-- The mint of the call has failed with the error. -/
inductive Call.Carries : Call K V E → Prop
  | evict (slot : ℕ) : Carries (.evict key slot err)
  | leave (slot : ℕ) : Carries (.leave key slot (.failed err))
  | returned : Carries (.returned key (.failed err))

def Result.Recent (old : ℕ → Prop) : Result V E → Prop
  | .value m _ => ¬ old m
  | _ => True

/-- If it is for the key, the call works on a slot from `n` on and gets no old value. -/
def Call.Recent (n : ℕ) (old : ℕ → Prop) (key : K) : Call K V E → Prop
  | .idle | .enter _ => True
  | .look k slot | .wait k slot | .recheck k slot | .confirm k slot | .checked k slot
  | .minting k slot | .publish k slot _ | .evict k slot _ | .retry k slot => k = key → n ≤ slot
  | .leave k slot r => k = key → n ≤ slot ∧ r.Recent old
  | .returned k r => k = key → r.Recent old

/-- Since an invalidation of the key, when there were `n` slots and the old mints had begun. -/
structure After (n : ℕ) (old : ℕ → Prop) (key : K) (i : ℕ) (s : Sys K V E) : Prop where
  next : n ≤ s.next
  live : ∀ slot, s.live key = some slot → n ≤ slot
  cell : ∀ slot m v, n ≤ slot → s.cell slot = some (m, v) → ¬ old m
  late : ∀ m, old m → (s.call m).Late n
  recent : (s.call i).Recent n old key
  self : ¬ old i

variable {i key slot err} {s s' : Sys K V E} {j : ℕ} {o o' : Outcome V E} {c c' : Call K V E}

section

variable (h : c.Next i o c')
include h

theorem Call.Next.failed (hc : c.Failed) : c'.Failed := by
  cases hc <;> cases h
  · exact .leave _ _ _
  · exact .returned _ _

theorem Call.Next.carries (hc : c.Carries key err) : c'.Carries key err := by
  cases hc <;> cases h
  · exact .leave _
  · exact .returned

theorem Call.Next.over (hc : c.Over) : c'.Over := by
  cases hc <;> cases h
  exact .returned _ _

theorem Call.Next.late {n : ℕ} (hc : c.Late n) : c'.Late n := by
  cases hc with
  | minting key slot hlt =>
    cases h with
    | minted => exact .publish _ _ _ hlt
    | fail => exact .evict _ _ _
    | panic => exact .answered (.returned _ _)
  | publish key slot v hlt | evict key slot e =>
    cases h
    exact .answered (.leave _ _ _)
  | answered ho => exact .answered (h.over ho)

end

/-- The mint of call `i` has failed, or the map holds its slot, which nobody else can mint on. -/
def Standing (i : ℕ) (key : K) (slot : ℕ) (s : Sys K V E) : Prop :=
  (s.call i).Failed ∨
    s.live key = some slot ∧ ((s.call i).Minter key slot ∨ s.cell slot ≠ none)

/-- The values in the cells are those of calls that have their answer. -/
def Answered (s : Sys K V E) : Prop := ∀ slot m v, s.cell slot = some (m, v) → (s.call m).Over

/-- Call `i` is about to find its slot in the map, and to mint. -/
def Confirms (i : ℕ) (key : K) (s : Sys K V E) : Prop :=
  ∃ slot, s.call i = .confirm key slot ∧ s.live key = some slot

/-- A slot that has a minter or a value is empty for nobody else. -/
theorem minter_of_vacant (hinv : Inv s) (h : (s.call i).Minter key slot ∨ s.cell slot ≠ none)
    (hv : (s.call j).vacant = some slot) : (s.call j).Minter key slot := by
  rcases h with hi | hc
  · have hh : (s.call i).held = some slot := by
      generalize s.call i = c at hi
      cases hi <;> rfl
    exact hinv.holder hh (held_of_vacant hv) ▸ hi
  · exact absurd ((hinv.placed j).vacant slot hv) hc

theorem not_evict (hinv : Inv s) (h : (s.call i).Minter key slot ∨ s.cell slot ≠ none)
    (e : E) : s.call j ≠ .evict key slot e := by
  intro hj
  have hm := minter_of_vacant hinv h (by rw [hj]; rfl)
  rw [hj] at hm
  cases hm

theorem Standing.not_confirms (hinv : Inv s) (h : Standing i key slot s)
    (hj : Confirms j key s) : (s.call i).Failed := by
  obtain ⟨slot', hc, hl'⟩ := hj
  rcases h with hf | ⟨hl, hm⟩
  · exact hf
  · cases hl.symm.trans hl'
    have hm := minter_of_vacant hinv hm (by rw [hc]; rfl)
    rw [hc] at hm
    cases hm

theorem split_checks {es es₁ es₂ es₁' es₂' : List (Event K V E)} (hne : i ≠ j)
    (h : es = es₁ ++ .call i o :: es₂) (h' : es = es₁' ++ .call j o' :: es₂') :
    (∃ mid, es₁' = es₁ ++ .call i o :: mid ∧ es₂ = mid ++ .call j o' :: es₂') ∨
      ∃ mid, es₁ = es₁' ++ .call j o' :: mid ∧ es₂' = mid ++ .call i o :: es₂ := by
  rcases List.append_eq_append_iff.1 (h.symm.trans h') with ⟨mid, hl, hr⟩ | ⟨mid, hl, hr⟩
  · cases mid with
    | nil => cases hr; exact absurd rfl hne
    | cons e mid =>
      cases hr
      exact .inl ⟨mid, hl, rfl⟩
  · cases mid with
    | nil => cases hr; exact absurd rfl hne
    | cons e mid =>
      cases hr
      exact .inr ⟨mid, hl, rfl⟩

/-- The map does not hold the slot under the key, and has no fresh slot of that name. -/
def Gone (key : K) (slot : ℕ) (s : Sys K V E) : Prop := slot < s.next ∧ s.live key ≠ some slot

section

variable [DecidableEq K] {e : Event K V E} {oc : Outcome V E}

theorem start_eq_some (h : step s (.start j key) = some s') :
    s.call j = .idle ∧ s' = s.goto j (.enter key) := by
  simp only [step] at h
  split at h
  · next hid => exact ⟨hid, (some.inj h).symm⟩
  · cases h

variable {P : Call K V E → Prop} {es es₂ : List (Event K V E)} {t t' : Sys K V E} {o : Outcome V E}
  {n : ℕ} {old : ℕ → Prop}

theorem call_moved (hP : ∀ c o c', Call.Next i c o c' → P c → P c') (h : P (s.call i))
    (hm : Moved s j oc s') : P (s'.call i) := by
  by_cases hij : i = j
  · subst hij
    exact hP _ _ _ hm.call h
  · rwa [hm.call_of_ne hij]

theorem call_step (hid : ¬ P .idle) (hP : ∀ c o c', Call.Next i c o c' → P c → P c') (s : Sys K V E)
    (e : Event K V E) (s' : Sys K V E) (h : P (s.call i)) (hs : step s e = some s') :
    P (s'.call i) := by
  cases e with
  | start j key' =>
    obtain ⟨hj, rfl⟩ := start_eq_some hs
    have hne : i ≠ j := by
      rintro rfl
      rw [hj] at h
      exact hid h
    rwa [call_goto_of_ne _ hne]
  | call j oc => exact call_moved hP h (getOrTryInit_moved hs)
  | invalidate key' | clear => exact some.inj hs ▸ h

theorem call_cause {R : Outcome V E → Prop} (he : ∀ key, ¬ P (.enter key))
    (hmo : ∀ o s', Moved s i o s' → P (s'.call i) → P (s.call i) ∨ R o) (hs : step s e = some s')
    (h : P (s'.call i)) : P (s.call i) ∨ ∃ o, e = .call i o ∧ R o := by
  cases e with
  | start j key' =>
    obtain ⟨-, rfl⟩ := start_eq_some hs
    by_cases hij : i = j
    · subst hij
      rw [call_goto_self] at h
      exact absurd h (he key')
    · rw [call_goto_of_ne _ hij] at h
      exact .inl h
  | call j oc =>
    have hm := getOrTryInit_moved hs
    by_cases hij : i = j
    · subst hij
      exact (hmo _ _ hm h).imp_right fun hR => ⟨_, rfl, hR⟩
    · rw [hm.call_of_ne hij] at h
      exact .inl h
  | invalidate key' | clear =>
    cases hs
    exact .inl h

theorem Moved.minter (h : Moved s i oc s') (hi : (s.call i).Minter key slot) :
    (s'.call i).Minter key slot ∨ (s'.call i).Failed ∨ s'.cell slot ≠ none := by
  have hn := h.call
  generalize hc : s.call i = c at hi hn
  generalize s'.call i = c' at hn
  cases hi with
  | checked =>
    cases hn
    exact .inl .minting
  | minting =>
    cases hn with
    | minted => exact .inl (.publish _)
    | fail => exact .inr (.inl (.evict _ _ _))
    | panic => exact .inr (.inl (.panicked _))
  | publish v =>
    rcases h.cell with ⟨hne, -⟩ | ⟨key', slot', v', hpub, hce⟩
    · exact absurd hc (hne _ _ _)
    · rw [hc] at hpub
      cases hpub
      exact .inr (.inr (by rw [hce, update_self]; simp))

theorem Moved.cell_ne_none (h : Moved s i oc s') (hc : s.cell slot ≠ none) :
    s'.cell slot ≠ none := by
  rcases h.cell with ⟨-, heq⟩ | ⟨key', slot', v, -, heq⟩
  · rwa [heq]
  · rw [heq]
    by_cases he : slot = slot'
    · simp [he]
    · rwa [update_of_ne he]

section

variable (h : Moved s j oc s')
include h

/-- A value in a cell was there before, or the moving call has just published it. -/
theorem Moved.cell_eq_some {m : ℕ} {v : V} (hc : s'.cell slot = some (m, v)) :
    s.cell slot = some (m, v) ∨ m = j ∧ ∃ key, s.call j = .publish key slot v := by
  rcases h.cell with ⟨-, heq⟩ | ⟨key, slot', v', hpub, heq⟩
  · exact .inl (heq ▸ hc)
  · rw [heq] at hc
    by_cases he : slot = slot'
    · subst he
      rw [update_self] at hc
      cases ho : s.cell slot <;> rw [ho] at hc <;> cases hc
      · exact .inr ⟨rfl, key, hpub⟩
      · exact .inl rfl
    · exact .inl (by rwa [update_of_ne he] at hc)

/-- A slot in the map was there before, or is a fresh one. -/
theorem Moved.live_eq_some (hl : s'.live key = some slot) :
    s.live key = some slot ∨ slot = s.next := by
  rcases h.live with ⟨heq, -⟩ | ⟨key', -, -, heq, -⟩ | ⟨key', _, _, -, -, heq, -⟩
  · exact .inl (heq ▸ hl)
  · rw [heq] at hl
    by_cases he : key = key'
    · rw [he, update_self] at hl
      exact .inr (some.inj hl).symm
    · exact .inl (by rwa [update_of_ne he] at hl)
  · exact .inl (live_of_update_none (heq ▸ hl))

theorem Moved.next_le : s.next ≤ s'.next := by
  rcases h.live with ⟨-, heq⟩ | ⟨_, -, -, -, heq⟩ | ⟨_, _, _, -, -, -, heq⟩ <;> omega

theorem Moved.live_eq (hl : s.live key = some slot)
    (he : ∀ e, s.call j ≠ .evict key slot e) : s'.live key = some slot := by
  rcases h.live with ⟨heq, -⟩ | ⟨key', -, hn, heq, -⟩ | ⟨key', slot', e, hc, hl', heq, -⟩
  · rw [heq, hl]
  · rw [heq, update_of_ne, hl]
    rintro rfl
    cases hl.symm.trans hn
  · rw [heq, update_of_ne, hl]
    rintro rfl
    cases hl.symm.trans hl'
    exact he e hc

end

theorem Standing.moved (hinv : Inv s) (h : Standing i key slot s) (hmo : Moved s j oc s') :
    Standing i key slot s' := by
  rcases h with hfa | ⟨hl, hmi⟩
  · exact .inl (call_moved (fun _ _ _ hn => hn.failed) hfa hmo)
  · have hl' := hmo.live_eq hl fun e => not_evict hinv hmi e
    rcases hmi with hmn | hce
    · by_cases hij : i = j
      · subst hij
        rcases hmo.minter hmn with hm | hf | hc
        · exact .inr ⟨hl', .inl hm⟩
        · exact .inl hf
        · exact .inr ⟨hl', .inr hc⟩
      · exact .inr ⟨hl', .inl (by rwa [hmo.call_of_ne hij])⟩
    · exact .inr ⟨hl', .inr (hmo.cell_ne_none hce)⟩

theorem Standing.step (hinv : Inv s) (h : Standing i key slot s) (hc : ¬ e.Covers key)
    (hs : step s e = some s') : Standing i key slot s' := by
  cases e with
  | start j key' =>
    obtain ⟨hid, rfl⟩ := start_eq_some hs
    have hne : (s.call i).Failed ∨ (s.call i).Minter key slot → i ≠ j := by
      rintro hi rfl
      rw [hid] at hi
      rcases hi with hi | hi <;> cases hi
    rcases h with hf | ⟨hl, hm | hce⟩
    · exact .inl (by rwa [call_goto_of_ne _ (hne (.inl hf))])
    · exact .inr ⟨hl, .inl (by rwa [call_goto_of_ne _ (hne (.inr hm))])⟩
    · exact .inr ⟨hl, .inr hce⟩
  | call j oc => exact h.moved hinv (getOrTryInit_moved hs)
  | invalidate key' =>
    obtain rfl := some.inj hs
    refine h.imp_right fun ⟨hl, hmi⟩ => ⟨?_, hmi⟩
    exact (update_of_ne (Ne.symm hc) _ _).trans hl
  | clear => exact absurd trivial hc

theorem Answered.moved (h : Answered s) (hmo : Moved s i oc s') : Answered s' := by
  have hov : ∀ m, (s.call m).Over → (s'.call m).Over :=
    fun m hm => call_moved (fun _ _ _ hn => hn.over) hm hmo
  intro slot m v hc
  rcases hmo.cell_eq_some hc with ho | ⟨rfl, key', hpub⟩
  · exact hov m (h slot m v ho)
  · have hnx := hmo.call
    rw [hpub] at hnx
    generalize s'.call m = c' at hnx ⊢
    cases hnx
    exact .leave _ _ _

theorem Answered.step (h : Answered s) (hs : step s e = some s') : Answered s' := by
  cases e with
  | start j key' =>
    obtain ⟨-, rfl⟩ := start_eq_some hs
    intro slot m v hc
    exact call_step (by rintro ⟨⟩) (fun _ _ _ hn => hn.over) _ _ _ (h slot m v hc) hs
  | call j oc => exact h.moved (getOrTryInit_moved hs)
  | invalidate key' | clear => exact some.inj hs ▸ h

theorem Moved.cleared (ha : Answered s) (hm : Moved s i oc s')
    (h : (s'.call i).Cleared i key) : (s.call i).Cleared i key ∨ Confirms i key s := by
  -- a call that has no answer yet does not find a value of its own
  have hoh : ∀ slot v, s.cell slot = some (i, v) → (s.call i).Over :=
    fun slot v => ha slot i v
  cases hm with (rw [call_goto_self] at h; rcases h with _ | _ | ⟨⟨⟩⟩)
  | confirm hc hl => exact .inr ⟨_, hc, hl⟩
  | mint hc =>
    rw [hc]
    exact .inl (.checked _)
  | minted hc =>
    rw [hc]
    exact .inl (.minting _)
  | publish hc =>
    rw [hc]
    exact .inl (.minted (.publish _ _))
  | leave hc =>
    rw [hc]
    exact .inl (.minted (.leave _ _))
  | hit hc hce | found hc hce =>
    have ho := hoh _ _ hce
    rw [hc] at ho
    cases ho

theorem exists_check (hr : run step new es = some s) (h : (s.call i).Minted i key) :
    ∃ es₁ o es₂ t, es = es₁ ++ .call i o :: es₂ ∧ run step new es₁ = some t ∧ Inv t ∧
      Confirms i key t := by
  have h0 : ¬ ((new : Sys K V E).call i).Cleared i key := by
    rintro (_ | _ | ⟨⟨⟩⟩)
  have hca : ∀ (s : Sys K V E) e s', Inv s ∧ Answered s → step s e = some s' →
      (s'.call i).Cleared i key →
        (s.call i).Cleared i key ∨ ∃ o, e = .call i o ∧ Confirms i key s :=
    fun _ _ _ hI hs => call_cause (by rintro _ (_ | _ | ⟨⟨⟩⟩)) (fun _ _ hm => hm.cleared hI.2) hs
  obtain ⟨es₁, e, es₂, t, rfl, ht, hI, o, rfl, hc⟩ :=
    exists_cause (fun s e s' h hs => ⟨h.1.step e hs, h.2.step hs⟩) hca
      ⟨inv_new, fun _ _ _ h => by cases h⟩ h0 hr (.minted h)
  exact ⟨es₁, o, es₂, t, rfl, ht, hI.1, hc⟩

theorem failed_of_confirms (hinv : Inv t) (hi : Confirms i key t)
    (hrun : run step t (.call i o :: es₂) = some t') (hj : Confirms j key t')
    (hc : ∀ e ∈ es₂, ¬ e.Covers key) : (t'.call i).Failed := by
  obtain ⟨slot, hco, hl⟩ := hi
  have hs : Standing i key slot (t.goto i (.checked key slot)) :=
    .inr ⟨hl, .inl (call_goto_self _ ▸ .checked)⟩
  have hg : t.getOrTryInit i o = some (t.goto i (.checked key slot)) := by
    rw [Sys.getOrTryInit, hco]
    exact if_pos hl
  obtain ⟨t₁, ht₁, hr⟩ := bind_eq_some_iff.1 hrun
  cases hg.symm.trans ht₁
  have hinv₁ := hinv.step (.call i o) hg
  clear hg ht₁ hrun
  generalize t.goto i (.checked key slot) = t₁ at hs hinv₁ hr
  induction es₂ generalizing t₁ with
  | nil =>
    cases hr
    exact hs.not_confirms hinv₁ hj
  | cons e es ih =>
    obtain ⟨t₂, ht₂, hr'⟩ := bind_eq_some_iff.1 hr
    exact ih (fun e' he' => hc e' (List.mem_cons_of_mem _ he')) t₂
      (hs.step hinv₁ (hc e List.mem_cons_self) ht₂) (hinv₁.step e ht₂) hr'

/-- The event at which a call passes its check, with what comes before and after. -/
structure Check (es : List (Event K V E)) (i : ℕ) (key : K) (es₁ : List (Event K V E))
    (o : Outcome V E) (es₂ : List (Event K V E)) (t : Sys K V E) : Prop where
  split : es = es₁ ++ .call i o :: es₂
  run : Runs.run step new es₁ = some t
  confirms : Confirms i key t

theorem covered_of_split {es₁ mid es₂' : List (Event K V E)} (hinv : Inv t)
    (hi : Check es i key es₁ o es₂ t) (hj : Check es j key (es₁ ++ .call i o :: mid) o' es₂' t')
    (hr : run step new es = some s) (hmi : (s.call i).Minted i key) : ∃ e ∈ mid, e.Covers key := by
  obtain ⟨t₁, ht₁, hm⟩ := run_append_eq_some.1 hj.run
  cases hi.run.symm.trans ht₁
  obtain ⟨t₂, ht₂, hre⟩ := run_append_eq_some.1 (hj.split ▸ hr)
  cases hj.run.symm.trans ht₂
  by_contra hno
  have hf : (t'.call i).Failed :=
    failed_of_confirms hinv hi.confirms hm hj.confirms fun e he hc => hno ⟨e, he, hc⟩
  have hend : (s.call i).Failed :=
    invariant_of_run (I := fun s => (s.call i).Failed)
      (call_step (by rintro ⟨⟩) fun _ _ _ hn => hn.failed) hf hre
  generalize s.call i = c at hend hmi
  cases hmi <;> cases hend

section

variable (h : After n old key i s)
include h

theorem After.recent_moved (hm : Moved s i oc s') : (s'.call i).Recent n old key := by
  have hr := h.recent
  cases hm with rw [call_goto_self]
  | join hc hl =>
    rintro rfl
    exact h.live _ hl
  | install hc hl => exact fun _ => h.next
  | hit hc hce =>
    rw [hc] at hr
    exact fun hk => h.cell _ _ _ (hr hk) hce
  | found hc hce =>
    rw [hc] at hr
    exact fun hk => ⟨hr hk, h.cell _ _ _ (hr hk) hce⟩
  | publish hc =>
    rw [hc] at hr
    exact fun hk => ⟨hr hk, h.self⟩
  | evict hc =>
    rw [hc] at hr
    exact fun hk => ⟨hr hk, trivial⟩
  | leave hc =>
    rw [hc] at hr
    exact fun hk => (hr hk).2
  | retry hc => trivial
  | refuse hc | panic hc => exact fun _ => trivial
  | miss hc | lock hc | empty hc | confirm hc | orphan hc | mint hc | minted hc | fail hc =>
    rwa [hc] at hr

theorem After.moved (hm : Moved s j oc s') : After n old key i s' := by
  refine ⟨?_, fun slot hl => ?_, fun slot m v hs hc ho => ?_,
    fun m ho => call_moved (fun _ _ _ hn => hn.late) (h.late m ho) hm, ?_, h.self⟩
  · exact h.next.trans hm.next_le
  · rcases hm.live_eq_some hl with hl | rfl
    · exact h.live slot hl
    · exact h.next
  · rcases hm.cell_eq_some hc with hc | ⟨rfl, key', hpub⟩
    · exact h.cell slot m v hs hc ho
    · have hla := h.late m ho
      rw [hpub] at hla
      rcases hla with _ | ⟨_, _, _, hlt⟩ | _ | ⟨⟨⟩⟩
      exact absurd hlt (not_lt.2 hs)
  · by_cases hij : i = j
    · subst hij
      exact h.recent_moved hm
    · rw [hm.call_of_ne hij]
      exact h.recent

theorem After.step (hs : step s e = some s') : After n old key i s' := by
  cases e with
  | start j key' =>
    obtain ⟨-, rfl⟩ := start_eq_some hs
    refine { h with late := fun m ho => ?_, recent := ?_ }
    · exact call_step (by rintro (_ | _ | _ | ⟨⟨⟩⟩)) (fun _ _ _ hn => hn.late) _ _ _ (h.late m ho)
        hs
    · by_cases hij : i = j
      · subst hij
        rw [call_goto_self]
        trivial
      · rw [call_goto_of_ne _ hij]
        exact h.recent
  | call j oc => exact h.moved (getOrTryInit_moved hs)
  | invalidate key' =>
    cases hs
    exact { h with live := fun slot hl => h.live slot (live_of_update_none hl) }
  | clear =>
    cases hs
    exact { h with live := fun slot hl => (by cases hl) }

end

theorem after_invalidation (hinv : Inv s) (hid : s.call i = .idle) (hco : e.Covers key)
    (hst : step s e = some s') : After s.next (fun m => (s.call m).Begun) key i s' := by
  have hla : ∀ m, (s.call m).Begun → (s.call m).Late s.next := fun m hm => by
    have hs := (hinv.placed m).slot
    generalize s.call m = c at hm hs
    cases hm with
    | minting key slot => exact .minting _ _ (hs slot rfl)
    | publish key slot v => exact .publish _ _ _ (hs slot rfl)
    | evict key slot e => exact .evict _ _ _
    | leave key slot r => exact .answered (.leave _ _ _)
    | returned key r => exact .answered (.returned _ _)
  have hse : ¬ (s.call i).Begun := by
    rw [hid]
    rintro ⟨⟩
  have hce : ∀ slot m v, s.next ≤ slot → s.cell slot = some (m, v) → ¬ (s.call m).Begun :=
    fun slot m v hs hc => by cases (hinv.fresh slot hs).1.symm.trans hc
  have hr : (s.call i).Recent s.next (fun m => (s.call m).Begun) key := by
    rw [hid]
    trivial
  cases e with
  | start j key' => exact hco.elim
  | call j oc => exact hco.elim
  | invalidate key' =>
    cases hst
    cases hco
    exact ⟨le_rfl, fun slot hl => (by simp [Sys.invalidate] at hl), hce, hla, hr, hse⟩
  | clear =>
    cases hst
    exact ⟨le_rfl, fun slot hl => (by cases hl), hce, hla, hr, hse⟩

theorem exists_failure (hr : run step new es = some s) (h : (s.call i).Carries key err) :
    ∃ es₁ es₂ t slot, es = es₁ ++ .call i (.err err) :: es₂ ∧ run step new es₁ = some t ∧
      t.call i = .minting key slot := by
  have hca : ∀ (s : Sys K V E) e s', True → step s e = some s' → (s'.call i).Carries key err →
      (s.call i).Carries key err ∨
        ∃ o, e = .call i o ∧ o = .err err ∧ ∃ slot, s.call i = .minting key slot := by
    intro s e s' _ hs
    refine call_cause (by rintro _ ⟨⟩) (fun o s' hm hc => ?_) hs
    have hn := hm.call
    generalize s.call i = c at hn ⊢
    generalize s'.call i = c' at hc hn
    cases hc with
    | evict slot =>
      cases hn
      exact .inr ⟨rfl, slot, rfl⟩
    | leave slot =>
      cases hn
      exact .inl (.evict slot)
    | returned =>
      cases hn
      exact .inl (.leave _)
  obtain ⟨es₁, e, es₂, t, rfl, ht, -, o, rfl, rfl, slot, hc⟩ :=
    exists_cause (fun _ _ _ _ _ => trivial) hca trivial
      (by rintro ⟨⟩) hr h
  exact ⟨es₁, es₂, t, slot, rfl, ht, hc⟩

theorem gone_step (s : Sys K V E) (e : Event K V E) (s' : Sys K V E) (h : Gone key slot s)
    (hst : step s e = some s') : Gone key slot s' := by
  cases e with
  | start j key' =>
    obtain ⟨-, rfl⟩ := start_eq_some hst
    exact h
  | call j oc =>
    have hm := getOrTryInit_moved hst
    refine ⟨h.1.trans_le hm.next_le, fun hs => ?_⟩
    rcases hm.live_eq_some hs with hs | rfl
    · exact h.2 hs
    · exact absurd h.1 (lt_irrefl _)
  | invalidate key' =>
    cases hst
    exact ⟨h.1, fun hs => h.2 (live_of_update_none hs)⟩
  | clear =>
    cases hst
    exact ⟨h.1, fun hs => (by cases hs)⟩

theorem Inv.evict_step (hinv : Inv s) (hc : s.call i = .evict key slot err)
    (hst : s.getOrTryInit i oc = some s') :
    (s'.call i).Carries key err ∧ Gone key slot s' ∧ ∀ key', s'.live key' = s.live key' ∨
        key' = key ∧ s.live key = some slot ∧ s.cell slot = none := by
  have hv : (s.call i).vacant = some slot := by rw [hc]; rfl
  have hlt : slot < s.next := (hinv.placed i).slot slot (slot_of_held (held_of_vacant hv))
  rw [Sys.getOrTryInit, hc] at hst
  obtain rfl := some.inj hst
  refine ⟨call_goto_self _ ▸ .leave _, ⟨hlt, fun hs => ?_⟩, fun key' => ?_⟩
  · simp only [Sys.goto] at hs
    split_ifs at hs with hl
    · rw [update_self] at hs
      cases hs
    · exact hl hs
  · split_ifs with hl
    · by_cases he : key' = key
      · exact .inr ⟨he, hl, (hinv.placed i).vacant slot hv⟩
      · exact .inl (update_of_ne he _ _)
    · exact .inl rfl

end

theorem mints_exclude_each_other {K V E : Type*} [DecidableEq K] :
    (∀ (es : List (Event K V E)) (s : Sys K V E) (i j : ℕ) (key : K), i ≠ j →
      run step new es = some s → (s.call i).Minted i key → (s.call j).Minted j key →
        ∃ a b es₁ o es₂ o' es₃ t t', (a = i ∧ b = j ∨ a = j ∧ b = i) ∧
          Check es a key es₁ o (es₂ ++ .call b o' :: es₃) t ∧
          Check es b key (es₁ ++ .call a o :: es₂) o' es₃ t' ∧ ∃ e ∈ es₂, e.Covers key) ∧
    (∀ (es₁ es₂ : List (Event K V E)) (e : Event K V E) (s s₁ s₂ : Sys K V E) (key : K)
      (i m : ℕ) (v : V), run step new es₁ = some s → s.call i = .idle → e.Covers key →
        step s e = some s₁ → run step s₁ es₂ = some s₂ →
        s₂.call i = .returned key (.value m v) → ¬ (s.call m).Begun) ∧
    (∀ (es : List (Event K V E)) (s : Sys K V E) (key : K) (i : ℕ) (err : E),
      run step new es = some s → (s.call i).Carries key err →
        (∃ es₁ es₂ t slot, es = es₁ ++ .call i (.err err) :: es₂ ∧
          run step new es₁ = some t ∧ t.call i = .minting key slot) ∧
        ∀ es' s', run step s es' = some s' → (s'.call i).Carries key err) ∧
    ∀ (es : List (Event K V E)) (s s₁ : Sys K V E) (key : K) (i slot : ℕ) (err : E)
      (o : Outcome V E), run step new es = some s → s.call i = .evict key slot err →
        step s (.call i o) = some s₁ →
        (∀ key', s₁.live key' = s.live key' ∨
          key' = key ∧ s.live key = some slot ∧ s.cell slot = none) ∧
        ∀ es' s₂, run step s₁ es' = some s₂ → s₂.live key ≠ some slot := by
  have hinv : ∀ {es : List (Event K V E)} {s : Sys K V E}, run step new es = some s → Inv s :=
    fun hr => invariant_of_run (fun _ e _ h => h.step e) inv_new hr
  refine ⟨fun es s i j key hne hr hi hj => ?_, fun es₁ es₂ e s s₁ s₂ key i m v hr hid hco
    hst hre hret => ?_, fun es s key i err hr hc => ⟨exists_failure hr hc, ?_⟩,
    fun es s s₁ key i slot err o hr hc hst => ?_⟩
  · obtain ⟨es₁, o, es₂, t, hs, ht, hI, hcn⟩ := exists_check hr hi
    obtain ⟨es₁', o', es₂', t', hs', ht', hI', hco'⟩ := exists_check hr hj
    have hci : Check es i key es₁ o es₂ t := ⟨hs, ht, hcn⟩
    have hcj : Check es j key es₁' o' es₂' t' := ⟨hs', ht', hco'⟩
    rcases split_checks hne hs hs' with ⟨mid, rfl, rfl⟩ | ⟨mid, rfl, rfl⟩
    · exact ⟨i, j, es₁, o, mid, o', es₂', t, t', .inl ⟨rfl, rfl⟩, hci, hcj,
        covered_of_split hI hci hcj hr hi⟩
    · exact ⟨j, i, es₁', o', mid, o, es₂, t', t, .inr ⟨rfl, rfl⟩, hcj, hci,
        covered_of_split hI' hcj hci hr hj⟩
  · have ha := invariant_of_run (fun _ _ _ h => h.step)
      (after_invalidation (hinv hr) hid hco hst) hre
    have hrc := ha.recent
    rw [hret] at hrc
    exact hrc rfl
  · exact fun es' s' hre => invariant_of_run (I := fun s => (s.call i).Carries key err)
      (call_step (by rintro ⟨⟩) fun _ _ _ hn => hn.carries) hc hre
  · obtain ⟨-, hg, hl⟩ := (hinv hr).evict_step hc hst
    exact ⟨hl, fun es' s₂ hre => (invariant_of_run gone_step hg hre).2⟩

/-- Call 0 passes its check, the key is invalidated, and then two mints begin. -/
def raced : List (Event Unit ℕ Unit) × List (Event Unit ℕ Unit) :=
  ([.start 0 (), .call 0 .panic, .call 0 .panic, .call 0 .panic, .call 0 .panic, .call 0 .panic,
    .invalidate ()],
   [.call 0 .panic, .start 1 (), .call 1 .panic, .call 1 .panic, .call 1 .panic, .call 1 .panic,
    .call 1 .panic, .call 1 .panic, .call 0 (.ok 10), .call 0 .panic, .call 1 (.ok 11),
    .call 1 .panic])

/-- Both mints succeed, and the invalidation lies between their checks. -/
theorem mints_exclude_each_other_raced :
    ∃ a b es₁ o es₂ o' es₃ t t', (a = 0 ∧ b = 1 ∨ a = 1 ∧ b = 0) ∧
      Check (raced.1 ++ raced.2) a () es₁ o (es₂ ++ .call b o' :: es₃) t ∧
      Check (raced.1 ++ raced.2) b () (es₁ ++ .call a o :: es₂) o' es₃ t' ∧
      ∃ e ∈ es₂, e.Covers () :=
  mints_exclude_each_other.1 (raced.1 ++ raced.2) _ 0 1 () (by decide) rfl (.leave _ _) (.leave _ _)

/-- Neither mint had begun at the only invalidation, and both succeed. -/
theorem minted_twice_after_invalidation :
    ∃ s s', run step (new : Sys Unit ℕ Unit) raced.1 = some s ∧
      ¬ (s.call 0).Begun ∧ ¬ (s.call 1).Begun ∧ (∀ e ∈ raced.2, ¬ e.Covers ()) ∧
      run step s raced.2 = some s' ∧ (s'.call 0).Minted 0 () ∧ (s'.call 1).Minted 1 () := by
  refine ⟨_, _, rfl, ?_, ?_, ?_, rfl, .leave _ _, .leave _ _⟩
  · rintro ⟨⟩
  · rintro ⟨⟩
  · simp [raced, Event.Covers]

end TruenasRos.UringFs.SingleFlight
