import TruenasRos.Audit.Record

/-! # Reading audit records

What a reader does with the text of a record: cut it at the spaces and each token at its first
`=`, and decode what is behind it. This gets back the fields of the event and no others.
-/

namespace TruenasRos.Audit

open List Octets

variable {key value t : Text} {e : AuditEvent} {f : Text × Text} {c : Char}

def splitOnce : Text → Option (Text × Text)
  | [] => none
  | c :: t => if c = '=' then some ([], t) else (splitOnce t).map fun p => (c :: p.1, p.2)

def unquote : Text → Option Text
  | '"' :: t => if t.getLast? = some '"' then some t.dropLast else none
  | _ => none

/-- A quoted text verbatim, and otherwise pairs of upper-case digits. -/
def decodeValue (v : Text) : Option (List UInt8) :=
  match unquote v with
  | some t => some (utf8 t)
  | none => unhex v

/-- The operation may also be bare, which its colon tells. -/
def decodeOp (v : Text) : Option (List UInt8) :=
  match unquote v with
  | some t => some (utf8 t)
  | none => if ':' ∈ v then some (utf8 v) else unhex v

/-- The token gives the name, and its value decodes to the octets of the text. -/
def Reads (decode : Text → Option (List UInt8)) (token : Text) (field : Text × Text) : Prop :=
  ∃ v, splitOnce token = some (field.1, v) ∧ decode v = some (utf8 field.2)

/-- Printable ASCII, and neither a space nor an apostrophe. -/
def TokenLetter (n : ℕ) : Prop := 0x21 ≤ n ∧ n ≤ 0x7e ∧ n ≠ 0x27

theorem tokenLetter_of_mem_token (hf : ∀ c ∈ f.1, KeyLetter c.toNat)
    (hc : c ∈ token f) : TokenLetter c.toNat := by
  unfold TokenLetter
  rw [token, mem_append, mem_cons] at hc
  rcases hc with hc | rfl | hc
  · have := (hf c hc).clean.1
    unfold Clean at this
    omega
  · decide
  · split_ifs at hc with he
    · have := mem_hex hc
      omega
    · rw [mem_cons, mem_append, mem_singleton] at hc
      rcases hc with rfl | hc | rfl
      · decide
      · have := needsEncoding_eq_false.1 (by simpa using he) c hc
        unfold Clean at this
        omega
      · decide

theorem tokenLetter_of_mem_opToken {op : Text} (hc : c ∈ opToken op) : TokenLetter c.toNat := by
  unfold TokenLetter
  rw [opToken, mem_append, mem_cons] at hc
  rcases hc with hc | rfl | hc
  · rcases mem_pair.1 hc with rfl | rfl <;> decide
  · decide
  · split_ifs at hc with he
    · have := mem_hex hc
      omega
    · have := needsEncoding_eq_false.1 (by simpa using he) c hc
      unfold Clean at this
      omega

theorem keyLetter_described (hf : f ∈ e.described) : ∀ c ∈ f.1, KeyLetter c.toNat := by
  have hfi : ∀ key ∈ ["acct".toList, "acct_uid".toList, "addr".toList, "cred".toList],
      ∀ c ∈ key, KeyLetter c.toNat := by
    intro key hk
    refine forall_iff_forall_mem.1 ?_
    unfold KeyLetter
    fin_cases hk <;> decide
  simp only [AuditEvent.described, mem_append, Option.mem_toList, Option.map_eq_some_iff,
    mem_map] at hf
  obtain ((((⟨v, -, rfl⟩ | ⟨n, -, rfl⟩) | ⟨v, -, rfl⟩) | ⟨v, -, rfl⟩) | ⟨g, -, rfl⟩) := hf
  on_goal 5 => exact fun c hc => keyLetter_of_mem_repaired hc
  all_goals exact hfi _ (by simp)

theorem splitOnce_append (h : '=' ∉ key) : splitOnce (key ++ '=' :: t) = some (key, t) := by
  induction key with
  | nil => rfl
  | cons c key ih =>
    rw [mem_cons, not_or] at h
    rw [cons_append, splitOnce, if_neg fun hc => h.1 hc.symm, ih h.2]
    rfl

theorem unquote_quoted (value : Text) : unquote ('"' :: (value ++ ['"'])) = some value := by
  simp [unquote]

theorem unquote_of_notMem (h : '"' ∉ value) : unquote value = none := by
  cases value with
  | nil => rfl
  | cons c value =>
    unfold unquote
    split
    · rename_i heq
      rw [List.cons.injEq] at heq
      exact absurd (by simp [heq.1]) h
    · rfl

theorem notMem_hex {bs : List UInt8} (h : ¬ ((48 ≤ c.toNat ∧ c.toNat ≤ 57) ∨
    (65 ≤ c.toNat ∧ c.toNat ≤ 70))) : c ∉ hex bs := fun hc => h (mem_hex hc)

theorem reads_token (hf : ∀ c ∈ f.1, KeyLetter c.toNat) : Reads decodeValue (token f) f := by
  have hk : '=' ∉ f.1 := fun hc => absurd (hf _ hc).clean.2 (by decide)
  refine ⟨_, splitOnce_append hk, ?_⟩
  split_ifs with he
  · rw [decodeValue, unquote_of_notMem (notMem_hex (by decide))]
    exact unhex_hex _
  · rw [decodeValue, unquote_quoted]

theorem reads_opToken (e : AuditEvent) :
    Reads decodeOp (opToken e.operation) ("op".toList, e.operation) := by
  refine ⟨_, splitOnce_append (by decide), ?_⟩
  split_ifs with he
  · have hq : '"' ∉ hex (utf8 e.operation) := notMem_hex (by decide)
    have hco : ':' ∉ hex (utf8 e.operation) := notMem_hex (by decide)
    rw [decodeOp, unquote_of_notMem hq]
    simpa only [if_neg hco] using unhex_hex _
  · have hq : '"' ∉ e.operation := fun hc =>
      absurd (needsEncoding_eq_false.1 (by simpa using he) _ hc).2.2.1 (by decide)
    have hco : ':' ∈ e.operation := by simp [AuditEvent.operation]
    rw [decodeOp, unquote_of_notMem hq]
    simp [if_pos hco]

theorem Reads.unique {decode : Text → Option (List UInt8)} {f g : Text × Text}
    (hf : Reads decode t f) (hg : Reads decode t g) : f = g := by
  obtain ⟨v, hv, hd⟩ := hf
  obtain ⟨w, hw, hdw⟩ := hg
  rw [hv, Option.some.injEq, Prod.mk.injEq] at hw
  rw [hw.2, hdw, Option.some.injEq] at hd
  exact Prod.ext hw.1 (utf8_injective hd.symm)

theorem outcome_injective : Function.Injective outcome := by decide

theorem splitOn_writeMessage (e : AuditEvent) : (e.writeMessage []).splitOn ' ' =
    opToken e.operation :: (e.described.map token ++ [outcome e.success]) := by
  have hsp : ∀ {c : Char}, TokenLetter c.toNat → c ≠ ' ' := by
    rintro c hc rfl
    exact absurd hc.1 (by decide)
  rw [(written_writeMessage e).text, splitOn_intercalate _ _ (by simp)]
  intro t ht hmem
  rw [mem_cons, mem_append, mem_singleton] at ht
  rcases ht with rfl | ht | rfl
  · exact hsp (tokenLetter_of_mem_opToken hmem) rfl
  · obtain ⟨f, hf, rfl⟩ := mem_map.1 ht
    exact hsp (tokenLetter_of_mem_token (keyLetter_described hf) hmem) rfl
  · cases hs : e.success <;> simp [hs, outcome] at hmem

theorem octets_writeMessage (e : AuditEvent) :
    ∀ b ∈ utf8 (e.writeMessage []), 0x20 ≤ b.toNat ∧ b.toNat ≤ 0x7e ∧ b.toNat ≠ 0x27 := by
  let Plain (n : ℕ) : Prop := 0x20 ≤ n ∧ n ≤ 0x7e ∧ n ≠ 0x27
  have hpl : ∀ {n}, TokenLetter n → Plain n := fun h => ⟨by have := h.1; omega, h.2⟩
  refine (forall_mem_utf8 (p := Plain) fun n hn => by have := hn.2.1; omega).2 fun c hc => ?_
  by_cases hs : c = ' '
  · rw [hs]
    decide
  · -- a letter other than a space is inside one of the tokens
    have hto : ∃ t ∈ (e.writeMessage []).splitOn ' ', c ∈ t := by
      have hmem : c ∈ [' '].intercalate ((e.writeMessage []).splitOn ' ') := by
        rwa [intercalate_splitOn]
      exact Lines.exists_mem_of_mem_intercalate hmem (by simpa using hs)
    rw [splitOn_writeMessage] at hto
    obtain ⟨t, ht, hct⟩ := hto
    rw [mem_cons, mem_append, mem_singleton] at ht
    rcases ht with rfl | ht | rfl
    · exact hpl (tokenLetter_of_mem_opToken hct)
    · obtain ⟨f, hf, rfl⟩ := mem_map.1 ht
      exact hpl (tokenLetter_of_mem_token (keyLetter_described hf) hct)
    · have hall : ∀ b, (outcome b).Forall fun c => Plain c.toNat := by
        decide
      exact forall_iff_forall_mem.1 (hall _) c hct

/-- Split at its spaces, a record is the operation, one token for each field described and the
outcome, and each token gives its name and decodes to its value. Two events are written alike
only where they describe the same. -/
theorem record_reads_back (e : AuditEvent) :
    (∃ op fields, (e.writeMessage []).splitOn ' ' = op :: (fields ++ [outcome e.success]) ∧
      Reads decodeOp op ("op".toList, e.operation) ∧
      List.Forall₂ (Reads decodeValue) fields e.described) ∧
    (∀ b ∈ utf8 (e.writeMessage []), 0x20 ≤ b.toNat ∧ b.toNat ≤ 0x7e ∧ b.toNat ≠ 0x27) ∧
    ∀ e' : AuditEvent, e'.writeMessage [] = e.writeMessage [] ↔
      e'.operation = e.operation ∧ e'.described = e.described ∧ e'.success = e.success := by
  have hfi : ∀ e : AuditEvent,
      List.Forall₂ (Reads decodeValue) (e.described.map token) e.described := fun e => by
    rw [forall₂_map_left_iff, forall₂_same]
    exact fun f hf => reads_token (keyLetter_described hf)
  refine ⟨⟨_, _, splitOn_writeMessage e, reads_opToken e, hfi e⟩, octets_writeMessage e,
    fun e' => ⟨fun h => ?_, fun ⟨ho, hd, hs⟩ => ?_⟩⟩
  · have ht := splitOn_writeMessage e'
    rw [h, splitOn_writeMessage e, List.cons.injEq] at ht
    obtain ⟨ho, hta⟩ := ht
    obtain ⟨hm, hl⟩ := append_inj' hta rfl
    refine ⟨?_, ?_, ?_⟩
    · have hr := reads_opToken e'
      rw [← ho] at hr
      exact congrArg Prod.snd (hr.unique (reads_opToken e))
    · have hr := hfi e'
      rw [← hm] at hr
      have hu : Relator.RightUnique (Reads decodeValue) := fun _ _ _ => Reads.unique
      exact right_unique_forall₂' hu hr (hfi e)
    · exact outcome_injective (singleton_inj.1 hl).symm
  · rw [(written_writeMessage e').text, (written_writeMessage e).text, ho, hd, hs]

end TruenasRos.Audit
