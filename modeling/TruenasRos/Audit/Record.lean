import TruenasRos.Lib.Octets

/-! # Audit records

The text of an audit record, written token by token into a buffer: a value made of printable
ASCII is quoted, any other is written as hexadecimal digits, and a key is repaired. The text is
the operation, the fields the event describes and the outcome, one token each.
-/

namespace TruenasRos.Audit

open List Octets Nat Bool

abbrev Text := List Char

structure AuditPrincipal where
  user : Option Text
  uid : Option UInt32
  addr : Option Text
  cred : Option Text

structure AuditEvent where
  service : Text
  verb : Text
  principal : AuditPrincipal
  fields : List (Text × Text)
  success : Bool

def separate (out : Text) : Text := if out.isEmpty then out else out ++ [' ']

/-- A quote of either kind, or an octet that is not printable ASCII. -/
def needsEncoding (value : Text) : Bool :=
  (utf8 value).any fun b => b == 0x22 || b == 0x27 || !(0x21 ≤ b && b ≤ 0x7e)

def fromDigit (n radix : ℕ) : Option Char := if n < radix then some n.digitChar else none

def nibbles (b : UInt8) : Text :=
  let hi := (fromDigit (b >>> 4).toNat 16).getD '0'
  let lo := (fromDigit (b &&& 0x0f).toNat 16).getD '0'
  [hi.toUpper, lo.toUpper]

def encodeNv (out key value : Text) : Text :=
  separate out ++ key ++ ['='] ++
    if needsEncoding value then (utf8 value).flatMap nibbles else ['"'] ++ value ++ ['"']

def isAsciiAlphanumeric (n : ℕ) : Bool :=
  (0x30 ≤ n && n ≤ 0x39) || (0x41 ≤ n && n ≤ 0x5a) || (0x61 ≤ n && n ≤ 0x7a)

def sanitizeKey (key : Text) : Text :=
  key.map fun c => if isAsciiAlphanumeric c.toNat then c else '_'

def pushField (out key value : Text) : Text :=
  if (utf8 key).all fun b => isAsciiAlphanumeric b.toNat || b == 0x5f then encodeNv out key value
  else encodeNv out (sanitizeKey key) value

def pushOpt (out key : Text) : Option Text → Text
  | some v => encodeNv out key v
  | none => out

/-- The digits need no encoding and are written straight into the quotes. -/
def pushUid (out : Text) : Option UInt32 → Text
  | some uid => separate out ++ "acct_uid=\"".toList ++ toDigits 10 uid.toNat ++ ['"']
  | none => out

/-- The operation is a bare token where both halves are clean. -/
def pushOp (out service verb : Text) : Text :=
  if needsEncoding service || needsEncoding verb then
    encodeNv out "op".toList (service ++ [':'] ++ verb)
  else separate out ++ "op=".toList ++ service ++ [':'] ++ verb

def AuditEvent.writeMessage (e : AuditEvent) (out : Text) : Text :=
  let out := pushOp out e.service e.verb
  let out := pushOpt out "acct".toList e.principal.user
  let out := pushUid out e.principal.uid
  let out := pushOpt out "addr".toList e.principal.addr
  let out := pushOpt out "cred".toList e.principal.cred
  let out := e.fields.foldl (fun out f => pushField out f.1 f.2) out
  separate out ++ if e.success then "res=success".toList else "res=failed".toList

def repaired (key : Text) : Text :=
  key.map fun c => if isAsciiAlphanumeric c.toNat ∨ c = '_' then c else '_'

def AuditEvent.operation (e : AuditEvent) : Text := e.service ++ [':'] ++ e.verb

/-- The names and values an event puts between the operation and the outcome. -/
def AuditEvent.described (e : AuditEvent) : List (Text × Text) :=
  (e.principal.user.map fun v => ("acct".toList, v)).toList ++
  (e.principal.uid.map fun n => ("acct_uid".toList, toDigits 10 n.toNat)).toList ++
  (e.principal.addr.map fun v => ("addr".toList, v)).toList ++
  (e.principal.cred.map fun v => ("cred".toList, v)).toList ++
  e.fields.map fun f => (repaired f.1, f.2)

def outcome (success : Bool) : Text :=
  if success then "res=success".toList else "res=failed".toList

variable {out key value t : Text} {ts : List Text} {e e' : AuditEvent} {f : Text × Text} {n : ℕ}
  {c : Char}

/-- Printable ASCII other than the quotes. -/
def Clean (n : ℕ) : Prop := 0x21 ≤ n ∧ n ≤ 0x7e ∧ n ≠ 0x22 ∧ n ≠ 0x27

theorem needsEncoding_eq_false : needsEncoding value = false ↔ ∀ c ∈ value, Clean c.toNat := by
  rw [← forall_mem_utf8 fun n hn => by unfold Clean at hn; omega, needsEncoding,
    any_eq_false]
  refine forall₂_congr fun b _ => ?_
  simp [Clean, UInt8.le_iff_toNat_le, ← UInt8.toNat_inj]
  omega

theorem nibbles_eq (b : UInt8) :
    nibbles b = [hexDigit (b.toNat / 16), hexDigit (b.toNat % 16)] := by
  have hb : b.toNat < 256 := b.toNat_lt
  have hh : (b >>> 4).toNat = b.toNat / 16 := by simp [shiftRight_eq_div_pow]
  have hl : (b &&& 0x0f).toNat = b.toNat % 16 := by
    simpa using and_two_pow_sub_one_eq_mod b.toNat 4
  rw [nibbles, hh, hl, fromDigit, if_pos (by omega), fromDigit, if_pos (by omega)]
  rfl

def KeyLetter (n : ℕ) : Prop := isAsciiAlphanumeric n ∨ n = 0x5f

theorem KeyLetter.lt (h : KeyLetter n) : n < 128 := by
  simp only [KeyLetter, isAsciiAlphanumeric, or_eq_true, and_eq_true,
    decide_eq_true_eq] at h
  omega

theorem KeyLetter.clean (h : KeyLetter n) : Clean n ∧ n ≠ 0x3d := by
  simp only [KeyLetter, isAsciiAlphanumeric, or_eq_true, and_eq_true,
    decide_eq_true_eq] at h
  unfold Clean
  omega

theorem keyLetter_of_mem_repaired (h : c ∈ repaired key) : KeyLetter c.toNat := by
  obtain ⟨d, -, rfl⟩ := mem_map.1 h
  split_ifs with hd
  · rcases hd with hd | rfl
    · exact Or.inl hd
    · exact Or.inr rfl
  · exact Or.inr rfl

theorem repaired_of_keyLetter (h : ∀ c ∈ key, KeyLetter c.toNat) : repaired key = key := by
  refine (map_congr_left fun c hc => ?_).trans (map_id key)
  rcases h c hc with ha | hc
  · rw [if_pos (Or.inl ha), id]
  · rw [if_pos (Or.inr (Char.toNat_inj.1 hc)), id]

theorem sanitizeKey_eq (key : Text) : sanitizeKey key = repaired key := by
  refine map_congr_left fun c _ => ?_
  by_cases hc : c = '_'
  · rw [hc]
    rfl
  · simp [hc]

def token (f : Text × Text) : Text :=
  f.1 ++ '=' :: if needsEncoding f.2 then hex (utf8 f.2) else '"' :: (f.2 ++ ['"'])

def opToken (op : Text) : Text :=
  "op".toList ++ '=' :: if needsEncoding op then hex (utf8 op) else op

theorem encodeNv_eq : encodeNv out key value = separate out ++ token (key, value) := by
  have hh : (utf8 value).flatMap nibbles = hex (utf8 value) := by
    exact flatMap_congr fun b _ => nibbles_eq b
  rw [encodeNv, token, hh]
  simp

theorem pushField_eq : pushField out key value = separate out ++ token (repaired key, value) := by
  have hle : ((utf8 key).all fun b => isAsciiAlphanumeric b.toNat || b == 0x5f) = true ↔
      ∀ c ∈ key, KeyLetter c.toNat := by
    rw [← forall_mem_utf8 fun n => KeyLetter.lt, all_eq_true]
    refine forall₂_congr fun b _ => ?_
    simp [KeyLetter, ← UInt8.toNat_inj]
  rw [pushField]
  split_ifs with h
  · rw [encodeNv_eq, repaired_of_keyLetter (hle.1 h)]
  · rw [encodeNv_eq, sanitizeKey_eq]

theorem clean_of_mem_toDigits (h : c ∈ toDigits 10 n) : Clean c.toNat := by
  have hd := isDigit_of_mem_toDigits (by omega) (by omega) h
  simp only [Char.isDigit, and_eq_true, decide_eq_true_eq, UInt32.le_iff_toNat_le] at hd
  have h0 : 48 ≤ c.toNat := hd.1
  have h9 : c.toNat ≤ 57 := hd.2
  unfold Clean
  omega

theorem pushUid_eq (n : UInt32) :
    pushUid out (some n) = separate out ++ token ("acct_uid".toList, toDigits 10 n.toNat) := by
  have hcl : needsEncoding (toDigits 10 n.toNat) = false :=
    needsEncoding_eq_false.2 fun c hc => clean_of_mem_toDigits hc
  rw [pushUid, token, hcl]
  simp

theorem pushOp_eq (e : AuditEvent) :
    pushOp out e.service e.verb = separate out ++ opToken e.operation := by
  -- the colon is clean, so that the two halves decide
  have ho : needsEncoding e.operation = (needsEncoding e.service || needsEncoding e.verb) := by
    have hc : needsEncoding [':'] = false := rfl
    have ha : ∀ s t, needsEncoding (s ++ t) = (needsEncoding s || needsEncoding t) := by
      simp [needsEncoding, utf8]
    rw [AuditEvent.operation, ha, ha, hc, Bool.or_false]
  rw [pushOp, ← ho, opToken]
  split_ifs with h
  · rw [encodeNv_eq, token, ← AuditEvent.operation, if_pos h]
  · simp [AuditEvent.operation]

/-- The buffer holds these tokens, one space apart. -/
structure Written (out : Text) (ts : List Text) : Prop where
  text : out = [' '].intercalate ts
  solid : ∀ t ∈ ts, t ≠ []

theorem Written.nil : Written [] [] := ⟨rfl, by simp⟩

theorem Written.push (h : Written out ts) (ht : t ≠ []) :
    Written (separate out ++ t) (ts ++ [t]) := by
  refine ⟨?_, fun u hu => ?_⟩
  · cases ts with
    | nil =>
      rw [h.text]
      simp [separate]
    | cons u ts =>
      have hne : out ≠ [] := by
        rw [h.text]
        cases ts with
        | nil => simpa using h.solid u (by simp)
        | cons v ts => simp
      rw [Lines.intercalate_concat _ (by simp), ← h.text, separate, if_neg (by simpa using hne)]
  · rcases mem_append.1 hu with hu | hu
    · exact h.solid u hu
    · exact mem_singleton.1 hu ▸ ht

theorem token_ne_nil (f : Text × Text) : token f ≠ [] := by simp [token]

theorem Written.pushOpt (h : Written out ts) (key : Text) (value : Option Text) :
    Written (pushOpt out key value) (ts ++ (value.map fun v => (key, v)).toList.map token) := by
  cases value with
  | none => simpa [Audit.pushOpt] using h
  | some v =>
    rw [Audit.pushOpt, encodeNv_eq]
    exact h.push (token_ne_nil _)

theorem Written.pushUid (h : Written out ts) (uid : Option UInt32) :
    Written (pushUid out uid) (ts ++ (uid.map fun n =>
      ("acct_uid".toList, toDigits 10 n.toNat)).toList.map token) := by
  cases uid with
  | none => simpa [Audit.pushUid] using h
  | some n =>
    rw [pushUid_eq]
    exact h.push (token_ne_nil _)

theorem Written.pushFields (h : Written out ts) (fields : List (Text × Text)) :
    Written (fields.foldl (fun out f => pushField out f.1 f.2) out)
      (ts ++ (fields.map fun f => (repaired f.1, f.2)).map token) := by
  induction fields generalizing out ts with
  | nil => simpa using h
  | cons f fields ih =>
    rw [foldl_cons, pushField_eq]
    have hr := ih (h.push (token_ne_nil (repaired f.1, f.2)))
    rwa [append_assoc] at hr

theorem written_writeMessage (e : AuditEvent) : Written (e.writeMessage [])
      (opToken e.operation :: (e.described.map token ++ [outcome e.success])) := by
  have ho : Written (pushOp [] e.service e.verb) [opToken e.operation] := by
    rw [pushOp_eq]
    exact Written.nil.push (by simp [opToken])
  have hall := ((((ho.pushOpt "acct".toList e.principal.user).pushUid e.principal.uid).pushOpt
    "addr".toList e.principal.addr).pushOpt "cred".toList e.principal.cred).pushFields e.fields
  have hr := hall.push (t := outcome e.success) (by cases e.success <;> decide)
  simp only [append_assoc, cons_append] at hr
  simp only [AuditEvent.described, map_append, append_assoc]
  exact hr

end TruenasRos.Audit
