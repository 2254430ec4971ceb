import TruenasRos.Error
import TruenasRos.Lib.LittleEndian
import TruenasRos.Lib.Octets

/-! # Journal records

A record is one datagram of named values. A value without a line feed ends at one; any other is
given its length, which is put in front of it once the value has been written. A long value is cut
where a character ends, however it was handed over.
-/

namespace TruenasRos.Log

open Octets List

/-- The texts that a value hands to `write_str`. -/
abbrev Display := List (List Char)

inductive Level
  | Error | Warning | Notice | Info | Debug

def Level.priority : Level → ℕ
  | Error => 3 | Warning => 4 | Notice => 5 | Info => 6 | Debug => 7

structure Source where
  file : Display
  line : ℕ

structure Event where
  level : Level
  source : Option Source
  message : Display
  fields : List (Bytes × Display)

def MAX_VALUE : ℕ := 4096

def CUT : Bytes := utf8 ['…']

def len (s : List Char) : ℕ := (utf8 s).length

/-- The end of the last character of `s` that ends within its first `n` bytes. -/
def charEnd (s : List Char) (n : ℕ) : ℕ :=
  Nat.findGreatest (· ∈ s.inits.map len) n

structure Bounded where
  buf : Bytes
  fin : ℕ
  cut : Bool

def Bounded.writeStr (b : Bounded) (s : List Char) : Bounded :=
  if b.cut then b
  else
    let room := b.fin - b.buf.length
    if len s ≤ room then { b with buf := b.buf ++ utf8 s }
    else { b with buf := b.buf ++ (utf8 s).take (charEnd s room), cut := true }

def writeBounded (buf : Bytes) (value : Display) : Bytes :=
  let b := value.foldl Bounded.writeStr ⟨buf, buf.length + MAX_VALUE, false⟩
  if b.cut then b.buf ++ CUT else b.buf

def push (buf name : Bytes) (value : Display) : Bytes :=
  let buf := buf ++ name ++ [0x3D]
  let start := buf.length
  let buf := writeBounded buf value
  let buf := if 0x0A ∈ buf.drop start then
      (buf.set (start - 1) 0x0A).take start ++
        (LittleEndian.toBytes 8 (buf.length - start) ++ buf.drop start)
    else buf
  buf ++ [0x0A]

def digits (n : ℕ) : Display := [(toString n).toList]

def encode (buf : Bytes) (identifier : Display) (event : Event) : Bytes :=
  let buf := push buf (utf8 "PRIORITY".toList) (digits event.level.priority)
  let buf := push buf (utf8 "SYSLOG_IDENTIFIER".toList) identifier
  let buf := push buf (utf8 "MESSAGE".toList) event.message
  let buf := match event.source with
    | some s =>
      push (push buf (utf8 "CODE_FILE".toList) s.file) (utf8 "CODE_LINE".toList) (digits s.line)
    | none => buf
  event.fields.foldl (fun buf f => push buf f.1 f.2) buf

/-- What a record says, in order. -/
def Event.entries (identifier : Display) (event : Event) : List (Bytes × Display) :=
  [(utf8 "PRIORITY".toList, digits event.level.priority),
    (utf8 "SYSLOG_IDENTIFIER".toList, identifier), (utf8 "MESSAGE".toList, event.message)] ++
  (event.source.elim [] fun s =>
    [(utf8 "CODE_FILE".toList, s.file), (utf8 "CODE_LINE".toList, digits s.line)]) ++ event.fields

/-- What is kept of a text: all of it, or its longest prefix of whole characters and the mark. -/
def kept (s : List Char) : Bytes :=
  if len s ≤ MAX_VALUE then utf8 s else (utf8 s).take (charEnd s MAX_VALUE) ++ CUT

/-- The bytes of a field's name. -/
abbrev IsNameByte (b : UInt8) : Prop :=
  0x41 ≤ b ∧ b ≤ 0x5A ∨ 0x30 ≤ b ∧ b ≤ 0x39 ∨ b = 0x5F

/-- One field of the journal's protocol, and what follows it. -/
def readField (buf : Bytes) : Option ((Bytes × Bytes) × Bytes) :=
  match buf.dropWhile fun b => b ≠ 0x3D ∧ b ≠ 0x0A with
  | [] => none
  | sep :: rest =>
    let (len, body) := if sep = 0x3D then ((rest.takeWhile (· ≠ 0x0A)).length, rest)
      else (LittleEndian.ofBytes (rest.take 8), rest.drop 8)
    if body[len]? = some 0x0A then
      some ((buf.takeWhile fun b => b ≠ 0x3D ∧ b ≠ 0x0A, body.take len), body.drop (len + 1))
    else none

/-- The fields of a record, of which there are at most so many. -/
def readRecord : ℕ → Bytes → Option (List (Bytes × Bytes))
  | _, [] => some []
  | 0, _ => none
  | n + 1, buf => do
    let (field, rest) ← readField buf
    return field :: (← readRecord n rest)

/-- A field as it is written. -/
def line (name value : Bytes) : Bytes :=
  name ++ (if 0x0A ∈ value then 0x0A :: (LittleEndian.toBytes 8 value.length ++ value)
    else 0x3D :: value) ++ [0x0A]

def lines (es : List (Bytes × Display)) : Bytes := es.flatMap fun f => line f.1 (kept f.2.flatten)

/-- A name holds nothing that ends one. -/
abbrev Plain (name : Bytes) : Prop := ∀ b ∈ name, b ≠ 0x3D ∧ b ≠ 0x0A

/-- The characters `p` of `s` fit in `n` bytes and the next one does not. -/
def Fills (s p : List Char) (n : ℕ) : Prop :=
  ∃ c r, s = p ++ c :: r ∧ len p ≤ n ∧ n < len (p ++ [c])

variable {s t p : List Char} {n : ℕ} {name value rest buf : Bytes} {identifier : Display}
  {event : Event}

theorem utf8_append (s t : List Char) : utf8 (s ++ t) = utf8 s ++ utf8 t := flatMap_append

@[simp] theorem len_append (s t : List Char) : len (s ++ t) = len s + len t := by
  rw [len, utf8_append, length_append]
  rfl

theorem len_le (h : s <+: t) : len s ≤ len t := (h.flatMap _).length_le

theorem exists_fills (h : n < len s) : ∃ p, Fills s p n := by
  induction s generalizing n with
  | nil => cases h
  | cons c s ih =>
    have hu : len (c :: s) = len [c] + len s := len_append [c] s
    by_cases hc : n < len [c]
    · exact ⟨[], c, s, rfl, Nat.zero_le n, hc⟩
    · obtain ⟨p, d, r, rfl, hp, hd⟩ := @ih (n - len [c]) (by omega)
      have hl : ∀ q, len (c :: q) = len [c] + len q := len_append [c]
      exact ⟨c :: p, d, r, rfl, by rw [hl]; omega, by rw [cons_append, hl]; omega⟩

theorem Fills.take_charEnd (h : Fills s p n) : (utf8 s).take (charEnd s n) = utf8 p := by
  obtain ⟨c, r, rfl, hp, hc⟩ := h
  have he : charEnd (p ++ c :: r) n = len p := by
    apply Nat.findGreatest_eq_iff.2
    refine ⟨hp, fun _ => ?_, ?_⟩
    · exact mem_map_of_mem ((mem_inits ..).2 (prefix_append ..))
    · intro m hlt hle hm
      obtain ⟨q, hq, rfl⟩ := mem_map.1 hm
      have hq := (mem_inits ..).1 hq
      -- a prefix with more characters than `p` has the one that does not fit
      rcases lt_or_ge p.length q.length with hl | hl
      · have hpc : p ++ [c] <+: p ++ c :: r := ⟨r, append_assoc ..⟩
        have := len_le (prefix_of_prefix_length_le hpc hq (by simpa using hl))
        omega
      · have := len_le (prefix_of_prefix_length_le hq (prefix_append ..) hl)
        omega
  rw [he, utf8_append]
  exact take_left

theorem foldl_cut {b : Bounded} (h : b.cut = true) (v : Display) :
    v.foldl Bounded.writeStr b = b := by
  induction v with
  | nil => rfl
  | cons s v ih => rw [foldl_cons, Bounded.writeStr, if_pos h, ih]

/-- However a value is cut into texts, it is bounded as their concatenation. -/
theorem writeBounded_eq (buf : Bytes) (v : Display) :
    writeBounded buf v = buf ++ kept v.flatten := by
  suffices h : ∀ t, len t ≤ MAX_VALUE →
      let b := v.foldl Bounded.writeStr ⟨buf ++ utf8 t, buf.length + MAX_VALUE, false⟩
      (if b.cut then b.buf ++ CUT else b.buf) = buf ++ kept (t ++ v.flatten) by
    simpa [utf8, writeBounded] using h [] (Nat.zero_le _)
  induction v with
  | nil =>
    intro t ht
    simp [kept, ht]
  | cons s v ih =>
    intro t ht
    have hr : buf.length + MAX_VALUE - (buf ++ utf8 t).length = MAX_VALUE - len t := by
      rw [length_append, len]
      omega
    simp only [foldl_cons, Bounded.writeStr, Bool.false_eq_true, if_false, hr, flatten_cons]
    by_cases hs : len s ≤ MAX_VALUE - len t
    · have hts := ih (t ++ s) (by rw [len_append]; omega)
      rw [utf8_append, ← append_assoc, append_assoc t] at hts
      rw [if_pos hs]
      exact hts
    · obtain ⟨p, hp⟩ := exists_fills (not_le.1 hs)
      have hw : Fills (t ++ (s ++ v.flatten)) (t ++ p) MAX_VALUE := by
        obtain ⟨c, r, rfl, hp, hc⟩ := hp
        refine ⟨c, r ++ v.flatten, by simp, ?_, ?_⟩ <;> simp only [len_append] at hc ⊢ <;> omega
      have hlt : ¬ len (t ++ (s ++ v.flatten)) ≤ MAX_VALUE := by
        simp only [len_append]
        omega
      rw [if_neg hs, foldl_cut rfl, kept, if_neg hlt, hp.take_charEnd, hw.take_charEnd,
        utf8_append, append_assoc, append_assoc, append_assoc]
      rfl

theorem push_eq (buf name : Bytes) (v : Display) :
    push buf name v = buf ++ line name (kept v.flatten) := by
  have hd : ∀ w k : Bytes, (w ++ k).drop w.length = k := fun _ _ => drop_left
  have hl : ∀ w k : Bytes, (w ++ k).length - w.length = k.length := by simp
  have ht : ∀ w k : Bytes, ((w ++ [0x3D] ++ k).set ((w ++ [0x3D]).length - 1) 0x0A).take
      (w ++ [0x3D]).length = w ++ [0x0A] := by simp [take_append]
  simp only [push, writeBounded_eq, hd, hl, ht, line]
  split_ifs <;> simp

theorem encode_eq (buf : Bytes) (identifier : Display) (event : Event) :
    encode buf identifier event = buf ++ lines (event.entries identifier) := by
  have hf : ∀ (es : List (Bytes × Display)) buf,
      es.foldl (fun buf f => push buf f.1 f.2) buf = buf ++ lines es := by
    intro es
    induction es with
    | nil => simp [lines]
    | cons f es ih =>
      intro buf
      rw [foldl_cons, ih, push_eq, append_assoc]
      rfl
  rw [← hf]
  cases hs : event.source <;> simp [encode, Event.entries, hs]

theorem readField_line (hn : Plain name) (hv : value.length < 256 ^ 8) :
    readField (line name value ++ rest) = some ((name, value), rest) := by
  have hp : ∀ b ∈ name, decide (b ≠ 0x3D ∧ b ≠ 0x0A) = true := fun b hb => decide_eq_true (hn b hb)
  unfold readField line
  split_ifs with h <;>
    simp only [append_assoc, cons_append, dropWhile_append_of_pos hp, takeWhile_append_of_pos hp]
  · simp [LittleEndian.ofBytes_toBytes hv]
  · have hw : ∀ b ∈ value, (!decide (b = 0x0A)) = true := by
      intro b hb
      simpa using ne_of_mem_of_not_mem hb h
    simp [takeWhile_append_of_pos hw]

theorem length_kept_lt (s : List Char) : (kept s).length < 256 ^ 8 := by
  refine lt_of_le_of_lt ?_ (show MAX_VALUE + 3 < 256 ^ 8 by decide)
  unfold kept
  split_ifs with h
  · exact h.trans (Nat.le_add_right ..)
  · rw [length_append]
    exact Nat.add_le_add_right ((length_take_le ..).trans (Nat.findGreatest_le _)) 3

theorem readRecord_lines {es : List (Bytes × Display)} (h : ∀ f ∈ es, Plain f.1)
    (hn : es.length ≤ n) :
    readRecord n (lines es) = some (es.map fun f => (f.1, kept f.2.flatten)) := by
  induction es generalizing n with
  | nil => cases n <;> rfl
  | cons f es ih =>
    obtain ⟨hf, hes⟩ := forall_mem_cons.1 h
    obtain ⟨n, rfl⟩ := Nat.exists_eq_add_of_lt hn
    have ih : readRecord (es.length + n) (lines es) = _ := ih hes (Nat.le_add_right ..)
    rw [lines, flatMap_cons, readRecord]
    · rw [readField_line hf (length_kept_lt _)]
      exact congrArg (·.bind fun fs => some ((f.1, kept f.2.flatten) :: fs)) ih
    · simp [line]

/-- A record is read back as it was given, each value in full or cut where a character ends. -/
theorem readRecord_encode (h : ∀ f ∈ event.fields, f.1 ≠ [] ∧ ∀ b ∈ f.1, IsNameByte b)
    (hn : (event.entries identifier).length ≤ n) : readRecord n (encode [] identifier event) =
      some ((event.entries identifier).map fun f => (f.1, kept f.2.flatten)) := by
  rw [encode_eq, nil_append]
  refine readRecord_lines ?_ hn
  have hp : ∀ f ∈ event.fields, Plain f.1 := by
    intro f hf b hb
    have := (h f hf).2 b hb
    constructor <;> rintro rfl <;> revert this <;> decide
  have hw : ∀ w ∈ ["PRIORITY", "SYSLOG_IDENTIFIER", "MESSAGE", "CODE_FILE", "CODE_LINE"],
      Plain (utf8 w.toList) := by decide +kernel
  simp only [forall_mem_cons] at hw
  obtain ⟨h₁, h₂, h₃, h₄, h₅, -⟩ := hw
  cases hs : event.source with
  | none =>
    simp only [Event.entries, hs, forall_mem_append, forall_mem_cons]
    exact ⟨⟨⟨h₁, h₂, h₃, nofun⟩, nofun⟩, hp⟩
  | some s =>
    simp only [Event.entries, hs, Option.elim, forall_mem_append, forall_mem_cons]
    exact ⟨⟨⟨h₁, h₂, h₃, nofun⟩, h₄, h₅, nofun⟩, hp⟩

/-- A message that looks like two fields is one. -/
theorem readRecord_encode_forged :
    readRecord 4 (encode [] [['d']] ⟨.Info, none, [['a', '\n'], "B=c".toList], [([0x42], [])]⟩) =
      some [(utf8 "PRIORITY".toList, [0x36]), (utf8 "SYSLOG_IDENTIFIER".toList, [0x64]),
        (utf8 "MESSAGE".toList, utf8 "a\nB=c".toList), ([0x42], [])] :=
  @readRecord_encode 4 [['d']] ⟨.Info, none, [['a', '\n'], "B=c".toList], [([0x42], [])]⟩
    (by decide +kernel) le_rfl

end TruenasRos.Log
