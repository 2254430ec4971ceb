import TruenasRos.Walk.Cursor

/-! # Cookies of a filesystem walk

The directory stack of a walk as a blob: a magic word, a version, the number of levels, and
for each level its inode and its path behind the length of the path. The host order of the
integers is little-endian.
-/

namespace TruenasRos.SyncFs

open List

structure DirStackEntry where
  path : Bytes
  ino : UInt64
  deriving DecidableEq

/-- The saved levels, root first. -/
structure Cookie where
  entries : List DirStackEntry
  deriving DecidableEq

def MAX_DEPTH : ℕ := 2048

/-- The bytes of `"TnCk"` read in host order. -/
def COOKIE_MAGIC : ℕ := 0x6B43_6E54

def COOKIE_VERSION : ℕ := 1

def DirStackEntry.toBytes (e : DirStackEntry) : Bytes :=
  LittleEndian.toBytes 8 e.ino.toNat ++ (LittleEndian.toBytes 4 e.path.length ++ e.path)

namespace Cookie

def toBytes (c : Cookie) : Bytes :=
  LittleEndian.toBytes 4 COOKIE_MAGIC ++ (LittleEndian.toBytes 2 COOKIE_VERSION ++
    (LittleEndian.toBytes 4 c.entries.length ++ c.entries.flatMap DirStackEntry.toBytes))

def take (cur : Bytes) (n : ℕ) (what : String) : Except Error (Bytes × Bytes) :=
  if cur.length < n then .error (.validation s!"cookie truncated reading {what}")
  else .ok (cur.splitAt n)

def number (cur : Bytes) (width : ℕ) (what : String) : Except Error (ℕ × Bytes) := do
  let (head, cur) ← take cur width what
  .ok (LittleEndian.ofBytes head, cur)

/-- The number of levels, for which room is then made, and what follows it. -/
def header (data : Bytes) : Except Error (ℕ × Bytes) := do
  let (magic, cur) ← number data 4 "magic"
  if magic ≠ COOKIE_MAGIC then
    let magic := Walk.TreeCursor.hex 8 magic
    .error (.validation s!"not a cookie blob (magic {magic})")
  else
    let (version, cur) ← number cur 2 "version"
    if version ≠ COOKIE_VERSION then
      .error (.validation s!"unsupported cookie version {version}")
    else
      let (count, cur) ← number cur 4 "count"
      if count > MAX_DEPTH then
        .error (.validation s!"cookie depth {count} exceeds maximum {MAX_DEPTH}")
      else .ok (count, cur)

def levels : ℕ → Bytes → Except Error (List DirStackEntry × Bytes)
  | 0, cur => .ok ([], cur)
  | count + 1, cur => do
    let (ino, cur) ← number cur 8 "inode"
    let (plen, cur) ← number cur 4 "path length"
    let (path, cur) ← take cur plen "path"
    let (entries, cur) ← levels count cur
    .ok (⟨path, .ofNat ino⟩ :: entries, cur)

def fromBytes (data : Bytes) : Except Error Cookie := do
  let (count, cur) ← header data
  let (entries, cur) ← levels count cur
  if cur ≠ [] then .error (.validation s!"cookie has {cur.length} trailing byte(s)")
  else .ok ⟨entries⟩

variable {α : Type} {cur rest data : Bytes} {what : String} {n width count : ℕ} {c : Cookie}
  {b : α}

theorem take_bind_eq_ok_iff {f : Bytes × Bytes → Except Error α} :
    take cur n what >>= f = .ok b ↔
      ∃ head rest, (head.length = n ∧ cur = head ++ rest) ∧ f (head, rest) = .ok b := by
  simp only [bind_eq_ok_iff, Prod.exists]
  refine exists₂_congr fun head rest => and_congr_left fun _ => ?_
  unfold take
  split_ifs with h
  · constructor
    · nofun
    · rintro ⟨rfl, rfl⟩
      exact absurd h (by simp)
  · rw [splitAt_eq, Except.ok.injEq, Prod.mk.injEq]
    constructor
    · rintro ⟨rfl, rfl⟩
      exact ⟨length_take_of_le (not_lt.1 h), (take_append_drop n cur).symm⟩
    · rintro ⟨rfl, rfl⟩
      simp

theorem number_bind_eq_ok_iff {f : ℕ × Bytes → Except Error α} :
    number cur width what >>= f = .ok b ↔ ∃ n rest, (n < 256 ^ width ∧
      cur = LittleEndian.toBytes width n ++ rest) ∧ f (n, rest) = .ok b := by
  simp only [number, bind_assoc, take_bind_eq_ok_iff]
  constructor
  · rintro ⟨head, rest, ⟨rfl, rfl⟩, h⟩
    refine ⟨_, rest, ⟨LittleEndian.ofBytes_lt head, ?_⟩, h⟩
    rw [LittleEndian.toBytes_ofBytes]
  · rintro ⟨n, rest, ⟨hn, rfl⟩, h⟩
    refine ⟨_, rest, ⟨LittleEndian.length_toBytes .., rfl⟩, ?_⟩
    rw [LittleEndian.ofBytes_toBytes hn]
    exact h

theorem error_or_eq_ok_iff {p : Prop} [Decidable p] {e : Error} {x : Except Error α} :
    (if p then .error e else x) = .ok b ↔ ¬p ∧ x = .ok b := by
  split_ifs with h <;> simp [h]

theorem header_eq_ok_iff : header data = .ok (count, rest) ↔ count ≤ MAX_DEPTH ∧
    data = LittleEndian.toBytes 4 COOKIE_MAGIC ++ (LittleEndian.toBytes 2 COOKIE_VERSION ++
      (LittleEndian.toBytes 4 count ++ rest)) := by
  simp only [header, number_bind_eq_ok_iff, error_or_eq_ok_iff, not_not, not_lt]
  constructor
  · rintro ⟨_, _, ⟨-, rfl⟩, rfl, _, _, ⟨-, rfl⟩, rfl, _, _, ⟨-, rfl⟩, hc, h⟩
    cases h
    exact ⟨hc, rfl⟩
  · rintro ⟨hc, rfl⟩
    exact ⟨_, _, ⟨by decide, rfl⟩, rfl, _, _, ⟨by decide, rfl⟩, rfl, _, _,
      ⟨hc.trans_lt (by decide), rfl⟩, hc, rfl⟩

theorem levels_eq_ok_iff {entries : List DirStackEntry} :
    levels count cur = .ok (entries, rest) ↔ entries.length = count ∧
      (∀ e ∈ entries, e.path.length < 2 ^ 32) ∧
      cur = entries.flatMap DirStackEntry.toBytes ++ rest := by
  induction count generalizing cur rest entries with
  | zero =>
    rw [levels, length_eq_zero_iff]
    constructor
    · rintro ⟨⟩
      simp
    · rintro ⟨rfl, -, rfl⟩
      rfl
  | succ count ih =>
    simp only [levels, number_bind_eq_ok_iff, take_bind_eq_ok_iff]
    simp only [bind_eq_ok_iff, Prod.exists, ih]
    constructor
    · rintro ⟨ino, _, ⟨hi, rfl⟩, _, _, ⟨hp, rfl⟩, path, _, ⟨rfl, rfl⟩, es, _, ⟨rfl, hes, rfl⟩, h⟩
      cases h
      refine ⟨rfl, forall_mem_cons.2 ⟨hp, hes⟩, ?_⟩
      have hn : (UInt64.ofNat ino).toNat = ino := UInt64.toNat_ofNat_of_lt hi
      simp only [flatMap_cons, DirStackEntry.toBytes, hn, append_assoc]
    · rintro ⟨hl, hes, rfl⟩
      obtain ⟨e, es, rfl⟩ := exists_cons_of_length_eq_add_one hl
      obtain ⟨hp, hes⟩ := forall_mem_cons.1 hes
      refine ⟨e.ino.toNat, _, ⟨e.ino.toNat_lt, ?_⟩, _, _, ⟨hp, rfl⟩, _, _, ⟨rfl, rfl⟩, es, rest,
        ⟨Nat.succ.inj hl, hes, rfl⟩, ?_⟩
      · simp [DirStackEntry.toBytes]
      · simp

theorem fromBytes_eq_ok_iff : fromBytes data = .ok c ↔ c.entries.length ≤ MAX_DEPTH ∧
    (∀ e ∈ c.entries, e.path.length < 2 ^ 32) ∧ data = c.toBytes := by
  simp only [fromBytes, bind_eq_ok_iff, Prod.exists, header_eq_ok_iff, levels_eq_ok_iff,
    error_or_eq_ok_iff, not_not]
  constructor
  · rintro ⟨_, _, ⟨hc, rfl⟩, es, _, ⟨rfl, hes, rfl⟩, rfl, h⟩
    cases h
    rw [append_nil]
    exact ⟨hc, hes, rfl⟩
  · rintro ⟨hc, hes, rfl⟩
    exact ⟨_, _, ⟨hc, rfl⟩, _, _, ⟨rfl, hes, (append_nil _).symm⟩, rfl, rfl⟩

/-- The codec is exact, and room is made only for as many levels as a walk can have. -/
theorem cookie_codec : (c.entries.length ≤ MAX_DEPTH → (∀ e ∈ c.entries, e.path.length < 2 ^ 32) →
      fromBytes c.toBytes = .ok c) ∧
    (fromBytes data = .ok c ↔ c.entries.length ≤ MAX_DEPTH ∧
      (∀ e ∈ c.entries, e.path.length < 2 ^ 32) ∧ data = c.toBytes) ∧
    (header data = .ok (count, rest) → count ≤ MAX_DEPTH) :=
  ⟨fun hc hp => fromBytes_eq_ok_iff.2 ⟨hc, hp, rfl⟩, fromBytes_eq_ok_iff,
    fun h => (header_eq_ok_iff.1 h).1⟩

theorem cookie_codec_root : fromBytes (toBytes ⟨[⟨[47], 34⟩]⟩) = .ok ⟨[⟨[47], 34⟩]⟩ :=
  (@cookie_codec [] [] 0 ⟨[⟨[47], 34⟩]⟩).1 (by decide) (by decide)

/-- The length of a path is stored in 32 bits, so a longer path does not come back. -/
theorem fromBytes_long_path :
    ∃ c : Cookie, c.entries.length ≤ MAX_DEPTH ∧ ∀ c', fromBytes c.toBytes ≠ .ok c' := by
  obtain ⟨path, hpath⟩ : ∃ path : Bytes, path.length = 2 ^ 32 :=
    ⟨replicate _ 47, length_replicate⟩
  refine ⟨⟨[⟨path, 0⟩]⟩, Nat.le_of_ble_eq_true rfl, fun c' h => ?_⟩
  obtain ⟨hd, hp, he⟩ := fromBytes_eq_ok_iff.1 h
  simp only [toBytes, append_cancel_left_eq] at he
  obtain ⟨hn, he⟩ := append_inj he (by simp)
  have hlen : c'.entries.length = 1 := by
    rw [← LittleEndian.ofBytes_toBytes (hd.trans_lt (by decide) : _ < 256 ^ 4), ← hn]
    exact LittleEndian.ofBytes_toBytes (n := 1) (by decide)
  obtain ⟨e, hes⟩ := length_eq_one_iff.1 hlen
  have hl := congrArg length he
  simp [hes, DirStackEntry.toBytes] at hl
  have := hp e (by simp [hes])
  omega

end Cookie

end TruenasRos.SyncFs
