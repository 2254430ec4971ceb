import TruenasRos.Error
import TruenasRos.Lib.Credentials
import TruenasRos.Lib.LittleEndian
import TruenasRos.Lib.Runs

/-! # The credential broker

One turn of the broker's loop: a datagram is decoded and checked against the ceilings, and
a registration opens a window in which the broker takes on the identity, has it recorded
and takes its own back. Any call may fail, and a failed call changes nothing.
-/

namespace TruenasRos.UringFs.Broker

open List Credentials Option

abbrev Caps := BitVec 32

namespace Caps

def CHOWN : Caps := 0x00000001#32
def DAC_OVERRIDE : Caps := 0x00000002#32
def DAC_READ_SEARCH : Caps := 0x00000004#32
def FOWNER : Caps := 0x00000008#32
def FSETID : Caps := 0x00000010#32
def MKNOD : Caps := 0x08000000#32

def all : Caps := CHOWN ||| DAC_OVERRIDE ||| DAC_READ_SEARCH ||| FOWNER ||| FSETID ||| MKNOD

def fromBits (bits : ℕ) : Option Caps :=
  if BitFlags.contains all (BitVec.ofNat 32 bits) then some (BitVec.ofNat 32 bits) else none

end Caps

def MAX_GROUPS : ℕ := 4096
def OP_REGISTER : ℕ := 1
def OP_UNREGISTER : ℕ := 2
def HDR_LEN : ℕ := 16
def MAX_REQ : ℕ := HDR_LEN + 4 * MAX_GROUPS
def EPERM : ℤ := 1
def EINVAL : ℤ := 22

structure Req where
  op : ℕ
  ring : ℕ
  ngroups : ℕ
  uid : ℕ
  gid : ℕ
  caps : Caps
  deriving DecidableEq

def field (req : Bytes) (offset width : ℕ) : ℕ :=
  LittleEndian.ofBytes ((req.drop offset).take width)

/-- The ceiling of a request, which a registration of the superuser may lack. -/
def ceiling (op uid : ℕ) (allowed : Caps) (root : Option Caps) : Option Caps :=
  if op = OP_REGISTER ∧ uid = 0 then root else some allowed

def decodeRequest (req : Bytes) (nrings : ℕ) (allowed : Caps) (root : Option Caps) : Except ℤ Req :=
  if req.length < HDR_LEN then .error (-EINVAL)
  else
    let op := field req 0 1
    let ring := field req 1 1
    let ngroups := field req 2 2
    let uid := field req 4 4
    let gid := field req 8 4
    let caps_bits := field req 12 4
    if nrings ≤ ring ∨ MAX_GROUPS < ngroups ∨ req.length ≠ HDR_LEN + 4 * ngroups then
      .error (-EINVAL)
    else
      match ceiling op uid allowed root with
      | none => .error (-EPERM)
      | some ceiling =>
        match Caps.fromBits caps_bits with
        | none => .error (-EPERM)
        | some caps =>
          if BitFlags.contains ceiling caps then .ok ⟨op, ring, ngroups, uid, gid, caps⟩
          else .error (-EPERM)

def decodeGroups (req : Bytes) (ngroups : ℕ) : List ℕ :=
  (range (min ngroups MAX_GROUPS)).map fun i => field req (HDR_LEN + 4 * i) 4

/-- The calls that fail while one datagram is served, with the error numbers they give, and
what the ring answers. -/
structure Faults where
  getgroups : Bool
  setgroups : Option ℕ
  setresgid : Option ℕ
  setresuid : Option ℕ
  capget : Option ℕ
  capset : Option ℕ
  register_personality : Except ℕ ℕ
  unregister_personality : Option ℕ
  restore_effective_caps : Bool
  revert_setresuid : Bool
  revert_setresgid : Bool
  revert_setgroups : Bool

/-- The set as the kernel keeps it, with the high word clear. -/
def Caps.effective (caps : Caps) : BitVec 64 := caps.setWidth 64

section

variable (f : Faults) (c : Creds)

/-- Each call is attempted whether the one before it failed or not. -/
def revert : Creds :=
  let c := if f.restore_effective_caps then c else (c.capset c.permitted).getD c
  let c := if f.revert_setresuid then c else c.setresuid 0 0 0
  let c := if f.revert_setresgid then c else c.setresgid 0 0 0
  if f.revert_setgroups then c else c.setgroups []

/-- A call that fails gives its error and the credentials it found. -/
def attempt (fault : Option ℕ) (c c' : Creds) : Except (ℤ × Creds) Creds :=
  match fault with
  | some e => .error (-e, c)
  | none => .ok c'

def setEffectiveCaps (caps : Caps) : Except (ℤ × Creds) Creds := do
  let c ← attempt f.capget c c
  match c.capset caps.effective with
  | some c' => attempt f.capset c c'
  | none => .error (-EPERM, c)

def window (uid gid : ℕ) (caps : Caps) (groups : List ℕ) : Except (ℤ × Creds) Creds := do
  let c ← attempt f.setgroups c (c.setgroups groups)
  let c ← attempt f.setresgid c (c.setresgid gid gid UNCHANGED)
  let c ← attempt f.setresuid c (c.setresuid uid uid 0)
  if c.uid.effective ≠ uid ∨ c.gid.effective ≠ gid then .error (-EINVAL, c)
  else if uid = 0 ∨ caps ≠ 0 then setEffectiveCaps f c caps
  else .ok c

def repeats (l : List ℕ) : Bool := l.zipIdx.any fun (g, i) => (l.take i).contains g

def groupSetDiffers (cur groups : List ℕ) : Bool :=
  if cur.length ≠ groups.length then true
  else if repeats groups || repeats cur then true
  else groups.any fun g => !cur.contains g

def needsImpersonation (uid gid : ℕ) (groups : List ℕ) : Bool :=
  if uid ≠ c.uid.effective ∨ gid ≠ c.gid.effective then true
  else if f.getgroups || MAX_GROUPS < c.groups.length then true
  else groupSetDiffers c.groups groups

/-- What serving a datagram leaves: the reply, the broker's credentials and the credentials
it had recorded. -/
structure Served where
  reply : ℤ
  creds : Creds
  snapshot : Option Creds
  deriving DecidableEq

/-- Record the credentials as they are, and leave the broker with `after`. -/
def registerPersonality (after : Creds) : Served :=
  match f.register_personality with
  | .ok id => ⟨id, after, some c⟩
  | .error e => ⟨-e, after, none⟩

def registerAs (uid gid : ℕ) (caps : Caps) (groups : List ℕ) : Served :=
  if uid ≠ 0 ∧ needsImpersonation f c uid gid groups = false then
    if caps ≠ 0 then ⟨-EPERM, c, none⟩ else registerPersonality f c c
  else if c.uid.effective ≠ 0 then ⟨-EPERM, c, none⟩
  else
    match window f c uid gid caps groups with
    | .error (e, c) => ⟨e, revert f c, none⟩
    | .ok c => registerPersonality f c (revert f c)

end

/-- The ring count and the ceilings that were fixed when the broker was spawned. -/
structure Config where
  nrings : ℕ
  allowed : Caps
  root : Option Caps

structure Request where
  datagram : Bytes
  faults : Faults

/-- One turn of the loop, which ends at an empty datagram. -/
def serve (cfg : Config) (c : Creds) (r : Request) : Option Served :=
  let req := r.datagram.take MAX_REQ
  if req = [] then none
  else
    match decodeRequest req cfg.nrings cfg.allowed cfg.root with
    | .error errno => some ⟨errno, c, none⟩
    | .ok q =>
      if q.op = OP_REGISTER ∧ (q.uid ≠ 0 ∨ cfg.root.isSome) then
        some (registerAs r.faults c q.uid q.gid q.caps (decodeGroups req q.ngroups))
      else if q.op = OP_UNREGISTER then
        -- the id rides in the uid field
        if q.uid < 2 ^ 16 then
          match r.faults.unregister_personality with
          | none => some ⟨0, c, none⟩
          | some e => some ⟨-e, c, none⟩
        else some ⟨-EINVAL, c, none⟩
      else some ⟨-EINVAL, c, none⟩

/-- All ids are the superuser's. -/
structure AtRoot (c : Creds) : Prop where
  uid : c.uid = Ids.root
  gid : c.gid = Ids.root

structure Faults.Reverts (f : Faults) : Prop where
  caps : f.restore_effective_caps = false
  setresuid : f.revert_setresuid = false
  setresgid : f.revert_setresgid = false
  setgroups : f.revert_setgroups = false

variable {f : Faults} {c c' : Creds} {uid gid : ℕ} {caps : Caps} {gs : List ℕ} {fault : Option ℕ}
  {cfg : Config} {r : Request}

theorem attempt_eq_ok {d : Creds} : attempt fault c c' = .ok d ↔ fault = none ∧ c' = d := by
  cases fault <;> simp [attempt]

theorem setEffectiveCaps_eq_ok (h : setEffectiveCaps f c caps = .ok c') :
    c' = { c with effective := caps.effective } := by
  obtain ⟨d, hg, hs⟩ := bind_eq_ok_iff.1 h
  obtain ⟨-, rfl⟩ := attempt_eq_ok.1 hg
  cases hc : c.capset caps.effective with
  | none => simp [hc] at hs
  | some d =>
    rw [hc] at hs
    obtain ⟨-, rfl⟩ := attempt_eq_ok.1 hs
    exact capset_eq_some hc

def entered (c : Creds) (uid gid : ℕ) (groups : List ℕ) : Creds :=
  ((c.setgroups groups).setresgid gid gid UNCHANGED).setresuid uid uid 0

theorem window_eq_ok (h : window f c uid gid caps gs = .ok c') :
    (entered c uid gid gs).uid.effective = uid ∧
      (entered c uid gid gs).gid.effective = gid ∧
      ((uid = 0 ∨ caps ≠ 0) ∧ c' = { entered c uid gid gs with effective := caps.effective } ∨
        ¬ (uid = 0 ∨ caps ≠ 0) ∧ c' = entered c uid gid gs) := by
  obtain ⟨c₁, h₁, h⟩ := bind_eq_ok_iff.1 h
  obtain ⟨-, rfl⟩ := attempt_eq_ok.1 h₁
  obtain ⟨c₂, h₂, h⟩ := bind_eq_ok_iff.1 h
  obtain ⟨-, rfl⟩ := attempt_eq_ok.1 h₂
  obtain ⟨c₃, h₃, h⟩ := bind_eq_ok_iff.1 h
  obtain ⟨-, rfl⟩ := attempt_eq_ok.1 h₃
  split_ifs at h with hids hc
  · have hids := not_or.1 hids
    exact ⟨not_not.1 hids.1, not_not.1 hids.2, .inl ⟨hc, setEffectiveCaps_eq_ok h⟩⟩
  · have hids := not_or.1 hids
    exact ⟨not_not.1 hids.1, not_not.1 hids.2, .inr ⟨hc, (Except.ok.inj h).symm⟩⟩

theorem AtRoot.window (h : AtRoot c) (hw : window f c uid gid caps gs = .ok c') :
    c'.uid.effective = uid ∧ c'.gid.effective = gid ∧ c'.groups = gs ∧
      c'.effective = caps.effective := by
  obtain ⟨hu, hg, ⟨hc, rfl⟩ | ⟨hc, rfl⟩⟩ := window_eq_ok hw
  · exact ⟨hu, hg, rfl, rfl⟩
  · -- the drop from the superuser has cleared the effective set
    obtain ⟨hne, hz⟩ := not_or.1 hc
    have h0 : ((c.setgroups gs).setresgid gid gid UNCHANGED).uid.effective = 0 := by
      rw [Creds.setresgid, Creds.setgroups, h.uid]
      rfl
    refine ⟨hu, hg, rfl, ?_⟩
    rw [not_not.1 hz, entered, effective_setresuid_drop uid 0 h0]
    · rfl
    · rw [entered] at hu
      rwa [hu]

/-- The credentials that a part of the window leaves, whether it failed or not. -/
def left : Except (ℤ × Creds) Creds → Creds
  | .ok c => c
  | .error (_, c) => c

theorem permitted_left_attempt (h : c'.permitted = c.permitted) :
    (left (attempt fault c c')).permitted = c.permitted := by
  cases fault with
  | none => exact h
  | some e => rfl

theorem permitted_left_bind {x : Except (ℤ × Creds) Creds}
    {k : Creds → Except (ℤ × Creds) Creds} (hk : ∀ d, (left (k d)).permitted = d.permitted) :
    (left (x >>= k)).permitted = (left x).permitted := by
  cases x with
  | error e => rfl
  | ok d => exact hk d

theorem permitted_left_window (f : Faults) (c : Creds) (uid gid : ℕ) (caps : Caps)
    (gs : List ℕ) : (left (window f c uid gid caps gs)).permitted = c.permitted := by
  refine (permitted_left_bind fun c₁ => ?_).trans (permitted_left_attempt rfl)
  refine (permitted_left_bind fun c₂ => ?_).trans (permitted_left_attempt rfl)
  refine (permitted_left_bind fun c₃ => ?_).trans
    (permitted_left_attempt (permitted_setresuid_zero _ _ _))
  split_ifs
  · rfl
  · refine (permitted_left_bind fun d => ?_).trans (permitted_left_attempt rfl)
    cases hc : d.capset caps.effective with
    | none => rfl
    | some d' => exact permitted_left_attempt (by rw [capset_eq_some hc])
  · rfl

/-- The broker's own credentials: root's, without groups and with every permitted capability. -/
def own (permitted : BitVec 64) : Creds := ⟨Ids.root, Ids.root, [], permitted, permitted⟩

theorem revert_eq_own (h : f.Reverts) (c : Creds) : revert f c = own c.permitted := by
  have hc : c.capset c.permitted = some { c with effective := c.permitted } :=
    if_pos (BitFlags.contains_iff.2 fun _ hi => hi)
  have hu := uid_setresuid_root { c with effective := c.permitted }
  have hpe := permitted_setresuid_zero { c with effective := c.permitted } 0 0
  have he := effective_setresuid_root (c := { c with effective := c.permitted }) fun _ => rfl
  simp only [revert, h.caps, h.setresuid, h.setresgid, h.setgroups, hc, Bool.false_eq_true,
    if_false, getD_some, Creds.setresgid, Creds.setgroups, hu, hpe, he]
  rfl

theorem AtRoot.registerAs (h : AtRoot c) (f : Faults) (uid gid : ℕ) (caps : Caps) (gs : List ℕ) :
    (∀ snap, (registerAs f c uid gid caps gs).snapshot = some snap →
      snap.uid.effective = uid ∧ snap.gid.effective = gid ∧ snap.groups = gs ∧
        snap.effective = caps.effective) ∧
      (f.Reverts → (Broker.registerAs f c uid gid caps gs).creds = own c.permitted) := by
  have he : c.uid.effective = 0 := by rw [h.uid]; rfl
  have hwi : ¬ (uid ≠ 0 ∧ needsImpersonation f c uid gid gs = false) := by
    rintro ⟨hne, hn⟩
    simp [needsImpersonation, he, hne] at hn
  have hpe := permitted_left_window f c uid gid caps gs
  rw [Broker.registerAs, if_neg hwi, if_neg (not_not.2 he)]
  cases hw : Broker.window f c uid gid caps gs with
  | error ec =>
    obtain ⟨e, d⟩ := ec
    rw [hw] at hpe
    refine ⟨fun snap hs => (by cases hs), fun hr => ?_⟩
    exact (revert_eq_own hr d).trans (by rw [← hpe]; rfl)
  | ok d =>
    rw [hw] at hpe
    constructor
    · intro snap hs
      simp only [registerPersonality] at hs
      split at hs
      · obtain rfl := some.inj hs
        exact h.window hw
      · cases hs
    · intro hr
      have hc : (registerPersonality f d (revert f d)).creds = revert f d := by
        simp only [registerPersonality]
        split <;> rfl
      exact hc.trans ((revert_eq_own hr d).trans (by rw [← hpe]; rfl))

theorem field_take (d : Bytes) {n offset width : ℕ} (h : offset + width ≤ n) :
    field (d.take n) offset width = field d offset width := by
  rw [field, field, drop_take, take_take, Nat.min_eq_left (by omega)]

def listed (datagram : Bytes) : List ℕ :=
  (range (field datagram 2 2)).map fun i => field datagram (HDR_LEN + 4 * i) 4

/-- The recorded credentials are those the datagram asks for, under the ceiling of its uid. -/
structure Faithful (cfg : Config) (datagram : Bytes) (snap : Creds) : Prop where
  op : field datagram 0 1 = OP_REGISTER
  uid : snap.uid.effective = field datagram 4 4
  gid : snap.gid.effective = field datagram 8 4
  groups : snap.groups = listed datagram
  caps : snap.effective = Caps.effective (BitVec.ofNat 32 (field datagram 12 4))
  ceiling : ∃ ceiling, (if field datagram 4 4 = 0 then cfg.root else some cfg.allowed) =
    some ceiling ∧
    BitFlags.contains ceiling (BitVec.ofNat 32 (field datagram 12 4)) = true

theorem decodeRequest_eq_ok {req : Bytes} {nrings : ℕ} {allowed : Caps} {root : Option Caps}
    {q : Req} (h : decodeRequest req nrings allowed root = .ok q) :
    q = ⟨field req 0 1, field req 1 1, field req 2 2, field req 4 4, field req 8 4,
        BitVec.ofNat 32 (field req 12 4)⟩ ∧
      field req 2 2 ≤ MAX_GROUPS ∧
      ∃ c, ceiling (field req 0 1) (field req 4 4) allowed root = some c ∧
        BitFlags.contains c (BitVec.ofNat 32 (field req 12 4)) = true := by
  unfold decodeRequest at h
  dsimp only at h
  split_ifs at h with hlen hs
  have hg : field req 2 2 ≤ MAX_GROUPS := by
    by_contra hlt
    exact hs (.inr (.inl (not_le.1 hlt)))
  cases hc : ceiling (field req 0 1) (field req 4 4) allowed root with
  | none => simp [hc] at h
  | some c =>
    simp only [hc, Caps.fromBits] at h
    split_ifs at h with hall
    dsimp only at h
    split_ifs at h with hco
    exact ⟨(Except.ok.inj h).symm, hg, c, rfl, hco⟩

theorem listed_eq {d : Bytes} (h : field d 2 2 ≤ MAX_GROUPS) :
    decodeGroups (d.take MAX_REQ) (field d 2 2) = listed d := by
  rw [decodeGroups, listed, Nat.min_eq_left h]
  refine map_congr_left fun i hi => field_take d ?_
  have hlt := mem_range.1 hi
  rw [MAX_REQ]
  omega

theorem AtRoot.serve {out : Served} (h : AtRoot c) (hse : serve cfg c r = some out) :
    (∀ snap, out.snapshot = some snap → Faithful cfg r.datagram snap) ∧
      (r.faults.Reverts → out.creds = c ∨ out.creds = own c.permitted) := by
  have hr : ∀ reply, some ⟨reply, c, none⟩ = some out →
      (∀ snap, out.snapshot = some snap → Faithful cfg r.datagram snap) ∧
        (r.faults.Reverts → out.creds = c ∨ out.creds = own c.permitted) := by
    intro reply hout
    obtain rfl := some.inj hout
    exact ⟨fun _ hsn => (by cases hsn), fun _ => .inl rfl⟩
  unfold Broker.serve at hse
  dsimp only at hse
  split_ifs at hse with he
  cases hd : decodeRequest (r.datagram.take MAX_REQ) cfg.nrings cfg.allowed cfg.root with
  | error e =>
    rw [hd] at hse
    exact hr _ hse
  | ok q =>
    rw [hd] at hse
    obtain ⟨rfl, hgp, ceil, hce, hco⟩ := decodeRequest_eq_ok hd
    have hf : ∀ {offset width}, offset + width ≤ HDR_LEN →
        field (r.datagram.take MAX_REQ) offset width = field r.datagram offset width :=
      fun hle => field_take _ (le_trans hle (Nat.le_add_right _ _))
    simp only [hf (show 0 + 1 ≤ HDR_LEN by decide), hf (show 2 + 2 ≤ HDR_LEN by decide),
      hf (show 4 + 4 ≤ HDR_LEN by decide), hf (show 8 + 4 ≤ HDR_LEN by decide),
      hf (show 12 + 4 ≤ HDR_LEN by decide)] at hse hgp hce hco
    split_ifs at hse with ho hur huid
    · obtain rfl := some.inj hse
      obtain ⟨hsn, hcr⟩ := h.registerAs r.faults (field r.datagram 4 4)
        (field r.datagram 8 4) (BitVec.ofNat 32 (field r.datagram 12 4))
        (decodeGroups (r.datagram.take MAX_REQ) (field r.datagram 2 2))
      refine ⟨fun snap hs => ?_, fun hrev => .inr (hcr hrev)⟩
      obtain ⟨hu, hg, hl, hc⟩ := hsn snap hs
      rw [ceiling] at hce
      simp only [ho.1, true_and] at hce
      exact ⟨ho.1, hu, hg, hl.trans (listed_eq hgp), hc, ceil, hce, hco⟩
    · cases hun : r.faults.unregister_personality with
      | none | some e =>
        rw [hun] at hse
        exact hr _ hse
    · exact hr _ hse
    · exact hr _ hse

def step (cfg : Config) (c : Creds) (r : Request) : Option Creds :=
  (serve cfg c r).map Served.creds

theorem AtRoot.step (h : AtRoot c) (hr : r.faults.Reverts)
    (hs : step cfg c r = some c') : AtRoot c' ∧ c'.permitted = c.permitted := by
  obtain ⟨out, ho, rfl⟩ := map_eq_some_iff.1 hs
  rcases (h.serve ho).2 hr with heq | heq
  · rw [heq]
    exact ⟨h, rfl⟩
  · rw [heq]
    exact ⟨⟨rfl, rfl⟩, rfl⟩

theorem registers_the_requested_identity (cfg : Config) (c₀ : Creds) (h₀ : AtRoot c₀)
    (served : List Request) (c : Creds) (hrun : Runs.run (step cfg) c₀ served = some c)
    (hreverts : ∀ r ∈ served, r.faults.Reverts) (r : Request) (out : Served)
    (hserve : serve cfg c r = some out) :
    (∀ snap, out.snapshot = some snap → Faithful cfg r.datagram snap) ∧
      (r.faults.Reverts → AtRoot out.creds ∧ out.creds.permitted = c₀.permitted ∧
        (out.creds = c ∨ out.creds = own c₀.permitted)) := by
  have hinv : AtRoot c ∧ c.permitted = c₀.permitted := by
    induction served generalizing c₀ with
    | nil =>
      cases hrun
      exact ⟨h₀, rfl⟩
    | cons r served ih =>
      obtain ⟨c₁, hc₁, hre⟩ := bind_eq_some_iff.1 hrun
      obtain ⟨h₁, hpe⟩ := h₀.step (hreverts r mem_cons_self) hc₁
      obtain ⟨hro, hpe'⟩ := ih c₁ h₁ hre fun r' hr' => hreverts r' (mem_cons_of_mem _ hr')
      exact ⟨hro, hpe'.trans hpe⟩
  obtain ⟨hf, hb⟩ := hinv.1.serve hserve
  refine ⟨hf, fun hr => ?_⟩
  rcases hb hr with heq | heq
  · rw [heq]
    exact ⟨hinv.1, hinv.2, .inl rfl⟩
  · rw [heq, hinv.2]
    exact ⟨⟨rfl, rfl⟩, rfl, .inr rfl⟩

theorem nodup_of_repeats (h : repeats gs = false) : gs.Nodup := by
  rw [List.Nodup, pairwise_iff_getElem]
  intro i j hi hj hij heq
  have hm := any_eq_false.1 h (gs[j], j)
    (mem_zipIdx_iff_getElem?.2 (getElem?_eq_getElem hj))
  rw [contains_iff_mem, ← heq] at hm
  exact hm (mem_take_iff_getElem.2 ⟨i, lt_min hij hi, rfl⟩)

/-- Lists of one length without repeats, one within the other, hold the same groups. -/
theorem mem_iff_of_groupSetDiffers {cur : List ℕ} (h : groupSetDiffers cur gs = false) (g : ℕ) :
    g ∈ cur ↔ g ∈ gs := by
  rw [groupSetDiffers] at h
  split_ifs at h with hl hr
  have hnd : gs.Nodup := nodup_of_repeats (by simp_all)
  have hsub : gs ⊆ cur := fun a ha => by simpa using any_eq_false.1 h a ha
  have hp := (subperm_of_subset hnd hsub).perm_of_length_le (not_not.1 hl).le
  exact hp.mem_iff.symm

/-- A broker that is not the superuser records its own credentials and keeps them. They are the ones
that were asked for, unless it has capabilities in effect. -/
theorem grants_only_the_requested_iff (f : Faults) (c : Creds) (h : c.uid.effective ≠ 0)
    (uid gid : ℕ) (caps : Caps) (groups : List ℕ) (snap : Creds)
    (hsnap : (registerAs f c uid gid caps groups).snapshot = some snap) :
    (snap.uid.effective = uid ∧ snap.gid.effective = gid ∧
      (∀ g, g ∈ snap.groups ↔ g ∈ groups) ∧ snap.effective = caps.effective ∧
      (registerAs f c uid gid caps groups).creds = c) ↔ c.effective = 0 := by
  rw [registerAs] at hsnap ⊢
  split_ifs at hsnap ⊢ with hfast hc
  obtain ⟨-, hn⟩ := hfast
  rw [needsImpersonation] at hn
  split_ifs at hn with hid hg
  obtain ⟨hu, hgi⟩ := not_or.1 hid
  rw [not_not.1 hc]
  rw [registerPersonality] at hsnap ⊢
  split at hsnap
  · obtain rfl := some.inj hsnap
    constructor
    · rintro ⟨-, -, -, he, -⟩
      exact he
    · intro he
      exact ⟨(not_not.1 hu).symm, (not_not.1 hgi).symm, mem_iff_of_groupSetDiffers hn, he, rfl⟩
  · cases hsnap

def Faults.none : Faults where
  getgroups := false
  setgroups := .none
  setresgid := .none
  setresuid := .none
  capget := .none
  capset := .none
  register_personality := .ok 7
  unregister_personality := .none
  restore_effective_caps := false
  revert_setresuid := false
  revert_setresgid := false
  revert_setgroups := false

/-- Uid 1000 and gid 100 with group 5 and one capability are registered. -/
theorem registers_the_requested_identity_user :
    ∃ out snap, serve ⟨1, Caps.DAC_READ_SEARCH, none⟩ (own (BitVec.allOnes 64))
        ⟨[1, 0, 1, 0, 232, 3, 0, 0, 100, 0, 0, 0, 4, 0, 0, 0, 5, 0, 0, 0], .none⟩ = some out ∧
      out.snapshot = some snap ∧
      Faithful ⟨1, Caps.DAC_READ_SEARCH, none⟩
        [1, 0, 1, 0, 232, 3, 0, 0, 100, 0, 0, 0, 4, 0, 0, 0, 5, 0, 0, 0] snap ∧
      AtRoot out.creds := by
  have hs : serve ⟨1, Caps.DAC_READ_SEARCH, none⟩ (own (BitVec.allOnes 64))
      ⟨[1, 0, 1, 0, 232, 3, 0, 0, 100, 0, 0, 0, 4, 0, 0, 0, 5, 0, 0, 0], .none⟩ =
        some ⟨7, own (BitVec.allOnes 64),
          some ⟨⟨1000, 1000, 0⟩, ⟨100, 100, 0⟩, [5], BitVec.allOnes 64, 4⟩⟩ := by decide +kernel
  obtain ⟨hf, hb⟩ := registers_the_requested_identity _ _ ⟨rfl, rfl⟩ [] _ rfl
    (fun _ h => absurd h not_mem_nil) _ _ hs
  exact ⟨_, _, hs, rfl, hf _ rfl, (hb ⟨rfl, rfl, rfl, rfl⟩).1⟩

theorem grants_only_the_requested_user :
    (registerAs .none ⟨⟨9, 9, 9⟩, ⟨8, 8, 8⟩, [5, 6], 0, 0⟩ 9 8 0 [6, 5]).snapshot =
        some ⟨⟨9, 9, 9⟩, ⟨8, 8, 8⟩, [5, 6], 0, 0⟩ ∧ ∀ g, g ∈ [5, 6] ↔ g ∈ [6, 5] :=
  ⟨by decide, ((grants_only_the_requested_iff .none ⟨⟨9, 9, 9⟩, ⟨8, 8, 8⟩, [5, 6], 0, 0⟩ (by decide)
    9 8 0 [6, 5] _ rfl).2 rfl).2.2.1⟩

/-- Uid 9 runs the broker with `CAP_SETUID` in effect, and asks for itself without capabilities. -/
theorem grants_its_own_capabilities : ∃ snap,
      (serve ⟨1, 0, none⟩ ⟨⟨9, 9, 9⟩, ⟨8, 8, 8⟩, [], 128, 128⟩
        ⟨[1, 0, 0, 0, 9, 0, 0, 0, 8, 0, 0, 0, 0, 0, 0, 0], .none⟩).bind Served.snapshot =
        some snap ∧
      snap.effective = 128 :=
  ⟨⟨⟨9, 9, 9⟩, ⟨8, 8, 8⟩, [], 128, 128⟩, by decide +kernel, rfl⟩

end TruenasRos.UringFs.Broker
