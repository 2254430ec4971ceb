import TruenasRos.UringFs.Broker

/-! # Round trips to the broker

The requests of all threads go over one socket under one lock. A reply does not name its
request, so a call that gives up on an owed reply marks the socket, and no later call uses it.
The broker takes requests and answers them in order, at any time between the client's calls.
-/

namespace TruenasRos.UringFs.Broker

open Credentials List Option

abbrev Datagram := Bytes

def EINTR : ℕ := 4
def EIO : ℕ := 5
def EPROTO : ℕ := 71
def ECONNRESET : ℕ := 104

def reply (value : BitVec 64) : Datagram := LittleEndian.toBytes 8 value.toNat

/-- What a received datagram says, or the error of the call. A datagram that is not a whole
reply means that the broker died. -/
def recvReply : Except ℕ Datagram → Except ℕ (BitVec 64)
  | .error e => .error e
  | .ok d =>
    let buf := d.take 8
    if buf.length ≠ 8 then .error ECONNRESET else .ok (BitVec.ofNat 64 (LittleEndian.ofBytes buf))

/-- Where the caller that holds the lock is. The number is that of its request on the wire. -/
inductive Phase
  | idle
  | sending (req : Datagram)
  | receiving (req : Datagram) (number : ℕ)
  deriving DecidableEq

/-- A call that has returned, with the number of its request if that was delivered. A reply is
outstanding if it was delivered, no reply was taken and one may still come. -/
structure Return where
  req : Datagram
  number : Option ℕ
  result : Except ℕ (BitVec 64)
  outstanding : Bool

/-- The socket, its two queues and the broker. The last four fields are a record of the past:
the requests delivered, the answers given, whether the connection was reset, and the calls. -/
structure Link where
  desynced : Bool
  phase : Phase
  requests : List Datagram
  replies : List Datagram
  running : Bool
  creds : Creds
  delivered : List Datagram
  answered : List (Datagram × BitVec 64)
  severed : Bool
  returned : List Return

inductive SendResult
  | failed (errno : ℕ)
  | sent
  deriving DecidableEq

inductive RecvResult
  | failed (errno : ℕ)
  | datagram
  | closed
  deriving DecidableEq

inductive Event
  | call (req : Datagram)
  | send (result : SendResult)
  | recv (result : RecvResult)
  | serve (faults : Faults)
  | quit

namespace Link

def cloned (c : Creds) : Link where
  desynced := false
  phase := .idle
  requests := []
  replies := [reply 0]
  running := true
  creds := c
  delivered := []
  answered := []
  severed := false
  returned := []

def spawned (c : Creds) : Option Link :=
  match (cloned c).replies with
  | [] => none
  | d :: rest => ((recvReply (.ok d)).toOption).map fun _ => { cloned c with replies := rest }

section

variable (l : Link) (req : Datagram)

def ret (number : Option ℕ) (result : Except ℕ (BitVec 64)) : Link :=
  { l with
    phase := .idle
    returned := l.returned ++ [⟨req, number, result,
      number.isSome && result.toOption.isNone && !l.severed⟩] }

def sever : Link := { l with replies := [], running := false, severed := true }

def call : Link :=
  if l.desynced then l.ret req none (.error EPROTO) else { l with phase := .sending req }

/-- An interrupted call is made again. The socket takes a datagram whole or not at all. -/
def send : SendResult → Link
  | .failed e => if e = EINTR then l else l.ret req none (.error e)
  | .sent =>
    let n := req.length
    let l' := { l with
      requests := l.requests ++ [req]
      delivered := l.delivered ++ [req] }
    if n ≠ req.length then l'.ret req (some l.delivered.length) (.error EIO)
    else { l' with phase := .receiving req l.delivered.length }

/-- The end of a round trip: any error but a reset leaves the reply to whoever comes next. -/
def settle (number : ℕ) (r : Except ℕ (BitVec 64)) : Link :=
  match r with
  | .ok v => l.ret req (some number) (.ok v)
  | .error e =>
    { l with desynced := l.desynced || e ≠ ECONNRESET }.ret req (some number) (.error e)

def recv (number : ℕ) : RecvResult → Link
  | .failed e =>
    if e = EINTR then l
    else (if e = ECONNRESET then l.sever else l).settle req number (recvReply (.error e))
  | .datagram =>
    match l.replies with
    | [] => l
    | d :: rest => { l with replies := rest }.settle req number (recvReply (.ok d))
  | .closed => l.sever.settle req number (recvReply (.ok []))

end

/-- A turn of the broker's loop, which ends at an empty datagram. -/
def serve (cfg : Config) (l : Link) (f : Faults) : Link :=
  match l.running, l.requests with
  | true, req :: rest =>
    match Broker.serve cfg l.creds ⟨req, f⟩ with
    | none => { l with requests := rest, running := false }
    | some out =>
      let value := BitVec.ofInt 64 out.reply
      { l with
        requests := rest
        creds := out.creds
        replies := l.replies ++ [reply value]
        answered := l.answered ++ [(req, value)] }
  | _, _ => l

/-- An event that cannot happen in a state leaves it as it is. -/
def step (cfg : Config) (l : Link) : Event → Link
  | .call req => match l.phase with
    | .idle => l.call req
    | _ => l
  | .send r => match l.phase with
    | .sending req => l.send req r
    | _ => l
  | .recv r => match l.phase with
    | .receiving req number => l.recv req number r
    | _ => l
  | .serve f => l.serve cfg f
  | .quit => { l with running := false }

def run (cfg : Config) (l : Link) (es : List Event) : Link := es.foldl (step cfg) l

end Link

variable {cfg : Config} {c : Creds} {l : Link} {req : Datagram} {k : ℕ}

theorem recvReply_reply (v : BitVec 64) : recvReply (.ok (reply v)) = .ok v := by
  have hlen : (reply v).length = 8 := LittleEndian.length_toBytes 8 v.toNat
  have ht : (reply v).take 8 = reply v := take_of_length_le hlen.le
  have hv : LittleEndian.ofBytes (reply v) = v.toNat :=
    LittleEndian.ofBytes_toBytes (Nat.lt_of_lt_of_eq v.isLt (by norm_num))
  simp [recvReply, ht, hlen, hv]

/-- Both queues are empty, and every request delivered was answered. -/
structure Link.Quiet (l : Link) : Prop where
  requests : l.requests = []
  replies : l.replies = []
  answered : l.answered.length = l.delivered.length

/-- The last request delivered is this one, and it is on its way, answered or lost. -/
inductive Link.Owed (l : Link) (req : Datagram) (k : ℕ) : Prop
  | asked (hreq : l.requests = [req]) (hrep : l.replies = []) (hlen : l.answered.length = k)
  | answered (a : List (Datagram × BitVec 64)) (v : BitVec 64) (hreq : l.requests = [])
      (hrep : l.replies = [reply v]) (hans : l.answered = a ++ [(req, v)]) (hlen : a.length = k)
  | lost (hreq : l.requests = []) (hrep : l.replies = []) (hrun : l.running = false)

/-- What the queues hold while the socket is not marked and not reset. -/
def Link.InStep (l : Link) : Prop :=
  match l.phase with
  | .receiving req k => l.Owed req k
  | _ => l.Quiet

/-- A call that took a reply took the answer to its own request. -/
def Link.Attributed (l : Link) (r : Return) : Prop :=
  ∀ v, r.result = .ok v → ∃ k, r.number = some k ∧ l.delivered[k]? = some r.req ∧
    l.answered[k]? = some (r.req, v)

structure Link.Inv (l : Link) : Prop where
  instep : l.desynced = false → l.severed = false → l.InStep
  severed : l.severed = true → l.replies = [] ∧ l.running = false
  busy : l.phase ≠ .idle → l.desynced = false
  number : ∀ req k, l.phase = .receiving req k → ∃ d, l.delivered = d ++ [req] ∧ d.length = k
  attributed : ∀ r ∈ l.returned, l.Attributed r
  marked : ∀ r ∈ l.returned, r.outstanding = true → l.desynced = true
  after : l.returned.Pairwise fun a b => a.outstanding = true → b.result = .error EPROTO

namespace Link

theorem Attributed.mono {l' : Link} {r : Return} (h : l.Attributed r)
    (hd : l.delivered <+: l'.delivered) (ha : l.answered <+: l'.answered) : l'.Attributed r := by
  intro v hv
  obtain ⟨k, hk, hr, hans⟩ := h v hv
  obtain ⟨d, hd⟩ := hd
  obtain ⟨a, ha⟩ := ha
  refine ⟨k, hk, ?_, ?_⟩
  · rw [← hd, List.getElem?_append_left (List.getElem?_eq_some_iff.1 hr).1, hr]
  · rw [← ha, List.getElem?_append_left (List.getElem?_eq_some_iff.1 hans).1, hans]

theorem Quiet.instep (h : l.Quiet) (hph : ∀ req k, l.phase ≠ .receiving req k) : l.InStep := by
  unfold InStep
  split
  · exact absurd ‹_› (hph _ _)
  · exact h

theorem Inv.ret {number : Option ℕ} {result : Except ℕ (BitVec 64)}
    (hqu : l.desynced = false → l.severed = false → l.Quiet)
    (hsv : l.severed = true → l.replies = [] ∧ l.running = false)
    (har : ∀ r ∈ l.returned, l.Attributed r)
    (hm : ∀ r ∈ l.returned, r.outstanding = true → l.desynced = true)
    (haf : l.returned.Pairwise fun a b => a.outstanding = true → b.result = .error EPROTO)
    (hown : ∀ v, result = .ok v → ∃ k, number = some k ∧ l.delivered[k]? = some req ∧
      l.answered[k]? = some (req, v))
    (hod : number.isSome = true → result.toOption = none → l.severed = false → l.desynced = true)
    (hpr : (∃ r ∈ l.returned, r.outstanding = true) → result = .error EPROTO) :
    (l.ret req number result).Inv where
  instep := fun hd hs =>
    have hq := hqu hd hs
    Quiet.instep { hq with } fun _ _ h => by cases h
  severed := hsv
  busy := fun h => absurd rfl h
  number := fun _ _ h => by cases h
  attributed := by
    refine forall_mem_append.2 ⟨har, forall_mem_singleton.2 ?_⟩
    exact hown
  marked := by
    intro r hr ho
    rcases mem_append.1 hr with hr | hr
    · exact hm r hr ho
    · rw [mem_singleton.1 hr] at ho
      simp only [Bool.and_eq_true, Bool.not_eq_true', isNone_iff_eq_none] at ho
      exact hod ho.1.1 ho.1.2 ho.2
  after := by
    refine pairwise_append.2 ⟨haf, pairwise_singleton _ _, fun a ha b hb ho => ?_⟩
    rw [mem_singleton.1 hb]
    exact hpr ⟨a, ha, ho⟩

section

variable (h : l.Inv)
include h

theorem Inv.not_outstanding (hd : l.desynced = false) :
    ¬ ∃ r ∈ l.returned, r.outstanding = true := by
  rintro ⟨r, hr, ho⟩
  exact absurd (h.marked r hr ho) (by simp [hd])

theorem Inv.quiet (hph : ∀ req k, l.phase ≠ .receiving req k)
    (hd : l.desynced = false) (hs : l.severed = false) : l.Quiet := by
  have hst := h.instep hd hs
  unfold InStep at hst
  split at hst
  · exact absurd ‹_› (hph _ _)
  · exact hst

theorem Inv.call (hph : l.phase = .idle) : (l.call req).Inv := by
  have hqu := h.quiet (by simp [hph])
  unfold Link.call
  split_ifs with hd
  · exact Inv.ret hqu h.severed h.attributed h.marked h.after (fun v hv => by cases hv)
      (fun hso => by cases hso) fun _ => rfl
  · have hd : l.desynced = false := by simpa using hd
    exact { h with
      instep := fun _ hs =>
        have hq := hqu hd hs
        Quiet.instep { hq with } fun _ _ h => by cases h
      busy := fun _ => hd
      number := fun _ _ hp => by cases hp }

theorem Inv.send (hph : l.phase = .sending req) (r : SendResult) : (l.send req r).Inv := by
  have hd := h.busy (by simp [hph])
  have hqu := h.quiet (by simp [hph])
  cases r with
  | failed e =>
    unfold Link.send
    dsimp only
    split_ifs
    · exact h
    · exact Inv.ret hqu h.severed h.attributed h.marked h.after (fun v hv => by cases hv)
        (fun hso => by cases hso) fun hex => absurd hex (h.not_outstanding hd)
  | sent =>
    have hlen : ¬ req.length ≠ req.length := not_not.2 rfl
    simp only [Link.send, if_neg hlen]
    refine { h with
      instep := fun _ hs => ?_
      busy := fun _ => hd
      number := fun req' k' hp => ?_
      attributed := fun r hr =>
        (h.attributed r hr).mono (prefix_append _ _) (prefix_refl _) }
    · have hq := hqu hd hs
      exact .asked (by simp [hq.requests]) hq.replies hq.answered
    · cases hp
      exact ⟨_, rfl, rfl⟩

theorem Inv.recv (hph : l.phase = .receiving req k) (r : RecvResult) : (l.recv req k r).Inv := by
  have hd := h.busy (by simp [hph])
  have hn := h.not_outstanding hd
  cases r with
  | failed e =>
    unfold Link.recv
    dsimp only
    split_ifs with he hre
    · exact h
    · exact Inv.ret (fun _ hs => by cases hs) (fun _ => ⟨rfl, rfl⟩) h.attributed
        (fun r hr ho => absurd ⟨r, hr, ho⟩ hn) h.after (fun v hv => by cases hv)
        (fun _ _ hs => by cases hs) fun hex => absurd hex hn
    · have hm : (l.desynced || decide (e ≠ ECONNRESET)) = true := by simp [hre]
      refine Inv.ret (fun hd' => ?_) h.severed h.attributed (fun _ _ _ => hm) h.after
        (fun v hv => by cases hv) (fun _ _ _ => hm) fun hex => absurd hex hn
      exact absurd (hm.symm.trans hd') (by simp)
  | datagram =>
    cases hrep : l.replies with
    | nil => simpa only [Link.recv, hrep] using h
    | cons d rest =>
      have hs : l.severed = false := by
        by_contra hs
        exact absurd (h.severed (by simpa using hs)).1 (by simp [hrep])
      simp only [Link.recv, hrep]
      have hst := h.instep hd hs
      rw [InStep, hph] at hst
      rcases hst with ⟨-, hnil, -⟩ | ⟨a, v, hreq, hone, ha, hlen⟩ | ⟨-, hnil, -⟩
      · exact absurd (hnil.symm.trans hrep) (by simp)
      · obtain ⟨rfl, rfl⟩ := cons.inj (hrep.symm.trans hone)
        obtain ⟨sent, hse, hk⟩ := h.number req k hph
        rw [recvReply_reply]
        refine Inv.ret (fun _ _ => ⟨hreq, rfl, ?_⟩) (fun _ => ⟨rfl, ?_⟩) h.attributed h.marked
          h.after (fun w hw => ⟨k, rfl, ?_, ?_⟩) (fun _ hv => by cases hv)
          fun hex => absurd hex hn
        · simp [ha, hse, hlen, hk]
        · exact absurd ‹_› (by simp [hs])
        · simp [hse, ← hk]
        · cases hw
          simp [ha, ← hlen]
      · exact absurd (hnil.symm.trans hrep) (by simp)
  | closed =>
    exact Inv.ret (fun _ hs => by cases hs) (fun _ => ⟨rfl, rfl⟩) h.attributed
      (fun r hr ho => absurd ⟨r, hr, ho⟩ hn) h.after (fun v hv => by cases hv)
      (fun _ _ hs => by cases hs) fun hex => absurd hex hn

theorem Inv.serve (cfg : Config) (f : Faults) : (l.serve cfg f).Inv := by
  unfold Link.serve
  split
  case h_2 => exact h
  case h_1 first rest hrun hreq =>
    have ho : l.desynced = false → l.severed = false →
        ∃ k, l.phase = .receiving first k ∧ rest = [] ∧ l.replies = [] ∧ l.answered.length = k := by
      intro hd hs
      have hst := h.instep hd hs
      unfold InStep at hst
      split at hst
      next req k hph =>
        rcases hst with ⟨hone, hrep, hlen⟩ | ⟨-, -, hnil, -, -, -⟩ | ⟨hnil, -, -⟩
        · obtain ⟨rfl, rfl⟩ := cons.inj (hreq.symm.trans hone)
          exact ⟨k, hph, rfl, hrep, hlen⟩
        · exact absurd (hreq.symm.trans hnil) (by simp)
        · exact absurd (hreq.symm.trans hnil) (by simp)
      next => exact absurd (hreq.symm.trans hst.requests) (by simp)
    have hsv : l.severed = true → False := fun hs => by
      simpa [hrun] using (h.severed hs).2
    cases hse : Broker.serve cfg l.creds ⟨first, f⟩ with
    | none =>
      refine { h with
        instep := fun hd hs => ?_
        severed := fun hs => (hsv hs).elim }
      obtain ⟨k, hph, hre, hrep, -⟩ := ho hd hs
      simp only [InStep, hph]
      exact .lost hre hrep rfl
    | some out =>
      refine { h with
        instep := fun hd hs => ?_
        severed := fun hs => (hsv hs).elim
        attributed := fun r hr =>
          (h.attributed r hr).mono (prefix_refl _) (prefix_append _ _) }
      obtain ⟨k, hph, hre, hrep, hlen⟩ := ho hd hs
      simp only [InStep, hph]
      exact .answered _ _ hre (by simp [hrep]) rfl hlen

theorem Inv.quit : Inv { l with running := false } := by
  refine { h with
    instep := fun hd hs => ?_
    severed := fun hs => ⟨(h.severed hs).1, rfl⟩ }
  have hst := h.instep hd hs
  cases hph : l.phase with
  | idle | sending req =>
    simp only [InStep, hph] at hst ⊢
    exact { hst with }
  | receiving req k =>
    simp only [InStep, hph] at hst ⊢
    rcases hst with ⟨hr, hrep, hlen⟩ | ⟨a, v, hr, hrep, ha, hlen⟩ | ⟨hr, hrep, -⟩
    · exact .asked hr hrep hlen
    · exact .answered a v hr hrep ha hlen
    · exact .lost hr hrep rfl

theorem Inv.step (cfg : Config) (e : Event) : (l.step cfg e).Inv := by
  unfold Link.step
  cases e with
  | call req =>
    dsimp only
    split
    · exact h.call ‹_›
    · exact h
  | send r =>
    dsimp only
    split
    · exact h.send ‹_› r
    · exact h
  | recv r =>
    dsimp only
    split
    · exact h.recv ‹_› r
    · exact h
  | serve f => exact h.serve cfg f
  | quit => exact h.quit

theorem Inv.run (cfg : Config) (es : List Event) : (l.run cfg es).Inv := by
  induction es generalizing l with
  | nil => exact h
  | cons e es ih => exact ih (h.step cfg e)

end

theorem inv_of_spawned (h : spawned c = some l) : l.Inv := by
  rw [spawned, cloned] at h
  simp only [recvReply_reply, Except.toOption, map_some, some.injEq] at h
  subst h
  exact {
    instep := fun _ _ => ⟨rfl, rfl, rfl⟩
    severed := fun hs => by cases hs
    busy := fun hp => absurd rfl hp
    number := fun _ _ hp => by cases hp
    attributed := fun _ hr => by cases hr
    marked := fun _ hr => by cases hr
    after := List.Pairwise.nil }

end Link

/-- Each call that returned a reply returned the answer to its own request, and once a call has
given up on a reply that may still come, every later call is refused. -/
theorem replies_are_attributed (cfg : Config) (c : Creds) :
    ∃ l, Link.spawned c = some l ∧ ∀ es : List Event,
      (∀ r ∈ (l.run cfg es).returned, ∀ v, r.result = .ok v → ∃ k, r.number = some k ∧
        (l.run cfg es).delivered[k]? = some r.req ∧
        (l.run cfg es).answered[k]? = some (r.req, v)) ∧
      (l.run cfg es).returned.Pairwise fun a b =>
        a.outstanding = true → b.result = .error EPROTO := by
  have hs : (Link.spawned c).isSome = true := by
    simp [Link.spawned, Link.cloned, recvReply_reply, Except.toOption]
  obtain ⟨l, hl⟩ := isSome_iff_exists.1 hs
  refine ⟨l, hl, fun es => ?_⟩
  have hinv := (Link.inv_of_spawned hl).run cfg es
  exact ⟨hinv.attributed, hinv.after⟩

end TruenasRos.UringFs.Broker
