import TruenasRos.Net.Reactor

/-! # The accounts of a connection

A connection's counter of operations is the number of its transfers in flight, and of its
teardown. The teardown is submitted when no transfer is in flight, no transfer is staged after
the connection began to close, and the slot is freed when the socket has been closed.
-/

namespace TruenasRos.Net

open List Nat

namespace Op

def flag : Op → Option Flag
  | .RecvHeader | .RecvBody => some .recv
  | .Send => some .send
  | .SpliceRecv => some .splice
  | .SplicePoll => some .poll
  | .Shutdown | .Close | .DetachInstall => none

def isTeardown : Op → Bool
  | .Shutdown | .Close => true
  | _ => false

end Op

/-- What a connection's teardown depends on. -/
@[ext] structure Accounts where
  place : Place
  flag : Flag → Bool
  closing : Bool
  teardown_deferred : Bool
  ops : ℕ
  inflight : List Op
  staged : List Staged
  hooks : ℕ
  freed : ℕ
  underflows : ℕ

namespace Accounts

variable {a : Accounts} {f g : Flag} {op : Op}

def transfers (a : Accounts) : ℕ :=
  (a.flag .recv).toNat + (a.flag .send).toNat + (a.flag .splice).toNat + (a.flag .poll).toNat

def stagings (a : Accounts) (op : Op) : ℕ := a.staged.countP fun x => x.op == op

/-- What a teardown has in flight and has staged. -/
structure Tears (a : Accounts) (shutdown close shutdowns closes : ℕ) : Prop where
  shutdown : a.inflight.count .Shutdown = shutdown
  close : a.inflight.count .Close = close
  shutdowns : a.stagings .Shutdown = shutdowns
  closes : a.stagings .Close = closes

/-- How far a connection's teardown has come. -/
inductive Life (a : Accounts) : Prop
  | opened (hclosing : a.closing = false) (hdeferred : a.teardown_deferred = false)
      (hhooks : a.hooks = 0) (hplace : a.place ≠ .Freed) (htears : a.Tears 0 0 0 0)
  | waiting (hclosing : a.closing = true) (hdeferred : a.teardown_deferred = true)
      (hhooks : a.hooks = 1) (hplace : a.place = .Serving) (htears : a.Tears 0 0 0 0)
      (htransfers : 0 < a.transfers)
  | shutting (hclosing : a.closing = true) (hdeferred : a.teardown_deferred = false)
      (hhooks : a.hooks = 1) (hplace : a.place = .Serving) (htears : a.Tears 1 0 1 0)
      (htransfers : a.transfers = 0)
  | shut (hclosing : a.closing = true) (hdeferred : a.teardown_deferred = false)
      (hhooks : a.hooks = 1) (hplace : a.place = .Serving) {n : ℕ} (htears : a.Tears 0 1 n 1)
      (hshutdowns : n ≤ 1) (htransfers : a.transfers = 0)
  | freed (hclosing : a.closing = true) (hhooks : a.hooks = 1) (hplace : a.place = .Freed)
      (hinflight : a.inflight = []) (hshutdowns : a.stagings .Shutdown ≤ 1)
      (hcloses : a.stagings .Close = 1)

/-- The counter, the flags and the log agree with what is in flight. -/
structure Balanced (a : Accounts) : Prop where
  flags : ∀ f, a.inflight.countP (·.flag = some f) = (a.flag f).toNat
  ops : a.ops = a.transfers + a.inflight.countP Op.isTeardown
  detach : a.inflight.count .DetachInstall = if a.place = .Detaching then 1 else 0
  away : a.place = .Detaching ∨ a.place = .Detached → a.closing = false ∧ a.transfers = 0
  freed : a.freed = if a.place = .Freed then 1 else 0
  underflows : a.underflows = 0
  log : ∀ x ∈ a.staged, (x.op.isTeardown → x.busy = false) ∧ (x.op.flag.isSome → x.closing = false)

structure Sound (a : Accounts) : Prop extends Balanced a where
  life : a.Life

theorem countP_isTeardown (l : List Op) :
    l.countP Op.isTeardown = l.count .Shutdown + l.count .Close := by
  induction l with
  | nil => rfl
  | cons op l ih =>
    rw [countP_cons, count_cons, count_cons, ih]
    cases op <;> simp [Op.isTeardown] <;> omega

theorem Life.untouched (h : a.Life) (ho : a.closing = false) :
    a.teardown_deferred = false ∧ a.hooks = 0 ∧ a.place ≠ .Freed ∧ a.Tears 0 0 0 0 := by
  cases h with
  | opened _ hd hh hpl ht => exact ⟨hd, hh, hpl, ht⟩
  | waiting hcl | shutting hcl | shut hcl | freed hcl =>
    rw [ho] at hcl
    cases hcl

section

variable (a)

def arm (f : Flag) (op : Op) (busy : Bool) : Accounts :=
  { a with
    flag := Function.update a.flag f true
    ops := a.ops + 1
    inflight := a.inflight ++ [op]
    staged := a.staged ++ [⟨op, busy, a.closing⟩] }

def down (f : Flag) : Accounts :=
  { a with
    flag := Function.update a.flag f false
    ops := a.ops - 1
    underflows := a.underflows + if a.ops = 0 then 1 else 0 }

def drop (f : Flag) (op : Op) : Accounts :=
  { a with inflight := a.inflight.erase op }.down f

def tear (op : Op) (busy : Bool) : Accounts :=
  { a with
    teardown_deferred := false
    ops := a.ops + 1
    inflight := a.inflight ++ [op]
    staged := a.staged ++ [⟨op, busy, a.closing⟩] }

def hook (teardown_deferred : Bool) : Accounts :=
  { a with closing := true, hooks := a.hooks + 1, teardown_deferred }

end

theorem transfers_arm (h : a.flag f = false) (busy : Bool) :
    (a.arm f op busy).transfers = a.transfers + 1 := by
  cases f <;> simp [transfers, arm, h] <;> omega

theorem transfers_drop (op : Op) (h : a.flag f = true) : (a.drop f op).transfers + 1 =
    a.transfers := by
  cases f <;> simp [transfers, drop, down, h] <;> omega

theorem stagings_concat (a : Accounts) (op : Op) (busy closing : Bool) (staged : List Staged)
    (h : a.staged = staged ++ [⟨op, busy, closing⟩]) (op' : Op) :
    a.stagings op' = staged.countP (fun x => x.op == op') + if op = op' then 1 else 0 := by
  rw [stagings, h, countP_append, countP_singleton]
  simp

theorem count_concat_of_flag (ho : op.flag = some f) (l : List Op) :
    (l ++ [op]).count .Shutdown = l.count .Shutdown ∧ (l ++ [op]).count .Close = l.count .Close ∧
      (l ++ [op]).count .DetachInstall = l.count .DetachInstall := by
  cases op <;> simp [Op.flag] at ho ⊢

theorem count_erase_of_flag (ho : op.flag = some f) (l : List Op) :
    (l.erase op).count .Shutdown = l.count .Shutdown ∧ (l.erase op).count .Close = l.count .Close ∧
      (l.erase op).count .DetachInstall = l.count .DetachInstall := by
  cases op <;> simp [Op.flag] at ho ⊢

theorem Balanced.arm (h : a.Balanced) (hon : a.closing = false) (hpl : a.place = .Serving)
    (hf : a.flag f = false) (ho : op.flag = some f) (busy : Bool) : (a.arm f op busy).Balanced := by
  have hte : op.isTeardown = false := by cases op <;> simp [Op.flag, Op.isTeardown] at ho ⊢
  refine ⟨fun g => ?_, ?_, ?_, ?_, h.freed, h.underflows, ?_⟩
  · rw [show (a.arm f op busy).inflight = a.inflight ++ [op] from rfl, countP_append, h.flags g]
    by_cases hg : g = f
    · subst hg
      simp [Accounts.arm, hf, ho]
    · simp [Accounts.arm, hg, ho, Ne.symm hg]
  · rw [transfers_arm hf]
    simp only [Accounts.arm, countP_append, countP_singleton, hte, h.ops]
    simp
    omega
  · exact (count_concat_of_flag ho a.inflight).2.2.trans h.detach
  · rintro (hp | hp) <;> simp [Accounts.arm, hpl] at hp
  · refine forall_mem_append.2 ⟨h.log, forall_mem_singleton.2 ?_⟩
    exact ⟨fun ht => absurd ht (by simp [hte]), fun _ => hon⟩

theorem Sound.arm (h : a.Sound) (ho : a.closing = false) (hpl : a.place = .Serving)
    (hf : a.flag f = false) (hop : op.flag = some f) (busy : Bool) : (a.arm f op busy).Sound := by
  refine ⟨h.toBalanced.arm ho hpl hf hop busy, ?_⟩
  obtain ⟨hsh, hclo, -⟩ := count_concat_of_flag hop a.inflight
  have hne : op ≠ .Shutdown ∧ op ≠ .Close := by cases op <;> simp [Op.flag] at hop ⊢
  have hst := stagings_concat (a.arm f op busy) op busy a.closing a.staged rfl
  obtain ⟨hd, hh, hpl, ht⟩ := h.life.untouched ho
  refine .opened ho hd hh hpl ⟨hsh.trans ht.shutdown, hclo.trans ht.close, ?_, ?_⟩
  · rw [hst, if_neg hne.1]
    exact ht.shutdowns
  · rw [hst, if_neg hne.2]
    exact ht.closes

theorem Balanced.flag_of_mem (h : a.Balanced) (ho : op.flag = some f) (hmem : op ∈ a.inflight) :
    a.flag f = true := by
  have hpos : 0 < a.inflight.countP (·.flag = some f) :=
    countP_pos_iff.2 ⟨op, hmem, by simp [ho]⟩
  rw [h.flags f] at hpos
  exact eq_true_of_ne_false fun hf => by simp [hf] at hpos

theorem Balanced.drop (h : a.Balanced) (ho : op.flag = some f) (hmem : op ∈ a.inflight) :
    (a.drop f op).Balanced := by
  have hf := h.flag_of_mem ho hmem
  have ht := transfers_drop op hf
  have hte : op.isTeardown = false := by cases op <;> simp [Op.flag, Op.isTeardown] at ho ⊢
  refine ⟨fun g => ?_, ?_, ?_, fun hp => ?_, h.freed, ?_, h.log⟩
  · rw [show (a.drop f op).inflight = a.inflight.erase op from rfl, countP_erase, h.flags g]
    by_cases hg : g = f
    · subst hg
      simp [Accounts.drop, down, hf, ho, hmem]
    · simp [Accounts.drop, down, hg, ho, Ne.symm hg]
  · have hops := h.ops
    simp only [Accounts.drop, down, countP_erase, hte] at ht ⊢
    simp
    omega
  · exact (count_erase_of_flag ho a.inflight).2.2.trans h.detach
  · have := (h.away hp).2
    omega
  · have hpos : a.ops ≠ 0 := by rw [h.ops]; omega
    simp [Accounts.drop, down, hpos, h.underflows]

theorem Tears.drop {s c ss cs : ℕ} (h : a.Tears s c ss cs) (ho : op.flag = some f) :
    (a.drop f op).Tears s c ss cs where
  shutdown := (count_erase_of_flag ho _).1.trans h.shutdown
  close := (count_erase_of_flag ho _).2.1.trans h.close
  shutdowns := h.shutdowns
  closes := h.closes

theorem Sound.drop (h : a.Sound) (ho : op.flag = some f) (hmem : op ∈ a.inflight)
    (hk : a.closing = false ∨ 0 < (a.drop f op).transfers) : (a.drop f op).Sound := by
  refine ⟨h.toBalanced.drop ho hmem, ?_⟩
  have ht := transfers_drop op (h.flag_of_mem ho hmem)
  cases h.life with
  | opened hcl hd hh hpl hts => exact .opened hcl hd hh hpl (hts.drop ho)
  | waiting hcl hd hh hpl hts =>
    exact .waiting hcl hd hh hpl (hts.drop ho) (hk.resolve_left (by simp [hcl]))
  | shutting _ _ _ _ _ hz | shut _ _ _ _ _ _ hz => omega
  | freed _ _ _ hin => simp [hin] at hmem

theorem Balanced.tear (h : a.Balanced) (hc : a.closing = true) (ho : op.isTeardown = true) :
    (a.tear op false).Balanced := by
  have hne : op ≠ .DetachInstall := by cases op <;> simp [Op.isTeardown] at ho ⊢
  have hf : op.flag = none := by cases op <;> simp [Op.isTeardown, Op.flag] at ho ⊢
  refine ⟨fun g => ?_, ?_, ?_, fun hp => ?_, h.freed, h.underflows, ?_⟩
  · rw [show (a.tear op false).inflight = a.inflight ++ [op] from rfl, countP_append, h.flags g]
    simp [Accounts.tear, hf]
  · have hops := h.ops
    simp only [Accounts.tear, countP_append, countP_singleton, ho]
    simp only [transfers] at hops ⊢
    simp
    omega
  · rw [show (a.tear op false).inflight = a.inflight ++ [op] from rfl, count_append, h.detach]
    exact add_eq_left.2 (by simp [hne])
  · exact absurd (h.away hp).1 (by simp [hc])
  · refine forall_mem_append.2 ⟨h.log, forall_mem_singleton.2 ?_⟩
    exact ⟨fun _ => rfl, fun ht => absurd ht (by simp [hf])⟩

theorem Life.tear (hcl : a.closing = true) (hh : a.hooks = 1) (hpl : a.place = .Serving)
    (ht : a.Tears 0 0 0 0) (hz : a.transfers = 0) (ho : op.isTeardown = true) (busy : Bool) :
    (a.tear op busy).Life := by
  have hst := stagings_concat (a.tear op busy) op busy a.closing a.staged rfl
  have hco : ∀ op', (a.tear op busy).inflight.count op' =
      a.inflight.count op' + if op = op' then 1 else 0 := by
    intro op'
    rw [show (a.tear op busy).inflight = a.inflight ++ [op] from rfl, count_append, count_singleton]
    simp
  have htn : ∀ s c, (if op = .Shutdown then 1 else 0) = s → (if op = .Close then 1 else 0) = c →
      (a.tear op busy).Tears s c s c := by
    rintro s c rfl rfl
    constructor
    · exact (hco _).trans (add_eq_right.2 ht.shutdown)
    · exact (hco _).trans (add_eq_right.2 ht.close)
    · exact (hst _).trans (add_eq_right.2 ht.shutdowns)
    · exact (hst _).trans (add_eq_right.2 ht.closes)
  cases op with
  | Shutdown => exact .shutting hcl rfl hh hpl (htn 1 0 rfl rfl) hz
  | Close => exact .shut hcl rfl hh hpl (htn 0 1 rfl rfl) (zero_le 1) hz
  | RecvHeader | RecvBody | Send | SpliceRecv | SplicePoll | DetachInstall => cases ho

theorem Sound.drop_tear {op' : Op} (h : a.Sound) (hcl : a.closing = true)
    (ho : op.flag = some f) (hmem : op ∈ a.inflight) (hz : (a.drop f op).transfers = 0)
    (ho' : op'.isTeardown = true) : ((a.drop f op).tear op' false).Sound := by
  refine ⟨(h.toBalanced.drop ho hmem).tear hcl ho', ?_⟩
  have ht := transfers_drop op (h.flag_of_mem ho hmem)
  cases h.life with
  | opened hon => rw [hcl] at hon; cases hon
  | waiting _ _ hh hpl hts => exact Life.tear (a := a.drop f op) hcl hh hpl (hts.drop ho) hz ho' _
  | shutting _ _ _ _ _ hz' | shut _ _ _ _ _ _ hz' => omega
  | freed _ _ _ hin => simp [hin] at hmem

theorem Balanced.hook (h : a.Balanced) (hpl : a.place = .Serving) (deferred : Bool) :
    (a.hook deferred).Balanced := by
  refine { h with away := ?_ }
  rintro (hp | hp) <;> simp [Accounts.hook, hpl] at hp

theorem Sound.hook_deferred (h : a.Sound) (ho : a.closing = false) (hpl : a.place = .Serving)
    (ht : 0 < a.transfers) : (a.hook true).Sound := by
  refine ⟨h.toBalanced.hook hpl true, ?_⟩
  obtain ⟨-, hh, -, hts⟩ := h.life.untouched ho
  exact .waiting rfl rfl (congrArg (· + 1) hh) hpl { hts with } ht

theorem Sound.hook_tear (h : a.Sound) (hon : a.closing = false) (hpl : a.place = .Serving)
    (hz : a.transfers = 0) (ho : op.isTeardown = true) : ((a.hook false).tear op false).Sound := by
  refine ⟨(h.toBalanced.hook hpl false).tear rfl ho, ?_⟩
  obtain ⟨-, hh, -, hts⟩ := h.life.untouched hon
  exact Life.tear (a := a.hook false) rfl (congrArg (· + 1) hh) hpl { hts with } hz ho _

def shutDown (a : Accounts) (busy : Bool) : Accounts :=
  { a with
    inflight := a.inflight.erase .Shutdown ++ [.Close]
    staged := a.staged ++ [⟨.Close, busy, a.closing⟩] }

def free (a : Accounts) : Accounts :=
  { a with
    place := .Freed
    ops := a.ops - 1
    inflight := a.inflight.erase .Close
    freed := a.freed + 1
    underflows := a.underflows + if a.ops = 0 then 1 else 0 }

def leave (a : Accounts) (busy : Bool) : Accounts :=
  { a with
    place := .Detaching
    inflight := a.inflight ++ [.DetachInstall]
    staged := a.staged ++ [⟨.DetachInstall, busy, a.closing⟩] }

def left (a : Accounts) (place : Place) : Accounts :=
  { a with place, inflight := a.inflight.erase .DetachInstall }

theorem Sound.shutting_of_mem (h : a.Sound) (hmem : .Shutdown ∈ a.inflight) :
    a.transfers = 0 ∧ a.place = .Serving ∧ (a.shutDown false).Life := by
  have hpos : 0 < a.inflight.count .Shutdown := count_pos_iff.2 hmem
  cases h.life with
  | opened _ _ _ _ ht | waiting _ _ _ _ ht | shut _ _ _ _ ht => exact absurd ht.shutdown hpos.ne'
  | freed _ _ _ hin => simp [hin] at hmem
  | shutting hcl hd hh hpl ht hz =>
    have hst := stagings_concat (a.shutDown false) .Close false a.closing a.staged rfl
    refine ⟨hz, hpl, .shut hcl hd hh hpl ⟨?_, ?_, (hst _).trans ht.shutdowns, ?_⟩ le_rfl hz⟩
    · simp [shutDown, ht.shutdown]
    · simp [shutDown, ht.close]
    · exact (hst _).trans (congrArg (· + 1) ht.closes)

theorem Sound.shutDown (h : a.Sound) (hmem : .Shutdown ∈ a.inflight) :
    (a.shutDown false).Sound := by
  obtain ⟨hz, hpl, hl⟩ := h.shutting_of_mem hmem
  have hc : a.inflight.countP Op.isTeardown = (a.shutDown false).inflight.countP Op.isTeardown := by
    have hpos : 0 < a.inflight.count .Shutdown := count_pos_iff.2 hmem
    simp only [countP_isTeardown, Accounts.shutDown]
    simp
    omega
  refine ⟨⟨fun g => ?_, h.ops.trans (congrArg (_ + ·) hc), ?_, fun hp => ?_, h.freed,
    h.underflows, ?_⟩, hl⟩
  · rw [show (a.shutDown false).inflight = a.inflight.erase .Shutdown ++ [.Close] from rfl,
      countP_append, countP_erase, h.flags g]
    simp [Accounts.shutDown, Op.flag]
  · refine Eq.trans ?_ h.detach
    simp [Accounts.shutDown]
  · rcases hp with hp | hp <;> simp [Accounts.shutDown, hpl] at hp
  · refine forall_mem_append.2 ⟨h.log, forall_mem_singleton.2 ?_⟩
    exact ⟨fun _ => rfl, fun ht => absurd ht (by simp [Op.flag])⟩

theorem length_eq (l : List Op) :
    l.length = l.countP (·.flag = some .recv) + l.countP (·.flag = some .send) +
      l.countP (·.flag = some .splice) + l.countP (·.flag = some .poll) + l.count .Shutdown +
      l.count .Close + l.count .DetachInstall := by
  induction l with
  | nil => rfl
  | cons op l ih =>
    simp only [length_cons, countP_cons, count_cons, ih]
    cases op <;> simp [Op.flag] <;> omega

section

variable (h : a.Sound)
include h

theorem Sound.inflight_of_close (hmem : .Close ∈ a.inflight) :
    a.inflight = [.Close] ∧ a.ops = 1 ∧ a.free.Life := by
  have hpos : 0 < a.inflight.count .Close := count_pos_iff.2 hmem
  cases h.life with
  | opened _ _ _ _ ht | waiting _ _ _ _ ht | shutting _ _ _ _ ht => exact absurd ht.close hpos.ne'
  | freed _ _ _ hin => simp [hin] at hmem
  | shut hcl hde hh hpl ht hn hz =>
    have hd := h.detach
    have hl := length_eq a.inflight
    have hf : ∀ f, a.inflight.countP (·.flag = some f) = 0 := by
      intro f
      rw [h.flags f]
      simp only [transfers] at hz
      cases f <;> omega
    simp only [hf, ht.shutdown, ht.close, hd, hpl] at hl
    obtain ⟨op, ho⟩ := length_eq_one_iff.1 hl
    rw [ho, mem_singleton] at hmem
    subst hmem
    refine ⟨ho, ?_, .freed hcl hh rfl ?_ (ht.shutdowns.trans_le hn) ht.closes⟩
    · rw [h.ops, hz, ho]
      rfl
    · simp [free, ho]

theorem Sound.free (hmem : .Close ∈ a.inflight) : a.free.Sound := by
  obtain ⟨hin, ho, hl⟩ := h.inflight_of_close hmem
  have hfa : ∀ f, a.flag f = false := by
    intro f
    have hfl := h.flags f
    cases hf : a.flag f with
    | false => rfl
    | true => simp [hin, hf, Op.flag] at hfl
  refine ⟨⟨fun g => ?_, ?_, ?_, ?_, ?_, ?_, h.log⟩, hl⟩
  · simp [Accounts.free, hin, hfa]
  · simp [Accounts.free, hin, ho, transfers, hfa]
  · simp [Accounts.free, hin]
  · rintro (hp | hp) <;> cases hp
  · have hfr := h.freed
    have hpl : a.place ≠ .Freed := by
      intro hp
      cases h.life with
      | freed _ _ _ hnil => simp [hnil] at hmem
      | opened _ _ _ hpl => exact hpl hp
      | waiting _ _ _ hpl | shutting _ _ _ hpl | shut _ _ _ hpl => simp [hpl] at hp
    rw [if_neg hpl] at hfr
    simp [Accounts.free, hfr]
  · simp [Accounts.free, ho, h.underflows]

theorem Sound.leave (ho : a.closing = false) (hpl : a.place = .Serving)
    (hz : a.transfers = 0) (busy : Bool) : (a.leave busy).Sound := by
  have hd := h.detach
  rw [if_neg (by simp [hpl])] at hd
  refine ⟨⟨fun g => ?_, ?_, ?_, fun _ => ⟨ho, hz⟩, ?_, h.underflows, ?_⟩, ?_⟩
  · rw [show (a.leave busy).inflight = a.inflight ++ [.DetachInstall] from rfl, countP_append,
      h.flags g]
    simp [Accounts.leave, Op.flag]
  · apply h.ops.trans
    simp [Accounts.leave, transfers, Op.isTeardown]
  · simp [Accounts.leave, hd]
  · simpa [Accounts.leave, hpl] using h.freed
  · refine forall_mem_append.2 ⟨h.log, forall_mem_singleton.2 ?_⟩
    exact ⟨fun ht => absurd ht (by simp [Op.isTeardown]), fun ht => absurd ht (by simp [Op.flag])⟩
  · obtain ⟨hde, hh, -, ht⟩ := h.life.untouched ho
    have hst := stagings_concat (a.leave busy) .DetachInstall busy a.closing a.staged rfl
    refine .opened ho hde hh nofun ⟨?_, ?_, (hst _).trans ht.shutdowns, (hst _).trans ht.closes⟩
    · simp [Accounts.leave, ht.shutdown]
    · simp [Accounts.leave, ht.close]

theorem Sound.detaching_of_mem (hmem : .DetachInstall ∈ a.inflight) : a.place = .Detaching := by
  have hpos : 0 < a.inflight.count .DetachInstall := count_pos_iff.2 hmem
  rw [h.detach] at hpos
  by_contra hpl
  simp [hpl] at hpos

theorem Sound.left {place : Place} (hmem : .DetachInstall ∈ a.inflight)
    (hpl : place = .Serving ∨ place = .Detached) : (a.left place).Sound := by
  have hd := h.detaching_of_mem hmem
  obtain ⟨ho, hz⟩ := h.away (.inl hd)
  have hdt := h.detach
  rw [if_pos hd] at hdt
  have hne : place ≠ .Detaching ∧ place ≠ .Freed := by rcases hpl with rfl | rfl <;> simp
  refine ⟨⟨fun g => ?_, ?_, ?_, fun _ => ⟨ho, hz⟩, ?_, h.underflows, h.log⟩, ?_⟩
  · rw [show (a.left place).inflight = a.inflight.erase .DetachInstall from rfl, countP_erase,
      h.flags g]
    simp [Accounts.left, Op.flag]
  · apply h.ops.trans
    simp [Accounts.left, transfers, countP_erase, Op.isTeardown]
  · simp [Accounts.left, hdt, hne.1]
  · simpa [Accounts.left, hd, hne.2] using h.freed
  · obtain ⟨hde, hh, -, ht⟩ := h.life.untouched ho
    refine .opened ho hde hh hne.2 ⟨?_, ?_, ht.shutdowns, ht.closes⟩
    · simp [Accounts.left, ht.shutdown]
    · simp [Accounts.left, ht.close]

theorem Sound.back (hpl : a.place = .Detached) : Sound { a with place := .Serving } := by
  obtain ⟨ho, hz⟩ := h.away (.inr hpl)
  obtain ⟨hd, hh, -, ht⟩ := h.life.untouched ho
  refine ⟨⟨h.flags, h.ops, ?_, fun _ => ⟨ho, hz⟩, ?_, h.underflows, h.log⟩, ?_⟩
  · simpa [hpl] using h.detach
  · simpa [hpl] using h.freed
  · exact .opened ho hd hh nofun { ht with }

theorem Sound.closing_of_freed (hpl : a.place = .Freed) : a.closing = true := by
  cases h.life with
  | opened _ _ _ hne => exact absurd hpl hne
  | waiting hc | shutting hc | shut hc | freed hc => exact hc

theorem Sound.serving_of_mem (ho : op.flag = some f) (hmem : op ∈ a.inflight) :
    a.place = .Serving := by
  have ht := transfers_drop op (h.flag_of_mem ho hmem)
  cases hpl : a.place with
  | Serving => rfl
  | Detaching | Detached =>
    have := (h.away (by simp [hpl])).2
    omega
  | Freed =>
    cases h.life with
    | opened _ _ _ hne => exact absurd hpl hne
    | waiting _ _ _ hs | shutting _ _ _ hs | shut _ _ _ hs => rw [hpl] at hs; cases hs
    | freed _ _ _ hnil => simp [hnil] at hmem

end

end Accounts

end TruenasRos.Net
