import SustainableXv6.Kernel.Energy

/-!
# The energy budget

The two charges of `kernel/trap.c` lower the budget of a process by the tick that they add to its
`energy_consumed`, and not below 0. They do so with different tests: `clockintr` asks for a budget
of one tick at least, and `usertrap` for one above 0. The budget of a process is the default budget
without the energy that it has consumed (`energy_conserved`), as long as `energy_consumed` does not
wrap and no recovery goes astray. `energy_aware_deadlock_recovery` tests and stores the state of its
victim without its lock. If the victim ends in between and its slot is freed, the store makes a
process of the slot that has neither a budget nor a charge (`freed_slot_unbudgeted`).

The state is that of the kernel with the number of charges that each process has taken since
`allocproc`. A charge is one step, as all the parts of the source that run under one lock are. That
of `usertrap` is made without the lock of the process, by the processor on which it runs.
-/

namespace SustainableXv6

open Lib (ReachVia Reach run exists_of_run withHistory)

variable {K : Type} {s s' : State K}

/-! ## `sys_getenergy` -/

/-- `energy_data` of `sys_getenergy`. -/
def energyData (p : Proc K) : UInt64 × UInt64 × ℤ := (p.energy_budget, p.energy_consumed, p.pid)

/-- `sys_getenergy` of the process `p`: its result, and what it reports. `copied` says whether
`copyout` succeeds. -/
def sysGetenergy (t : Table K) (p : Slot) (addr : UInt64) (copied : Bool) :
    ℤ × Option (UInt64 × UInt64 × ℤ) :=
  if addr = 0 then (-1, none)
  else if copied then (0, some (energyData (t p)))
  else (-1, none)

/-! ## The charges -/

/-- The budget `budget` is what the energy `consumed` leaves of the default one. -/
def Conserved (budget consumed : UInt64) : Prop :=
  budget.toNat = DEFAULT_ENERGY_BUDGET.toNat - min DEFAULT_ENERGY_BUDGET.toNat consumed.toNat

instance (budget consumed : UInt64) : Decidable (Conserved budget consumed) :=
  inferInstanceAs (Decidable (_ = _))

/-- A tick more. -/
theorem toNat_add_tick {c : UInt64} (hlt : c.toNat + 1 < 2 ^ 64) :
    (c + ENERGY_PER_TICK).toNat = c.toNat + 1 := by
  rw [UInt64.toNat_add]
  exact Nat.mod_eq_of_lt hlt

/-- A tick less, where there is one. -/
theorem toNat_sub_tick {b : UInt64} (hpos : 0 < b.toNat) :
    (b - ENERGY_PER_TICK).toNat = b.toNat - 1 := by
  have hle : ENERGY_PER_TICK ≤ b := UInt64.le_iff_toNat_le.mpr hpos
  exact UInt64.toNat_sub_of_le b ENERGY_PER_TICK hle

/-- A budget that is lowered by one, if it is not 0 already, keeps the account of a tick. -/
theorem Conserved.charge {b b' c : UInt64} (h : Conserved b c) (hlt : c.toNat + 1 < 2 ^ 64)
    (hb : b'.toNat = b.toNat - 1) : Conserved b' (c + ENERGY_PER_TICK) := by
  unfold Conserved at h ⊢
  rw [hb, h, toNat_add_tick hlt]
  omega

/-- The charge of `clockintr` lowers the budget by one. -/
theorem toNat_clockintrCharge (p : Proc K) :
    (clockintrCharge p).energy_budget.toNat = p.energy_budget.toNat - 1 := by
  simp only [clockintrCharge]
  split_ifs with hle
  · exact toNat_sub_tick (UInt64.le_iff_toNat_le.mp hle)
  · have hzero : p.energy_budget.toNat < 1 := UInt64.lt_iff_toNat_lt.mp (UInt64.not_le.mp hle)
    rw [UInt64.toNat_zero]
    omega

/-- So does the one of `usertrap`. -/
theorem toNat_usertrapCharge (p : Proc K) :
    (usertrapCharge p).energy_budget.toNat = p.energy_budget.toNat - 1 := by
  simp only [usertrapCharge]
  split_ifs with hpos
  · exact toNat_sub_tick (UInt64.lt_iff_toNat_lt.mp hpos)
  · have hzero : p.energy_budget.toNat ≤ 0 := UInt64.le_iff_toNat_le.mp (UInt64.not_lt.mp hpos)
    omega

/-! ## The accounts -/

variable [DecidableEq K]

/-- The number of charges for the process `q` in the action `a`. -/
def Act.charges (s : State K) (q : Slot) : Act K → ℕ
  | .timer p _ => if p = q then 1 else 0
  | .exec p _ => if p = q ∧ s.pc q = .trap .charge then 1 else 0
  | .sched _ | .call _ _ | .fault _ | .idle => 0

/-- The number of charges that each process has taken since `allocproc`, after the action `a`. -/
def countCharges (s : State K) (a : Act K) (taken : Slot → ℕ) (q : Slot) : ℕ :=
  if (s.proc q).state = .unused then 0 else taken q + a.charges s q

/-- The kernel with the number of charges that each process has taken. -/
def chargedStep : State K × (Slot → ℕ) → Act K → Option (State K × (Slot → ℕ)) :=
  withHistory step countCharges

/-- The account of a process in use: `energy_consumed` is not more than the number of its charges,
and the budget is what it leaves. -/
def Balanced (m : State K × (Slot → ℕ)) : Prop :=
  ∀ q, (m.1.proc q).state ≠ .unused → m.2 q < 2 ^ 64 →
    (m.1.proc q).energy_consumed.toNat ≤ m.2 q ∧
      Conserved (m.1.proc q).energy_budget (m.1.proc q).energy_consumed

omit [DecidableEq K] in
/-- An action lowers the budget of a process in use, or leaves it. -/
theorem EnergyStep.budget_le {a : Act K} {q : Slot} (h : EnergyStep s a s' q)
    (hq : (s.proc q).state ≠ .unused) (hq' : (s'.proc q).state ≠ .unused) :
    (s'.proc q).energy_budget ≤ (s.proc q).energy_budget := by
  rw [UInt64.le_iff_toNat_le]
  cases h with
  | keep hne he => rw [he.energy_budget]
  | alloc hunused => exact absurd hunused hq
  | free hdead hunused => exact absurd hunused hq'
  | clock cpu0 ha hrun he =>
    rw [he.energy_budget, toNat_clockintrCharge]
    omega
  | user ok ha hrun hpc he =>
    rw [he.energy_budget, toNat_usertrapCharge]
    omega

omit [DecidableEq K] in
/-- A charge of a process that has been charged `n` times keeps its account. -/
theorem Conserved.charged {p p' : Proc K} {n : ℕ} (h : Conserved p.energy_budget p.energy_consumed)
    (hle : p.energy_consumed.toNat ≤ n) (hlt : n + 1 < 2 ^ 64)
    (hb : p'.energy_budget.toNat = p.energy_budget.toNat - 1)
    (hc : p'.energy_consumed = p.energy_consumed + ENERGY_PER_TICK) :
    p'.energy_consumed.toNat ≤ n + 1 ∧ Conserved p'.energy_budget p'.energy_consumed := by
  have hlt' : p.energy_consumed.toNat + 1 < 2 ^ 64 := by omega
  rw [hc]
  exact ⟨by rw [toNat_add_tick hlt']; omega, h.charge hlt' hb⟩

/-- Every safe step keeps the accounts. -/
theorem Balanced.step {m m' : State K × (Slot → ℕ)} (hI : Balanced m) (hF : ForkInv m.1)
    {a : Act K} (hsafe : safeStep m.1 a = some m'.1) (hcount : m'.2 = countCharges m.1 a m.2) :
    Balanced m' := by
  intro q hq hlt
  rw [hcount] at hlt ⊢
  have hcount (hused : (m.1.proc q).state ≠ .unused) :
      countCharges m.1 a m.2 q = m.2 q + a.charges m.1 q := if_neg hused
  cases step_energyStep hF hsafe q with
  | keep hne he =>
    have hused : (m.1.proc q).state ≠ .unused := fun hu => hq (he.unused.mpr hu)
    rw [hcount hused] at hlt ⊢
    obtain ⟨hle, hcons⟩ := hI q hused (by omega)
    rw [he.energy_consumed, he.energy_budget]
    exact ⟨by omega, hcons⟩
  | alloc hunused hbudget hconsumed =>
    rw [hconsumed, hbudget]
    exact ⟨Nat.zero_le _, rfl⟩
  | free hdead hunused => exact absurd hunused hq
  | clock cpu0 ha hrun he =>
    have hused : (m.1.proc q).state ≠ .unused := by simp [hrun]
    have hone : a.charges m.1 q = 1 := by simp [ha, Act.charges]
    rw [hcount hused, hone] at hlt ⊢
    obtain ⟨hle, hcons⟩ := hI q hused (by omega)
    exact hcons.charged hle hlt (by rw [he.energy_budget, toNat_clockintrCharge])
      he.energy_consumed
  | user ok ha hrun hpc he =>
    have hused : (m.1.proc q).state ≠ .unused := by simp [hrun]
    have hone : a.charges m.1 q = 1 := by simp [ha, Act.charges, hpc]
    rw [hcount hused, hone] at hlt ⊢
    obtain ⟨hle, hcons⟩ := hI q hused (by omega)
    exact hcons.charged hle hlt (by rw [he.energy_budget, toNat_usertrapCharge])
      he.energy_consumed

/-- **Energy is conserved** where no recovery goes astray. In every state reached, the budget of a
process in use is the default one without the energy that it has consumed, as long as it has been
charged less than 2^64 times. No action makes the budget of a process larger, and `sys_getenergy`
reports no other pair. -/
theorem energy_conserved {m : State K × (Slot → ℕ)}
    (h : ReachVia chargedStep (fun m a => RecoversSafely m.1 a) (boot, fun _ => 0) m) (q : Slot)
    (hq : (m.1.proc q).state ≠ .unused) (hlt : m.2 q < 2 ^ 64) :
    Conserved (m.1.proc q).energy_budget (m.1.proc q).energy_consumed ∧
      (∀ a m', chargedStep m a = some m' → (m'.1.proc q).state ≠ .unused →
        (m'.1.proc q).energy_budget ≤ (m.1.proc q).energy_budget) ∧
      ∀ addr copied r b c pid, sysGetenergy m.1.proc q addr copied = (r, some (b, c, pid)) →
        Conserved b c := by
  have hfork {m : State K × (Slot → ℕ)}
      (h : ReachVia chargedStep (fun m a => RecoversSafely m.1 a) (boot, fun _ => 0) m) :
      ForkInv m.1 :=
    (localInv_of_reachVia (safe_of_recoversSafely h.fst)).fork
  have hI : Balanced m := by
    refine h.invariant ?_ fun m a m' hr hI ha hs => ?_
    · intro q hq hlt
      by_cases hinit : q = initproc
      · subst hinit
        exact ⟨Nat.zero_le _, rfl⟩
      · exact absurd (by simp [boot, hinit, Proc.zero]) hq
    · obtain ⟨s', hstep, rfl⟩ := Option.map_eq_some_iff.mp hs
      rcases safeStep_or_stray hstep with hsafe | hstray
      · exact hI.step (hfork hr) hsafe rfl
      · exact absurd ha hstray.not_recoversSafely
  obtain ⟨-, hcons⟩ := hI q hq hlt
  refine ⟨hcons, fun a m' hs hq' => ?_, fun addr copied r b c pid hget => ?_⟩
  · obtain ⟨s', hstep, rfl⟩ := Option.map_eq_some_iff.mp hs
    rcases safeStep_or_stray hstep with hsafe | ⟨p, ok, l, v, -, -⟩
    · exact (step_energyStep (hfork h) hsafe q).budget_le hq hq'
    · -- The store of a recovery that goes astray leaves the budgets as they are.
      by_cases hqv : q = v <;> simp [execRecovery, recoverRound, hqv]
  · unfold sysGetenergy at hget
    split_ifs at hget
    · simp at hget
    · simp only [energyData, Prod.mk.injEq, Option.some.injEq] at hget
      obtain ⟨-, rfl, rfl, -⟩ := hget
      exact hcons
    · simp at hget

/-- The timer interrupts the first process in user mode and then in `kfork`. -/
theorem energy_conserved_twoTicks :
    ∃ m : State Empty × (Slot → ℕ),
      ReachVia chargedStep (fun m a => RecoversSafely m.1 a) (boot, fun _ => 0) m ∧ m.2 0 = 3 ∧
      Conserved (m.1.proc 0).energy_budget (m.1.proc 0).energy_consumed := by
  obtain ⟨m, hm, hthree, hused⟩ := exists_of_run chargedStep (fun m a => RecoversSafely m.1 a)
    ((boot, fun _ => 0) : State Empty × (Slot → ℕ))
    (List.flatten [ [.sched 0, .timer 0 true], List.replicate 4 (.exec 0 true),
      [.sched 0, .call 0 .fork, .timer 0 true]]) (fun m => m.2 0 = 3 ∧ (m.1.proc 0).state ≠ .unused)
    (by decide +kernel)
  exact ⟨m, hm, hthree, (energy_conserved hm 0 hused (by rw [hthree]; decide)).1⟩

/-- The first process forks three children. The one in slot 2 is charged a tick and takes lock 1,
the one in slot 3 takes lock 0, and the one in slot 1 takes a third lock. Then slot 2 waits for
lock 0, and the walk of slot 1 for lock 1 comes to it and has slot 3 as its next owner. -/
def walksToSlot3 : List (Act Unit) :=
  List.flatten [
    [.sched 0, .call 0 .fork], List.replicate 4 (.exec 0 true),
    [.call 0 .fork], List.replicate 4 (.exec 0 true),
    [.call 0 .fork], List.replicate 4 (.exec 0 true), [.sched 1, .sched 2, .sched 3],
    [.call 2 (.dlockacq 1), .timer 2 false, .sched 2], List.replicate 14 (.exec 2 true),
    [.call 3 (.dlockacq 0)], List.replicate 5 (.exec 3 true),
    [.call 1 (.lockOther ())], List.replicate 4 (.exec 1 true),
    [.call 2 (.dlockacq 0)], List.replicate 7 (.exec 2 true),
    [.call 1 (.dlockacq 1)], List.replicate 6 (.exec 1 true)]

/-- Lock 0 goes from slot 3 to the first process, for which slot 2 waits then, and slot 3 waits for
the third lock. So the walk of slot 1 finds a cycle that is not there, and the recovery is about to
wake slot 2. The first process releases lock 0, slot 2 takes it, ends, and is waited for. Then the
recovery goes on. -/
def recoversFreed : List (Act Unit) :=
  List.flatten [
    walksToSlot3,
    [.call 3 (.dlockrel 0)], List.replicate 4 (.exec 3 true),
    [.call 0 (.dlockacq 0)], List.replicate 5 (.exec 0 true),
    [.sched 2], List.replicate 7 (.exec 2 true),
    [.call 3 (.lockOther ())], List.replicate 3 (.exec 3 true),
    List.replicate 7 (.exec 1 true),
    [.call 0 (.dlockrel 0)], List.replicate 4 (.exec 0 true),
    [.sched 2], List.replicate 6 (.exec 2 true), [.call 0 .wait, .exec 0 true], [.exec 1 true]]

set_option maxRecDepth 10000 in
/-- **A process without a budget.** After this run slot 2 is runnable, with the budget 0 and no
energy consumed. -/
theorem freed_slot_unbudgeted :
    ∃ m : State Unit × (Slot → ℕ), Reach chargedStep (boot, fun _ => 0) m ∧
      (m.1.proc 2).state = .runnable ∧ m.2 2 = 0 ∧ (m.1.proc 2).energy_budget = 0 ∧
      (m.1.proc 2).energy_consumed = 0 ∧
      ¬ Conserved (m.1.proc 2).energy_budget (m.1.proc 2).energy_consumed := by
  obtain ⟨m, hm, hstate, hcount, hbudget, hconsumed⟩ := exists_of_run chargedStep (fun _ _ => True)
    ((boot, fun _ => 0) : State Unit × (Slot → ℕ)) recoversFreed
    (fun m => (m.1.proc 2).state = .runnable ∧ m.2 2 = 0 ∧ (m.1.proc 2).energy_budget = 0 ∧
      (m.1.proc 2).energy_consumed = 0) (by decide +kernel)
  refine ⟨m, hm, hstate, hcount, hbudget, hconsumed, ?_⟩
  rw [hbudget, hconsumed]
  decide

end SustainableXv6
