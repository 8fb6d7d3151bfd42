import SustainableXv6.Kernel.Detection
import SustainableXv6.Lib.Path

/-!
# The periodic run of `check_deadlock`

The first processor counts the ticks in `clockintr`, wherever its timer interrupts arrive, but
`check_deadlock` is called from `usertrap` only, after an interrupt in user mode that finds `ticks`
at a multiple of `DEADLOCK_CHECK_INTERVAL`. So a multiple at which the first processor idles or is
in the kernel passes without a check, and a deadlock, after which no process may run in user mode,
can last for any number of them (`deadlock_unchecked`).

In the runs in which each tick that reaches a multiple arrives in user mode, and the process that it
interrupts has not been killed when `usertrap` asks, `check_deadlock` runs between any two multiples
that `ticks` passes (`check_between_multiples`). The first processor takes no other interrupt while
it handles the tick that reached the second of them, so `usertrap` still finds `ticks` there:
`Pending` follows it from the interrupt to the check.
-/

namespace SustainableXv6

open Lib (Path exists_becomes run)

variable {K : Type} {s s' : State K}

/-- The timer interrupts the first processor, which counts a tick. -/
def Act.counts : Act K → Bool
  | .timer _ cpu0 => cpu0
  | .idle => true
  | .sched _ | .call _ _ | .exec _ _ | .fault _ => false

/-- `ticks % DEADLOCK_CHECK_INTERVAL == 0`. -/
def AtMultiple (ticks : UInt32) : Prop := ticks.toNat % DEADLOCK_CHECK_INTERVAL = 0

instance (ticks : UInt32) : Decidable (AtMultiple ticks) :=
  inferInstanceAs (Decidable (ticks.toNat % DEADLOCK_CHECK_INTERVAL = 0))

/-- The tick after a multiple is none. -/
theorem not_atMultiple_succ {ticks : UInt32} (h : AtMultiple ticks) : ¬ AtMultiple (ticks + 1) := by
  have hlt := ticks.toNat_lt
  unfold AtMultiple DEADLOCK_CHECK_INTERVAL at *
  rw [UInt32.toNat_add, UInt32.toNat_one]
  omega

/-- `ticks` after `clockintr`. -/
def State.nextTicks (s : State K) (a : Act K) : UInt32 :=
  if a.counts then s.ticks + 1 else s.ticks

/-- The action executes `check_deadlock`: it is the body of the system call, or `deadlock_recover`
called by `usertrap`. -/
def Checks (s : State K) : Act K → Prop
  | .exec p _ => s.pc p = .checkDeadlock ∨ s.pc p = .trap .recover
  | .sched _ | .call _ _ | .timer _ _ | .fault _ | .idle => False

/-- A tick reaches a multiple of the interval only in user mode, and the process that it interrupts
has not been killed when `usertrap` tests it. -/
def MultiplesInUser (s : State K) : Act K → Prop
  | .timer p cpu0 => cpu0 = true → AtMultiple (s.ticks + 1) → s.pc p = .user
  | .exec p _ =>
    s.tick0 = some p → s.pc p = .trap .killed → AtMultiple s.ticks → (s.proc p).killed = false
  | .idle => ¬ AtMultiple (s.ticks + 1)
  | .sched _ | .call _ _ | .fault _ => True

variable [DecidableEq K]

instance (s : State K) : ∀ a, Decidable (Checks s a)
  | .exec _ _ => inferInstanceAs (Decidable (_ ∨ _))
  | .sched _ | .call _ _ | .timer _ _ | .fault _ | .idle => .isFalse id

instance (s : State K) : ∀ a, Decidable (MultiplesInUser s a)
  | .timer p cpu0 =>
    inferInstanceAs (Decidable (cpu0 = true → AtMultiple (s.ticks + 1) → s.pc p = .user))
  | .exec p _ => inferInstanceAs (Decidable (s.tick0 = some p → s.pc p = .trap .killed →
      AtMultiple s.ticks → (s.proc p).killed = false))
  | .idle => inferInstanceAs (Decidable (¬ AtMultiple (s.ticks + 1)))
  | .sched _ | .call _ _ | .fault _ => .isTrue trivial

/-- A step of a process in the kernel counts no tick, and ends the handling of no interrupt but its
own. -/
theorem exec_ticks {p : Slot} {ok : Bool} (h : exec s p ok = some s') :
    s'.ticks = s.ticks ∧ (s'.tick0 = s.tick0 ∨ s.tick0 = some p) := by
  have hsame : ∀ {s' : State K}, s'.ticks = s.ticks → s'.tick0 = s.tick0 →
      s'.ticks = s.ticks ∧ (s'.tick0 = s.tick0 ∨ s.tick0 = some p) := fun h h' => ⟨h, .inl h'⟩
  unfold exec at h
  cases hpc : s.pc p <;>
    simp only [hpc, reduceCtorEq, Option.some.injEq, Option.ite_none_left_eq_some] at h
  case acquire l | release l =>
    obtain ⟨-, rfl⟩ := h
    exact hsame rfl rfl
  case holding l =>
    obtain ⟨-, rfl⟩ := h
    unfold execHolding
    split_ifs
    · exact hsame rfl rfl
    · split <;> exact hsame rfl rfl
  all_goals subst h
  case trap t =>
    have hleave : ∀ (s : State K) (c : Pc K),
        (leaveTrap s p c).tick0 = s.tick0 ∨ s.tick0 = some p := by
      intro s c
      by_cases h0 : s.tick0 = some p
      · exact .inr h0
      · exact .inl (if_neg h0)
    refine ⟨(execTrap_frame s p t).2.2.2.1, ?_⟩
    cases t with
    | killed =>
      rw [execTrap]
      split_ifs
      · exact hleave s _
      · exact .inl rfl
    | yield => exact hleave (yield s p) _
    | _ => exact .inl rfl
  case ret r | exit status => split_ifs <;> exact hsame rfl rfl
  case init c w => cases w <;> exact hsame rfl rfl
  case walk l o n =>
    unfold execWalk
    split <;> exact hsame rfl rfl
  case sleep l =>
    unfold releaseThen
    split_ifs <;> exact hsame rfl rfl
  case take l =>
    unfold execTake releaseThen
    split_ifs <;> exact hsame rfl rfl
  case fork =>
    unfold execFork
    split
    · exact hsame rfl rfl
    · split_ifs <;> exact hsame rfl rfl
  case wait =>
    unfold execWait
    split <;> split_ifs <;> exact hsame rfl rfl
  all_goals exact hsame rfl rfl

/-- The ticks are counted by the timer interrupts of the first processor. -/
theorem step_ticks {a : Act K} (h : step s a = some s') : s'.ticks = s.nextTicks a := by
  cases step_cases h with
  | sched | call | fault | idle => rfl
  | exec p ok s' hrun h => exact (exec_ticks h).1
  | timer p cpu0 =>
    unfold timer
    split <;> rfl

/-! ## From the tick to the check -/

/-- The first processor handles a tick of the process `p` that has reached a multiple of the
interval, and has yet to make the check. -/
def Pending (s : State K) (p : Slot) : Prop :=
  s.tick0 = some p ∧ (s.proc p).state = .running ∧ AtMultiple s.ticks ∧
    ∃ t, s.pc p = .trap t ∧ t ≠ .yield

/-- A tick that reaches a multiple is to be checked. -/
theorem pending_of_timer {a : Act K} (ha : MultiplesInUser s a) (hcounts : a.counts = true)
    (h : AtMultiple (s.nextTicks a)) (hs : step s a = some s') : ∃ p, Pending s' p := by
  have hticks : s.nextTicks a = s.ticks + 1 := if_pos hcounts
  cases step_cases hs with
  | timer p cpu0 hrun =>
    obtain rfl : cpu0 = true := hcounts
    refine ⟨p, ?_, ?_, step_ticks hs ▸ h, .killed, ?_, by simp⟩ <;>
      simp [timer, ha rfl (hticks ▸ h), clockintr, clockintrCharge, hrun]
  | idle => exact absurd (hticks ▸ h) ha
  | sched | call | exec | fault => simp [Act.counts] at hcounts

/-- No tick is counted until the check has been made. -/
theorem Pending.counts_eq_false {p : Slot} (h : Pending s p) {a : Act K}
    (hs : step s a = some s') : a.counts = false := by
  cases step_cases hs with
  | timer q cpu0 hrun hspin htrap htick =>
    cases cpu0 with
    | false => rfl
    | true => exact absurd ((htick rfl).symm.trans h.1) (by simp)
  | idle htick => exact absurd (htick.symm.trans h.1) (by simp)
  | sched | call | exec | fault => rfl

/-- A step that is not the check leaves it to be made. -/
theorem Pending.step {p : Slot} (h : Pending s p) (hF : ForkInv s) {a : Act K}
    (ha : MultiplesInUser s a) (hn : ¬ Checks s a) (hs : safeStep s a = some s') :
    Pending s' p := by
  have hstep := (safeStep_eq_some.mp hs).1
  have hticks : s'.ticks = s.ticks := by
    rw [step_ticks hstep, State.nextTicks, h.counts_eq_false hstep]
    rfl
  obtain ⟨htick0, hrun, hmult, t, hpc, ht⟩ := h
  by_cases hact : a.actor = some p
  · -- The process goes on to the check.
    cases step_cases hstep with
    | sched | idle => exact absurd hact (by simp [Act.actor])
    | call q c hrun huser | fault q hrun huser =>
      obtain rfl : q = p := by simpa [Act.actor] using hact
      rw [hpc] at huser
      cases huser
    | timer q cpu0 hrun hspin htrap =>
      obtain rfl : q = p := by simpa [Act.actor] using hact
      rw [hpc] at htrap
      cases htrap
    | exec q ok s' hrun hex =>
      obtain rfl : q = p := by simpa [Act.actor] using hact
      simp only [exec, hpc, Option.some.injEq] at hex
      subst hex
      cases t with
      | killed =>
        have hk := ha htick0 hpc hmult
        exact ⟨by simp [execTrap, hk, htick0], by simp [execTrap, hk, hrun],
          by rw [hticks]; exact hmult, .charge, by simp [execTrap, hk], by simp⟩
      | charge =>
        exact ⟨htick0, by simp [execTrap, usertrapCharge, hrun], hmult, .ticks,
          by simp [execTrap], by simp⟩
      | ticks =>
        refine ⟨htick0, hrun, hmult, .recover, ?_, by simp⟩
        have hzero : s.ticks.toNat % DEADLOCK_CHECK_INTERVAL = 0 := hmult
        simp [execTrap, hzero]
      | recover => exact absurd (.inr hpc) hn
      | yield => exact absurd rfl ht
  · -- The others leave it alone.
    have htick0' : s'.tick0 = some p := by
      rw [← htick0]
      cases step_cases hstep with
      | exec q ok s' hrun hex =>
        refine (exec_ticks hex).2.resolve_right fun h0 => hact ?_
        exact h0.symm.trans htick0
      | timer q cpu0 hrun hspin htrap htick =>
        cases cpu0 with
        | false =>
          unfold timer
          split <;> rfl
        | true => exact absurd ((htick rfl).symm.trans htick0) (by simp)
      | sched | call | fault | idle => rfl
    cases step_touch hs hact with
    | passive hproc hpc' =>
      exact ⟨htick0', hproc.running hrun, by rw [hticks]; exact hmult, t, hpc'.trans hpc, ht⟩
    | alloc hunused => rw [hrun] at hunused; cases hunused
    | started q hfork =>
      have hused := hF.used q p (by rw [hfork]; rfl)
      rw [hrun] at hused
      cases hused
    | freed hdead => exact absurd (by simp [Proc.Alive, hrun]) hdead

/-- `ticks` passes a multiple of the interval in the step `i`. -/
def Passes {C : State K → Act K → Prop} {s₀ : State K} {n : ℕ} (π : Path step C s₀ n) (i : ℕ) :
    Prop :=
  AtMultiple (π.state i).ticks ∧ (π.act i).counts = true

/-- **Deadlocks are looked for periodically** in the runs in which every tick that reaches a
multiple of `DEADLOCK_CHECK_INTERVAL` arrives in user mode, and its process has not been killed when
`usertrap` tests it: between any two steps in which `ticks` passes a multiple, `check_deadlock` is
executed. -/
theorem check_between_multiples {n : ℕ} (π : Path step MultiplesInUser (boot : State K) n)
    (i j : ℕ) (hij : i < j) (hj : j < n) (hpi : Passes π i) (hpj : Passes π j) :
    ∃ k, i < k ∧ k < j ∧ Checks (π.state k) (π.act k) := by
  -- The tick that passes the first multiple leaves it.
  have hleft : ¬ AtMultiple (π.state (i + 1)).ticks := by
    rw [step_ticks (π.next i (by omega)), State.nextTicks, if_pos hpi.2]
    exact not_atMultiple_succ hpi.1
  obtain ⟨k, hik, hkj, hk, hk'⟩ :=
    exists_becomes (P := fun k => AtMultiple (π.state k).ticks) (by omega) hleft hpj.1
  -- The step `k` reaches the second one, so it is a tick, and arrives in user mode.
  rw [step_ticks (π.next k (by omega))] at hk'
  have hcounts : (π.act k).counts = true := by
    by_contra hc
    rw [State.nextTicks, if_neg hc] at hk'
    exact hk hk'
  obtain ⟨p, hp⟩ := pending_of_timer (π.cond k (by omega)) hcounts hk' (π.next k (by omega))
  -- Without a check it would be pending still when the next tick is counted.
  by_contra! hnone
  have hpending : ∀ m, k + 1 ≤ m → m ≤ j → Pending (π.state m) p := by
    intro m hm
    induction m, hm using Nat.le_induction with
    | base => exact fun _ => hp
    | succ m hm ih =>
      intro hmj
      have hr := safe_of_step (π.reachVia (by omega)) (π.next m (by omega))
      have hsafe := safeStep_of_step (π.next m (by omega)) (π.next (m + 1) (by omega))
      exact (ih (by omega)).step (localInv_of_reachVia hr).fork (π.cond m (by omega))
        (hnone m (by omega) (by omega)) hsafe
  have hcounts' := (hpending j (by omega) le_rfl).counts_eq_false (π.next j hj)
  rw [hpj.2] at hcounts'
  cases hcounts'

/-- The first processor idles for 99 ticks, and then runs the first process in user mode when the
next two arrive. -/
def ticksInUser : List (Act Empty) :=
  List.flatten [
    List.replicate 99 .idle, [.sched 0, .timer 0 true], List.replicate 5 (.exec 0 true),
    [.sched 0, .timer 0 true]]

/-- Such a run. -/
theorem ticksInUser_runs :
    (run step MultiplesInUser (boot : State Empty) ticksInUser).isSome := by
  decide +kernel

set_option maxRecDepth 10000 in
/-- The tick that reaches the first multiple after 0 makes a check. -/
theorem check_between_multiples_ticksInUser :
    ∃ π : Path step MultiplesInUser (boot : State Empty) ticksInUser.length,
      Passes π 0 ∧ Passes π 107 ∧ ∃ k, 0 < k ∧ k < 107 ∧ Checks (π.state k) (π.act k) := by
  have h0 : Passes (.ofRun ticksInUser ticksInUser_runs) 0 := ⟨by decide +kernel, rfl⟩
  have h107 : Passes (.ofRun ticksInUser ticksInUser_runs) 107 := ⟨by decide +kernel, rfl⟩
  exact ⟨_, h0, h107, check_between_multiples _ 0 107 (by decide) (by decide) h0 h107⟩

/-- The processes of `deadlock_demo` block each other, and then the first processor idles. -/
def idlesDeadlocked : List (Act Empty) := List.flatten [deadlockDemo, List.replicate 201 .idle]

/-- Such a run, in which `check_deadlock` is not executed. -/
theorem idlesDeadlocked_runs :
    (run step (fun s a => ¬ Checks s a) (boot : State Empty) idlesDeadlocked).isSome := by
  decide +kernel

set_option maxRecDepth 10000 in
/-- **A deadlock can last unchecked**: after `deadlock_demo`, `ticks` passes the multiples 0, 100,
and 200, and `check_deadlock` is not executed. -/
theorem deadlock_unchecked :
    ∃ π : Path step (fun s a => ¬ Checks s a) (boot : State Empty) idlesDeadlocked.length,
      DemoStuck (π.state deadlockDemo.length) ∧ Passes π deadlockDemo.length ∧
      Passes π (deadlockDemo.length + 100) ∧ Passes π (deadlockDemo.length + 200) := by
  refine ⟨.ofRun idlesDeadlocked idlesDeadlocked_runs, by decide +kernel, ?_, ?_, ?_⟩
  · exact ⟨by decide +kernel, by decide +kernel⟩
  · exact ⟨by decide +kernel, by decide +kernel⟩
  · exact ⟨by decide +kernel, by decide +kernel⟩

end SustainableXv6
