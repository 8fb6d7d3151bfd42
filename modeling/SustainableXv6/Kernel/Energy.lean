import SustainableXv6.Kernel.Local
import SustainableXv6.Lib.Path

/-!
# The energy charged to a process

A timer interrupt charges the process that it interrupts in two places of `kernel/trap.c`:
`clockintr` does so for every interrupt, and the end of `usertrap` once more for one that arrived in
user mode, unless the process has been killed. Nothing else touches `energy_consumed` between
`allocproc` and `freeproc`. `EnergyStep` lists what an action can do to the energy of a process, and
`step_energyStep` says that it does nothing else.

`Metered` adds to the state of the kernel the number of timer interrupts that each process has
taken since `allocproc`. In the runs in which no timer interrupt finds a process in user mode, but
for killed ones, `energy_consumed` is that number (`energy_charged_once`). One interrupt in user
mode is charged twice (`user_tick_charged_twice`).
-/

namespace SustainableXv6

open Function

open Lib (ReachVia Reach run exists_of_run withHistory)

variable {K : Type} {s s' : State K} {t t' : Table K}

/-! ## Operations that leave the energy alone -/

/-- `q'` has the energy of `q`, its slot is in use if and only if it was, and it is still killed if
it was. -/
structure Proc.SameEnergy (q q' : Proc K) : Prop where
  energy_budget : q'.energy_budget = q.energy_budget
  energy_consumed : q'.energy_consumed = q.energy_consumed
  unused : q'.state = .unused ↔ q.state = .unused
  killed : q.killed = true → q'.killed = true

/-- A process has its own energy. -/
theorem Proc.SameEnergy.refl (q : Proc K) : q.SameEnergy q := ⟨rfl, rfl, Iff.rfl, id⟩

/-- Two operations in a row. -/
theorem Proc.SameEnergy.trans {q q' q'' : Proc K} (h : q.SameEnergy q') (h' : q'.SameEnergy q'') :
    q.SameEnergy q'' :=
  ⟨h'.1.trans h.1, h'.2.trans h.2, h'.3.trans h.3, fun hk => h'.4 (h.4 hk)⟩

/-- Every process of the table keeps its energy. -/
def SameEnergy (t t' : Table K) : Prop := ∀ q, (t q).SameEnergy (t' q)

/-- Two operations on the table in a row. -/
theorem SameEnergy.trans {t'' : Table K} (h : SameEnergy t t') (h' : SameEnergy t' t'') :
    SameEnergy t t'' :=
  fun q => (h q).trans (h' q)

/-- An operation on one slot. -/
theorem SameEnergy.update {p : Slot} {q : Proc K} (h : (t p).SameEnergy q) :
    SameEnergy t (update t p q) :=
  (forall_update_iff t fun r x => (t r).SameEnergy x).mpr ⟨h, fun _ _ => .refl _⟩

/-- Waking a process that sleeps does not put its slot to use. -/
theorem ProcState.wake_unused {st : ProcState} : st.wake = .unused ↔ st = .unused := by
  cases st <;> simp [ProcState.wake]

/-- `kkill` leaves the energy alone. -/
theorem kkill_sameEnergy (t : Table K) (pid : ℤ) : SameEnergy t (kkill t pid).1 := by
  unfold kkill
  split
  · exact fun q => .refl _
  · exact .update ⟨rfl, rfl, ProcState.wake_unused, fun _ => rfl⟩

/-- `check_deadlock` leaves the energy alone. -/
theorem checkDeadlock_sameEnergy (t : Table K) : SameEnergy t (checkDeadlock t).1 := by
  cases hv : ragVictim t with
  | none =>
    rw [checkDeadlock_of_none hv]
    exact fun q => .refl _
  | some v =>
    rw [checkDeadlock_of_some hv]
    exact .update ⟨rfl, rfl, ProcState.wake_unused, fun _ => rfl⟩

/-- Recovery leaves the energy alone. -/
theorem recoverRound_sameEnergy {lk : Locks K} {p : Slot} {l : Lock K} {r : RecoveryPc}
    (hn : r.strays t = false) : SameEnergy t (recoverRound t lk p l r).1 := by
  have hpas : Passive t (recoverRound t lk p l r).1 := recoverRound_passive hn
  obtain ⟨q, b, k, x, heq, hk, -⟩ := recoverRound_eq t lk p l r
  have hu := (hpas q).unused
  rw [heq, update_self] at hu
  rw [heq]
  exact .update ⟨rfl, rfl, hu, hk⟩

/-- The switch to a runnable process leaves the energy alone. -/
theorem switchTo_sameEnergy {p : Slot} (h : (t p).state = .runnable) :
    SameEnergy t (switchTo t p) := by
  intro q
  unfold switchTo
  split_ifs with hq
  · subst hq
    exact ⟨rfl, rfl, by simp [h], id⟩
  · exact ⟨rfl, rfl, Iff.rfl, id⟩
  · exact .refl _

section

variable [DecidableEq K]

/-- `wakeup` leaves the energy alone. -/
theorem wakeup_sameEnergy (t : Table K) (me : Slot) (chan : Chan K) :
    SameEnergy t (wakeup t me chan) := by
  intro q
  unfold wakeup
  split_ifs with h
  · exact ⟨rfl, rfl, by simp [h.2.1], id⟩
  · exact .refl _

/-- `reparent` leaves the energy alone. -/
theorem reparent_sameEnergy (t : Table K) (p : Slot) : SameEnergy t (reparent t p) := by
  have h : SameEnergy t fun q =>
      if (t q).parent = some p then { t q with parent := some initproc } else t q := by
    intro q
    dsimp only
    split_ifs
    · exact ⟨rfl, rfl, Iff.rfl, id⟩
    · exact .refl _
  unfold reparent
  dsimp only
  split
  · exact h
  · exact h.trans (wakeup_sameEnergy _ _ _)

/-- `kexit` of a process in use leaves the energy alone. -/
theorem kexit_sameEnergy {t : Table K} {p : Slot} (status : ℤ) (hp : (t p).state ≠ .unused) :
    SameEnergy t (kexit t p status) := by
  have hwake : SameEnergy t (kexitWake t p) := by
    unfold kexitWake
    split
    · exact reparent_sameEnergy t p
    · exact (reparent_sameEnergy t p).trans (wakeup_sameEnergy _ _ _)
  intro q
  unfold kexit
  by_cases hq : q = p
  · subst hq
    rw [update_self]
    exact ⟨(hwake q).1, (hwake q).2, by simp [hp], (hwake q).4⟩
  · rw [update_of_ne hq]
    exact hwake q

end

/-! ## What an action does to the energy of a process -/

/-- The process that a timer interrupt interrupts. -/
def Act.ticked : Act K → Option Slot
  | .timer p _ => some p
  | .sched _ | .call _ _ | .exec _ _ | .fault _ | .idle => none

/-- What the action `a` does to the energy of the process `q`. -/
inductive EnergyStep (s : State K) (a : Act K) (s' : State K) (q : Slot) : Prop
  /-- It is left alone. -/
  | keep (ha : a.ticked ≠ some q) (h : (s.proc q).SameEnergy (s'.proc q))
  /-- The slot is allocated. -/
  | alloc (hunused : (s.proc q).state = .unused)
      (hbudget : (s'.proc q).energy_budget = DEFAULT_ENERGY_BUDGET)
      (hconsumed : (s'.proc q).energy_consumed = 0)
  /-- The slot is freed. -/
  | free (hdead : ¬ (s.proc q).Alive) (hunused : (s'.proc q).state = .unused)
      (hconsumed : (s'.proc q).energy_consumed = 0)
  /-- A timer interrupt: `clockintr` charges it. -/
  | clock (cpu0 : Bool) (ha : a = .timer q cpu0) (hrun : (s.proc q).state = .running)
      (h : (clockintrCharge (s.proc q)).SameEnergy (s'.proc q))
  /-- After a timer interrupt in user mode `usertrap` charges it, too. -/
  | user (ok : Bool) (ha : a = .exec q ok) (hrun : (s.proc q).state = .running)
      (hpc : s.pc q = .trap .charge) (h : (usertrapCharge (s.proc q)).SameEnergy (s'.proc q))

/-- An action other than a timer interrupt that leaves the energy of all processes alone. -/
theorem EnergyStep.of_sameEnergy {a : Act K} (ha : a.ticked = none)
    (h : SameEnergy s.proc s'.proc) (q : Slot) : EnergyStep s a s' q :=
  .keep (by simp [ha]) (h q)

/-- An action other than a timer interrupt that changes one process in use leaves the energy of all
processes alone, if it leaves that of this one. -/
theorem EnergyStep.of_update {a : Act K} {p : Slot} {pr : Proc K}
    (ha : a.ticked = none) (hproc : s'.proc = update s.proc p pr)
    (h : (s.proc p).SameEnergy pr) (q : Slot) : EnergyStep s a s' q :=
  .of_sameEnergy ha (by rw [hproc]; exact .update h) q

/-- `allocproc` called by `kfork` starts the account of a process. -/
theorem EnergyStep.execFork (p : Slot) (ok : Bool) (q : Slot) :
    EnergyStep s (.exec p ok) (execFork s p ok) q := by
  unfold SustainableXv6.execFork
  split
  · exact .keep (by simp [Act.ticked]) (.refl _)
  · rename_i np hnp
    have hun : (s.proc np).state = .unused := by simpa using findSlot_some hnp
    by_cases hq : q = np
    · subst hq
      split_ifs
      · exact .alloc hun (by simp [Proc.alloc]) (by simp [Proc.alloc])
      · exact .free (fun ha => ha.1 hun) (by simp [freeproc]) (by simp [freeproc])
    · split_ifs
      · exact .keep (by simp [Act.ticked]) (by simp [hq, Proc.SameEnergy.refl])
      · exact .keep (by simp [Act.ticked]) (by simp [hq, Proc.SameEnergy.refl])

/-- The scan of `kwait` ends the account of a zombie. -/
theorem EnergyStep.execWait {p : Slot} (hrun : (s.proc p).state = .running) (ok : Bool) (q : Slot) :
    EnergyStep s (.exec p ok) (execWait s p ok) q := by
  unfold SustainableXv6.execWait
  split
  · rename_i pp hpp
    split_ifs
    · by_cases hq : q = pp
      · subst hq
        exact .free (fun ha => ha.2 (zombieChild_some hpp)) (by simp [freeproc])
          (by simp [freeproc])
      · exact .keep (by simp [Act.ticked]) (by simp [hq, Proc.SameEnergy.refl])
    · exact .keep (by simp [Act.ticked]) (.refl _)
  · split_ifs
    · refine .of_update rfl rfl ?_ q
      exact ⟨rfl, rfl, by simp [hrun], id⟩
    · exact .keep (by simp [Act.ticked]) (.refl _)

variable [DecidableEq K]

/-- What the next step of a process does to the energy of the processes. -/
theorem exec_energyStep (hF : ForkInv s) {p : Slot} {ok : Bool} (hrun : (s.proc p).state = .running)
    (h : exec s p ok = some s') (hn : s'.astray = false) (q : Slot) :
    EnergyStep s (.exec p ok) s' q := by
  have hsame : ∀ {s' : State K}, s'.proc = s.proc → EnergyStep s (.exec p ok) s' q :=
    fun hproc => .of_sameEnergy rfl (by rw [hproc]; exact fun q => .refl _) q
  have hself : ∀ {s' : State K} {pr : Proc K}, s'.proc = update s.proc p pr →
      (s.proc p).SameEnergy pr → EnergyStep s (.exec p ok) s' q :=
    fun hproc h => .of_update rfl hproc h q
  unfold exec at h
  cases hpc : s.pc p <;>
    simp only [hpc, reduceCtorEq, Option.some.injEq, Option.ite_none_left_eq_some] at h
  case acquire l =>
    obtain ⟨-, rfl⟩ := h
    exact hsame rfl
  case holding l =>
    obtain ⟨-, rfl⟩ := h
    unfold execHolding
    split_ifs
    · exact hsame rfl
    · split <;> exact hsame rfl
  case release l =>
    obtain ⟨-, rfl⟩ := h
    exact .of_sameEnergy rfl (wakeup_sameEnergy _ _ _) q
  all_goals subst h
  case ret r => split_ifs <;> exact hsame rfl
  case exit status =>
    split_ifs
    · exact hsame rfl
    · exact .of_sameEnergy rfl (kexit_sameEnergy status (by simp [hrun])) q
  case init c w => exact hsame (w.exec_proc s).1
  case register l => exact hself rfl ⟨rfl, rfl, by simp [hrun], id⟩
  case walk l o n =>
    unfold execWalk
    split
    · exact hsame rfl
    · exact hsame rfl
    · exact hself rfl ⟨rfl, rfl, by simp [hrun], id⟩
  case trap t =>
    cases t with
    | killed =>
      rw [execTrap]
      split_ifs <;> exact hsame rfl
    | charge =>
      by_cases hq : q = p
      · subst hq
        refine .user ok rfl hrun hpc ?_
        simp only [execTrap, State.setPc_proc, State.setProc_proc, update_self]
        exact .refl _
      · refine .keep (by simp [Act.ticked]) ?_
        simp only [execTrap, State.setPc_proc, State.setProc_proc, update_of_ne hq]
        exact .refl _
    | ticks => exact hsame rfl
    | recover => exact .of_sameEnergy rfl (checkDeadlock_sameEnergy _) q
    | yield => exact hself rfl ⟨rfl, rfl, by simp [hrun], id⟩
  case recover l r => exact .of_sameEnergy rfl (recoverRound_sameEnergy hn) q
  case sleep l =>
    unfold releaseThen
    split_ifs
    · exact hself rfl ⟨rfl, rfl, by simp [hrun], id⟩
    · exact hsame rfl
  case asleep l | waitAsleep => exact hself rfl ⟨rfl, rfl, by simp [hrun], id⟩
  case take l =>
    unfold execTake releaseThen
    split_ifs <;> exact hself rfl ⟨rfl, rfl, by simp [hrun], id⟩
  case fork => exact .execFork p ok q
  case forkParent np =>
    refine .of_update rfl rfl ?_ q
    exact ⟨rfl, rfl, Iff.rfl, id⟩
  case forkRun np =>
    -- The slot has been in use since `allocproc`.
    have hused : (s.proc np).state = .used := hF.used p np (by simp [hpc, Pc.forking])
    refine .of_update rfl rfl ?_ q
    exact ⟨rfl, rfl, by simp [hused], id⟩
  case wait => exact .execWait hrun ok q
  case kill pid => exact .of_sameEnergy rfl (kkill_sameEnergy _ _) q
  case checkDeadlock => exact .of_sameEnergy rfl (checkDeadlock_sameEnergy _) q
  all_goals exact hsame rfl

/-- What a timer interrupt does to the energy of the processes. -/
theorem timer_energyStep {p : Slot} {cpu0 : Bool} (hrun : (s.proc p).state = .running) (q : Slot) :
    EnergyStep s (.timer p cpu0) (timer s p cpu0) q := by
  by_cases hq : q = p
  · subst hq
    have hused : (clockintrCharge (s.proc q)).state ≠ .unused := by simp [clockintrCharge, hrun]
    refine .clock cpu0 rfl hrun ?_
    unfold timer
    split <;> simp only [yield, clockintr, State.setPc_proc, State.setProc_proc,
      update_self]
    · exact .refl _
    · exact ⟨rfl, rfl, by simp [hused], id⟩
  · refine .keep (fun he => hq (Option.some.inj he).symm) ?_
    rw [(timer_of_ne cpu0 hq).1]
    exact .refl _

/-- What an action does to the energy of the processes. -/
theorem step_energyStep (hF : ForkInv s) {a : Act K} (h : safeStep s a = some s') (q : Slot) :
    EnergyStep s a s' q := by
  obtain ⟨h, hn⟩ := safeStep_eq_some.mp h
  cases step_cases h with
  | sched p hrun => exact .of_sameEnergy rfl (switchTo_sameEnergy hrun) q
  | call | idle => exact .keep (by simp [Act.ticked]) (.refl _)
  | exec p ok s' hrun h => exact exec_energyStep hF hrun h hn q
  | timer p cpu0 hrun => exact timer_energyStep hrun q
  | fault p =>
    refine .of_update rfl rfl ?_ q
    exact ⟨rfl, rfl, Iff.rfl, fun _ => rfl⟩

/-! ## The charges and the interrupts -/

/-- The number of timer interrupts that each process has taken since `allocproc`, after the action
`a`. -/
def countTicks (s : State K) (a : Act K) (taken : Slot → ℕ) (q : Slot) : ℕ :=
  if (s.proc q).state = .unused then 0 else if a.ticked = some q then taken q + 1 else taken q

/-- The kernel with the number of timer interrupts that each process has taken. -/
def meteredStep : State K × (Slot → ℕ) → Act K → Option (State K × (Slot → ℕ)) :=
  withHistory step countTicks

/-- After booting, no process has taken a timer interrupt. -/
def meteredBoot : State K × (Slot → ℕ) := (boot, fun _ => 0)

/-- A timer interrupt finds a process in user mode only if the process has been killed. -/
def TicksInKernel (s : State K) : Act K → Prop
  | .timer p _ => s.pc p = .user → (s.proc p).killed = true
  | _ => True

instance (s : State K) : ∀ a, Decidable (TicksInKernel s a)
  | .timer p _ => inferInstanceAs (Decidable (s.pc p = .user → (s.proc p).killed = true))
  | .sched _ | .call _ _ | .exec _ _ | .fault _ | .idle => .isTrue trivial

/-- A process in `usertrap` after a timer interrupt has been killed, and is about to find out. -/
def TrapsKilled (s : State K) : Prop :=
  ∀ q t, s.pc q = .trap t → t = .killed ∧ (s.proc q).killed = true

/-- An action that is no timer interrupt of an unkilled process in user mode keeps this. -/
theorem TrapsKilled.step (hI : TrapsKilled s) (hL : LocalInv s) {a : Act K}
    (ha : TicksInKernel s a) (h : safeStep s a = some s') : TrapsKilled s' := by
  intro q t hpc'
  -- Nobody takes the kill flag from a process that is alive.
  have hkeep : (s.proc q).killed = true → (s.proc q).Alive → (s'.proc q).killed = true := by
    intro hk halive
    cases step_energyStep hL.fork h q with
    | alloc hunused => exact absurd hunused halive.1
    | free hdead => exact absurd halive hdead
    | keep hne he | clock cpu0 ha' hrun he | user ok ha' hrun hpc he => exact he.killed hk
  cases step_moved h q with
  | stay hpc =>
    obtain ⟨rfl, hk⟩ := hI q t (hpc ▸ hpc')
    exact ⟨rfl, hkeep hk (hL.alive (by rw [← hpc, hpc']; rfl))⟩
  | exec ok ha' hnext =>
    subst ha'
    generalize hc : s.pc q = c at hnext
    generalize hc' : s'.pc q = c' at hnext hpc'
    cases hnext with
    | trapNext t₀ t' =>
      -- The test is the only place left, and leads to `kexit`.
      obtain ⟨rfl, hk⟩ := hI q t₀ hc
      cases step_cases (safeStep_eq_some.mp h).1 with
      | exec q ok s' hrun hex =>
        rw [exec, hc] at hex
        obtain rfl := Option.some.inj hex
        simp [execTrap, hk, leaveTrap] at hc'
    | ensureDone c | initDone c w => cases c <;> cases hpc'
    | _ => cases hpc'
  | call c ha' huser hpc =>
    rw [hpc] at hpc'
    cases c with
    | dlockacq lockid | dlockrel lockid =>
      cases hd : demoLock lockid <;> simp [Call.entry, hd] at hpc'
    | _ => cases hpc'
  | timer cpu0 ha' huser hpc =>
    subst ha'
    have hrun := step_actor_running (safeStep_eq_some.mp h).1 (p := q) rfl
    obtain rfl := Pc.trap.inj (hpc.symm.trans hpc')
    exact ⟨rfl, hkeep (ha huser) (by simp [Proc.Alive, hrun])⟩
  | exit ha' huser hpc | alloc hunused hpc => rw [hpc] at hpc'; cases hpc'

/-- The energy consumed by every process in use is the number of its timer interrupts, and by a slot
that is not in use it is 0. -/
def ChargedOnce (m : State K × (Slot → ℕ)) : Prop :=
  ∀ q, (m.1.proc q).energy_consumed = ENERGY_PER_TICK *
    UInt64.ofNat (if (m.1.proc q).state = .unused then 0 else m.2 q)

/-- An action that is no timer interrupt of an unkilled process in user mode keeps the accounts. -/
theorem ChargedOnce.step {m m' : State K × (Slot → ℕ)} (hI : ChargedOnce m) (hF : ForkInv m.1)
    (hT : TrapsKilled m.1) {a : Act K} (h : meteredStep m a = some m') : ChargedOnce m' := by
  obtain ⟨s', hs, rfl⟩ := Option.map_eq_some_iff.mp h
  intro q
  have hq := hI q
  dsimp only
  rcases safeStep_or_stray hs with hsafe | ⟨p, ok, l, v, -, -⟩
  · cases step_energyStep hF hsafe q with
    | keep hne he =>
      rw [he.energy_consumed, hq]
      simp only [he.unused, countTicks, if_neg hne]
      split_ifs <;> rfl
    | alloc hunused hbudget hconsumed =>
      rw [hconsumed, countTicks, if_pos hunused, ite_self]
      rfl
    | free hdead hunused hconsumed =>
      rw [hconsumed, if_pos hunused]
      rfl
    | clock cpu0 ha hrun he =>
      have hused : (m.1.proc q).state ≠ .unused := by simp [hrun]
      have hused' : (s'.proc q).state ≠ .unused := fun hu => hused (he.unused.mp hu)
      rw [if_neg hused] at hq
      rw [if_neg hused', countTicks, if_neg hused, if_pos (by rw [ha]; rfl)]
      calc (s'.proc q).energy_consumed
          = (m.1.proc q).energy_consumed + ENERGY_PER_TICK := he.energy_consumed
        _ = ENERGY_PER_TICK * UInt64.ofNat (m.2 q) + ENERGY_PER_TICK := by rw [hq]
        _ = ENERGY_PER_TICK * UInt64.ofNat (m.2 q + 1) := by
          rw [UInt64.ofNat_add, UInt64.mul_add]
          rfl
    | user ok ha hrun hpc he => cases (hT q _ hpc).1
  · -- A slot that the recovery puts to use has consumed nothing, and its count starts anew.
    by_cases hqv : q = v
    · subst hqv
      simp only [execRecovery, recoverRound, State.setPc_proc, State.setTable_proc,
        update_self, countTicks, Act.ticked] at hq ⊢
      simpa using hq
    · simp only [execRecovery, recoverRound, State.setPc_proc, State.setTable_proc,
        update_of_ne hqv, countTicks, Act.ticked, reduceCtorEq, if_false]
      rw [hq]
      split_ifs <;> rfl

/-- **Energy is charged once per tick** in the runs in which no timer interrupt finds an unkilled
process in user mode: in every state reached, `energy_consumed` of a process in use is the number of
timer interrupts that it has taken since `allocproc`, counted as the `uint64` that it is. -/
theorem energy_charged_once {m : State K × (Slot → ℕ)}
    (h : ReachVia meteredStep (fun m a => TicksInKernel m.1 a) meteredBoot m) (q : Slot)
    (hq : (m.1.proc q).state ≠ .unused) :
    (m.1.proc q).energy_consumed = ENERGY_PER_TICK * UInt64.ofNat (m.2 q) ∧
      (m.2 q < 2 ^ 64 →
        (m.1.proc q).energy_consumed.toNat = ENERGY_PER_TICK.toNat * m.2 q) := by
  have hI : ChargedOnce m := by
    refine h.invariant ?_ fun m a _ hr hI _ hs => ?_
    · intro q
      by_cases hinit : q = initproc
      · subst hinit
        rfl
      · simp [meteredBoot, boot, hinit, Proc.zero]
    · obtain ⟨s', hstep, -⟩ := Option.map_eq_some_iff.mp hs
      have hr := safe_of_step hr.fst hstep
      have hT : TrapsKilled m.1 := hr.invariant (fun q t hpc => by cases hpc)
        fun _ _ _ hr hI ha hs => hI.step (localInv_of_reachVia hr) ha hs
      exact hI.step (localInv_of_reachVia hr).fork hT hs
  have hq' := hI q
  rw [if_neg hq] at hq'
  refine ⟨hq', fun hlt => ?_⟩
  rw [hq', UInt64.toNat_mul, UInt64.toNat_ofNat_of_lt' hlt]
  exact Nat.mod_eq_of_lt (by rw [show ENERGY_PER_TICK.toNat = 1 from rfl]; omega)

/-- The timer interrupts the first process in `kfork`. -/
theorem energy_charged_once_fork :
    ∃ m : State Empty × (Slot → ℕ),
      ReachVia meteredStep (fun m a => TicksInKernel m.1 a) meteredBoot m ∧ m.2 0 = 1 ∧
      (m.1.proc 0).energy_consumed = ENERGY_PER_TICK * UInt64.ofNat (m.2 0) := by
  obtain ⟨m, hm, htaken, hused⟩ := exists_of_run meteredStep (fun m a => TicksInKernel m.1 a)
    (meteredBoot : State Empty × (Slot → ℕ)) [.sched 0, .call 0 .fork, .timer 0 true]
    (fun m => m.2 0 = 1 ∧ (m.1.proc 0).state ≠ .unused) (by decide +kernel)
  exact ⟨m, hm, htaken, (energy_charged_once hm 0 hused).1⟩

/-- **A tick in user mode is charged twice**: the first process has taken one timer interrupt, and
has been charged for two. -/
theorem user_tick_charged_twice :
    ∃ m : State Empty × (Slot → ℕ), Reach meteredStep meteredBoot m ∧
      (m.1.proc 0).state ≠ .unused ∧ m.2 0 = 1 ∧ (m.1.proc 0).energy_consumed = 2 ∧
      (m.1.proc 0).energy_consumed ≠ ENERGY_PER_TICK * UInt64.ofNat (m.2 0) :=
  exists_of_run meteredStep (fun _ _ => True) (meteredBoot : State Empty × (Slot → ℕ))
    [.sched 0, .timer 0 true, .exec 0 true, .exec 0 true] _ (by decide +kernel)

end SustainableXv6
