import SustainableXv6.Lib.Transition
import SustainableXv6.Sched.Select
import SustainableXv6.Smp.Code

/-!
# A process is current on one processor

The processors `C` run the processes of the table: `scheduler` switches to a runnable process, which
executes its code until it yields or sleeps, and the timer interrupts it. In every state a process
is `c->proc` of one processor at most, and its state is `RUNNING` then (`CurrentInv`).

The locks of the processes protect this, and every part of the code under such a lock keeps it: no
such part makes a process `RUNNING`, and only the process itself, on its way to `sched`, is made
something else (`Code.Ok`). The store `victim->state = RUNNABLE` of `energy_aware_deadlock_recovery`
is made without the lock. If the victim has been woken and switched to since the test of its state,
it becomes `RUNNABLE` while it runs, and a second processor switches to it (`victim_runs_twice`). If
the store finds the victim asleep, as the test did, all is well (`current_once`).
-/

namespace SustainableXv6

open Function Lib

variable {C K : Type}

/-! ## The machine -/

/-- The state of the processors `C`. -/
structure Smp (C K : Type) where
  proc : Table K
  lock : Locks K
  /-- What each process has still to execute. -/
  code : Slot → Code K
  /-- `c->proc`. -/
  cpuproc : C → Option Slot
  /-- `c->noff`, without the process locks. -/
  noff : C → ℕ

/-- No process runs, and the processes that are switched to go to user mode. -/
def Smp.start (t : Table K) : Smp C K where
  proc := t
  lock := fun _ => .zero
  code := fun _ => .user
  cpuproc := fun _ => none
  noff := fun _ => 0

/-- The calls that a process makes in the kernel. -/
inductive SmpCall (K : Type)
  | acquiresleep (l : Lock K)
  | releasesleep (l : Lock K)
  | sleep (chan : Chan K)
  | wakeup (chan : Chan K)
  | kill (pid : ℤ)
  | checkDeadlock

/-- The actions of the processors. -/
inductive SmpAct (C K : Type)
  /-- `scheduler` of a processor switches to a process. -/
  | sched (c : C) (p : Slot)
  /-- The next step of the process on a processor. -/
  | exec (c : C)
  /-- The process on a processor makes a call. -/
  | call (c : C) (a : SmpCall K)
  /-- The timer interrupts the process on a processor. `check` says whether `usertrap` looks for
  deadlocks at this tick. -/
  | timer (c : C) (check : Bool)

section Step

variable [DecidableEq C] [DecidableEq K]

/-- The code of a call by the process `me`. -/
def SmpCall.code (me : Slot) : SmpCall K → Code K
  | .acquiresleep l => .acquire l (.again l)
  | .releasesleep l =>
    .acquire l <| .writeLock l false 0 <| .wakeup me (.lock l) slots <| .release l (.ret me)
  | .sleep chan => .sleep me chan none (.ret me)
  | .wakeup chan => .wakeup me chan slots (.ret me)
  | .kill pid => .kkill pid slots (.ret me)
  | .checkDeadlock => .checkDeadlock (.ret me) slots

/-- The code of a timer interrupt of the process `me`, which was at `k`. -/
def timerCode (me : Slot) (check : Bool) (k : Code K) : Code K :=
  .region me clockintrCharge fun _ =>
    match k with
    -- `usertrap`
    | .user =>
      .region me id fun p =>
        if p.killed then .exit
        else .write me .charge <|
          if check then .checkDeadlock (.yield .user) slots else .yield .user
    -- `kerneltrap`
    | k => .yield k

namespace Smp

/-- The process `p` goes on with the code `k`. -/
@[simps -fullyApplied]
def goto (s : Smp C K) (p : Slot) (k : Code K) : Smp C K :=
  { s with code := update s.code p k }

/-- An update of one slot of the table. -/
@[simps -fullyApplied]
def setProc (s : Smp C K) (q : Slot) (p : Proc K) : Smp C K :=
  { s with proc := update s.proc q p }

/-- An update of one sleep lock. -/
@[simps -fullyApplied]
def setLock (s : Smp C K) (l : Lock K) (lk : SleepLock) : Smp C K :=
  { s with lock := update s.lock l lk }

/-- `release(&lk->lk)` on the processor `c`, of a lock if there is one. -/
def unlock (s : Smp C K) (c : C) : Option (Lock K) → Smp C K
  | none => s
  | some l =>
    { s.setLock l { s.lock l with lk := .free } with
      noff := update s.noff c (s.noff c - 1) }

end Smp

/-- The next step of the process `p` on the processor `c`, or `none` while it spins. -/
def execCode (s : Smp C K) (c : C) (p : Slot) : Code K → Option (Smp C K)
  | .user => none
  | .again l => some (s.goto p (.acquiresleepLoop p l))
  | .acquire l k =>
    if (s.lock l).lk.locked then none
    else some { (s.setLock l { s.lock l with lk := .heldBy p }).goto p k with
      noff := update s.noff c (s.noff c + 1) }
  | .release l k => some ((s.unlock c (some l)).goto p k)
  | .readLock l k => some (s.goto p (k (s.lock l)))
  | .writeLock l locked pid k =>
    some ((s.setLock l { s.lock l with locked := locked, pid := pid }).goto p k)
  | .read q k => some (s.goto p (k (s.proc q)))
  | .write q w k => some ((s.setProc q (w.apply (s.proc q))).goto p k)
  | .region q f k => some ((s.setProc q (f (s.proc q))).goto p (k (s.proc q)))
  -- After `sched` the scheduler stores `c->proc = 0` and releases the lock of the process.
  | .leave lk f k =>
    some { ((s.unlock c lk).setProc p (f (s.proc p))).goto p k with
      cpuproc := update s.cpuproc c none }

/-- The state after an action, or `none` where it is not enabled. -/
def smpStep (s : Smp C K) : SmpAct C K → Option (Smp C K)
  | .sched c p =>
    if s.cpuproc c = none ∧ (s.proc p).state = .runnable then
      some { s with
        proc := switchTo s.proc p
        cpuproc := update s.cpuproc c (some p) }
    else none
  | .exec c =>
    match s.cpuproc c with
    | none => none
    | some p => execCode s c p (s.code p)
  | .call c a =>
    match s.cpuproc c with
    | none => none
    | some p =>
      match s.code p with
      -- `usertrap` tests the kill flag before the call.
      | .user => some (s.goto p (.region p id fun q => if q.killed then .exit else a.code p))
      | _ => none
  -- Interrupts are off while a spinlock is held.
  | .timer c check =>
    match s.cpuproc c with
    | none => none
    | some p =>
      if s.noff c = 0 then some (s.goto p (timerCode p check (s.code p))) else none

end Step

/-! ## Code that keeps the states -/

/-- A change of a process makes it run exactly if it ran. -/
def KeepsRunning (f : Proc K → Proc K) : Prop :=
  ∀ p, (f p).state = .running ↔ p.state = .running

/-- Code that makes a process `RUNNING` or not only on its own way to `sched`, and that stores
nothing but `RUNNABLE` to a state without the lock. -/
def Code.Ok : Code K → Prop
  | .user | .again _ => True
  | .acquire _ k | .release _ k | .writeLock _ _ _ k => k.Ok
  | .readLock _ k => ∀ lk, (k lk).Ok
  | .read _ k => ∀ p, (k p).Ok
  | .write _ w k => (∀ st, w = .state st → st = .runnable) ∧ k.Ok
  | .region _ f k => KeepsRunning f ∧ ∀ p, (k p).Ok
  | .leave _ f k => (∀ p, (f p).state ≠ .running) ∧ k.Ok

/-- A part that looks at a process does not change it. -/
theorem keepsRunning_id : KeepsRunning (id : Proc K → Proc K) := fun _ => Iff.rfl

/-- A part that changes a process under a condition. -/
theorem keepsRunning_ite {c : Proc K → Prop} [DecidablePred c] {f : Proc K → Proc K}
    (h : ∀ p, c p → ((f p).state = .running ↔ p.state = .running)) :
    KeepsRunning fun p => if c p then f p else p := by
  intro p
  dsimp only
  split_ifs with hc
  · exact h p hc
  · rfl

/-- A wake-up leaves a process that runs. -/
theorem ProcState.wake_eq_running {st : ProcState} : st.wake = .running ↔ st = .running := by
  cases st <;> simp [ProcState.wake]

namespace Code

/-- A branch. -/
theorem ok_ite {P : Prop} [Decidable P] {k k' : Code K} (hk : k.Ok) (hk' : k'.Ok) :
    (if P then k else k').Ok := by
  split_ifs
  · exact hk
  · exact hk'

/-- `yield`. -/
theorem yield_ok {k : Code K} (hk : k.Ok) : (yield k).Ok := ⟨by simp, hk⟩

/-- `kexit`. -/
theorem exit_ok : (exit : Code K).Ok := ⟨by simp, trivial⟩

/-- The return to user mode. -/
theorem ret_ok (me : Slot) : (ret me : Code K).Ok :=
  ⟨keepsRunning_id, fun _ => ok_ite exit_ok trivial⟩

/-- `sleep`. -/
theorem sleep_ok (me : Slot) (chan : Chan K) (lk : Option (Lock K)) {k : Code K} (hk : k.Ok) :
    (sleep me chan lk k).Ok := by
  refine ⟨by simp, fun _ => Iff.rfl, fun _ => ?_⟩
  cases lk with
  | none => exact hk
  | some l => exact hk

/-- `wakeup`. -/
theorem wakeup_ok [DecidableEq K] (me : Slot) (chan : Chan K) {k : Code K} (hk : k.Ok) :
    ∀ qs, (wakeup me chan qs k).Ok
  | [] => hk
  | q :: qs => by
    have ih : (wakeup me chan qs k).Ok := wakeup_ok me chan hk qs
    refine ok_ite ih ⟨keepsRunning_ite fun p hp => ?_, fun _ => ih⟩
    simp [hp.1]

/-- `kkill`. -/
theorem kkill_ok (pid : ℤ) {k : Code K} (hk : k.Ok) : ∀ qs, (kkill pid qs k).Ok
  | [] => hk
  | _ :: qs =>
    ⟨keepsRunning_ite fun _ _ => ProcState.wake_eq_running, fun _ => ok_ite hk (kkill_ok pid hk qs)⟩

/-! ### `check_deadlock` -/

/-- `find_holder`. -/
theorem findHolder_ok (res_id : ℤ) {k : Option Slot → Code K} (hk : ∀ r, (k r).Ok) :
    ∀ qs, (findHolder res_id qs k).Ok
  | [] => hk none
  | q :: qs => fun _ =>
    have ih : (findHolder res_id qs k).Ok := findHolder_ok res_id hk qs
    ok_ite ih fun _ => ok_ite (hk (some q)) ih

/-- The `while` loop of `check_deadlock`. -/
theorem followChain_ok {found : List Slot → Code K} {k : Code K} (hfound : ∀ ds, (found ds).Ok)
    (hk : k.Ok) : ∀ room visited cur, (followChain found k room visited cur).Ok
  | 0, _, none => hk
  | _ + 1, _, none => hk
  | 0, _, some _ => fun _ => ok_ite hk (ok_ite (hfound _) hk)
  | room + 1, visited, some cur => fun _ =>
    ok_ite hk (ok_ite (hfound _) fun _ =>
      findHolder_ok _ (followChain_ok hfound hk room (visited ++ [cur])) slots)

/-- The choice of a victim. -/
theorem pickVictim_ok {k : Slot → Code K} (hk : ∀ v, (k v).Ok) :
    ∀ ds victim max_energy, (pickVictim k ds victim max_energy).Ok
  | [], victim, _ => hk victim
  | d :: ds, victim, max_energy => fun _ =>
    ok_ite (fun _ => pickVictim_ok hk ds d _) (pickVictim_ok hk ds victim max_energy)

/-- The recovery of `check_deadlock`. -/
theorem foundDeadlock_ok {k : Code K} (hk : k.Ok) : ∀ ds, (foundDeadlock k ds).Ok
  | [] => hk
  | d :: ds => fun _ => by
    refine pickVictim_ok ?_ ds d _
    intro victim
    exact ⟨fun _ => ProcState.wake_eq_running, fun _ => hk⟩

/-- `check_deadlock`. -/
theorem checkDeadlock_ok {k : Code K} (hk : k.Ok) : ∀ ps, (checkDeadlock k ps).Ok
  | [] => hk
  | p :: ps => fun _ =>
    have ih : (checkDeadlock k ps).Ok := checkDeadlock_ok hk ps
    ok_ite ih fun _ => ok_ite ih (followChain_ok (foundDeadlock_ok hk) ih NPROC [] (some p))

/-! ### `acquiresleep` -/

/-- The loop of `pid2proc`. -/
theorem pid2procLoop_ok (pid : ℤ) {k : Option Slot → Code K} (hk : ∀ r, (k r).Ok) :
    ∀ qs, (pid2procLoop pid k qs).Ok
  | [] => hk none
  | q :: qs => fun _ =>
    have ih : (pid2procLoop pid k qs).Ok := pid2procLoop_ok pid hk qs
    ok_ite (fun _ => ok_ite ih (hk (some q))) ih

/-- `pid2proc`. -/
theorem pid2proc_ok (pid : ℤ) {k : Option Slot → Code K} (hk : ∀ r, (k r).Ok) :
    (pid2proc pid k).Ok :=
  ok_ite (hk none) (pid2procLoop_ok pid hk slots)

/-- The end of a round. -/
theorem nextOwner_ok (owner : Slot) {k : Option ℤ → Code K} (hk : ∀ r, (k r).Ok) :
    (nextOwner owner k).Ok := by
  intro p
  cases hl : p.waiting_for_lock with
  | none => simpa only [hl] using hk none
  | some l =>
    simp only [hl]
    exact fun _ => ok_ite (fun lk => hk (some lk.pid)) (hk none)

/-- `would_create_deadlock`. -/
theorem wouldCreateDeadlock_ok (me : Slot) {k : Bool → Code K} (hk : ∀ b, (k b).Ok) :
    ∀ n owner_pid, (wouldCreateDeadlock me k n owner_pid).Ok
  | 0, _ => hk false
  | n + 1, owner_pid => by
    refine ok_ite (hk false) (pid2proc_ok owner_pid fun owner => ?_)
    cases owner with
    | none => exact hk false
    | some owner =>
      refine fun _ _ => ok_ite (hk true) (nextOwner_ok owner fun next => ?_)
      cases next with
      | none => exact hk false
      | some owner_pid => exact wouldCreateDeadlock_ok me hk n owner_pid

/-- The first loop of the recovery. -/
theorem markCycle_ok (start_pid : ℤ) {k : Slot → Code K} (hk : ∀ v, (k v).Ok) :
    ∀ n owner_pid victim max_energy, (markCycle start_pid k n owner_pid victim max_energy).Ok
  | 0, _, victim, _ => hk victim
  | n + 1, owner_pid, victim, max_energy => by
    refine ok_ite (hk victim) (pid2proc_ok owner_pid fun owner => ?_)
    cases owner with
    | none => exact hk victim
    | some owner =>
      have goOn {victim : Slot} {max_energy : UInt64} {f : Option ℤ → Code K}
          (hnone : f none = k victim)
          (hsome : ∀ o, f (some o) = markCycle start_pid k n o victim max_energy) :
          (nextOwner owner f).Ok := by
        refine nextOwner_ok owner fun next => ?_
        cases next with
        | none => exact hnone ▸ hk victim
        | some o => exact hsome o ▸ markCycle_ok start_pid hk n o victim max_energy
      exact ⟨by simp, fun _ =>
        ok_ite (fun _ => goOn rfl fun _ => rfl) (goOn rfl fun _ => rfl)⟩

/-- The second loop of the recovery. -/
theorem unmarkCycle_ok (start_pid : ℤ) {k : Code K} (hk : k.Ok) :
    ∀ n owner_pid, (unmarkCycle start_pid k n owner_pid).Ok
  | 0, _ => hk
  | n + 1, owner_pid => by
    refine ok_ite hk (pid2proc_ok owner_pid fun owner => ?_)
    cases owner with
    | none => exact hk
    | some owner =>
      refine ⟨by simp, nextOwner_ok owner fun next => ?_⟩
      cases next with
      | none => exact hk
      | some owner_pid => exact unmarkCycle_ok start_pid hk n owner_pid

/-- `energy_aware_deadlock_recovery`. -/
theorem recovery_ok (me : Slot) (l : Lock K) {k : Code K} (hk : k.Ok) : (recovery me l k).Ok := by
  intro p
  have hunmark : (write me (.inDeadlock false) <| readLock l fun lk =>
      unmarkCycle p.pid k NPROC lk.pid).Ok :=
    ⟨by simp, fun lk => unmarkCycle_ok p.pid hk NPROC lk.pid⟩
  refine ⟨by simp, fun _ lk => markCycle_ok p.pid ?_ _ _ _ _⟩
  intro victim
  exact ⟨by simp, fun _ => ok_ite ⟨by simp, hunmark⟩ hunmark⟩

/-- `acquiresleep`. -/
theorem acquiresleepLoop_ok (me : Slot) (l : Lock K) : (acquiresleepLoop me l).Ok := by
  have hsleep : (sleep me (.lock l) (some l) (.again l)).Ok := sleep_ok me _ _ trivial
  refine fun _ => ok_ite ⟨by simp, fun lk => ?_⟩ ⟨by simp, fun _ => ret_ok me⟩
  refine wouldCreateDeadlock_ok me (fun cycle => ?_) NPROC lk.pid
  exact ok_ite ⟨by simp, recovery_ok me l hsleep⟩ hsleep

/-! ### Calls and the timer -/

/-- The calls. -/
theorem call_ok [DecidableEq K] (me : Slot) (a : SmpCall K) : (a.code me).Ok := by
  cases a with
  | acquiresleep l => trivial
  | releasesleep l =>
    have hrelease : (Code.release l (.ret me)).Ok := ret_ok me
    exact wakeup_ok me (.lock l) hrelease slots
  | sleep chan => exact sleep_ok me chan none (ret_ok me)
  | wakeup chan => exact wakeup_ok me chan (ret_ok me) slots
  | kill pid => exact kkill_ok pid (ret_ok me) slots
  | checkDeadlock => exact checkDeadlock_ok (ret_ok me) slots

/-- The timer interrupt. -/
theorem timerCode_ok (me : Slot) (check : Bool) {k : Code K} (hk : k.Ok) :
    (timerCode me check k).Ok := by
  refine ⟨fun _ => Iff.rfl, fun _ => ?_⟩
  cases k with
  | user =>
    have hyield : (yield .user : Code K).Ok := yield_ok trivial
    refine ⟨keepsRunning_id, fun _ => ok_ite exit_ok ⟨by simp, ?_⟩⟩
    exact ok_ite (checkDeadlock_ok hyield slots) hyield
  | again | acquire | release | readLock | writeLock | read | write | region | leave =>
    exact yield_ok hk

end Code

/-! ## The invariant -/

/-- A process runs exactly if it is current on a processor, and is current on no other one. -/
structure CurrentInv (s : Smp C K) : Prop where
  running : ∀ p, (s.proc p).state = .running ↔ ∃ c, s.cpuproc c = some p
  unique : ∀ c c' p, s.cpuproc c = some p → s.cpuproc c' = some p → c = c'
  ok : ∀ p, (s.code p).Ok

/-- The process whose state the code is about to change without the lock of that process. -/
def Code.storesState : Code K → Option Slot
  | .write q (.state _) _ => some q
  | _ => none

variable {s s' : Smp C K}

/-- A store to the state of a process that is made without its lock finds the process asleep. -/
def WakesSleeper (s : Smp C K) : SmpAct C K → Prop
  | .exec c => ∀ p ∈ s.cpuproc c, ∀ q ∈ (s.code p).storesState, (s.proc q).state = .sleeping
  | .sched _ _ | .call _ _ | .timer _ _ => True

instance (s : Smp C K) : ∀ a, Decidable (WakesSleeper s a)
  | .exec c => inferInstanceAs (Decidable (∀ p ∈ s.cpuproc c, _))
  | .sched _ _ | .call _ _ | .timer _ _ => .isTrue trivial

/-- A state in which the same processes are current, and run. -/
theorem CurrentInv.of_same (hI : CurrentInv s) (hcpu : s'.cpuproc = s.cpuproc)
    (hrun : ∀ p, (s'.proc p).state = .running ↔ (s.proc p).state = .running)
    (hok : ∀ p, (s'.code p).Ok) : CurrentInv s' where
  running := fun p => by rw [hrun, hcpu]; exact hI.running p
  unique := by rw [hcpu]; exact hI.unique
  ok := hok

/-- The code after a step of the process `p`. -/
theorem CurrentInv.ok_update (hI : CurrentInv s) {p : Slot} {k : Code K} (hk : k.Ok) :
    ∀ q, (update s.code p k q).Ok :=
  (forall_update_iff s.code fun _ k => k.Ok).mpr ⟨hk, fun q _ => hI.ok q⟩

/-- A change of one process that makes it run exactly if it ran. -/
theorem running_update {t : Table K} {q : Slot} {x : Proc K}
    (h : x.state = .running ↔ (t q).state = .running) :
    ∀ p, (update t q x p).state = .running ↔ (t p).state = .running :=
  (forall_update_iff t fun p y => y.state = .running ↔ (t p).state = .running).mpr
    ⟨h, fun _ _ => Iff.rfl⟩

section Step

variable [DecidableEq C]

/-- A process that leaves its processor. -/
theorem CurrentInv.leave (hI : CurrentInv s) {c : C} {p : Slot} (hc : s.cpuproc c = some p)
    (hcpu : s'.cpuproc = update s.cpuproc c none)
    (hproc : ∀ q, q ≠ p → s'.proc q = s.proc q) (hp : (s'.proc p).state ≠ .running)
    (hok : ∀ q, (s'.code q).Ok) : CurrentInv s' := by
  have hcurrent (c' : C) (q : Slot) :
      s'.cpuproc c' = some q ↔ c' ≠ c ∧ s.cpuproc c' = some q := by
    rw [hcpu]
    by_cases hcc : c' = c
    · simp [hcc]
    · simp [hcc]
  refine ⟨fun q => ?_, fun c' c'' q h h' => ?_, hok⟩
  · simp only [hcurrent]
    by_cases hq : q = p
    · -- The process is current on no other processor.
      subst hq
      refine iff_of_false hp ?_
      rintro ⟨c', hne, h⟩
      exact hne (hI.unique c' c q h hc)
    · rw [hproc q hq, hI.running q]
      refine exists_congr fun c' => ⟨fun h => ⟨?_, h⟩, fun h => h.2⟩
      rintro rfl
      exact hq (Option.some.inj (h.symm.trans hc))
  · exact hI.unique c' c'' q ((hcurrent c' q).mp h).2 ((hcurrent c'' q).mp h').2

/-- The scheduler switches to a process that does not run. -/
theorem CurrentInv.sched (hI : CurrentInv s) {c : C} {p : Slot} (hc : s.cpuproc c = none)
    (hp : (s.proc p).state = .runnable)
    (hcpu : s'.cpuproc = update s.cpuproc c (some p)) (hproc : s'.proc = switchTo s.proc p)
    (hcode : s'.code = s.code) : CurrentInv s' := by
  have hnot (c' : C) : s.cpuproc c' ≠ some p := fun h => by
    have := (hI.running p).mpr ⟨c', h⟩
    simp [hp] at this
  have hcurrent (c' : C) (q : Slot) :
      s'.cpuproc c' = some q ↔ c' = c ∧ q = p ∨ s.cpuproc c' = some q := by
    rw [hcpu]
    by_cases hcc : c' = c
    · subst hcc
      simp [hc, eq_comm]
    · simp [hcc]
  refine ⟨fun q => ?_, fun c' c'' q h h' => ?_, hcode ▸ hI.ok⟩
  · simp only [hcurrent, hproc]
    by_cases hq : q = p
    · subst hq
      simp [switchTo]
    · have hstate : (switchTo s.proc p q).state = (s.proc q).state := by
        unfold switchTo
        rw [if_neg hq]
        split_ifs <;> rfl
      rw [hstate, hI.running q]
      simp [hq]
  · rcases (hcurrent c' q).mp h with ⟨rfl, rfl⟩ | h
    · rcases (hcurrent c'' q).mp h' with ⟨rfl, -⟩ | h'
      · rfl
      · exact absurd h' (hnot c'')
    · rcases (hcurrent c'' q).mp h' with ⟨-, rfl⟩ | h'
      · exact absurd h (hnot c')
      · exact hI.unique c' c'' q h h'

variable [DecidableEq K]

/-- A release of a spinlock leaves the processes. -/
theorem Smp.unlock_frame (s : Smp C K) (c : C) (lk : Option (Lock K)) :
    (s.unlock c lk).proc = s.proc ∧ (s.unlock c lk).code = s.code := by
  cases lk with
  | none => exact ⟨rfl, rfl⟩
  | some l => exact ⟨rfl, rfl⟩

/-- A step of a process. -/
theorem CurrentInv.execCode (hI : CurrentInv s) {c : C} {p : Slot} (hc : s.cpuproc c = some p)
    (hW : ∀ q ∈ (s.code p).storesState, (s.proc q).state = .sleeping)
    (h : execCode s c p (s.code p) = some s') : CurrentInv s' := by
  have hok := hI.ok p
  cases hk : s.code p with
  | user => simp [hk, SustainableXv6.execCode] at h
  | again l =>
    rw [hk] at h
    obtain rfl := Option.some.inj h
    exact hI.of_same rfl (fun _ => Iff.rfl) (hI.ok_update (Code.acquiresleepLoop_ok p l))
  | acquire l k =>
    rw [hk] at h hok
    simp only [SustainableXv6.execCode, Option.ite_none_left_eq_some, Option.some.injEq] at h
    obtain ⟨-, rfl⟩ := h
    exact hI.of_same rfl (fun _ => Iff.rfl) (hI.ok_update hok)
  | release l k | writeLock l locked pid k =>
    rw [hk] at h hok
    obtain rfl := Option.some.inj h
    exact hI.of_same rfl (fun _ => Iff.rfl) (hI.ok_update hok)
  | readLock l k | read q k =>
    rw [hk] at h hok
    obtain rfl := Option.some.inj h
    exact hI.of_same rfl (fun _ => Iff.rfl) (hI.ok_update (hok _))
  | write q w k =>
    rw [hk] at h hok hW
    obtain rfl := Option.some.inj h
    refine hI.of_same rfl (running_update ?_) (hI.ok_update hok.2)
    cases w with
    | state st =>
      -- The process whose state is changed is asleep, so it does not run.
      have hsleep : (s.proc q).state = .sleeping := hW q rfl
      obtain rfl : st = .runnable := hok.1 st rfl
      simp [Store.apply, hsleep]
    | killed | inDeadlock | waitingForLock | report | charge => exact Iff.rfl
  | region q f k =>
    rw [hk] at h hok
    obtain rfl := Option.some.inj h
    exact hI.of_same rfl (running_update (hok.1 _)) (hI.ok_update (hok.2 _))
  | leave lk f k =>
    rw [hk] at h hok
    obtain rfl := Option.some.inj h
    obtain ⟨hproc, hcode⟩ := s.unlock_frame c lk
    refine hI.leave hc rfl (fun q hq => ?_) ?_ ?_
    · simp only [Smp.goto_proc, Smp.setProc_proc, update_of_ne hq, hproc]
    · simp only [Smp.goto_proc, Smp.setProc_proc, update_self]
      exact hok.1 _
    · simp only [Smp.goto_code, Smp.setProc_code, hcode]
      exact hI.ok_update hok.2

/-- An action keeps the processes current on one processor. -/
theorem CurrentInv.step (hI : CurrentInv s) {a : SmpAct C K} (ha : WakesSleeper s a)
    (h : smpStep s a = some s') : CurrentInv s' := by
  cases a with
  | sched c p =>
    simp only [smpStep, Option.ite_none_right_eq_some, Option.some.injEq] at h
    obtain ⟨⟨hc, hp⟩, rfl⟩ := h
    exact hI.sched hc hp rfl rfl rfl
  | exec c =>
    simp only [smpStep] at h
    cases hc : s.cpuproc c with
    | none => simp [hc] at h
    | some p =>
      simp only [hc] at h
      exact hI.execCode hc (ha p hc) h
  | call c a =>
    simp only [smpStep] at h
    cases hc : s.cpuproc c with
    | none => simp [hc] at h
    | some p =>
      simp only [hc] at h
      split at h
      · obtain rfl := Option.some.inj h
        refine hI.of_same rfl (fun _ => Iff.rfl) (hI.ok_update ⟨keepsRunning_id, fun _ => ?_⟩)
        exact Code.ok_ite Code.exit_ok (Code.call_ok p a)
      · simp at h
  | timer c check =>
    simp only [smpStep] at h
    cases hc : s.cpuproc c with
    | none => simp [hc] at h
    | some p =>
      simp only [hc, Option.ite_none_right_eq_some, Option.some.injEq] at h
      obtain ⟨-, rfl⟩ := h
      exact hI.of_same rfl (fun _ => Iff.rfl) (hI.ok_update (Code.timerCode_ok p check (hI.ok p)))

/-- If a store to the state of a process without its lock always finds the process asleep, a process
is current on one processor at most, and exactly if it runs. -/
theorem current_once {t : Table K} (ht : ∀ p, (t p).state ≠ .running)
    (h : ReachVia smpStep WakesSleeper (.start t : Smp C K) s) :
    (∀ c c' p, s.cpuproc c = some p → s.cpuproc c' = some p → c = c') ∧
      ∀ p, (s.proc p).state = .running ↔ ∃ c, s.cpuproc c = some p := by
  have h₀ : CurrentInv (.start t : Smp C K) :=
    ⟨fun p => iff_of_false (ht p) (by simp [Smp.start]), by simp [Smp.start], fun _ => trivial⟩
  have hI : CurrentInv s := h.invariant h₀ fun _ _ _ _ hI ha hs => hI.step ha hs
  exact ⟨hI.unique, hI.running⟩

/-- `scheduler` switches to the process that it chooses from the table. -/
def Picks (s : Smp C K) : SmpAct C K → Prop
  | .sched _ p => chooseProc s.proc = some p
  | .exec _ | .call _ _ | .timer _ _ => True

instance (s : Smp C K) : ∀ a, Decidable (Picks s a)
  | .sched _ p => inferInstanceAs (Decidable (chooseProc s.proc = some p))
  | .exec _ | .call _ _ | .timer _ _ => .isTrue trivial

end Step

/-- Three processes that can run. The second one has consumed the most energy. -/
def threeProcs : Table Unit := fun p =>
  match p.val with
  | 0 => .sample .runnable 1 none "init" 900
  | 1 => { Proc.sample .runnable 2 (some 0) "deadlock_demo" 900 with energy_consumed := 1 }
  | 2 => .sample .runnable 3 (some 0) "sh" 900
  | _ => .zero

/-- Each of the first two processes takes a demo lock. The second one sleeps on the lock of the
first one, which then finds the deadlock, and is about to store `RUNNABLE` to the state of the
second one, which is asleep. -/
def findsVictimAsleep : List (SmpAct ℕ Unit) :=
  List.flatten [[.sched 0 0, .sched 1 1, .sched 2 2],
    [.call 1 (.acquiresleep (.demo 0))], List.replicate 9 (.exec 1),
    [.call 0 (.acquiresleep (.demo 1))], List.replicate 9 (.exec 0),
    [.call 1 (.acquiresleep (.demo 1))], List.replicate 12 (.exec 1),
    [.call 0 (.acquiresleep (.demo 0))], List.replicate 34 (.exec 0)]

/-- If the store follows, the second process is switched to once. -/
theorem current_once_findsVictimAsleep :
    ∃ s : Smp ℕ Unit, ReachVia smpStep WakesSleeper (.start threeProcs) s ∧
      s.cpuproc 1 = some 1 ∧ ∀ c, s.cpuproc c = some 1 → c = 1 := by
  obtain ⟨s, hs, h1⟩ := exists_of_run smpStep WakesSleeper (.start threeProcs)
    (List.flatten [findsVictimAsleep, [.exec 0, .sched 1 1]])
    (fun s : Smp ℕ Unit => s.cpuproc 1 = some 1) (by decide +kernel)
  have hstart : ∀ p, (threeProcs p).state ≠ .running := by decide +kernel
  exact ⟨s, hs, h1, fun c hc => (current_once hstart hs).1 c 1 1 hc h1⟩

/-- If the third process kills the second one before the store, and processor 1 switches to it, it
is switched to a second time after the store, by processor 3. -/
theorem victim_runs_twice :
    ∃ s : Smp ℕ Unit, ReachVia smpStep Picks (.start threeProcs) s ∧
      s.cpuproc 1 = some 1 ∧ s.cpuproc 3 = some 1 :=
  exists_of_run smpStep Picks (.start threeProcs)
    (List.flatten [findsVictimAsleep, [.call 2 (.kill 2)], List.replicate 4 (.exec 2),
      [.sched 1 1, .exec 0, .sched 3 1]]) _ (by decide +kernel)

end SustainableXv6
