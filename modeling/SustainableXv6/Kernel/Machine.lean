import SustainableXv6.Lib.Transition
import SustainableXv6.Rag.Recovery
import SustainableXv6.Sleeplock.Basic

/-!
# The kernel as a step function

The processes of the table run the system calls `dlockacq`, `dlockrel`, `fork`, `exit`, `wait`,
`kill`, and `check_deadlock` of `kernel/sysproc.c` in any interleaving, with the timer, faults, and
the scheduler between their steps. `Pc` says where in the kernel a process is, and `step` is what
the next action does. A step is a statement, or a part of the source that runs under one lock, such
as a `wakeup` or the scan of `kwait`. The statements of `acquiresleep` that the spinlock of the
sleep lock protects are steps of their own, because the walk of `would_create_deadlock` and the
recovery read and write other locks and other processes without their spinlocks. So are the
statements of `usertrap` after a timer interrupt. `check_deadlock` and `deadlock_recover` are one
step each, since there is nothing for them to find (`checkDeadlock_of_reachVia`).

Processors are not named: a process whose state is `running` is on one, and any process that is
`runnable` may be switched to. The machine stops where that is lost (`State.astray`). The further
sleep locks `K` are acquired and released in any order by the calls `lockOther` and `unlockOther`,
in place of the file system calls that do so.

The fields `clock`, `registered`, `reports0`, and `held` are history: no step reads them.
-/

namespace SustainableXv6

open Function

/-! ## States -/

/-- The calls that start with `ensure_demo_locks_inited`: `sys_dlockacq` and `sys_dlockrel` with a
valid lock id. -/
inductive DemoCall
  | acq (i : Fin 2)
  | rel (i : Fin 2)
  deriving DecidableEq, Repr

/-- The stores of `ensure_demo_locks_inited`, where `initsleeplock` and `initlock` of
`kernel/spinlock.c` are inlined. -/
inductive InitStore
  /-- `lk->lk.locked = 0`. -/
  | spinLocked (i : Fin 2)
  /-- `lk->lk.cpu = 0`. -/
  | spinCpu (i : Fin 2)
  /-- `lk->locked = 0`. -/
  | locked (i : Fin 2)
  /-- `lk->pid = 0`. -/
  | pid (i : Fin 2)
  /-- `demo_locks_inited = 1`. -/
  | flag
  deriving DecidableEq, Repr

/-- The next store of `ensure_demo_locks_inited`. -/
def InitStore.next : InitStore → Option InitStore
  | .spinLocked i => some (.spinCpu i)
  | .spinCpu i => some (.locked i)
  | .locked i => some (.pid i)
  | .pid i => if i = 0 then some (.spinLocked 1) else some .flag
  | .flag => none

/-- The places of `usertrap` after a timer interrupt, with interrupts off. -/
inductive Trap
  /-- At `if(killed(p))`. -/
  | killed
  /-- At `p->energy_consumed += ENERGY_PER_TICK`. -/
  | charge
  /-- At `current_ticks = ticks`. -/
  | ticks
  /-- At `deadlock_recover()`. -/
  | recover
  /-- At `yield()`. -/
  | yield
  deriving DecidableEq, Repr

/-- Where a process is. -/
inductive Pc (K : Type)
  /-- In user mode. -/
  | user
  /-- In `usertrap` after a timer interrupt in user mode. -/
  | trap (t : Trap)
  /-- Back in `usertrap` with the result of a system call. -/
  | ret (result : ℤ)
  /-- At `kexit`. -/
  | exit (status : ℤ)
  /-- `ensure_demo_locks_inited`, at the test of the flag. -/
  | ensure (c : DemoCall)
  /-- `ensure_demo_locks_inited`, at a store. -/
  | init (c : DemoCall) (w : InitStore)
  /-- `acquiresleep`, at `acquire(&lk->lk)`. -/
  | acquire (l : Lock K)
  /-- `acquiresleep`, at the test of `lk->locked`. -/
  | test (l : Lock K)
  /-- `acquiresleep`, at `p->waiting_for_lock = lk`. -/
  | register (l : Lock K)
  /-- `would_create_deadlock`, at `owner_pid = target_lock->pid`. -/
  | walkStart (l : Lock K)
  /-- `would_create_deadlock`, at the loop. -/
  | walk (l : Lock K) (owner_pid : ℤ) (hops : ℕ)
  /-- `acquiresleep`, in `energy_aware_deadlock_recovery`. -/
  | recover (l : Lock K) (r : RecoveryPc)
  /-- `acquiresleep`, at `sleep`. -/
  | sleep (l : Lock K)
  /-- In `sleep` called by `acquiresleep`, after `sched`. -/
  | asleep (l : Lock K)
  /-- `acquiresleep`, after the loop. -/
  | take (l : Lock K)
  /-- At `holdingsleep`. -/
  | holding (l : Lock K)
  /-- At `releasesleep`. -/
  | release (l : Lock K)
  /-- `kfork`, at `allocproc`. -/
  | fork
  /-- `kfork`, at `np->parent = p`. -/
  | forkParent (np : Slot)
  /-- `kfork`, at `np->state = RUNNABLE`. -/
  | forkRun (np : Slot)
  /-- At the scan of `kwait`. -/
  | wait
  /-- In `sleep` called by `kwait`, after `sched`. -/
  | waitAsleep
  /-- At `kkill`. -/
  | kill (pid : ℤ)
  /-- At `check_deadlock`. -/
  | checkDeadlock
  /-- In `panic`. -/
  | panicked
  deriving DecidableEq, Repr

/-- The state of the kernel. -/
structure State (K : Type) where
  /-- The process table. -/
  proc : Table K
  /-- The sleep locks. -/
  lock : Locks K
  /-- Where each process is. -/
  pc : Slot → Pc K
  demo_locks_inited : Bool
  /-- An `int`, which is not bounded here. -/
  nextpid : ℤ
  ticks : UInt32
  /-- The process whose timer interrupt the first processor handles. -/
  tick0 : Option Slot
  /-- Whether a recovery has stored `RUNNABLE` to a process that neither slept nor was runnable.
  Nothing follows here, since the process may then be on two processors, or run without having been
  set up. -/
  astray : Bool
  /-- The number of registrations of a wait so far. -/
  clock : ℕ
  /-- When each process last registered a wait. -/
  registered : Slot → ℕ
  /-- `deadlock_reports` of each process when it last registered a wait. -/
  reports0 : Slot → UInt64
  /-- The demo locks that each process has been given by `dlockacq` and has not given back. -/
  held : Slot → Fin 2 → Bool

variable {K : Type}

/-- The first process after `userinit`: `allocproc` with the first pid. -/
def Proc.first : Proc K := { (Proc.zero : Proc K).alloc 1 with state := .runnable }

/-- The state after booting: the first process is runnable, and every lock is in zeroed memory. The
other sleep locks have been initialised by `binit` and `iinit`, and the demo locks have not been. -/
def boot : State K where
  proc := update (fun _ => Proc.zero) initproc Proc.first
  lock := fun _ => .zero
  pc := fun _ => .user
  demo_locks_inited := false
  nextpid := 2
  ticks := 0
  tick0 := none
  astray := false
  clock := 0
  registered := fun _ => 0
  reports0 := fun _ => 0
  held := fun _ _ => false

namespace State

/-- The process `p` goes to another place. -/
@[simps]
def setPc (s : State K) (p : Slot) (c : Pc K) : State K := { s with pc := update s.pc p c }

/-- An update of one slot of the table. -/
@[simps]
def setProc (s : State K) (p : Slot) (q : Proc K) : State K :=
  { s with proc := update s.proc p q }

/-- An update of one sleep lock. -/
@[simps]
def setLock [DecidableEq K] (s : State K) (l : Lock K) (k : SleepLock) : State K :=
  { s with lock := update s.lock l k }

/-- An update of the whole table. -/
@[simps]
def setTable (s : State K) (t : Table K) : State K := { s with proc := t }

/-- `panic` of the process `p`, whose processor then spins. The others go on. -/
def panic (s : State K) (p : Slot) : State K := s.setPc p .panicked

end State

/-! ## Actions -/

/-- The system calls. -/
inductive Call (K : Type)
  | dlockacq (lockid : ℤ)
  | dlockrel (lockid : ℤ)
  | lockOther (k : K)
  | unlockOther (k : K)
  | fork
  | exit (status : ℤ)
  | wait
  | kill (pid : ℤ)
  | checkDeadlock
  deriving DecidableEq, Repr

/-- The actions of the system. -/
inductive Act (K : Type)
  /-- `scheduler` switches to a process. -/
  | sched (p : Slot)
  /-- A process in user mode makes a system call. -/
  | call (p : Slot) (c : Call K)
  /-- A process in the kernel executes its next step. `ok` says whether the memory that the step may
  need is there: an allocation in `kfork`, the copy of the exit status in `kwait`. -/
  | exec (p : Slot) (ok : Bool)
  /-- The timer interrupts a process. `cpu0` says whether that is on the first processor, which
  counts the ticks. -/
  | timer (p : Slot) (cpu0 : Bool)
  /-- A process in user mode faults. -/
  | fault (p : Slot)
  /-- The timer interrupts the first processor while it runs no process. -/
  | idle
  deriving DecidableEq, Repr

instance {K : Type} : Inhabited (Act K) := ⟨.idle⟩

/-- The lock of a demo lock id, or `none` where `sys_dlockacq` and `sys_dlockrel` reject the id. -/
def demoLock (lockid : ℤ) : Option (Fin 2) :=
  if lockid < 0 ∨ lockid > 1 then none else if lockid = 0 then some 0 else some 1

/-- Where a system call starts. -/
def Call.entry : Call K → Pc K
  | .dlockacq lockid =>
    match demoLock lockid with
    | none => .ret (-1)
    | some i => .ensure (.acq i)
  | .dlockrel lockid =>
    match demoLock lockid with
    | none => .ret (-1)
    | some i => .ensure (.rel i)
  | .lockOther k => .acquire (.other k)
  | .unlockOther k => .holding (.other k)
  | .fork => .fork
  | .exit status => .exit status
  | .wait => .wait
  | .kill pid => .kill pid
  | .checkDeadlock => .checkDeadlock

/-- Where `sys_dlockacq` and `sys_dlockrel` go on after `ensure_demo_locks_inited`. -/
def DemoCall.entry : DemoCall → Pc K
  | .acq i => .acquire (.demo i)
  | .rel i => .holding (.demo i)

/-- The process that takes an action. -/
def Act.actor : Act K → Option Slot
  | .call p _ | .exec p _ | .timer p _ | .fault p => some p
  | .sched _ | .idle => none

/-- The places at which a process holds the spinlock of a sleep lock. -/
def Pc.spinning : Pc K → Option (Lock K)
  | .test l | .register l | .walkStart l | .walk l _ _ | .recover l _ | .sleep l | .take l => some l
  | _ => none

/-- Whether a process is in `usertrap` after a timer interrupt. -/
def Pc.trapped : Pc K → Bool
  | .trap _ => true
  | _ => false

section Step

variable [DecidableEq K]

/-- A store of `ensure_demo_locks_inited`. -/
def InitStore.exec (s : State K) : InitStore → State K
  | .spinLocked i =>
    s.setLock (.demo i)
      { s.lock (.demo i) with lk := { (s.lock (.demo i)).lk with locked := false } }
  | .spinCpu i =>
    s.setLock (.demo i)
      { s.lock (.demo i) with lk := { (s.lock (.demo i)).lk with cpu := none } }
  | .locked i => s.setLock (.demo i) { s.lock (.demo i) with locked := false }
  | .pid i => s.setLock (.demo i) { s.lock (.demo i) with pid := 0 }
  | .flag => { s with demo_locks_inited := true }

/-- `release(&lk->lk)` of the sleep lock `l` by the process `p`, and then `k`. -/
def releaseThen (s : State K) (p : Slot) (l : Lock K) (k : State K → State K) : State K :=
  if (s.lock l).lk.holding p then k (s.setLock l { s.lock l with lk := .free }) else s.panic p

/-- The wait of the process `p` for `l` is registered, and the history records it. -/
def execRegister (s : State K) (p : Slot) (l : Lock K) : State K :=
  { (s.setProc p { s.proc p with waiting_for_lock := some l }).setPc p (.walkStart l) with
    clock := s.clock + 1
    registered := update s.registered p (s.clock + 1)
    reports0 := update s.reports0 p (s.proc p).deadlock_reports }

/-- A round of the walk. When the walk returns 1, the report is counted. -/
def execWalk (s : State K) (p : Slot) (l : Lock K) (owner_pid : ℤ) (hops : ℕ) : State K :=
  match walkRound s.proc s.lock p owner_pid hops with
  | .next owner_pid => s.setPc p (.walk l owner_pid (hops + 1))
  | .done false => s.setPc p (.sleep l)
  | .done true =>
    (s.setProc p { s.proc p with deadlock_reports := (s.proc p).deadlock_reports + 1 }).setPc p
      (.recover l .start)

/-- A place of the recovery. `sleep` follows it: the kill flag is not looked at. -/
def execRecovery (s : State K) (p : Slot) (l : Lock K) (r : RecoveryPc) : State K :=
  { (s.setTable (recoverRound s.proc s.lock p l r).1).setPc p
      ((recoverRound s.proc s.lock p l r).2.elim (.sleep l) (.recover l)) with
    astray := r.strays s.proc }

/-- The lock `l` is taken: `p->waiting_for_lock = 0; lk->locked = 1; lk->pid = p->pid`, and its
spinlock is released. -/
def execTake (s : State K) (p : Slot) (l : Lock K) : State K :=
  releaseThen
    ((s.setProc p { s.proc p with waiting_for_lock := none }).setLock l
      { s.lock l with locked := true, pid := (s.proc p).pid }) p l fun s =>
    { s.setPc p (.ret 0) with
      held := update s.held p fun i => if l = .demo i then true else s.held p i }

/-- `releasesleep(lk)`, whose spinlock is free. -/
def execRelease (s : State K) (p : Slot) (l : Lock K) : State K :=
  { ((s.setLock l ⟨false, .free, 0⟩).setTable (wakeup s.proc p (.lock l))).setPc p (.ret 0) with
    held := update s.held p fun i => if l = .demo i then false else s.held p i }

/-- `holdingsleep(lk)`, whose spinlock is free, and what its callers do with the result:
`sys_dlockrel` returns -1 and `brelse` and `iunlock` panic if the lock is not held. -/
def execHolding (s : State K) (p : Slot) (l : Lock K) : State K :=
  if (s.lock l).locked ∧ (s.lock l).pid = (s.proc p).pid then s.setPc p (.release l)
  else match l with
    | .demo _ => s.setPc p (.ret (-1))
    | .other _ => s.panic p

/-- `allocproc` called by `kfork` of the process `p`. Where memory is missing, the slot is freed
again, and its pid is lost. -/
def execFork (s : State K) (p : Slot) (ok : Bool) : State K :=
  match findSlot fun q => (s.proc q).state = .unused with
  | none => s.setPc p (.ret (-1))
  | some np =>
    if ok then
      { ((s.setProc np { (s.proc np).alloc s.nextpid with name := (s.proc p).name }).setPc np
          .user).setPc p (.forkParent np) with nextpid := s.nextpid + 1 }
    else
      { (s.setProc np (freeproc ((s.proc np).alloc s.nextpid))).setPc p (.ret (-1)) with
        nextpid := s.nextpid + 1 }

/-- The scan of `kwait` of the process `p`. -/
def execWait (s : State K) (p : Slot) (ok : Bool) : State K :=
  match zombieChild s.proc p with
  | some pp =>
    if ok then
      { (s.setProc pp (freeproc (s.proc pp))).setPc p (.ret (s.proc pp).pid) with
        held := update s.held pp fun _ => false }
    else s.setPc p (.ret (-1))
  | none =>
    if havekids s.proc p ∧ ¬ (s.proc p).killed then
      (s.setProc p { s.proc p with chan := some (.proc p), state := .sleeping }).setPc p .waitAsleep
    else s.setPc p (.ret (-1))

/-- `yield` of the process `p`. -/
def yield (s : State K) (p : Slot) : State K := s.setProc p { s.proc p with state := .runnable }

/-- The process `p` leaves `usertrap`, and its processor can be interrupted again. -/
def leaveTrap (s : State K) (p : Slot) (c : Pc K) : State K :=
  { s.setPc p c with tick0 := if s.tick0 = some p then none else s.tick0 }

/-- The next statement of `usertrap` after a timer interrupt of the process `p`. -/
def execTrap (s : State K) (p : Slot) : Trap → State K
  | .killed => if (s.proc p).killed then leaveTrap s p (.exit (-1)) else s.setPc p (.trap .charge)
  -- The tick is charged here once more, and every so often deadlocks are looked for.
  | .charge => (s.setProc p (usertrapCharge (s.proc p))).setPc p (.trap .ticks)
  | .ticks =>
    s.setPc p (.trap (if s.ticks.toNat % DEADLOCK_CHECK_INTERVAL = 0 then .recover else .yield))
  | .recover => (s.setTable (deadlockRecover s.proc)).setPc p (.trap .yield)
  | .yield => leaveTrap (yield s p) p .user

/-- The next step of the running process `p` in the kernel, or `none` while it spins. -/
def exec (s : State K) (p : Slot) (ok : Bool) : Option (State K) :=
  match s.pc p with
  | .user | .panicked => none
  | .trap t => some (execTrap s p t)
  -- `usertrap` tests the kill flag once more before it returns.
  | .ret _ => some (if (s.proc p).killed then s.setPc p (.exit (-1)) else s.setPc p .user)
  | .exit status =>
    some (if p = initproc then s.panic p else s.setTable (kexit s.proc p status))
  -- `ensure_demo_locks_inited`
  | .ensure c =>
    some (s.setPc p (if s.demo_locks_inited then c.entry else .init c (.spinLocked 0)))
  | .init c w => some ((w.exec s).setPc p (match w.next with
      | none => c.entry
      | some w => .init c w))
  -- `acquiresleep`, which spins in `acquire` while the spinlock is held
  | .acquire l =>
    if (s.lock l).lk.locked then none
    else some ((s.setLock l { s.lock l with lk := .heldBy p }).setPc p (.test l))
  | .test l => some (s.setPc p (if (s.lock l).locked then .register l else .take l))
  | .register l => some (execRegister s p l)
  | .walkStart l => some (s.setPc p (.walk l (s.lock l).pid 0))
  | .walk l owner_pid hops => some (execWalk s p l owner_pid hops)
  | .recover l r => some (execRecovery s p l r)
  | .sleep l => some (releaseThen s p l fun s =>
      (s.setProc p { s.proc p with chan := some (.lock l), state := .sleeping }).setPc p
        (.asleep l))
  -- Woken up, or made runnable by a kill: back to the loop.
  | .asleep l => some ((s.setProc p { s.proc p with chan := none }).setPc p (.acquire l))
  | .take l => some (execTake s p l)
  -- `sys_dlockrel`
  | .holding l => if (s.lock l).lk.locked then none else some (execHolding s p l)
  | .release l => if (s.lock l).lk.locked then none else some (execRelease s p l)
  -- `kfork`
  | .fork => some (execFork s p ok)
  | .forkParent np =>
    some ((s.setProc np { s.proc np with parent := some p }).setPc p (.forkRun np))
  | .forkRun np =>
    some ((s.setProc np { s.proc np with state := .runnable }).setPc p (.ret (s.proc np).pid))
  -- `kwait`
  | .wait => some (execWait s p ok)
  | .waitAsleep => some ((s.setProc p { s.proc p with chan := none }).setPc p .wait)
  | .kill pid => some ((s.setTable (kkill s.proc pid).1).setPc p (.ret (kkill s.proc pid).2))
  | .checkDeadlock =>
    some ((s.setTable (checkDeadlock s.proc).1).setPc p (.ret (checkDeadlock s.proc).2))

/-- `clockintr` while the process `p` runs. -/
def clockintr (s : State K) (p : Slot) (cpu0 : Bool) : State K :=
  { s.setProc p (clockintrCharge (s.proc p)) with
    ticks := if cpu0 then s.ticks + 1 else s.ticks }

/-- A timer interrupt of the process `p`: `clockintr`, and then `usertrap` goes on, or `kerneltrap`
yields. -/
def timer (s : State K) (p : Slot) (cpu0 : Bool) : State K :=
  if s.pc p = .user then
    { (clockintr s p cpu0).setPc p (.trap .killed) with
      tick0 := if cpu0 then some p else s.tick0 }
  else yield (clockintr s p cpu0) p

/-- What an action does, or `none` where it is not enabled. -/
def act (s : State K) : Act K → Option (State K)
  | .sched p =>
    if (s.proc p).state = .runnable then some (s.setTable (switchTo s.proc p)) else none
  | .call p c =>
    if (s.proc p).state = .running ∧ s.pc p = .user then
      some (s.setPc p (if (s.proc p).killed then .exit (-1) else c.entry))
    else none
  | .exec p ok => if (s.proc p).state = .running then exec s p ok else none
  -- Interrupts are off while a spinlock is held, and while an interrupt is handled.
  | .timer p cpu0 =>
    if (s.proc p).state = .running ∧ (s.pc p).spinning = none ∧ (s.pc p).trapped = false ∧
        (cpu0 = true → s.tick0 = none) then
      some (timer s p cpu0)
    else none
  | .fault p =>
    if (s.proc p).state = .running ∧ s.pc p = .user then
      some ((s.setProc p { s.proc p with killed := true }).setPc p (.exit (-1)))
    else none
  | .idle => if s.tick0 = none then some { s with ticks := s.ticks + 1 } else none

/-- The state after an action, or `none` where it is not enabled. -/
def step (s : State K) (a : Act K) : Option (State K) := if s.astray then none else act s a

/-- The actions, with what each finds and does. -/
inductive ActStep (s : State K) : Act K → State K → Prop
  | sched (p : Slot) (hrun : (s.proc p).state = .runnable) :
      ActStep s (.sched p) (s.setTable (switchTo s.proc p))
  | call (p : Slot) (c : Call K) (hrun : (s.proc p).state = .running) (huser : s.pc p = .user) :
      ActStep s (.call p c) (s.setPc p (if (s.proc p).killed then .exit (-1) else c.entry))
  | exec (p : Slot) (ok : Bool) (s' : State K) (hrun : (s.proc p).state = .running)
      (h : exec s p ok = some s') : ActStep s (.exec p ok) s'
  | timer (p : Slot) (cpu0 : Bool) (hrun : (s.proc p).state = .running)
      (hspin : (s.pc p).spinning = none) (htrap : (s.pc p).trapped = false)
      (htick : cpu0 = true → s.tick0 = none) :
      ActStep s (.timer p cpu0) (timer s p cpu0)
  | fault (p : Slot) (hrun : (s.proc p).state = .running) (huser : s.pc p = .user) :
      ActStep s (.fault p) ((s.setProc p { s.proc p with killed := true }).setPc p (.exit (-1)))
  | idle (htick : s.tick0 = none) : ActStep s .idle { s with ticks := s.ticks + 1 }

/-- Every action does one of these. -/
theorem step_cases {s s' : State K} {a : Act K} (h : step s a = some s') : ActStep s a s' := by
  replace h := ((Option.ite_none_left_eq_some ..).mp h).2
  cases a <;> simp only [act, Option.ite_none_right_eq_some, Option.some.injEq] at h
  case sched p => exact h.2 ▸ .sched p h.1
  case call p c => exact h.2 ▸ .call p c h.1.1 h.1.2
  case exec p ok => exact .exec p ok s' h.1 h.2
  case timer p cpu0 => exact h.2 ▸ .timer p cpu0 h.1.1 h.1.2.1 h.1.2.2.1 h.1.2.2.2
  case fault p => exact h.2 ▸ .fault p h.1.1 h.1.2
  case idle => exact h.2 ▸ .idle h.1

/-- The steps by which no recovery goes astray. -/
def safeStep (s : State K) (a : Act K) : Option (State K) := (step s a).filter fun s' => !s'.astray

/-- What such a step is. -/
theorem safeStep_eq_some {s s' : State K} {a : Act K} :
    safeStep s a = some s' ↔ step s a = some s' ∧ s'.astray = false := by
  simp [safeStep, Option.filter_eq_some_iff]

end Step

end SustainableXv6
