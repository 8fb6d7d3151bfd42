import SustainableXv6.Lib.Transition
import SustainableXv6.Proc.Ops
import SustainableXv6.Rag.CheckDeadlock

/-!
# Processes that fork, exit, wait, and kill

`kfork`, `kexit` with `reparent`, `kwait`, and `kkill` of `kernel/proc.c`, and the stores of the two
deadlock recoveries. Any number of processors run the processes of the table. A part of the source
under one process lock is one step: a round of the scans of `allocproc`, `wakeup`, `kwait`, and
`kkill`, for instance. `wait_lock`, which is held over many such parts, has a holder. A round of the
loop of `reparent` is a step of its own.

A recovery looks at the processes without their locks and stores to its victim later, so that the
choice and the stores are different steps. Which process is chosen is left open here: any one that
is in use when it is looked at. A step that stores to the victim records which pid it was chosen
under, and the code never looks at this.

The fields `exits` and `reaps` are history.
-/

namespace SustainableXv6.Family

open Function

variable {C K F D : Type}

/-- `NOFILE`: open files per process. -/
def NOFILE : ℕ := 16

/-! ## States -/

/-- Where a process is. -/
inductive Code (K : Type)
  /-- In user mode. -/
  | user
  /-- Back in `usertrap` with the result of a system call, at the test of the kill flag. -/
  | ret (value : ℤ)
  /-- In `allocproc` called by `kfork`, with the slots `rest` still to visit. -/
  | forkScan (rest : List Slot)
  /-- In `kfork`, at `np->parent = p`, under `wait_lock`. -/
  | forkParent (np : Slot) (pid : ℤ)
  /-- In `kfork`, at `np->state = RUNNABLE`, under `np->lock`. -/
  | forkRun (np : Slot) (pid : ℤ)
  /-- At the start of `kexit`. -/
  | exitFiles (status : ℤ)
  /-- In `kexit`, at `acquire(&wait_lock)`. -/
  | exitWait (status : ℤ)
  /-- In `reparent`, with the slots `rest` still to visit. -/
  | exitReparent (status : ℤ) (rest : List Slot)
  /-- In `wakeup(initproc)` called by `reparent`. -/
  | exitInit (status : ℤ) (wake rest : List Slot)
  /-- In `wakeup(p->parent)` called by `kexit`. -/
  | exitWake (status : ℤ) (parent : Option Slot) (wake : List Slot)
  /-- In `kexit`, at `acquire(&p->lock)`. -/
  | exitZombie (status : ℤ)
  /-- After `kexit`. -/
  | dead
  /-- In `kwait`, at `acquire(&wait_lock)`. -/
  | waitLock (addr : UInt64)
  /-- In the scan of `kwait`. -/
  | waitScan (addr : UInt64) (rest : List Slot) (havekids : Bool)
  /-- In `kwait`, at `killed(p)`. -/
  | waitKilled (addr : UInt64)
  /-- In `kwait`, at `sleep(p, &wait_lock)`. -/
  | waitSleep (addr : UInt64)
  /-- In `sleep` called by `kwait`, after `sched`. -/
  | waitWoken (addr : UInt64)
  /-- In `kwait`, at the last `release(&wait_lock)`. -/
  | waitDone (value : ℤ)
  /-- In `kkill`, with the slots `rest` still to visit. -/
  | killScan (pid : ℤ) (rest : List Slot)
  /-- At `sleep` called from elsewhere. -/
  | sleep (chan : Chan K)
  /-- In that `sleep`, after `sched`. -/
  | woken
  /-- In `wakeup` called from elsewhere. -/
  | wakeup (chan : Chan K) (rest : List Slot)
  /-- In `check_deadlock`, at `acquire(&victim->lock)`. -/
  | checkKill (victim : Slot) (pid : ℤ)
  /-- In `energy_aware_deadlock_recovery`, at `victim->killed = 1`. -/
  | recoverKill (victim : Slot) (pid : ℤ)
  /-- In `energy_aware_deadlock_recovery`, at `if(victim->state == SLEEPING)`. -/
  | recoverTest (victim : Slot) (pid : ℤ)
  /-- In `energy_aware_deadlock_recovery`, at `victim->state = RUNNABLE`. -/
  | recoverState (victim : Slot) (pid : ℤ)
  /-- In `panic`. -/
  | panicked
  deriving DecidableEq

/-- A process that has exited. -/
structure Exit where
  pid : ℤ
  status : ℤ
  deriving DecidableEq

/-- A successful `kwait`: who made it, and the pid and the exit status that it delivered. The status
is delivered if there is an address for it. -/
structure Reap where
  parent : Slot
  pid : ℤ
  status : Option ℤ
  deriving DecidableEq

/-- The processes, with open files `F` and directories `D`, on processors `C`. -/
structure State (C K F D : Type) where
  proc : Table K
  ofile : Slot → Fin NOFILE → Option F
  cwd : Slot → Option D
  /-- An `int`, which is not bounded here. -/
  nextpid : ℤ
  /-- The holder of `wait_lock`. -/
  wait_lock : Option Slot
  /-- `c->proc`. -/
  cpuproc : C → Option Slot
  code : Slot → Code K
  exits : List Exit
  reaps : List Reap

/-- The state after `userinit`. -/
def boot (root : D) : State C K F D where
  proc := update (fun _ => .zero) initproc { Proc.zero.alloc 1 with state := .runnable }
  ofile := fun _ _ => none
  cwd := update (fun _ => none) initproc (some root)
  nextpid := 2
  wait_lock := none
  cpuproc := fun _ => none
  code := fun _ => .user
  exits := []
  reaps := []

/-- The system calls, and other reasons to be in the kernel. -/
inductive Call (K : Type)
  | fork
  | exit (status : ℤ)
  | wait (addr : UInt64)
  | kill (pid : ℤ)
  | sleep (chan : Chan K)
  | wakeup (chan : Chan K)
  /-- `check_deadlock`, which chooses a victim. -/
  | checkDeadlock (victim : Slot)
  /-- `acquiresleep`, which finds a cycle and chooses a victim. -/
  | recovery (victim : Slot)

/-- The actions. -/
inductive Act (C K F D : Type)
  /-- `scheduler` of a processor switches to a process. -/
  | sched (c : C) (p : Slot)
  /-- The process on a processor makes a call. -/
  | call (c : C) (a : Call K)
  /-- The next step of the process on a processor. `ok` says whether memory can be allocated and the
  exit status can be copied. -/
  | exec (c : C) (ok : Bool)
  /-- The process on a processor opens and closes files, and changes its directory. -/
  | files (c : C) (ofile : Fin NOFILE → Option F) (cwd : D)
  /-- The timer interrupts the process on a processor. -/
  | yield (c : C)
  /-- The process on a processor faults: `setkilled(p)`. -/
  | fault (c : C)

namespace State

/-- The process `p` goes to another place. -/
@[simps -fullyApplied]
def goto (s : State C K F D) (p : Slot) (x : Code K) : State C K F D :=
  { s with code := update s.code p x }

/-- An update of one slot of the table. -/
@[simps -fullyApplied]
def setProc (s : State C K F D) (q : Slot) (r : Proc K) : State C K F D :=
  { s with proc := update s.proc q r }

/-- An update of `wait_lock`. -/
@[simps -fullyApplied]
def setLock (s : State C K F D) (l : Option Slot) : State C K F D := { s with wait_lock := l }

/-- The processor `c` runs no process. -/
@[simps -fullyApplied]
def leave [DecidableEq C] (s : State C K F D) (c : C) : State C K F D :=
  { s with cpuproc := update s.cpuproc c none }

end State

/-! ## Steps -/

/-- A round of `wakeup(chan)`, where `chan` may be 0. -/
def wake [DecidableEq K] (chan : Option (Chan K)) (r : Proc K) : Proc K :=
  if r.state = .sleeping ∧ r.chan = chan then { r with state := .runnable } else r

/-- A round of `wakeup(chan)` of the process `p` at the slot `q`, which goes on at `x`. -/
def execWake [DecidableEq K] (s : State C K F D) (p q : Slot) (chan : Option (Chan K))
    (x : Code K) : State C K F D :=
  if q = p then s.goto p x else (s.setProc q (wake chan (s.proc q))).goto p x

/-- A process is killed, and woken if it sleeps. -/
def kill (r : Proc K) : Proc K := { r with killed := true, state := r.state.wake }

/-- The files of a child: `np->ofile[i] = filedup(p->ofile[i])` where there is one. -/
def dupFiles (parent child : Fin NOFILE → Option F) : Fin NOFILE → Option F := fun i =>
  match parent i with
  | some f => some f
  | none => child i

/-- `kfork` of the process `p` where `allocproc` has found the slot `np`, up to the release of
`np->lock`. If there is no memory, the slot is freed again. -/
def execFork (s : State C K F D) (p np : Slot) (ok : Bool) : State C K F D :=
  let r := (s.proc np).alloc s.nextpid
  if ok then
    { ((s.setProc np { r with name := (s.proc p).name }).goto np .user).goto p
        (.forkParent np s.nextpid) with
      nextpid := s.nextpid + 1
      ofile := update s.ofile np (dupFiles (s.ofile p) (s.ofile np))
      cwd := update s.cwd np (s.cwd p) }
  else { (s.setProc np (freeproc r)).goto p (.ret (-1)) with nextpid := s.nextpid + 1 }

/-- `kwait` of the process `p` at its child `pp`. -/
def execChild (s : State C K F D) (p pp : Slot) (addr : UInt64) (rest : List Slot) (ok : Bool) :
    State C K F D :=
  if (s.proc pp).state = .zombie then
    if addr ≠ 0 ∧ !ok then s.goto p (.waitDone (-1))
    else
      { (s.setProc pp (freeproc (s.proc pp))).goto p (.waitDone (s.proc pp).pid) with
        reaps := s.reaps ++ [⟨p, (s.proc pp).pid,
          if addr ≠ 0 then some (s.proc pp).xstate else none⟩] }
  else s.goto p (.waitScan addr rest true)

variable [DecidableEq C] [DecidableEq K]

/-- The next step of the process `p` on the processor `c`, or `none` while it spins. -/
def exec (s : State C K F D) (c : C) (p : Slot) (ok : Bool) : Code K → Option (State C K F D)
  | .user | .dead | .panicked => none
  | .ret _ => some (s.goto p (if (s.proc p).killed then .exitFiles (-1) else .user))
  | .forkScan [] => some (s.goto p (.ret (-1)))
  | .forkScan (q :: rest) =>
    if (s.proc q).state = .unused then some (execFork s p q ok)
    else some (s.goto p (.forkScan rest))
  | .forkParent np pid =>
    if s.wait_lock = none then
      some ((s.setProc np { s.proc np with parent := some p }).goto p (.forkRun np pid))
    else none
  | .forkRun np pid =>
    some ((s.setProc np { s.proc np with state := .runnable }).goto p (.ret pid))
  | .exitFiles status =>
    if p = initproc then some (s.goto p .panicked)
    else
      some { s.goto p (.exitWait status) with
        ofile := update s.ofile p fun _ => none
        cwd := update s.cwd p none }
  | .exitWait status =>
    if s.wait_lock = none then some ((s.setLock (some p)).goto p (.exitReparent status slots))
    else none
  | .exitReparent status [] => some (s.goto p (.exitWake status (s.proc p).parent slots))
  | .exitReparent status (q :: rest) =>
    if (s.proc q).parent = some p then
      some ((s.setProc q { s.proc q with parent := some initproc }).goto p
        (.exitInit status slots rest))
    else some (s.goto p (.exitReparent status rest))
  | .exitInit status [] rest => some (s.goto p (.exitReparent status rest))
  | .exitInit status (q :: wake) rest =>
    some (execWake s p q (some (.proc initproc)) (.exitInit status wake rest))
  | .exitWake status _ [] => some (s.goto p (.exitZombie status))
  | .exitWake status parent (q :: wake) =>
    some (execWake s p q (parent.map .proc) (.exitWake status parent wake))
  | .exitZombie status =>
    let t := (s.setProc p { s.proc p with xstate := status, state := .zombie }).goto p .dead
    some { (t.setLock none).leave c with exits := s.exits ++ [⟨(s.proc p).pid, status⟩] }
  | .waitLock addr =>
    if s.wait_lock = none then some ((s.setLock (some p)).goto p (.waitScan addr slots false))
    else none
  | .waitScan addr [] havekids =>
    some (s.goto p (if havekids then .waitKilled addr else .waitDone (-1)))
  | .waitScan addr (q :: rest) havekids =>
    if (s.proc q).parent = some p then some (execChild s p q addr rest ok)
    else some (s.goto p (.waitScan addr rest havekids))
  | .waitKilled addr =>
    some (s.goto p (if (s.proc p).killed then .waitDone (-1) else .waitSleep addr))
  | .waitSleep addr =>
    some ((((s.setProc p { s.proc p with chan := some (.proc p), state := .sleeping }).goto p
      (.waitWoken addr)).setLock none).leave c)
  | .waitWoken addr => some ((s.setProc p { s.proc p with chan := none }).goto p (.waitLock addr))
  | .waitDone value => some ((s.setLock none).goto p (.ret value))
  | .killScan _ [] => some (s.goto p (.ret (-1)))
  | .killScan pid (q :: rest) =>
    if (s.proc q).pid = pid then some ((s.setProc q (kill (s.proc q))).goto p (.ret 0))
    else some (s.goto p (.killScan pid rest))
  | .sleep chan =>
    some (((s.setProc p { s.proc p with chan := some chan, state := .sleeping }).goto p
      .woken).leave c)
  | .woken => some ((s.setProc p { s.proc p with chan := none }).goto p (.ret 0))
  | .wakeup _ [] => some (s.goto p (.ret 0))
  | .wakeup chan (q :: rest) => some (execWake s p q (some chan) (.wakeup chan rest))
  | .checkKill q _ => some ((s.setProc q (s.proc q).ragKill).goto p (.ret 0))
  | .recoverKill q pid =>
    some ((s.setProc q { s.proc q with killed := true }).goto p (.recoverTest q pid))
  | .recoverTest q pid =>
    some (s.goto p (if (s.proc q).state = .sleeping then .recoverState q pid else .ret 0))
  | .recoverState q _ =>
    some ((s.setProc q { s.proc q with state := .runnable }).goto p (.ret 0))

/-- Where a call of the process `p` starts. -/
def Call.entry (s : State C K F D) : Call K → Option (Code K)
  | .fork => some (.forkScan slots)
  | .exit status => some (.exitFiles status)
  | .wait addr => some (.waitLock addr)
  | .kill pid => some (.killScan pid slots)
  | .sleep chan => some (.sleep chan)
  | .wakeup chan => some (.wakeup chan slots)
  | .checkDeadlock victim =>
    if (s.proc victim).state ≠ .unused then some (.checkKill victim (s.proc victim).pid) else none
  | .recovery victim =>
    if (s.proc victim).state ≠ .unused then some (.recoverKill victim (s.proc victim).pid) else none

/-- The state after an action, or `none` where it is not enabled. -/
def step (s : State C K F D) : Act C K F D → Option (State C K F D)
  | .sched c p =>
    if s.cpuproc c = none ∧ (s.proc p).state = .runnable then
      some { s with
        proc := switchTo s.proc p
        cpuproc := update s.cpuproc c (some p) }
    else none
  | .exec c ok => do
    let p ← s.cpuproc c
    exec s c p ok (s.code p)
  | .call c a => do
    let p ← s.cpuproc c
    if s.code p = .user then (a.entry s).map (s.goto p) else none
  | .files c ofile cwd => do
    let p ← s.cpuproc c
    if s.code p = .user then
      some { s with
        ofile := update s.ofile p ofile
        cwd := update s.cwd p (some cwd) }
    else none
  -- Interrupts are off while `wait_lock` is held.
  | .yield c => do
    let p ← s.cpuproc c
    if s.wait_lock ≠ some p then
      some ((s.setProc p { s.proc p with state := .runnable }).leave c)
    else none
  | .fault c => do
    let p ← s.cpuproc c
    if s.code p = .user then
      some ((s.setProc p { s.proc p with killed := true }).goto p (.ret 0))
    else none

/-- What an action does. -/
inductive Step (s : State C K F D) : Act C K F D → State C K F D → Prop
  | sched (c : C) (p : Slot) (hrunnable : (s.proc p).state = .runnable) :
      Step s (.sched c p) { s with
        proc := switchTo s.proc p
        cpuproc := update s.cpuproc c (some p) }
  | exec (c : C) (ok : Bool) (p : Slot) (s' : State C K F D) (hc : s.cpuproc c = some p)
      (hs : exec s c p ok (s.code p) = some s') : Step s (.exec c ok) s'
  | call (c : C) (a : Call K) (p : Slot) (x : Code K) (hc : s.cpuproc c = some p)
      (hcode : s.code p = .user) (hentry : a.entry s = some x) : Step s (.call c a) (s.goto p x)
  | files (c : C) (ofile : Fin NOFILE → Option F) (cwd : D) (p : Slot) (hc : s.cpuproc c = some p)
      (hcode : s.code p = .user) : Step s (.files c ofile cwd) { s with
        ofile := update s.ofile p ofile
        cwd := update s.cwd p (some cwd) }
  | yield (c : C) (p : Slot) (hc : s.cpuproc c = some p) :
      Step s (.yield c) ((s.setProc p { s.proc p with state := .runnable }).leave c)
  | fault (c : C) (p : Slot) (hc : s.cpuproc c = some p) (hcode : s.code p = .user) :
      Step s (.fault c) ((s.setProc p { s.proc p with killed := true }).goto p (.ret 0))

/-- Every action does one of these. -/
theorem step_cases {s s' : State C K F D} {a : Act C K F D} (hs : step s a = some s') :
    Step s a s' := by
  cases a <;> simp only [step, Option.bind_eq_bind, Option.bind_eq_some_iff,
    Option.ite_none_right_eq_some, Option.map_eq_some_iff, Option.some.injEq] at hs
  case sched c p =>
    obtain ⟨⟨-, hrunnable⟩, rfl⟩ := hs
    exact .sched c p hrunnable
  case call c a =>
    obtain ⟨p, hc, hcode, x, hentry, rfl⟩ := hs
    exact .call c a p x hc hcode hentry
  case exec c ok =>
    obtain ⟨p, hc, hs⟩ := hs
    exact .exec c ok p s' hc hs
  case files c ofile cwd =>
    obtain ⟨p, hc, hcode, rfl⟩ := hs
    exact .files c ofile cwd p hc hcode
  case yield c =>
    obtain ⟨p, hc, -, rfl⟩ := hs
    exact .yield c p hc
  case fault c =>
    obtain ⟨p, hc, hcode, rfl⟩ := hs
    exact .fault c p hc hcode

end SustainableXv6.Family
