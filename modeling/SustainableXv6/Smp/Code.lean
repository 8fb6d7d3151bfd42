import SustainableXv6.Rag.CheckDeadlock
import SustainableXv6.Sleeplock.Basic

/-!
# Kernel code as a sequence of memory accesses

The machine of `Smp.Current` interleaves the code of `kernel/proc.c` and `kernel/sleeplock.c` on
several processors. `Code` is what a process has still to execute: one instruction, and a
continuation that takes what the instruction has read. A part of the source that runs under a
process lock is one instruction (`region`), and so is one that ends in `sched` (`leave`). A read or
a write of a process that is made without its lock is an instruction of its own, and a read is used
for one field only. So the loops of `would_create_deadlock`, of `energy_aware_deadlock_recovery`,
and of `check_deadlock` are cut into their accesses here, with any number of steps of other
processors between two of them.

Each function of the source takes the code `k` that follows the call. The loop of `acquiresleep` has
no bound, and `again` goes back to its head.
-/

namespace SustainableXv6

/-- A store to a field of a process that is made without the lock of the process. -/
inductive Store (K : Type)
  /-- `p->state = st`. -/
  | state (st : ProcState)
  /-- `p->killed = 1`. -/
  | killed
  /-- `p->in_deadlock = b`. -/
  | inDeadlock (b : Bool)
  /-- `p->waiting_for_lock = l`. -/
  | waitingForLock (l : Option (Lock K))
  /-- `p->deadlock_reports++`. -/
  | report
  /-- The charge of `usertrap` for a tick. -/
  | charge

/-- What a process has still to execute. -/
inductive Code (K : Type)
  /-- The process is in user mode. -/
  | user
  /-- The head of the loop of `acquiresleep`. -/
  | again (l : Lock K)
  /-- `acquire(&lk->lk)`. -/
  | acquire (l : Lock K) (k : Code K)
  /-- `release(&lk->lk)`. -/
  | release (l : Lock K) (k : Code K)
  /-- A read of `lk->locked` or `lk->pid`. -/
  | readLock (l : Lock K) (k : SleepLock → Code K)
  /-- `lk->locked = locked; lk->pid = pid`, under `lk->lk`. -/
  | writeLock (l : Lock K) (locked : Bool) (pid : ℤ) (k : Code K)
  /-- A read of a field of the process `q`. -/
  | read (q : Slot) (k : Proc K → Code K)
  /-- A store to a field of the process `q`. -/
  | write (q : Slot) (w : Store K) (k : Code K)
  /-- A part under `q->lock`, which makes `f p` of the process `p` that it finds. -/
  | region (q : Slot) (f : Proc K → Proc K) (k : Proc K → Code K)
  /-- A part under the process's own lock that releases the lock `lk` and ends in `sched`. -/
  | leave (lk : Option (Lock K)) (f : Proc K → Proc K) (k : Code K)

variable {K : Type}

/-- The process after a store. -/
def Store.apply (p : Proc K) : Store K → Proc K
  | .state st => { p with state := st }
  | .killed => { p with killed := true }
  | .inDeadlock b => { p with in_deadlock := b }
  | .waitingForLock l => { p with waiting_for_lock := l }
  | .report => { p with deadlock_reports := p.deadlock_reports + 1 }
  | .charge => usertrapCharge p

namespace Code

/-! ## `kernel/proc.c` -/

/-- `yield`. -/
def yield (k : Code K) : Code K := .leave none (fun p => { p with state := .runnable }) k

/-- `sleep(chan, lk)` of the process `me`. The condition locks other than those of sleep locks are
left out. -/
def sleep (me : Slot) (chan : Chan K) (lk : Option (Lock K)) (k : Code K) : Code K :=
  .leave lk (fun p => { p with chan := some chan, state := .sleeping }) <|
    .region me (fun p => { p with chan := none }) fun _ =>
      match lk with
      | none => k
      | some l => .acquire l k

/-- The loop of `wakeup(chan)`, called by the process `me`. -/
def wakeup [DecidableEq K] (me : Slot) (chan : Chan K) : List Slot → Code K → Code K
  | [], k => k
  | q :: qs, k =>
    if q = me then wakeup me chan qs k
    else
      .region q (fun p => if p.state = .sleeping ∧ p.chan = some chan then
        { p with state := .runnable } else p) fun _ => wakeup me chan qs k

/-- The loop of `kkill(pid)`. -/
def kkill (pid : ℤ) : List Slot → Code K → Code K
  | [], k => k
  | q :: qs, k =>
    .region q (fun p => if p.pid = pid then
      { p with killed := true, state := p.state.wake } else p) fun p =>
        if p.pid = pid then k else kkill pid qs k

/-- The end of `kexit`. What comes before does not change the state of the process. -/
def exit : Code K := .leave none (fun p => { p with xstate := -1, state := .zombie }) .user

/-- The return of the process `me` to user mode, after a test of the kill flag. -/
def ret (me : Slot) : Code K := .region me id fun p => if p.killed then exit else .user

/-- The loop of `find_holder(res_id)`. -/
def findHolder (res_id : ℤ) : List Slot → (Option Slot → Code K) → Code K
  | [], k => k none
  | q :: qs, k =>
    .read q fun p => if p.state = .unused then findHolder res_id qs k
      else .read q fun p => if p.holds res_id then k (some q) else findHolder res_id qs k

/-- The `while` loop of `check_deadlock`, with the array `visited` and room for `room` more
processes in it. It goes on with `found` where it finds a cycle, and with `k` where it does not. -/
def followChain (found : List Slot → Code K) (k : Code K) :
    ℕ → List Slot → Option Slot → Code K
  | _, _, none => k
  | 0, visited, some cur =>
    .read cur fun p => if p.waiting_res < 0 then k
      else if visited.contains cur then found (visited.dropWhile (· ≠ cur)) else k
  | room + 1, visited, some cur =>
    .read cur fun p => if p.waiting_res < 0 then k
      else if visited.contains cur then found (visited.dropWhile (· ≠ cur))
      else .read cur fun p => findHolder p.waiting_res slots
        (followChain found k room (visited ++ [cur]))

/-- The loop of `check_deadlock` that picks the victim. -/
def pickVictim (k : Slot → Code K) : List Slot → Slot → UInt64 → Code K
  | [], victim, _ => k victim
  | d :: ds, victim, max_energy =>
    .read d fun p => if max_energy < p.energy_consumed then
        .read d fun p => pickVictim k ds d p.energy_consumed
      else pickVictim k ds victim max_energy

/-- `check_deadlock`, where it has found a cycle. -/
def foundDeadlock (k : Code K) : List Slot → Code K
  | [] => k
  | d :: ds =>
    .read d fun p => pickVictim (fun victim => .region victim Proc.ragKill fun _ => k) ds d
      p.energy_consumed

/-- The `for` loop of `check_deadlock`. -/
def checkDeadlock (k : Code K) : List Slot → Code K
  | [] => k
  | p :: ps =>
    .read p fun q => if q.state = .unused then checkDeadlock k ps
      else .read p fun q => if q.waiting_res < 0 then checkDeadlock k ps
        else followChain (foundDeadlock k) (checkDeadlock k ps) NPROC [] (some p)

/-! ## `kernel/sleeplock.c` -/

/-- The loop of `pid2proc(pid)`. -/
def pid2procLoop (pid : ℤ) (k : Option Slot → Code K) : List Slot → Code K
  | [] => k none
  | q :: qs =>
    .read q fun p => if p.pid = pid then
        .read q fun p => if p.state = .unused then pid2procLoop pid k qs else k (some q)
      else pid2procLoop pid k qs

/-- `pid2proc(pid)`. -/
def pid2proc (pid : ℤ) (k : Option Slot → Code K) : Code K :=
  if pid ≤ 0 then k none else pid2procLoop pid k slots

/-- The end of a round of the three walks: the pid of the next owner, or `none` where the walk
stops. -/
def nextOwner (owner : Slot) (k : Option ℤ → Code K) : Code K :=
  .read owner fun p =>
    match p.waiting_for_lock with
    | none => k none
    | some next_lock =>
      .readLock next_lock fun lk =>
        if lk.locked then .readLock next_lock fun lk => k (some lk.pid) else k none

/-- The loop of `would_create_deadlock` of the process `me`, with `NPROC - hops` rounds to go. -/
def wouldCreateDeadlock (me : Slot) (k : Bool → Code K) : ℕ → ℤ → Code K
  | 0, _ => k false
  | n + 1, owner_pid =>
    if owner_pid ≤ 0 then k false
    else pid2proc owner_pid fun owner =>
      match owner with
      | none => k false
      | some owner =>
        .read owner fun p => .read me fun current_proc =>
          if p.pid = current_proc.pid then k true
          else nextOwner owner fun next =>
            match next with
            | none => k false
            | some owner_pid => wouldCreateDeadlock me k n owner_pid

/-- The first loop of `energy_aware_deadlock_recovery`, which marks the processes of the cycle and
picks the victim. -/
def markCycle (start_pid : ℤ) (k : Slot → Code K) : ℕ → ℤ → Slot → UInt64 → Code K
  | 0, _, victim, _ => k victim
  | n + 1, owner_pid, victim, max_energy =>
    if owner_pid ≤ 0 ∨ owner_pid = start_pid then k victim
    else pid2proc owner_pid fun owner =>
      match owner with
      | none => k victim
      | some owner =>
        let goOn (victim : Slot) (max_energy : UInt64) : Code K :=
          nextOwner owner fun next =>
            match next with
            | none => k victim
            | some owner_pid => markCycle start_pid k n owner_pid victim max_energy
        .write owner (.inDeadlock true) <| .read owner fun p =>
          if max_energy < p.energy_consumed then .read owner fun p => goOn owner p.energy_consumed
          else goOn victim max_energy

/-- The second loop of `energy_aware_deadlock_recovery`, which removes the marks. -/
def unmarkCycle (start_pid : ℤ) (k : Code K) : ℕ → ℤ → Code K
  | 0, _ => k
  | n + 1, owner_pid =>
    if owner_pid ≤ 0 ∨ owner_pid = start_pid then k
    else pid2proc owner_pid fun owner =>
      match owner with
      | none => k
      | some owner =>
        .write owner (.inDeadlock false) <| nextOwner owner fun next =>
          match next with
          | none => k
          | some owner_pid => unmarkCycle start_pid k n owner_pid

/-- `energy_aware_deadlock_recovery` of the process `me`, for the lock `l`. The victim's lock is not
held: between the test of its state and the store, other processors may run it. -/
def recovery (me : Slot) (l : Lock K) (k : Code K) : Code K :=
  .read me fun p =>
    let start_pid := p.pid
    let unmark : Code K := .write me (.inDeadlock false) <| .readLock l fun lk =>
      unmarkCycle start_pid k NPROC lk.pid
    .write me (.inDeadlock true) <| .read me fun p => .readLock l fun lk =>
      markCycle start_pid (fun victim =>
        .write victim .killed <| .read victim fun p =>
          if p.state = .sleeping then .write victim (.state .runnable) unmark else unmark)
        NPROC lk.pid me p.energy_consumed

/-- The loop of `acquiresleep` of the process `me`, from its head on. -/
def acquiresleepLoop (me : Slot) (l : Lock K) : Code K :=
  .readLock l fun lk =>
    if lk.locked then
      .write me (.waitingForLock (some l)) <| .readLock l fun lk =>
        wouldCreateDeadlock me (fun cycle =>
          if cycle then .write me .report <| recovery me l <| sleep me (.lock l) (some l) (.again l)
          else sleep me (.lock l) (some l) (.again l)) NPROC lk.pid
    else
      .write me (.waitingForLock none) <| .read me fun p =>
        .writeLock l true p.pid <| .release l (ret me)

end Code

end SustainableXv6
