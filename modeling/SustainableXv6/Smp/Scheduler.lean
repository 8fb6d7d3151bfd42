import SustainableXv6.Lib.Transition
import SustainableXv6.Sched.Select

/-!
# `scheduler` on several processors

Every processor of a set `C` runs the loop of `scheduler` of `kernel/proc.c`. An `acquire` or a
`release` of a process lock is a step of its own, and so is each access to `timer_interval`, which
all processors share. `SchedPc` says where in the loop a processor is, with the values of the local
variables `p` and `chosen`. The tests of the passes are those of `chooseProc`; here the table may
change between two of them.

The code that a process executes in the kernel is left open. It may acquire and release one process
lock at a time, write anything to the table, be interrupted by the timer, and switch back to the
scheduler while it holds the lock of its own process, as `sched` requires.
-/

namespace SustainableXv6

open Function

/-! ## Constants -/

/-- The timer interval while a process runs, in cycles. -/
def FAST_INTERVAL : UInt64 := 1000000

/-- The timer interval while there is no process to run, in cycles. -/
def SLOW_INTERVAL : UInt64 := 10000000

/-! ## States -/

/-- The loops of `scheduler` over the table. -/
inductive Pass
  /-- The children of `schedtest` with good energy. -/
  | high
  /-- All children of `schedtest`. -/
  | low
  /-- The first runnable process. -/
  | first
  /-- The counts in `waiting_tick`. -/
  | count
  deriving DecidableEq, Repr

/-- Where `scheduler` is. -/
inductive SchedPc
  /-- At the top of the loop. -/
  | top
  /-- At the head of a pass that has the slots `rest` still to visit. -/
  | scan (w : Pass) (rest : List Slot) (chosen : Option Slot)
  /-- In a pass, after `acquire(&p->lock)`. -/
  | test (w : Pass) (p : Slot) (rest : List Slot) (chosen : Option Slot)
  /-- In one of the first two passes, at `release(&chosen->lock)`, before `chosen = p`. -/
  | swap (w : Pass) (p : Slot) (rest : List Slot) (chosen : Slot)
  /-- In a pass, at `release(&p->lock)`. -/
  | drop (w : Pass) (p : Slot) (rest : List Slot) (chosen : Option Slot)
  /-- At `if (timer_interval != 1000000)`. -/
  | busyTest (chosen : Slot)
  /-- At `timer_interval = 1000000`. -/
  | busyStore (chosen : Slot)
  /-- At `w_stimecmp(r_time() + timer_interval)` after it. -/
  | busyArm (chosen : Slot)
  /-- At `chosen->state = RUNNING`, and the switch. -/
  | switch (chosen : Slot)
  /-- At `c->proc = 0`. -/
  | back (chosen : Slot)
  /-- At `release(&chosen->lock)`. -/
  | unlock (chosen : Slot)
  /-- At `if (timer_interval == 1000000)`. -/
  | idleTest
  /-- At `timer_interval = 10000000`. -/
  | idleStore
  /-- At `w_stimecmp(r_time() + timer_interval)` after it. -/
  | idleArm
  /-- At `wfi`. -/
  | wfi
  deriving DecidableEq, Repr

/-- What a processor executes. -/
inductive CpuPc
  /-- `scheduler`. -/
  | sched (l : SchedPc)
  /-- The process `p`, which holds the process lock `held`, if any. -/
  | proc (p : Slot) (held : Option Slot)
  deriving DecidableEq, Repr

/-- The state of the processors `C`. -/
structure Cpus (C K : Type) where
  proc : Table K
  /-- The processor that holds `p->lock`. -/
  plock : Slot → Option C
  /-- `c->proc`. -/
  cpuproc : C → Option Slot
  pc : C → CpuPc
  timer_interval : UInt64
  time : UInt64
  stimecmp : C → UInt64

variable {C K : Type}

/-- Every processor is about to enter the loop of `scheduler`, with any processes in the table. -/
def Cpus.start (t : Table K) : Cpus C K where
  proc := t
  plock := fun _ => none
  cpuproc := fun _ => none
  pc := fun _ => .sched .top
  timer_interval := FAST_INTERVAL
  time := 0
  stimecmp := fun _ => FAST_INTERVAL

/-- The process locks that the scheduler holds at a place. -/
def SchedPc.locks : SchedPc → List Slot
  | .scan _ _ chosen => chosen.toList
  | .test _ p _ chosen | .drop _ p _ chosen => p :: chosen.toList
  | .swap _ p _ chosen => [p, chosen]
  | .busyTest chosen | .busyStore chosen | .busyArm chosen | .switch chosen | .back chosen
  | .unlock chosen => [chosen]
  | .top | .idleTest | .idleStore | .idleArm | .wfi => []

/-- The process locks that a processor holds at a place. -/
def CpuPc.locks : CpuPc → List Slot
  | .sched l => l.locks
  | .proc _ held => held.toList

/-- The test of a pass. -/
def Pass.test (t : Table K) (p : Slot) : Pass → Bool
  | .high => highTest t p
  | .low | .count => childTest t p
  | .first => (t p).state = .runnable

/-- Where `scheduler` goes at the end of a pass. -/
def Pass.end : Pass → Option Slot → SchedPc
  | .high, none => .scan .low slots none
  | .low, none => .scan .first slots none
  | .high, some q | .low, some q | .first, some q => .scan .count slots (some q)
  | .count, some q => .busyTest q
  | .first, none | .count, none => .idleTest

/-! ## Steps -/

section Step

variable [DecidableEq C]

namespace Cpus

/-- The processor `c` goes to another place. -/
@[simps -fullyApplied]
def setPc (s : Cpus C K) (c : C) (x : CpuPc) : Cpus C K :=
  { s with pc := update s.pc c x }

/-- `acquire(&p->lock)` by the processor `c`, where the lock is free. -/
@[simps -fullyApplied]
def acquire (s : Cpus C K) (c : C) (p : Slot) : Cpus C K :=
  { s with plock := update s.plock p (some c) }

/-- `release(&p->lock)`. -/
@[simps -fullyApplied]
def release (s : Cpus C K) (p : Slot) : Cpus C K :=
  { s with plock := update s.plock p none }

/-- `w_stimecmp(r_time() + timer_interval)` by the processor `c`. -/
@[simps -fullyApplied]
def arm (s : Cpus C K) (c : C) : Cpus C K :=
  { s with stimecmp := update s.stimecmp c (s.time + s.timer_interval) }

end Cpus

/-- The body of a pass at the process `p`, whose lock is held. -/
def execTest (s : Cpus C K) (c : C) (w : Pass) (p : Slot) (rest : List Slot)
    (chosen : Option Slot) : Cpus C K :=
  if w.test s.proc p then
    match w, chosen with
    | .count, _ =>
      { s.setPc c (.sched (.drop w p rest chosen)) with
        proc := update s.proc p
          { s.proc p with waiting_tick := (s.proc p).waiting_tick + 1 } }
    -- `break`, with the lock held.
    | .first, _ => s.setPc c (.sched (.scan w [] (some p)))
    -- `continue`, with the lock held.
    | .high, none | .low, none => s.setPc c (.sched (.scan w rest (some p)))
    | .high, some q | .low, some q =>
      s.setPc c (.sched (if (s.proc p).pid < (s.proc q).pid then .swap w p rest q
        else .drop w p rest chosen))
  else s.setPc c (.sched (.drop w p rest chosen))

/-- The next step of `scheduler` on the processor `c`, or `none` while it spins. -/
def execSched (s : Cpus C K) (c : C) : SchedPc → Option (Cpus C K)
  | .top => some (s.setPc c (.sched (.scan .high slots none)))
  | .scan w [] chosen => some (s.setPc c (.sched (w.end chosen)))
  | .scan w (p :: rest) chosen =>
    -- `if(p == chosen) continue`
    if w = .count ∧ chosen = some p then some (s.setPc c (.sched (.scan w rest chosen)))
    else if s.plock p = none then
      some ((s.acquire c p).setPc c (.sched (.test w p rest chosen)))
    else none
  | .test w p rest chosen => some (execTest s c w p rest chosen)
  | .swap w p rest chosen =>
    some ((s.release chosen).setPc c (.sched (.scan w rest (some p))))
  | .drop w p rest chosen => some ((s.release p).setPc c (.sched (.scan w rest chosen)))
  | .busyTest chosen =>
    some (s.setPc c (.sched
      (if s.timer_interval = FAST_INTERVAL then .switch chosen else .busyStore chosen)))
  | .busyStore chosen =>
    some { s.setPc c (.sched (.busyArm chosen)) with timer_interval := FAST_INTERVAL }
  | .busyArm chosen => some ((s.arm c).setPc c (.sched (.switch chosen)))
  | .switch chosen =>
    some { s.setPc c (.proc chosen (some chosen)) with
      proc := update s.proc chosen
        { s.proc chosen with state := .running, last_scheduled_tick := 0 }
      cpuproc := update s.cpuproc c (some chosen) }
  | .back chosen =>
    some { s.setPc c (.sched (.unlock chosen)) with cpuproc := update s.cpuproc c none }
  | .unlock chosen => some ((s.release chosen).setPc c (.sched .top))
  | .idleTest =>
    some (s.setPc c (.sched (if s.timer_interval = FAST_INTERVAL then .idleStore else .wfi)))
  | .idleStore => some { s.setPc c (.sched .idleArm) with timer_interval := SLOW_INTERVAL }
  | .idleArm => some ((s.arm c).setPc c (.sched .wfi))
  | .wfi => some (s.setPc c (.sched .top))

/-- The actions of the processors. -/
inductive CpuAct (C K : Type)
  /-- The next step of `scheduler` on a processor. -/
  | sched (c : C)
  /-- The process on a processor acquires a process lock. -/
  | lock (c : C) (q : Slot)
  /-- The process on a processor releases the process lock that it holds. -/
  | unlock (c : C)
  /-- The process on a processor writes to the table. -/
  | write (c : C) (t : Table K)
  /-- The process on a processor calls `sched`. -/
  | leave (c : C)
  /-- The timer interrupts a processor: the last statement of `clockintr`. -/
  | timer (c : C)
  /-- The time passes. -/
  | time (cycles : UInt64)

/-- The state after an action, or `none` where it is not enabled. -/
def cpuStep (s : Cpus C K) : CpuAct C K → Option (Cpus C K)
  | .sched c =>
    match s.pc c with
    | .sched l => execSched s c l
    | .proc _ _ => none
  | .lock c q =>
    match s.pc c with
    | .proc p none =>
      if s.plock q = none then some ((s.acquire c q).setPc c (.proc p (some q))) else none
    | .proc _ (some _) | .sched _ => none
  | .unlock c =>
    match s.pc c with
    | .proc p (some q) => some ((s.release q).setPc c (.proc p none))
    | .proc _ none | .sched _ => none
  | .write c t =>
    match s.pc c with
    | .proc _ _ => some { s with proc := t }
    | .sched _ => none
  | .leave c =>
    match s.pc c with
    | .proc p (some q) => if q = p then some (s.setPc c (.sched (.back p))) else none
    | .proc _ none | .sched _ => none
  -- Interrupts are off while a lock is held.
  | .timer c => if (s.pc c).locks = [] then some (s.arm c) else none
  | .time cycles => some { s with time := s.time + cycles }

end Step

end SustainableXv6
