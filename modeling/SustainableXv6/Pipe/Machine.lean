import SustainableXv6.Lib.Transition
import SustainableXv6.Pipe.Model
import SustainableXv6.Sleeplock.Basic

/-!
# Processes that share a pipe

Any number of processes share the two ends of a pipe, which `fork` and `dup` hand on, and run
`pipewrite`, `piperead`, and `pipeclose` in any interleaving. The steps of `peterson_acquire` and
`peterson_release` are single stores and tests, the steps of `sleep` are those of `kernel/proc.c`,
and `wakeup` takes the process locks of the others. The end of id 0 is the write end, and that of id
1 the read end.

`pipewrite` and `piperead` call `sleep` with no spinlock. `release(0)` then reads `lk->locked` at
the address 0, which the kernel does not map, and the trap ends in `panic`.
-/

namespace SustainableXv6

open Function Lib

variable {P : Type}

/-- A pipe and the processes that share it. -/
structure PipeState (P : Type) where
  pipe : Pipe
  pc : P → PipePc
  killed : P → Bool
  /-- The number of descriptors of a process for an end. -/
  fd : P → Fin 2 → ℕ
  /-- `f->ref` of the two files of the pipe. -/
  ref : Fin 2 → ℕ

/-- `sys_pipe` of the process `p`. -/
def pipeInit [DecidableEq P] (data : Fin PIPESIZE → UInt8) (p : P) : PipeState P where
  pipe := pipealloc data
  pc := fun _ => .out 0
  killed := fun _ => false
  fd := fun q _ => if q = p then 1 else 0
  ref := fun _ => 1

/-- The actions. -/
inductive PipeAct (P : Type)
  /-- The process `p` forks the process `q`. -/
  | fork (p q : P)
  /-- A descriptor is duplicated. -/
  | dup (p : P) (e : Fin 2)
  /-- A process makes a call on the pipe. -/
  | call (p : P) (c : PipeSyscall)
  /-- A process takes its next step, where `mem` is what its memory has for `copyin` or `copyout`.
  -/
  | exec (p : P) (mem : Option UInt8)
  /-- A process is killed. -/
  | kill (p : P)

/-- The places at which a process holds its own `p->lock`. -/
def PipePc.holdsProcLock : PipePc → Bool
  | .sleepRelease _ _ | .sleepSet _ _ | .panicked => true
  | _ => false

/-- A process that sleeps on `chan` is woken. -/
def PipePc.wake (chan : PipeChan) : PipePc → PipePc
  | .asleep c k => if c = chan then .woken k else .asleep c k
  | c => c

/-- A process that is killed is woken if it sleeps. -/
def PipePc.kill : PipePc → PipePc
  | .asleep _ k => .woken k
  | c => c

/-- The spinlock that `pipewrite` and `piperead` pass to `sleep`: 0. -/
def sleepLk : Option Spinlock := none

/-- Where a process goes on after `peterson_release`. -/
def After.next : After → PipePc
  | .ret result => .out result
  | .sleep chan k => .sleepAcquire chan k
  | .free => .out 0

namespace PipeState

variable [DecidableEq P]

/-- The process `p` goes to another place. -/
@[simps]
def setPc (s : PipeState P) (p : P) (c : PipePc) : PipeState P :=
  { s with pc := update s.pc p c }

/-- The steps of `peterson_acquire` and `peterson_release`, or `none` at other places. -/
def petersonStep (s : PipeState P) (p : P) : Option (PipeState P) :=
  match s.pc p with
  | .setFlag k => some
      { s.setPc p (.setTurn k) with
        pipe := { s.pipe with flag := update s.pipe.flag k.id true } }
  | .setTurn k => some
      { s.setPc p (.testFlag k) with pipe := { s.pipe with turn := other k.id } }
  | .testFlag k =>
    some (s.setPc p (if s.pipe.flag (other k.id) then .testTurn k else k.body))
  | .testTurn k =>
    some (s.setPc p (if s.pipe.turn = other k.id then .testFlag k else k.body))
  | .release id a => some
      { s.setPc p a.next with
        pipe := { s.pipe with flag := update s.pipe.flag id false } }
  | _ => none

/-- The steps of `sleep`, or `none` at other places and while the process sleeps. -/
def sleepStep (s : PipeState P) (p : P) : Option (PipeState P) :=
  match s.pc p with
  | .sleepAcquire chan k => some (s.setPc p (.sleepRelease chan k))
  -- `release(lk)`, where `holding(lk)` reads `lk->locked`
  | .sleepRelease chan k =>
    match sleepLk with
    | none => some (s.setPc p .panicked)
    | some _ => some (s.setPc p (.sleepSet chan k))
  | .sleepSet chan k => some (s.setPc p (.asleep chan k))
  -- `acquire(lk)`, where `holding(lk)` reads it again
  | .woken k =>
    match sleepLk with
    | none => some (s.setPc p .panicked)
    | some _ => some (s.setPc p (.setFlag k))
  | _ => none

/-- `wakeup` of the process `p`, if it wakes anyone. It takes the process locks of the others. -/
def wakeup [Fintype P] (s : PipeState P) (p : P) : Option PipeChan → Option (PipeState P)
  | none => some s
  | some chan =>
    if ∀ q ≠ p, (s.pc q).holdsProcLock = false then
      some { s with pc := fun q => if q = p then s.pc q else (s.pc q).wake chan }
    else none

/-- The next step of the process `p`, or `none` while it waits or spins in `panic`. -/
def exec [Fintype P] (s : PipeState P) (p : P) (mem : Option UInt8) : Option (PipeState P) :=
  match bodyStep s.pipe (s.killed p) mem (s.pc p) with
  | some b => { s.setPc p b.pc with pipe := b.pipe }.wakeup p b.wake
  | none => (s.petersonStep p).or (s.sleepStep p)

/-- A call of the process `p`: `filewrite`, `fileread`, and `fileclose`. The last `fileclose` of an
end calls `pipeclose`. -/
def call (s : PipeState P) (p : P) (c : PipeSyscall) : Option (PipeState P) :=
  let e := c.entry.id
  if 0 < s.fd p e then
    match c with
    | .write _ | .read _ => some (s.setPc p (.setFlag c.entry))
    | .close _ =>
      -- `--f->ref > 0` returns, and else the pipe is closed.
      some
        { s.setPc p (if s.ref e = 1 then .setFlag c.entry else .out 0) with
          fd := update s.fd p (update (s.fd p) e (s.fd p e - 1))
          ref := update s.ref e (s.ref e - 1) }
  else none

end PipeState

/-- The state after an action, or `none` where it is not enabled. -/
def pipeStep [DecidableEq P] [Fintype P] (s : PipeState P) : PipeAct P → Option (PipeState P)
  | .fork p q =>
    match s.pc p, s.pc q with
    | .out _, .out _ =>
      if p ≠ q ∧ ∀ e, s.fd q e = 0 then
        some
          { s with
            fd := update s.fd q (s.fd p)
            ref := fun e => s.ref e + s.fd p e
            killed := update s.killed q false }
      else none
    | _, _ => none
  | .dup p e =>
    match s.pc p with
    | .out _ =>
      if 0 < s.fd p e then
        some
          { s with
            fd := update s.fd p (update (s.fd p) e (s.fd p e + 1))
            ref := update s.ref e (s.ref e + 1) }
      else none
    | _ => none
  | .call p c =>
    match s.pc p with
    | .out _ => s.call p c
    | _ => none
  | .exec p mem => s.exec p mem
  | .kill p =>
    if (s.pc p).holdsProcLock then none
    else some
      { s.setPc p (s.pc p).kill with killed := update s.killed p true }

/-! ## What an action does to the pipe and to the places of the processes -/

/-- A `wakeup` leaves the pipe alone, and wakes sleepers at most. -/
theorem PipeState.wakeup_pc [DecidableEq P] [Fintype P] {s s' : PipeState P} {p : P}
    {wake : Option PipeChan} (h : s.wakeup p wake = some s') :
    s'.pipe = s.pipe ∧ ∀ q, s'.pc q = s.pc q ∨ ∃ chan, s'.pc q = (s.pc q).wake chan := by
  cases wake with
  | none =>
    simp only [PipeState.wakeup, Option.some.injEq] at h
    subst h
    exact ⟨rfl, fun q => .inl rfl⟩
  | some chan =>
    simp only [PipeState.wakeup, Option.ite_none_right_eq_some, Option.some.injEq] at h
    obtain ⟨-, rfl⟩ := h
    refine ⟨rfl, fun q => ?_⟩
    dsimp only
    split_ifs
    · exact .inl rfl
    · exact .inr ⟨chan, rfl⟩

/-- The cases of an action. -/
inductive PipeMove [DecidableEq P] [Fintype P] (s : PipeState P) (a : PipeAct P)
    (s' : PipeState P) : Prop
  /-- Descriptors are handed on. -/
  | stay (ha : ∀ p mem, a ≠ .exec p mem) (hpipe : s'.pipe = s.pipe) (hpc : s'.pc = s.pc)
  /-- A call enters `peterson_acquire`, or returns at once. -/
  | call (ha : ∀ p mem, a ≠ .exec p mem) (p : P) (r : ℤ) (c : PipePc) (hout : s.pc p = .out r)
      (hc : c = .out 0 ∨ ∃ k, c = .setFlag k) (hpipe : s'.pipe = s.pipe)
      (hpc : s'.pc = (s.setPc p c).pc)
  /-- A process is killed. -/
  | kill (ha : ∀ p mem, a ≠ .exec p mem) (p : P) (hpipe : s'.pipe = s.pipe)
      (hpc : s'.pc = (s.setPc p (s.pc p).kill).pc)
  /-- A step under the lock. -/
  | body (p : P) (mem : Option UInt8) (b : BodyStep) (ha : a = .exec p mem)
      (hb : bodyStep s.pipe (s.killed p) mem (s.pc p) = some b)
      (hwake : { s.setPc p b.pc with pipe := b.pipe }.wakeup p b.wake = some s')
  /-- A step of the lock. -/
  | peterson (p : P) (mem : Option UInt8) (ha : a = .exec p mem)
      (hb : bodyStep s.pipe (s.killed p) mem (s.pc p) = none) (h : s.petersonStep p = some s')
  /-- A step of `sleep`. -/
  | sleep (p : P) (mem : Option UInt8) (ha : a = .exec p mem)
      (hb : bodyStep s.pipe (s.killed p) mem (s.pc p) = none) (h : s.sleepStep p = some s')

/-- Every action is one of these. -/
theorem pipeStep_move [DecidableEq P] [Fintype P] {s s' : PipeState P} {a : PipeAct P}
    (h : pipeStep s a = some s') : PipeMove s a s' := by
  cases a with
  | fork p q | dup p e =>
    simp only [pipeStep] at h
    split at h
    · simp only [Option.ite_none_right_eq_some, Option.some.injEq] at h
      obtain ⟨-, rfl⟩ := h
      exact .stay (by simp) rfl rfl
    · cases h
  | call p c =>
    simp only [pipeStep] at h
    split at h
    · rename_i r hout
      simp only [PipeState.call, Option.ite_none_right_eq_some] at h
      obtain ⟨-, h⟩ := h
      cases c with
      | write n | read n =>
        cases h
        exact .call (by simp) p r _ hout (.inr ⟨_, rfl⟩) rfl rfl
      | close writable =>
        -- The last `fileclose` of an end enters `pipeclose`.
        cases h
        refine .call (by simp) p r _ hout ?_ rfl rfl
        split_ifs
        · exact .inr ⟨_, rfl⟩
        · exact .inl rfl
    · cases h
  | exec p mem =>
    simp only [pipeStep, PipeState.exec] at h
    split at h
    · rename_i b hb
      exact .body p mem b rfl hb h
    · rename_i hb
      rcases Option.or_eq_some_iff.mp h with h | ⟨-, h⟩
      · exact .peterson p mem rfl hb h
      · exact .sleep p mem rfl hb h
  | kill p =>
    simp only [pipeStep, Option.ite_none_left_eq_some, Option.some.injEq] at h
    obtain ⟨-, rfl⟩ := h
    exact .kill (by simp) p rfl rfl

end SustainableXv6
