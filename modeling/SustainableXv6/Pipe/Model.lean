import SustainableXv6.Lib.Peterson
import SustainableXv6.Lib.Ring

/-!
# Pipes

`struct pipe` of `kernel/pipe.c`, and `pipewrite`, `piperead`, and `pipeclose` cut into steps.
`PipePc` says where in them a process is. What they do between `peterson_acquire` and
`peterson_release` is `bodyStep`, one round of a loop or one statement at a time. The steps of the
lock and of `sleep` come with the machines that use `bodyStep`.

The memory of the process is outside of the model: whether `copyin` and `copyout` succeed for a
byte, and which byte `copyin` reads, is given with each step.
-/

namespace SustainableXv6

open Lib

/-- `PIPESIZE`. -/
def PIPESIZE : ℕ := 512

instance : NeZero PIPESIZE := ⟨by decide⟩

/-- A `uint` counter that wraps goes on at the same byte of the ring. -/
theorem PIPESIZE_dvd : PIPESIZE ∣ 2 ^ 32 := by decide

theorem PIPESIZE_lt : PIPESIZE < 2 ^ 32 := by decide

/-- `struct pipe`. The ring is `data`, `nread`, and `nwrite`. -/
structure Pipe extends Ring UInt8 PIPESIZE 32 where
  flag : Fin 2 → Bool
  turn : Fin 2
  readopen : Bool
  writeopen : Bool

/-- The pipe that `pipealloc` sets up, in a page of any contents. -/
def pipealloc (data : Fin PIPESIZE → UInt8) : Pipe where
  data := data
  nread := 0
  nwrite := 0
  flag := fun _ => false
  turn := 0
  readopen := true
  writeopen := true

/-! ## Places -/

/-- The channels of a pipe. -/
inductive PipeChan
  /-- `&pi->nread`, on which the reader sleeps. -/
  | nread
  /-- `&pi->nwrite`, on which the writer sleeps. -/
  | nwrite
  deriving DecidableEq, Repr

/-- What a process is about to do when it enters `peterson_acquire`. -/
inductive PipeCall
  /-- `pipewrite` of `n` bytes, of which `i` have been stored. -/
  | write (i : ℕ) (n : ℤ)
  /-- `piperead` of `n` bytes. -/
  | read (n : ℤ)
  /-- `pipeclose`. -/
  | close (writable : Bool)
  deriving DecidableEq, Repr

/-- The id with which a process calls `peterson_acquire` and `peterson_release`. -/
def PipeCall.id : PipeCall → Fin 2
  | .write _ _ => 0
  | .read _ => 1
  | .close writable => if writable then 0 else 1

/-- The calls on a pipe. -/
inductive PipeSyscall
  | write (n : ℤ)
  | read (n : ℤ)
  | close (writable : Bool)
  deriving DecidableEq, Repr

/-- Where a call starts. -/
def PipeSyscall.entry : PipeSyscall → PipeCall
  | .write n => .write 0 n
  | .read n => .read n
  | .close writable => .close writable

/-- What follows on `peterson_release`. -/
inductive After
  /-- The call returns. -/
  | ret (result : ℤ)
  /-- `sleep(chan, 0)`, and then the call goes on at `peterson_acquire`. -/
  | sleep (chan : PipeChan) (k : PipeCall)
  /-- `kfree`, and the call returns. -/
  | free
  deriving DecidableEq, Repr

/-- Where a process is. -/
inductive PipePc
  /-- Outside of the pipe code, with the result of its last call. -/
  | out (result : ℤ)
  /-- `peterson_acquire`, at `pi->flag[id] = 1`. -/
  | setFlag (k : PipeCall)
  /-- `peterson_acquire`, at `pi->turn = other`. -/
  | setTurn (k : PipeCall)
  /-- `peterson_acquire`, at the test of `pi->flag[other]`. -/
  | testFlag (k : PipeCall)
  /-- `peterson_acquire`, at the test of `pi->turn`. -/
  | testTurn (k : PipeCall)
  /-- `pipewrite`, at the loop. -/
  | write (i : ℕ) (n : ℤ)
  /-- `pipewrite`, at `wakeup(&pi->nread)`. -/
  | writeWake (a : After)
  /-- `piperead`, at the `while` loop. -/
  | read (n : ℤ)
  /-- `piperead`, at the `for` loop. -/
  | readCopy (i : ℕ) (n : ℤ)
  /-- `piperead`, at `wakeup(&pi->nwrite)`. -/
  | readWake (i : ℤ)
  /-- `pipeclose`, at `pi->writeopen = 0` or `pi->readopen = 0`. -/
  | close (writable : Bool)
  /-- `pipeclose`, at `wakeup`. -/
  | closeWake (writable : Bool)
  /-- `pipeclose`, at the test of `readopen` and `writeopen`. -/
  | closeTest (writable : Bool)
  /-- At `peterson_release`. -/
  | release (id : Fin 2) (a : After)
  /-- `sleep`, at `acquire(&p->lock)`. -/
  | sleepAcquire (chan : PipeChan) (k : PipeCall)
  /-- `sleep`, at `release(lk)`. -/
  | sleepRelease (chan : PipeChan) (k : PipeCall)
  /-- `sleep`, at `p->chan = chan; p->state = SLEEPING`. -/
  | sleepSet (chan : PipeChan) (k : PipeCall)
  /-- `SLEEPING` on a channel. -/
  | asleep (chan : PipeChan) (k : PipeCall)
  /-- `sleep`, after `sched`. -/
  | woken (k : PipeCall)
  /-- In `panic`. -/
  | panicked
  deriving DecidableEq, Repr

/-- Where a call goes on after `peterson_acquire`. -/
def PipeCall.body : PipeCall → PipePc
  | .write i n => .write i n
  | .read n => .read n
  | .close writable => .close writable

/-! ## The code under the lock -/

/-- The result of a step under the lock. -/
structure BodyStep where
  pipe : Pipe
  pc : PipePc
  /-- The channel that is woken. -/
  wake : Option PipeChan := none
  /-- The bytes put into the pipe and counted by `i` of `pipewrite`. -/
  stored : List UInt8 := []
  /-- The bytes that `copyout` has delivered and `nread` counts. -/
  delivered : List UInt8 := []

/-- A round of the loop of `pipewrite`, where `mem` is the byte that `copyin` reads, if it succeeds.
-/
def pipewriteRound (pi : Pipe) (killed : Bool) (mem : Option UInt8) (i : ℕ) (n : ℤ) : BodyStep :=
  if (i : ℤ) < n then
    if pi.readopen = false ∨ killed = true then { pipe := pi, pc := .release 0 (.ret (-1)) }
    -- pipewrite-full
    else if pi.nwrite = pi.nread + BitVec.ofNat 32 PIPESIZE then
      { pipe := pi, pc := .writeWake (.sleep .nwrite (.write i n)) }
    else match mem with
      -- `copyin` fails: `break`
      | none => { pipe := pi, pc := .writeWake (.ret i) }
      | some ch =>
        { pipe := { pi with toRing := pi.push ch }, pc := .write (i + 1) n, stored := [ch] }
  else { pipe := pi, pc := .writeWake (.ret i) }

/-- The test of the `while` loop of `piperead`, and the part of the loop before `sleep`. -/
def pipereadWait (pi : Pipe) (killed : Bool) (n : ℤ) : BodyStep :=
  if pi.nread = pi.nwrite ∧ pi.writeopen = true then
    if killed then { pipe := pi, pc := .release 1 (.ret (-1)) }
    else { pipe := pi, pc := .release 1 (.sleep .nread (.read n)) }
  else { pipe := pi, pc := .readCopy 0 n }

/-- A round of the `for` loop of `piperead`, where `mem` says whether `copyout` succeeds. -/
def pipereadRound (pi : Pipe) (mem : Option UInt8) (i : ℕ) (n : ℤ) : BodyStep :=
  if (i : ℤ) < n ∧ pi.nread ≠ pi.nwrite then
    match mem with
    -- `copyout` fails: the byte is not counted.
    | none => { pipe := pi, pc := .readWake (if i = 0 then -1 else i) }
    | some _ =>
      { pipe := { pi with toRing := pi.pop }, pc := .readCopy (i + 1) n, delivered := [pi.front] }
  else { pipe := pi, pc := .readWake i }

/-- The next step of a process under the lock, or `none` at other places. -/
def bodyStep (pi : Pipe) (killed : Bool) (mem : Option UInt8) : PipePc → Option BodyStep
  | .write i n => some (pipewriteRound pi killed mem i n)
  | .writeWake a => some { pipe := pi, pc := .release 0 a, wake := some .nread }
  | .read n => some (pipereadWait pi killed n)
  | .readCopy i n => some (pipereadRound pi mem i n)
  | .readWake i => some { pipe := pi, pc := .release 1 (.ret i), wake := some .nwrite }
  | .close true => some { pipe := { pi with writeopen := false }, pc := .closeWake true }
  | .close false => some { pipe := { pi with readopen := false }, pc := .closeWake false }
  | .closeWake true => some { pipe := pi, pc := .closeTest true, wake := some .nread }
  | .closeWake false => some { pipe := pi, pc := .closeTest false, wake := some .nwrite }
  | .closeTest writable => some
      { pipe := pi
        pc := .release (PipeCall.id (.close writable))
          (if pi.readopen = false ∧ pi.writeopen = false then .free else .ret 0) }
  | _ => none

/-- A step under the lock leaves the ring alone, or puts a byte into a ring that is not full, or
takes a byte out of one that is not empty. -/
theorem bodyStep_ring {pi : Pipe} {killed : Bool} {mem : Option UInt8} {c : PipePc} {b : BodyStep}
    (h : bodyStep pi killed mem c = some b) :
    (b.pipe.toRing = pi.toRing ∧ b.stored = [] ∧ b.delivered = []) ∨
    (∃ ch, pi.nwrite ≠ pi.nread + BitVec.ofNat 32 PIPESIZE ∧ b.pipe.toRing = pi.push ch ∧
      b.stored = [ch] ∧ b.delivered = []) ∨
    (pi.nread ≠ pi.nwrite ∧ b.pipe.toRing = pi.pop ∧ b.stored = [] ∧ b.delivered = [pi.front]) := by
  cases c with
  | write i n =>
    obtain rfl : pipewriteRound pi killed mem i n = b := by simpa [bodyStep] using h
    unfold pipewriteRound
    split_ifs with hi hclosed hfull
    · exact .inl ⟨rfl, rfl, rfl⟩
    · exact .inl ⟨rfl, rfl, rfl⟩
    · cases mem with
      | none => exact .inl ⟨rfl, rfl, rfl⟩
      | some ch => exact .inr (.inl ⟨ch, hfull, rfl, rfl, rfl⟩)
    · exact .inl ⟨rfl, rfl, rfl⟩
  | read n =>
    obtain rfl : pipereadWait pi killed n = b := by simpa [bodyStep] using h
    unfold pipereadWait
    split_ifs <;> exact .inl ⟨rfl, rfl, rfl⟩
  | readCopy i n =>
    obtain rfl : pipereadRound pi mem i n = b := by simpa [bodyStep] using h
    unfold pipereadRound
    by_cases hi : (i : ℤ) < n ∧ pi.nread ≠ pi.nwrite
    · rw [if_pos hi]
      cases mem with
      | none => exact .inl ⟨rfl, rfl, rfl⟩
      | some _ => exact .inr (.inr ⟨hi.2, rfl, rfl, rfl⟩)
    · rw [if_neg hi]
      exact .inl ⟨rfl, rfl, rfl⟩
  | close writable | closeWake writable =>
    cases writable <;>
      (simp only [bodyStep, Option.some.injEq] at h; subst h; exact .inl ⟨rfl, rfl, rfl⟩)
  | writeWake a | readWake i | closeTest writable =>
    simp only [bodyStep, Option.some.injEq] at h
    subst h
    exact .inl ⟨rfl, rfl, rfl⟩
  | _ => simp [bodyStep] at h

end SustainableXv6
