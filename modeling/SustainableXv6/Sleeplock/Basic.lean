import SustainableXv6.Proc.Ops

/-!
# Sleep locks, and the deadlock check at acquisition

`struct sleeplock` of `kernel/sleeplock.h`, and `would_create_deadlock` and
`energy_aware_deadlock_recovery` of `kernel/sleeplock.c`. The walk of `would_create_deadlock` is cut
into its rounds (`walkRound`), since in the kernel other processors run between them: the walk holds
the spinlock of its target lock only. The recovery is cut into its rounds and stores for the same
reason (`recoverRound`). `wouldCreateDeadlock` and `energyAwareDeadlockRecovery` are the two while
nothing else runs.
-/

namespace SustainableXv6

open Function

variable {K : Type} {t : Table K}

/-- `struct spinlock`. The processor that holds it is named by the process that runs there, which
cannot change while the lock is held: interrupts are off. -/
structure Spinlock where
  locked : Bool
  cpu : Option Slot
  deriving DecidableEq, Repr

/-- A spinlock that is not held. -/
def Spinlock.free : Spinlock := ⟨false, none⟩

/-- A spinlock held by the processor that runs `p`. -/
def Spinlock.heldBy (p : Slot) : Spinlock := ⟨true, some p⟩

/-- `holding(lk)` on the processor that runs `p`. -/
def Spinlock.holding (lk : Spinlock) (p : Slot) : Bool := lk.locked && lk.cpu = some p

/-- `struct sleeplock`, without the name. -/
structure SleepLock where
  locked : Bool
  /-- The spinlock that protects this lock. -/
  lk : Spinlock
  /-- The pid of the holder. -/
  pid : ℤ
  deriving DecidableEq, Repr

/-- A sleep lock in zeroed memory, which is also what `initsleeplock` makes of one. -/
def SleepLock.zero : SleepLock := ⟨false, .free, 0⟩

/-- The sleep locks of the kernel. -/
abbrev Locks (K : Type) : Type := Lock K → SleepLock

/-! ## `would_create_deadlock` -/

/-- The end of a round of the walk: the walk returns, or it goes on at another owner. -/
inductive Walk
  | done (result : Bool)
  | next (owner_pid : ℤ)
  deriving DecidableEq, Repr

/-- One round of the `while` loop of `would_create_deadlock`, for the process `current_proc`, with
the loop's test. -/
def walkRound (t : Table K) (lk : Locks K) (current_proc : Slot) (owner_pid : ℤ) (hops : ℕ) :
    Walk :=
  if 0 < owner_pid ∧ hops < NPROC then
    match pid2proc t owner_pid with
    | none => .done false
    | some owner =>
      if (t owner).pid = (t current_proc).pid then .done true
      else match (t owner).waiting_for_lock with
        | none => .done false
        | some next_lock =>
          -- Both fields are read without the spinlock of `next_lock`.
          if (lk next_lock).locked then .next (lk next_lock).pid else .done false
  else .done false

/-- The `while` loop of `would_create_deadlock`. The first argument bounds the rounds, and
`NPROC + 1` of them end it: the last one fails the test on `hops`. -/
def walkLoop (t : Table K) (lk : Locks K) (current_proc : Slot) : ℕ → ℤ → ℕ → Bool
  | 0, _, _ => false
  | fuel + 1, owner_pid, hops =>
    match walkRound t lk current_proc owner_pid hops with
    | .done result => result
    | .next owner_pid => walkLoop t lk current_proc fuel owner_pid (hops + 1)

/-- `would_create_deadlock`, while nothing else runs. -/
def wouldCreateDeadlock (t : Table K) (lk : Locks K) (current_proc : Slot) (target_lock : Lock K) :
    Bool :=
  walkLoop t lk current_proc (NPROC + 1) (lk target_lock).pid 0

/-! ## `energy_aware_deadlock_recovery` -/

/-- The owners that the loops of `energy_aware_deadlock_recovery` visit, in order, from `owner_pid`
on with room for `NPROC - hops` more. -/
def cycleOwners (t : Table K) (lk : Locks K) (start_pid : ℤ) : ℕ → ℤ → List Slot
  | 0, _ => []
  | room + 1, owner_pid =>
    if 0 < owner_pid ∧ owner_pid ≠ start_pid then
      match pid2proc t owner_pid with
      | none => []
      | some owner =>
        owner :: match (t owner).waiting_for_lock with
          | none => []
          | some next_lock =>
            if (lk next_lock).locked then cycleOwners t lk start_pid room (lk next_lock).pid else []
    else []

/-- `in_deadlock` set to `b` for the processes of a list. -/
def markInDeadlock (b : Bool) (ps : List Slot) (t : Table K) : Table K := fun q =>
  if ps.contains q then { t q with in_deadlock := b } else t q

/-- The victim of `energy_aware_deadlock_recovery`: the current process, unless an owner on the walk
has consumed more energy. -/
def recoveryVictim (t : Table K) (lk : Locks K) (current_proc : Slot) (target_lock : Lock K) :
    Slot :=
  ((cycleOwners t lk (t current_proc).pid NPROC (lk target_lock).pid).foldl (pickRound t)
    (current_proc, (t current_proc).energy_consumed)).1

/-- The victim is marked as killed, and woken if it sleeps. -/
def killVictim (victim : Slot) (t : Table K) : Table K :=
  update t victim { t victim with killed := true, state := (t victim).state.wake }

/-- `energy_aware_deadlock_recovery` while nothing else runs: the table after it, and its result.
The first loop marks the processes of the cycle and picks the victim, and the second one removes the
marks. -/
def energyAwareDeadlockRecovery (t : Table K) (lk : Locks K) (current_proc : Slot)
    (target_lock : Lock K) : Table K × ℤ :=
  let cycle (t : Table K) : List Slot :=
    current_proc :: cycleOwners t lk (t current_proc).pid NPROC (lk target_lock).pid
  -- The marks do not change what the loops follow, so the victim may be picked first.
  let victim := recoveryVictim t lk current_proc target_lock
  let killed := killVictim victim (markInDeadlock true (cycle t) t)
  (markInDeadlock false (cycle killed) killed, (t victim).pid)

/-- Marking processes acts on them from outside. -/
theorem markInDeadlock_passive (b : Bool) (ps : List Slot) (t : Table K) :
    Passive t (markInDeadlock b ps t) := by
  intro q
  unfold markInDeadlock
  split_ifs
  · exact ⟨⟨rfl, Iff.rfl, Iff.rfl, rfl, rfl, .inl rfl⟩, id, Iff.rfl⟩
  · exact .refl _

/-- The places of `energy_aware_deadlock_recovery`. -/
inductive RecoveryPc
  /-- At `current_proc->in_deadlock = 1`. -/
  | start
  /-- At the first loop, with the victim so far and its energy. -/
  | mark (owner_pid : ℤ) (hops : ℕ) (victim : Slot) (max_energy : UInt64)
  /-- At `victim->killed = 1`. -/
  | kill (victim : Slot)
  /-- At the test of `victim->state`. -/
  | test (victim : Slot)
  /-- At `victim->state = RUNNABLE`. -/
  | wake (victim : Slot)
  /-- At `current_proc->in_deadlock = 0`. -/
  | clear
  /-- At the second loop. -/
  | unmark (owner_pid : ℤ) (hops : ℕ)
  deriving DecidableEq, Repr

/-- A round of the two loops of `energy_aware_deadlock_recovery`: the owner that it visits and the
pid that it goes on at, if there are any. -/
def ownerRound (t : Table K) (lk : Locks K) (start_pid owner_pid : ℤ) (hops : ℕ) :
    Option (Slot × Option ℤ) :=
  if 0 < owner_pid ∧ owner_pid ≠ start_pid ∧ hops < NPROC then
    (pid2proc t owner_pid).map fun owner => (owner, (t owner).waiting_for_lock.bind fun next_lock =>
      if (lk next_lock).locked then some (lk next_lock).pid else none)
  else none

/-- What `energy_aware_deadlock_recovery` does at a place: the table after it, and the next place.
No lock of the processes is held, so the victim may have changed since the store or the test before.
-/
def recoverRound (t : Table K) (lk : Locks K) (current_proc : Slot) (target_lock : Lock K) :
    RecoveryPc → Table K × Option RecoveryPc
  | .start =>
    (update t current_proc { t current_proc with in_deadlock := true },
      some (.mark (lk target_lock).pid 0 current_proc (t current_proc).energy_consumed))
  | .mark owner_pid hops victim max_energy =>
    match ownerRound t lk (t current_proc).pid owner_pid hops with
    | none => (t, some (.kill victim))
    | some (owner, next) =>
      let (victim, max_energy) := pickRound t (victim, max_energy) owner
      (update t owner { t owner with in_deadlock := true },
        some (next.elim (.kill victim) (.mark · (hops + 1) victim max_energy)))
  | .kill victim =>
    (update t victim { t victim with killed := true }, some (.test victim))
  | .test victim => (t, some (if (t victim).state = .sleeping then .wake victim else .clear))
  | .wake victim =>
    (update t victim { t victim with state := .runnable }, some .clear)
  | .clear =>
    (update t current_proc { t current_proc with in_deadlock := false },
      some (.unmark (lk target_lock).pid 0))
  | .unmark owner_pid hops =>
    match ownerRound t lk (t current_proc).pid owner_pid hops with
    | none => (t, none)
    | some (owner, next) =>
      (update t owner { t owner with in_deadlock := false },
        next.map (.unmark · (hops + 1)))

/-- Whether `victim->state = RUNNABLE` finds a process that neither sleeps nor is runnable. -/
def RecoveryPc.strays (t : Table K) : RecoveryPc → Bool
  | .wake victim => (t victim).state ≠ .sleeping ∧ (t victim).state ≠ .runnable
  | _ => false

/-- A place of the recovery changes the mark, the kill flag, and the state of one process, and the
state only where it is to be woken. -/
theorem recoverRound_eq (t : Table K) (lk : Locks K) (current_proc : Slot) (target_lock : Lock K)
    (r : RecoveryPc) : ∃ q b k x, (recoverRound t lk current_proc target_lock r).1 =
      update t q { t q with in_deadlock := b, killed := k, state := x } ∧
      ((t q).killed = true → k = true) ∧ (x = (t q).state ∨ r = .wake q ∧ x = .runnable) := by
  have hsame : t = update t current_proc (t current_proc) :=
    (update_eq_self _ _).symm
  cases r with
  | start | clear | kill => exact ⟨_, _, _, _, rfl, by simp, .inl rfl⟩
  | mark | unmark =>
    rw [recoverRound]
    split
    · exact ⟨_, _, _, _, hsame, id, .inl rfl⟩
    · exact ⟨_, _, _, _, rfl, id, .inl rfl⟩
  | test => exact ⟨_, _, _, _, hsame, id, .inl rfl⟩
  | wake victim => exact ⟨victim, _, _, _, rfl, id, .inr ⟨rfl, rfl⟩⟩

/-- Recovery acts on processes from outside, unless it goes astray: it marks them, kills one, and
wakes it, and takes no lock from it. -/
theorem recoverRound_passive {lk : Locks K} {current_proc : Slot} {target_lock : Lock K}
    {r : RecoveryPc} (h : r.strays t = false) :
    Passive t (recoverRound t lk current_proc target_lock r).1 := by
  obtain ⟨q, b, k, x, heq, -, hx⟩ := recoverRound_eq t lk current_proc target_lock r
  rw [heq]
  rcases hx with rfl | ⟨rfl, rfl⟩
  · exact .update ⟨⟨rfl, Iff.rfl, Iff.rfl, rfl, rfl, .inl rfl⟩, id, Iff.rfl⟩
  · have hstate : (t q).state = .sleeping ∨ (t q).state = .runnable := by
      simpa [RecoveryPc.strays, or_iff_not_imp_left] using h
    refine .update ⟨⟨rfl, ?_, ?_, rfl, rfl, .inl rfl⟩, ?_, ?_⟩ <;>
      rcases hstate with hs | hs <;> simp [hs]

end SustainableXv6
