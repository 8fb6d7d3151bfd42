import SustainableXv6.Lib.TwoIds

/-!
# The process table

`struct proc` of `kernel/proc.h` and the table `proc[NPROC]` of `kernel/proc.c`, with the functions
that scan the table or set up and tear down one slot: `pid2proc` of `kernel/sleeplock.c`, and
`allocproc` and `freeproc` of `kernel/proc.c`. A `struct proc *` into the table is a `Slot`, and a
scan `for(p = proc; p < &proc[NPROC]; p++)` that stops at the first match is `findSlot`.

The model keeps the fields that the scheduler, the sleep locks, and the deadlock detectors use. The
address space, the trap frame, and the open files of a process are left out. The `int` fields that
the kernel only sets to 0 or 1 and only tests are Booleans, and the other `int` fields are integers.
-/

namespace SustainableXv6

/-! ## Constants (`kernel/param.h`) -/

/-- The maximum number of processes. -/
def NPROC : ℕ := 64

/-- The maximum number of resources tracked for deadlock detection. -/
def NRES : ℕ := 16

/-- The energy budget of a new process, in ticks. -/
def DEFAULT_ENERGY_BUDGET : UInt64 := 1000

/-- The energy charged for a timer tick. -/
def ENERGY_PER_TICK : UInt64 := 1

/-- The number of ticks between two runs of the periodic deadlock detection. -/
def DEADLOCK_CHECK_INTERVAL : ℕ := 100

instance : NeZero NPROC := ⟨by decide⟩

instance : NeZero NRES := ⟨by decide⟩

/-! ## `struct proc` -/

/-- A position in the process table: the pointer `&proc[i]`. -/
abbrev Slot : Type := Fin NPROC

/-- `enum procstate`. -/
inductive ProcState
  | unused | used | sleeping | runnable | running | zombie
  deriving DecidableEq, Repr

/-- The sleep locks: the two of `demo_locks` in `kernel/sysproc.c`, and a further set `K`, which
stands for the locks of buffers and inodes. -/
inductive Lock (K : Type)
  | demo (i : Fin 2)
  | other (k : K)
  deriving DecidableEq, Repr

/-- The channels on which a process sleeps: a sleep lock, or the process itself in `kwait`. -/
inductive Chan (K : Type)
  | lock (l : Lock K)
  | proc (p : Slot)
  deriving DecidableEq, Repr

/-- `struct proc`. -/
structure Proc (K : Type) where
  state : ProcState
  /-- The channel slept on; `none` is 0. -/
  chan : Option (Chan K)
  killed : Bool
  xstate : ℤ
  pid : ℤ
  parent : Option Slot
  name : String
  /-- An `int`, which is not bounded here. -/
  waiting_tick : ℤ
  energy_budget : UInt64
  energy_consumed : UInt64
  last_scheduled_tick : UInt64
  /-- The sleep lock that `acquiresleep` waits for; `none` is 0. -/
  waiting_for_lock : Option (Lock K)
  deadlock_reports : UInt64
  in_deadlock : Bool
  holding_res : Fin NRES → Bool
  waiting_res : ℤ

variable {K : Type}

/-- A slot of the table before its first use: the table is in zeroed memory, and `procinit` sets
the state, whose `unused` is 0. -/
def Proc.zero : Proc K where
  state := .unused
  chan := none
  killed := false
  xstate := 0
  pid := 0
  parent := none
  name := ""
  waiting_tick := 0
  energy_budget := 0
  energy_consumed := 0
  last_scheduled_tick := 0
  waiting_for_lock := none
  deadlock_reports := 0
  in_deadlock := false
  holding_res := fun _ => false
  waiting_res := 0

/-- The assignments of `allocproc` to the slot that it found, with the pid from `allocpid`. The
fields that it does not assign keep the values of the slot's last use. -/
def Proc.alloc (p : Proc K) (pid : ℤ) : Proc K :=
  { p with
    pid := pid
    state := .used
    waiting_tick := 0
    energy_budget := DEFAULT_ENERGY_BUDGET
    energy_consumed := 0
    last_scheduled_tick := 0
    waiting_for_lock := none
    deadlock_reports := 0
    in_deadlock := false
    holding_res := fun _ => false
    waiting_res := -1 }

/-- `freeproc`. -/
def freeproc (p : Proc K) : Proc K :=
  { p with
    pid := 0
    parent := none
    name := ""
    chan := none
    killed := false
    xstate := 0
    state := .unused
    energy_budget := 0
    energy_consumed := 0
    last_scheduled_tick := 0
    waiting_for_lock := none
    deadlock_reports := 0
    in_deadlock := false
    holding_res := fun _ => false
    waiting_res := -1 }

/-! ## The table -/

/-- `proc[NPROC]`. -/
abbrev Table (K : Type) : Type := Slot → Proc K

/-- The slots in table order, for a loop `for(p = proc; p < &proc[NPROC]; p++)`. -/
def slots : List Slot := List.finRange NPROC

/-- The first slot of the table, in table order, that passes a test. -/
def findSlot (f : Slot → Bool) : Option Slot := (List.finRange NPROC).find? f

/-- A slot found passes the test. -/
theorem findSlot_some {f : Slot → Bool} {p : Slot} (h : findSlot f = some p) : f p = true :=
  List.find?_some h

/-- If a slot passes the test, some slot is found. -/
theorem findSlot_isSome {f : Slot → Bool} {p : Slot} (h : f p = true) :
    ∃ q, findSlot f = some q := by
  rw [← Option.isSome_iff_exists, findSlot, List.find?_isSome]
  exact ⟨p, List.mem_finRange p, h⟩

/-- If one slot at most passes the test, it is the one found. -/
theorem findSlot_eq_some_of_unique {f : Slot → Bool} {p : Slot} (h : f p = true)
    (huniq : ∀ q, f q = true → q = p) : findSlot f = some p := by
  obtain ⟨q, hq⟩ := findSlot_isSome h
  rw [hq, huniq q (findSlot_some hq)]

/-- `pid2proc` of `kernel/sleeplock.c`. -/
def pid2proc (t : Table K) (pid : ℤ) : Option Slot :=
  if pid ≤ 0 then none
  else findSlot fun p => (t p).pid = pid ∧ (t p).state ≠ .unused

/-! ## The process that consumed the most energy -/

/-- One round of the loops that pick a victim: `victim` and `max_energy` after the process `d`. -/
def pickRound (t : Table K) (acc : Slot × UInt64) (d : Slot) : Slot × UInt64 :=
  if acc.2 < (t d).energy_consumed then (d, (t d).energy_consumed) else acc

/-- The loops that pick a victim keep a member of the list, its energy, and the largest energy
seen. -/
theorem pickRound_foldl (t : Table K) :
    ∀ (ds : List Slot) (v : Slot), ∃ w, ds.foldl (pickRound t) (v, (t v).energy_consumed) =
      (w, (t w).energy_consumed) ∧ w ∈ v :: ds ∧
        ∀ d ∈ v :: ds, (t d).energy_consumed ≤ (t w).energy_consumed
  | [], v => ⟨v, rfl, by simp, by simp⟩
  | d :: ds, v => by
    by_cases hlt : (t v).energy_consumed < (t d).energy_consumed
    · obtain ⟨w, hw, hmem, hmax⟩ := pickRound_foldl t ds d
      refine ⟨w, ?_, List.mem_cons_of_mem _ hmem, ?_⟩
      · rw [List.foldl_cons, pickRound, if_pos hlt]
        exact hw
      · intro e he
        rcases List.mem_cons.mp he with rfl | he
        · exact UInt64.le_trans (UInt64.le_of_lt hlt) (hmax d (by simp))
        · exact hmax e he
    · obtain ⟨w, hw, hmem, hmax⟩ := pickRound_foldl t ds v
      refine ⟨w, ?_, ?_, ?_⟩
      · rw [List.foldl_cons, pickRound, if_neg hlt]
        exact hw
      · rcases List.mem_cons.mp hmem with rfl | hmem
        · simp
        · simp [hmem]
      · intro e he
        rcases List.mem_cons.mp he with rfl | he
        · exact hmax e (by simp)
        · rcases List.mem_cons.mp he with rfl | he
          · exact UInt64.le_trans (UInt64.not_lt.mp hlt) (hmax v (by simp))
          · exact hmax e (by simp [he])

end SustainableXv6
