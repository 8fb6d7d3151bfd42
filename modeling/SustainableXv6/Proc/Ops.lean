import SustainableXv6.Proc.Table

/-!
# The process operations as functions on the table

`wakeup`, `kkill`, `reparent`, `kexit`, and `kwait` of `kernel/proc.c`, the switch to a process that
`scheduler` makes, and the charges for a timer tick of `kernel/trap.c`. Each runs under the process
locks or under `wait_lock`, so it is one function on the table.

None of them touches what the sleep locks read of a process: its pid, whether its slot is in use,
and the lock that it waits for (`Proc.SameId`). To the processes that do not call them, they do no
more than to wake or to kill (`Proc.Passive`), and each operation has the lemma that says so.
-/

namespace SustainableXv6

open Function

variable {K : Type} {t : Table K}

/-- The slot of the first process, which `userinit` allocates from an empty table. -/
def initproc : Slot := 0

/-! ## What the sleep locks read of a process -/

/-- A process that has neither ended nor been freed. -/
def Proc.Alive (q : Proc K) : Prop := q.state ≠ .unused ∧ q.state ≠ .zombie

instance (q : Proc K) : Decidable q.Alive := inferInstanceAs (Decidable (_ ∧ _))

/-- `q'` is the process `q` in another state: the same pid, the same lock waited for, the same
count of reports, and still unused or a zombie if and only if it was. -/
structure Proc.SameId (q q' : Proc K) : Prop where
  pid : q'.pid = q.pid
  unused : q'.state = .unused ↔ q.state = .unused
  zombie : q'.state = .zombie ↔ q.state = .zombie
  waiting_for_lock : q'.waiting_for_lock = q.waiting_for_lock
  deadlock_reports : q'.deadlock_reports = q.deadlock_reports
  waiting_res : q'.waiting_res = q.waiting_res ∨ q'.waiting_res = -1

/-- `q'` is what an action of another process makes of `q`: the same process, which still runs if it
ran, and is being set up if and only if it was. -/
structure Proc.Passive (q q' : Proc K) : Prop extends q.SameId q' where
  running : q.state = .running → q'.state = .running
  used : q'.state = .used ↔ q.state = .used

/-- A process is itself. -/
theorem Proc.Passive.refl (q : Proc K) : q.Passive q where
  pid := rfl
  unused := Iff.rfl
  zombie := Iff.rfl
  waiting_for_lock := rfl
  deadlock_reports := rfl
  waiting_res := .inl rfl
  running := id
  used := Iff.rfl

/-- Two changes of state in a row. -/
theorem Proc.SameId.trans {q q' q'' : Proc K} (h : q.SameId q') (h' : q'.SameId q'') :
    q.SameId q'' where
  pid := h'.pid.trans h.pid
  unused := h'.unused.trans h.unused
  zombie := h'.zombie.trans h.zombie
  waiting_for_lock := h'.waiting_for_lock.trans h.waiting_for_lock
  deadlock_reports := h'.deadlock_reports.trans h.deadlock_reports
  waiting_res := by
    rcases h'.waiting_res with h1 | h1
    · rw [h1]; exact h.waiting_res
    · exact .inr h1

/-- Two actions of other processes in a row. -/
theorem Proc.Passive.trans {q q' q'' : Proc K} (h : q.Passive q') (h' : q'.Passive q'') :
    q.Passive q'' where
  toSameId := h.toSameId.trans h'.toSameId
  running := fun hr => h'.running (h.running hr)
  used := h'.used.trans h.used

/-- A process stays alive. -/
theorem Proc.SameId.alive_iff {q q' : Proc K} (h : q.SameId q') : q'.Alive ↔ q.Alive := by
  unfold Proc.Alive
  rw [ne_eq, ne_eq, h.unused, h.zombie]

/-- Every process of the table is acted on from outside only. -/
def Passive (t t' : Table K) : Prop := ∀ q, (t q).Passive (t' q)

/-- Nothing happens to a table. -/
theorem Passive.refl (t : Table K) : Passive t t := fun q => .refl (t q)

/-- Two operations in a row. -/
theorem Passive.trans {t t' t'' : Table K} (h : Passive t t') (h' : Passive t' t'') :
    Passive t t'' :=
  fun q => (h q).trans (h' q)

/-- An operation on one slot. -/
theorem Passive.update {p : Slot} {q : Proc K} (h : (t p).Passive q) :
    Passive t (update t p q) :=
  (forall_update_iff t fun r x => (t r).Passive x).mpr ⟨h, fun _ _ => .refl _⟩

/-! ## `wakeup` and `kkill` -/

/-- The state of a process that is made runnable if it sleeps. -/
def ProcState.wake (s : ProcState) : ProcState := if s = .sleeping then .runnable else s

/-- Killing a process, with a wake-up if it sleeps, acts on it from outside. -/
theorem Proc.passive_kill (q : Proc K) :
    q.Passive { q with killed := true, state := q.state.wake } where
  pid := rfl
  unused := by cases h : q.state <;> simp [ProcState.wake]
  zombie := by cases h : q.state <;> simp [ProcState.wake]
  waiting_for_lock := rfl
  deadlock_reports := rfl
  waiting_res := .inl rfl
  running := fun h => by simp [ProcState.wake, h]
  used := by cases h : q.state <;> simp [ProcState.wake]

/-- `wakeup(chan)`, called by the process `me`. -/
def wakeup [DecidableEq K] (t : Table K) (me : Slot) (chan : Chan K) : Table K := fun q =>
  if q ≠ me ∧ (t q).state = .sleeping ∧ (t q).chan = some chan then
    { t q with state := .runnable }
  else t q

/-- `wakeup` acts on processes from outside. -/
theorem wakeup_passive [DecidableEq K] (t : Table K) (me : Slot) (chan : Chan K) :
    Passive t (wakeup t me chan) := by
  intro q
  unfold wakeup
  split_ifs with h
  · exact ⟨⟨rfl, by simp [h.2.1], by simp [h.2.1], rfl, rfl, .inl rfl⟩, by simp [h.2.1],
      by simp [h.2.1]⟩
  · exact .refl _

/-- `kkill(pid)`: the table after it, and its result. -/
def kkill (t : Table K) (pid : ℤ) : Table K × ℤ :=
  -- The pid is compared without a look at the state: a zombie can be killed.
  match findSlot fun q => (t q).pid = pid with
  | none => (t, -1)
  | some q => (update t q { t q with killed := true, state := (t q).state.wake }, 0)

/-- `kkill` acts on processes from outside. -/
theorem kkill_passive (t : Table K) (pid : ℤ) : Passive t (kkill t pid).1 := by
  unfold kkill
  split
  · exact .refl t
  · exact .update (Proc.passive_kill _)

/-! ## `kexit` and `kwait` -/

/-- `reparent(p)`: the children of `p` go to the first process, which is woken if there are any. -/
def reparent [DecidableEq K] (t : Table K) (p : Slot) : Table K :=
  let t' : Table K := fun q =>
    if (t q).parent = some p then { t q with parent := some initproc } else t q
  match findSlot fun q => (t q).parent = some p with
  | none => t'
  | some _ => wakeup t' p (.proc initproc)

/-- `reparent` acts on processes from outside. -/
theorem reparent_passive [DecidableEq K] (t : Table K) (p : Slot) : Passive t (reparent t p) := by
  have h : Passive t fun q =>
      if (t q).parent = some p then { t q with parent := some initproc } else t q := by
    intro q
    dsimp only
    split_ifs
    · exact ⟨⟨rfl, Iff.rfl, Iff.rfl, rfl, rfl, .inl rfl⟩, id, Iff.rfl⟩
    · exact .refl _
  unfold reparent
  dsimp only
  split
  · exact h
  · exact h.trans (wakeup_passive _ _ _)

/-- The part of `kexit` before the process `p` becomes a zombie: its children are given to the first
process, and its parent, which might sleep in `kwait`, is woken. -/
def kexitWake [DecidableEq K] (t : Table K) (p : Slot) : Table K :=
  -- `p->parent` is read after `reparent`.
  match (reparent t p p).parent with
  | none => reparent t p
  | some q => wakeup (reparent t p) p (.proc q)

/-- `kexit(status)` of the process `p`. -/
def kexit [DecidableEq K] (t : Table K) (p : Slot) (status : ℤ) : Table K :=
  update (kexitWake t p) p { kexitWake t p p with xstate := status, state := .zombie }

/-- What precedes the end of a process acts on processes from outside. -/
theorem kexitWake_passive [DecidableEq K] (t : Table K) (p : Slot) : Passive t (kexitWake t p) := by
  unfold kexitWake
  split
  · exact reparent_passive t p
  · exact (reparent_passive t p).trans (wakeup_passive _ _ _)

/-- The end of a process acts on the other processes from outside. -/
theorem kexit_passive_of_ne [DecidableEq K] (t : Table K) (p : Slot) (status : ℤ) {q : Slot}
    (h : q ≠ p) : (t q).Passive (kexit t p status q) := by
  unfold kexit
  rw [update_of_ne h]
  exact kexitWake_passive t p q

/-- The process that ends is the same process as a zombie. -/
theorem kexit_self [DecidableEq K] (t : Table K) (p : Slot) (status : ℤ) :
    (kexit t p status p).state = .zombie ∧ (kexit t p status p).pid = (t p).pid ∧
      (kexit t p status p).waiting_for_lock = (t p).waiting_for_lock ∧
      (kexit t p status p).deadlock_reports = (t p).deadlock_reports ∧
      ((kexit t p status p).waiting_res = (t p).waiting_res ∨
        (kexit t p status p).waiting_res = -1) := by
  unfold kexit
  rw [update_self]
  have h := kexitWake_passive t p p
  exact ⟨rfl, h.pid, h.waiting_for_lock, h.deadlock_reports, h.waiting_res⟩

/-- The child that `kwait` of the process `p` frees: the first zombie among its children. -/
def zombieChild (t : Table K) (p : Slot) : Option Slot :=
  findSlot fun q => (t q).parent = some p ∧ (t q).state = .zombie

/-- The child that `kwait` frees is a zombie. -/
theorem zombieChild_some {p q : Slot} (h : zombieChild t p = some q) : (t q).state = .zombie := by
  have hq := findSlot_some h
  simp only [decide_eq_true_eq] at hq
  exact hq.2

/-- `havekids` of `kwait`. -/
def havekids (t : Table K) (p : Slot) : Bool := (findSlot fun q => (t q).parent = some p).isSome

/-! ## Scheduling and the timer -/

/-- `p->parent != 0 && strncmp(p->parent->name, "schedtest", 16) == 0`. -/
def schedtestChild (t : Table K) (p : Slot) : Bool :=
  match (t p).parent with
  | none => false
  | some q => (t q).name = "schedtest"

/-- `scheduler` switches to the process `p`, after it has counted a wait for every other runnable
child of `schedtest`. -/
def switchTo (t : Table K) (p : Slot) : Table K := fun q =>
  if q = p then { t q with state := .running, last_scheduled_tick := 0 }
  else if (t q).state = .runnable ∧ schedtestChild t q then
    { t q with waiting_tick := (t q).waiting_tick + 1 }
  else t q

/-- Switching to a runnable process acts on processes from outside. -/
theorem switchTo_passive {p : Slot} (h : (t p).state = .runnable) : Passive t (switchTo t p) := by
  intro q
  unfold switchTo
  split_ifs with hq
  · subst hq
    exact ⟨⟨rfl, by simp [h], by simp [h], rfl, rfl, .inl rfl⟩, by simp [h], by simp [h]⟩
  · exact ⟨⟨rfl, Iff.rfl, Iff.rfl, rfl, rfl, .inl rfl⟩, id, Iff.rfl⟩
  · exact .refl _

/-- What `clockintr` charges to the process that runs. -/
def clockintrCharge (p : Proc K) : Proc K :=
  { p with
    energy_consumed := p.energy_consumed + ENERGY_PER_TICK
    energy_budget :=
      if ENERGY_PER_TICK ≤ p.energy_budget then p.energy_budget - ENERGY_PER_TICK else 0
    last_scheduled_tick := p.last_scheduled_tick + 1 }

/-- What `usertrap` charges to the process that runs, when the timer interrupts it in user mode. -/
def usertrapCharge (p : Proc K) : Proc K :=
  { p with
    energy_consumed := p.energy_consumed + ENERGY_PER_TICK
    energy_budget :=
      if 0 < p.energy_budget then p.energy_budget - ENERGY_PER_TICK else p.energy_budget
    last_scheduled_tick := p.last_scheduled_tick + 1 }

/-- The charge of `clockintr` acts on the process from outside. -/
theorem clockintrCharge_passive (p : Proc K) : p.Passive (clockintrCharge p) :=
  ⟨⟨rfl, Iff.rfl, Iff.rfl, rfl, rfl, .inl rfl⟩, id, Iff.rfl⟩

/-- The charge of `usertrap` acts on the process from outside. -/
theorem usertrapCharge_passive (p : Proc K) : p.Passive (usertrapCharge p) :=
  ⟨⟨rfl, Iff.rfl, Iff.rfl, rfl, rfl, .inl rfl⟩, id, Iff.rfl⟩

end SustainableXv6
