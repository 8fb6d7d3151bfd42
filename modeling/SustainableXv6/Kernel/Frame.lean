import SustainableXv6.Kernel.Machine

/-!
# What a step does to the processes that do not take it

A step of one process leaves the other processes where they are and acts on them from outside at
most (`Touch.passive`), but for the slot that `kfork` sets up (`Touch.alloc`, `Touch.started`) and
the slot that a failed `kfork` or `kwait` frees (`Touch.freed`). `step_touch` says so of every
action, as long as no recovery goes astray.
-/

namespace SustainableXv6

open Function

open Lib (ReachVia)

variable {K : Type} {s s' : State K}

/-- The slot that a process in `kfork` is setting up. -/
def Pc.forking : Pc K → Option Slot
  | .forkParent np | .forkRun np => some np
  | _ => none

/-- The control flow of the kernel: where a process can be after its next step. -/
inductive Pc.Next : Pc K → Pc K → Prop
  | panic (c : Pc K) : Next c .panicked
  | trapNext (t t' : Trap) : Next (.trap t) (.trap t')
  | trapExit (t : Trap) : Next (.trap t) (.exit (-1))
  | trapUser (t : Trap) : Next (.trap t) .user
  | retUser (r : ℤ) : Next (.ret r) .user
  | retExit (r : ℤ) : Next (.ret r) (.exit (-1))
  | exit (status : ℤ) : Next (.exit status) (.exit status)
  | ensureDone (c : DemoCall) : Next (.ensure c) c.entry
  | ensureInit (c : DemoCall) : Next (.ensure c) (.init c (.spinLocked 0))
  | initDone (c : DemoCall) (w : InitStore) : Next (.init c w) c.entry
  | initNext (c : DemoCall) (w w' : InitStore) : Next (.init c w) (.init c w')
  | acquire (l : Lock K) : Next (.acquire l) (.test l)
  | testLocked (l : Lock K) : Next (.test l) (.register l)
  | testFree (l : Lock K) : Next (.test l) (.take l)
  | register (l : Lock K) : Next (.register l) (.walkStart l)
  | walkStart (l : Lock K) (o : ℤ) : Next (.walkStart l) (.walk l o 0)
  | walkNext (l : Lock K) (o o' : ℤ) (n : ℕ) : Next (.walk l o n) (.walk l o' (n + 1))
  | walkTrue (l : Lock K) (o : ℤ) (n : ℕ) : Next (.walk l o n) (.recover l .start)
  | walkFalse (l : Lock K) (o : ℤ) (n : ℕ) : Next (.walk l o n) (.sleep l)
  | recoverNext (l : Lock K) (r r' : RecoveryPc) : Next (.recover l r) (.recover l r')
  | recoverDone (l : Lock K) (r : RecoveryPc) : Next (.recover l r) (.sleep l)
  | sleep (l : Lock K) : Next (.sleep l) (.asleep l)
  | asleep (l : Lock K) : Next (.asleep l) (.acquire l)
  | take (l : Lock K) : Next (.take l) (.ret 0)
  | holding (l : Lock K) : Next (.holding l) (.release l)
  | notHolding (l : Lock K) : Next (.holding l) (.ret (-1))
  | release (l : Lock K) : Next (.release l) (.ret 0)
  | forkFail : Next .fork (.ret (-1))
  | fork (np : Slot) : Next .fork (.forkParent np)
  | forkParent (np : Slot) : Next (.forkParent np) (.forkRun np)
  | forkRun (np : Slot) (r : ℤ) : Next (.forkRun np) (.ret r)
  | wait (r : ℤ) : Next .wait (.ret r)
  | waitSleep : Next .wait .waitAsleep
  | waitAsleep : Next .waitAsleep .wait
  | kill (pid r : ℤ) : Next (.kill pid) (.ret r)
  | checkDeadlock (r : ℤ) : Next .checkDeadlock (.ret r)

/-- The history of registrations, and whether a recovery has gone astray. -/
def State.history (s : State K) : Bool × ℕ × (Slot → ℕ) × (Slot → UInt64) :=
  (s.astray, s.clock, s.registered, s.reports0)

/-- What happens to a process in a step that it does not take. -/
inductive Touch (s s' : State K) (q : Slot) : Prop
  /-- It is acted on from outside. -/
  | passive (hproc : (s.proc q).Passive (s'.proc q)) (hpc : s'.pc q = s.pc q)
  /-- Its slot is allocated. -/
  | alloc (hunused : (s.proc q).state = .unused) (name : String)
      (hproc : s'.proc q = { (s.proc q).alloc s.nextpid with name := name }) (hpc : s'.pc q = .user)
      (hnext : s'.nextpid = s.nextpid + 1)
  /-- It has been set up, and its parent makes it runnable. -/
  | started (p : Slot) (hfork : s.pc p = .forkRun q) (hfork' : (s'.pc p).forking = none)
      (hproc : s'.proc q = { s.proc q with state := .runnable }) (hpc : s'.pc q = s.pc q)
  /-- Its slot is freed. -/
  | freed (hdead : ¬ (s.proc q).Alive) (old : Proc K) (hproc : s'.proc q = freeproc old)
      (hpc : s'.pc q = s.pc q)

/-- A process that nothing happens to. -/
theorem Touch.same {q : Slot} (hproc : s'.proc q = s.proc q) (hpc : s'.pc q = s.pc q) :
    Touch s s' q := by
  refine .passive ?_ hpc
  rw [hproc]
  exact .refl _

/-- `check_deadlock` acts on processes from outside. -/
theorem checkDeadlock_passive (t : Table K) : Passive t (checkDeadlock t).1 := by
  cases hv : ragVictim t with
  | none => rw [checkDeadlock_of_none hv]; exact .refl t
  | some v =>
    rw [checkDeadlock_of_some hv]
    have hk := Proc.passive_kill (t v)
    exact .update ⟨⟨rfl, hk.unused, hk.zombie, rfl, rfl, .inr rfl⟩, hk.running, hk.used⟩

/-- A process that yields is the same process, and is runnable. -/
theorem Proc.SameId.of_yield {q q' : Proc K} (h : q.Passive q') (hrun : q.state = .running) :
    q.SameId { q' with state := .runnable } where
  pid := h.pid
  unused := by simp [hrun]
  zombie := by simp [hrun]
  waiting_for_lock := h.waiting_for_lock
  deadlock_reports := h.deadlock_reports
  waiting_res := h.waiting_res

/-- An update of one process that leaves it the same is one of all processes. -/
theorem Proc.SameId.update {t : Table K} {p : Slot} {q : Proc K} (h : (t p).SameId q) :
    ∀ r, (t r).SameId (update t p q r) :=
  (forall_update_iff t fun r x => (t r).SameId x).mpr
    ⟨h, fun _ _ => (Proc.Passive.refl _).toSameId⟩

/-- A statement of `usertrap` after a timer interrupt acts on the processes from outside, until it
yields. -/
theorem execTrap_passive {p q : Slot} {t : Trap} (h : q ≠ p ∨ t ≠ .yield) :
    (s.proc q).Passive ((execTrap s p t).proc q) := by
  cases t with
  | killed =>
    rw [execTrap]
    split_ifs <;> exact .refl _
  | charge => exact Passive.update (usertrapCharge_passive _) q
  | ticks => exact .refl _
  | recover => exact checkDeadlock_passive _ q
  | yield =>
    have hq : q ≠ p := h.resolve_right (by simp)
    simp only [execTrap, leaveTrap, yield, State.setPc_proc, State.setProc_proc,
      update_of_ne hq]
    exact .refl _

/-- It leaves the processes the same. -/
theorem execTrap_sameId {p : Slot} (hrun : (s.proc p).state = .running) (t : Trap) (q : Slot) :
    (s.proc q).SameId ((execTrap s p t).proc q) := by
  by_cases h : q ≠ p ∨ t ≠ .yield
  · exact (execTrap_passive h).toSameId
  · obtain ⟨rfl, rfl⟩ : q = p ∧ t = .yield := by simpa [not_or] using h
    exact Proc.SameId.update (.of_yield (.refl _) hrun) q

/-- The other processes stay where they are. -/
theorem execTrap_pc_of_ne {p q : Slot} (hq : q ≠ p) (t : Trap) :
    (execTrap s p t).pc q = s.pc q := by
  cases t with
  | killed =>
    rw [execTrap]
    split_ifs <;> exact update_of_ne hq _ _
  | _ => exact update_of_ne hq _ _

/-- It touches no lock. -/
theorem execTrap_frame (s : State K) (p : Slot) (t : Trap) :
    (execTrap s p t).lock = s.lock ∧ (execTrap s p t).held = s.held ∧
      (execTrap s p t).nextpid = s.nextpid ∧ (execTrap s p t).ticks = s.ticks ∧
      (execTrap s p t).history = s.history := by
  cases t with
  | killed =>
    rw [execTrap]
    split_ifs <;> exact ⟨rfl, rfl, rfl, rfl, rfl⟩
  | _ => exact ⟨rfl, rfl, rfl, rfl, rfl⟩

/-- A timer interrupt of `p` leaves the processes the same. -/
theorem timer_sameId [DecidableEq K] {p : Slot} (cpu0 : Bool)
    (hrun : (s.proc p).state = .running) (q : Slot) :
    (s.proc q).SameId ((timer s p cpu0).proc q) := by
  unfold timer
  split
  · exact (Passive.update (clockintrCharge_passive _) q).toSameId
  · by_cases hq : q = p
    · subst hq
      simp only [yield, clockintr, State.setProc_proc, update_self]
      exact .of_yield (clockintrCharge_passive _) hrun
    · simp only [yield, clockintr, State.setProc_proc, update_of_ne hq]
      exact (Proc.Passive.refl _).toSameId

/-- It leaves the other processes alone. -/
theorem timer_of_ne [DecidableEq K] {p q : Slot} (cpu0 : Bool) (hq : q ≠ p) :
    (timer s p cpu0).proc q = s.proc q ∧ (timer s p cpu0).pc q = s.pc q := by
  unfold timer
  split_ifs <;> simp [yield, clockintr, hq]

/-- It touches no lock. -/
theorem timer_frame [DecidableEq K] (s : State K) (p : Slot) (cpu0 : Bool) :
    (timer s p cpu0).lock = s.lock ∧ (timer s p cpu0).held = s.held ∧
      (timer s p cpu0).nextpid = s.nextpid ∧ (timer s p cpu0).history = s.history := by
  unfold timer
  split <;> exact ⟨rfl, rfl, rfl, rfl⟩

/-! ## What a step does to the processes that do not take it -/

section Touch

variable {p q : Slot} (hq : q ≠ p)

include hq

/-- The process `p` goes to another place. -/
theorem Touch.setPc (c : Pc K) : Touch s (s.setPc p c) q :=
  .same rfl (update_of_ne hq _ _)

/-- A round of the walk of `p`. -/
theorem Touch.execWalk (l : Lock K) (owner_pid : ℤ) (hops : ℕ) :
    Touch s (execWalk s p l owner_pid hops) q := by
  unfold SustainableXv6.execWalk
  split
  · exact .setPc hq _
  · exact .setPc hq _
  · exact .same (update_of_ne hq _ _) (update_of_ne hq _ _)

/-- `holdingsleep` called by `p`. -/
theorem Touch.execHolding (l : Lock K) : Touch s (execHolding s p l) q := by
  unfold SustainableXv6.execHolding
  split_ifs
  · exact .setPc hq _
  · split <;> exact .setPc hq _

/-- `allocproc` called by `p` allocates a slot, or frees it again. -/
theorem Touch.execFork (ok : Bool) : Touch s (execFork s p ok) q := by
  unfold SustainableXv6.execFork
  split
  · exact .setPc hq _
  · rename_i np hnp
    have hun : (s.proc np).state = .unused := by simpa using findSlot_some hnp
    -- The slot `np` is allocated, or freed again if memory is missing.
    by_cases hqn : q = np
    · subst hqn
      split_ifs
      · exact .alloc hun _ (update_self _ _ _) (by simp [hq]) rfl
      · exact .freed (fun ha => ha.1 hun) _ (update_self _ _ _) (by simp [hq])
    · split_ifs
      · exact .same (by simp [hqn]) (by simp [hq, hqn])
      · exact .same (by simp [hqn]) (by simp [hq])

/-- The scan of `kwait` of `p` frees a zombie. -/
theorem Touch.execWait (ok : Bool) : Touch s (execWait s p ok) q := by
  unfold SustainableXv6.execWait
  split
  · rename_i pp hpp
    split_ifs
    · by_cases hqp : q = pp
      · subst hqp
        exact .freed (fun ha => ha.2 (zombieChild_some hpp)) _ (update_self _ _ _)
          (by simp [hq])
      · exact .same (by simp [hqp]) (by simp [hq])
    · exact .setPc hq _
  · split_ifs
    · exact .same (by simp [hq]) (by simp [hq])
    · exact .setPc hq _

end Touch

/-! ## The history of registrations -/

/-- A round of the walk keeps the history. -/
theorem execWalk_history (p : Slot) (l : Lock K) (owner_pid : ℤ) (hops : ℕ) :
    (execWalk s p l owner_pid hops).history = s.history := by
  unfold execWalk
  split <;> rfl

/-- `holdingsleep` keeps the history. -/
theorem execHolding_history (p : Slot) (l : Lock K) : (execHolding s p l).history = s.history := by
  unfold execHolding
  split_ifs
  · rfl
  · split <;> rfl

/-- `allocproc` keeps the history. -/
theorem execFork_history (p : Slot) (ok : Bool) : (execFork s p ok).history = s.history := by
  unfold execFork
  split
  · rfl
  · split_ifs <;> rfl

/-- The scan of `kwait` keeps the history. -/
theorem execWait_history (p : Slot) (ok : Bool) : (execWait s p ok).history = s.history := by
  unfold execWait
  split <;> split_ifs <;> rfl

variable [DecidableEq K]

/-- The stores of `ensure_demo_locks_inited` touch no process. -/
theorem InitStore.exec_proc (w : InitStore) (s : State K) :
    (w.exec s).proc = s.proc ∧ (w.exec s).pc = s.pc := by
  cases w <;> exact ⟨rfl, rfl⟩

/-- A release of the spinlock of a sleep lock, followed by steps that leave a process alone, leaves
it alone. -/
theorem releaseThen_same {p q : Slot} {l : Lock K} {k : State K → State K} (hq : q ≠ p)
    (hproc : ∀ s, (k s).proc q = s.proc q) (hpc : ∀ s, (k s).pc q = s.pc q) :
    (releaseThen s p l k).proc q = s.proc q ∧ (releaseThen s p l k).pc q = s.pc q := by
  unfold releaseThen
  split_ifs
  · rw [hproc, hpc]
    exact ⟨rfl, rfl⟩
  · exact ⟨rfl, update_of_ne hq _ _⟩

/-- A process follows the control flow. -/
theorem exec_next {p : Slot} {ok : Bool} (h : exec s p ok = some s') : (s.pc p).Next (s'.pc p) := by
  unfold exec at h
  cases hpc : s.pc p <;>
    simp only [hpc, reduceCtorEq, Option.some.injEq, Option.ite_none_left_eq_some] at h
  case acquire l | release l =>
    obtain ⟨-, rfl⟩ := h
    simp only [execRelease, State.setPc_pc, update_self]
    constructor
  -- The other functions go on to different places.
  case holding l =>
    obtain ⟨-, rfl⟩ := h
    unfold execHolding
    split_ifs
    · simpa using Pc.Next.holding l
    · split
      · simpa using Pc.Next.notHolding _
      · simpa [State.panic] using Pc.Next.panic _
  all_goals subst h
  case exit status =>
    split_ifs
    · simpa [State.panic] using Pc.Next.panic _
    · simpa [hpc] using Pc.Next.exit status
  case trap t =>
    cases t with
    | killed =>
      rw [execTrap]
      split_ifs
      · simpa [leaveTrap] using Pc.Next.trapExit _
      · simpa using Pc.Next.trapNext _ _
    | yield => simpa [execTrap, leaveTrap] using Pc.Next.trapUser _
    | _ => simpa [execTrap] using Pc.Next.trapNext _ _
  case recover l r =>
    rw [execRecovery, State.setPc_pc, update_self]
    cases (recoverRound s.proc s.lock p l r).2 with
    | none => exact .recoverDone l r
    | some r' => exact .recoverNext l r r'
  case init c w =>
    cases hw : w.next with
    | none => simpa using Pc.Next.initDone c w
    | some w' => simpa using Pc.Next.initNext c w w'
  case walk l o n =>
    unfold execWalk
    split
    · simpa using Pc.Next.walkNext l o _ n
    · simpa using Pc.Next.walkFalse l o n
    · simpa using Pc.Next.walkTrue l o n
  case sleep l =>
    unfold releaseThen
    split_ifs
    · simpa using Pc.Next.sleep l
    · simpa [State.panic] using Pc.Next.panic _
  case take l =>
    unfold execTake releaseThen
    split_ifs
    · simpa using Pc.Next.take l
    · simpa [State.panic] using Pc.Next.panic _
  case fork =>
    unfold execFork
    split
    · simpa using Pc.Next.forkFail
    · split_ifs
      · simpa using Pc.Next.fork _
      · simpa using Pc.Next.forkFail
  case wait =>
    unfold execWait
    split <;> split_ifs
    · simpa using Pc.Next.wait _
    · simpa using Pc.Next.wait _
    · simpa using Pc.Next.waitSleep
    · simpa using Pc.Next.wait _
  case ret r | ensure c | test l =>
    split_ifs <;> simp only [State.setPc_pc, update_self] <;> constructor
  all_goals
    simp only [execRegister, State.setPc_pc, update_self]
    constructor

/-- What the next step of the process `p` does to another process. -/
theorem exec_touch {p q : Slot} {ok : Bool} (h : exec s p ok = some s') (hn : s'.astray = false)
    (hq : q ≠ p) : Touch s s' q := by
  unfold exec at h
  cases hpc : s.pc p <;>
    simp only [hpc, reduceCtorEq, Option.some.injEq, Option.ite_none_left_eq_some] at h
  case acquire l =>
    obtain ⟨-, rfl⟩ := h
    exact .same rfl (update_of_ne hq _ _)
  case holding l =>
    obtain ⟨-, rfl⟩ := h
    exact .execHolding hq l
  case release l =>
    obtain ⟨-, rfl⟩ := h
    exact .passive (wakeup_passive _ _ _ q) (update_of_ne hq _ _)
  all_goals subst h
  case ret r => split_ifs <;> exact .setPc hq _
  case exit status =>
    split_ifs
    · exact .setPc hq _
    · exact .passive (kexit_passive_of_ne _ _ _ hq) rfl
  case init c w =>
    obtain ⟨hproc, hpc'⟩ := w.exec_proc s
    exact .same (congrFun hproc q) (by simp [hq, hpc'])
  case register l => exact .same (update_of_ne hq _ _) (update_of_ne hq _ _)
  case walk l o n => exact .execWalk hq l o n
  case trap t => exact .passive (execTrap_passive (.inl hq)) (execTrap_pc_of_ne hq t)
  case recover l r =>
    exact .passive (recoverRound_passive hn q) (update_of_ne hq _ _)
  case sleep l =>
    obtain ⟨hproc, hpc'⟩ := releaseThen_same (s := s) (l := l)
      (k := fun s => (s.setProc p { s.proc p with
        chan := some (.lock l), state := .sleeping }).setPc p (.asleep l))
      hq (fun s => update_of_ne hq _ _) (fun s => update_of_ne hq _ _)
    exact .same hproc hpc'
  case take l =>
    unfold execTake
    obtain ⟨hproc, hpc'⟩ := releaseThen_same
      (s := (s.setProc p { s.proc p with waiting_for_lock := none }).setLock l
        { s.lock l with locked := true, pid := (s.proc p).pid }) (l := l)
      (k := fun s => { s.setPc p (.ret 0) with
        held := update s.held p fun i => if l = .demo i then true else s.held p i })
      hq (fun s => rfl) (fun s => update_of_ne hq _ _)
    exact .same (hproc.trans (update_of_ne hq _ _)) hpc'
  case fork => exact .execFork hq ok
  case forkParent np =>
    refine .passive (Passive.update ?_ q) (by simp [hq])
    exact ⟨⟨rfl, Iff.rfl, Iff.rfl, rfl, rfl, .inl rfl⟩, id, Iff.rfl⟩
  case forkRun np =>
    by_cases hqn : q = np
    · subst hqn
      exact .started p hpc (by simp [Pc.forking]) (update_self _ _ _) (by simp [hq])
    · exact .same (by simp [hqn]) (by simp [hq])
  case wait => exact .execWait hq ok
  case kill pid => exact .passive (kkill_passive _ _ q) (update_of_ne hq _ _)
  case checkDeadlock => exact .passive (checkDeadlock_passive _ q) (update_of_ne hq _ _)
  all_goals exact .same (by simp [hq]) (by simp [hq])

/-- What an action does to a process that does not take it. -/
theorem step_touch {a : Act K} {q : Slot} (h : safeStep s a = some s')
    (hq : a.actor ≠ some q) : Touch s s' q := by
  obtain ⟨h, hn⟩ := safeStep_eq_some.mp h
  cases step_cases h with
  | sched p hrun => exact .passive (switchTo_passive hrun q) rfl
  | call p c =>
    have hqp : q ≠ p := fun he => hq (he ▸ rfl)
    exact .same rfl (update_of_ne hqp _ _)
  | exec p ok s' hrun h => exact exec_touch h hn fun he => hq (he ▸ rfl)
  | timer p cpu0 =>
    have hqp : q ≠ p := fun he => hq (he ▸ rfl)
    obtain ⟨hproc, hpc⟩ := timer_of_ne (s := s) cpu0 hqp
    exact .same hproc hpc
  | fault p =>
    have hqp : q ≠ p := fun he => hq (he ▸ rfl)
    exact .same (update_of_ne hqp _ _) (update_of_ne hqp _ _)
  | idle => exact .same rfl rfl

/-- Where the process `p` goes in the action `a`. -/
inductive Moved (s : State K) (a : Act K) (s' : State K) (p : Slot) : Prop
  /-- It stays. -/
  | stay (hpc : s'.pc p = s.pc p)
  /-- It follows the control flow of the kernel. -/
  | exec (ok : Bool) (ha : a = .exec p ok) (hnext : (s.pc p).Next (s'.pc p))
  /-- It makes a system call. -/
  | call (c : Call K) (ha : a = .call p c) (huser : s.pc p = .user) (hpc : s'.pc p = c.entry)
  /-- The timer interrupts it in user mode. -/
  | timer (cpu0 : Bool) (ha : a = .timer p cpu0) (huser : s.pc p = .user)
      (hpc : s'.pc p = .trap .killed)
  /-- It is killed or faults in user mode. -/
  | exit (ha : a.actor = some p) (huser : s.pc p = .user) (hpc : s'.pc p = .exit (-1))
  /-- Its slot is allocated. -/
  | alloc (hunused : (s.proc p).state = .unused) (hpc : s'.pc p = .user)

/-- Where each process goes in an action. -/
theorem step_moved {a : Act K} (h : safeStep s a = some s') (p : Slot) : Moved s a s' p := by
  by_cases hp : a.actor = some p
  · cases step_cases (safeStep_eq_some.mp h).1 with
    | sched | idle => exact absurd hp (by simp [Act.actor])
    | call q c hrun huser =>
      obtain rfl : q = p := by simpa [Act.actor] using hp
      by_cases hk : (s.proc q).killed
      · exact .exit rfl huser (by simp [hk])
      · exact .call c rfl huser (by simp [hk])
    | exec q ok s' hrun h =>
      obtain rfl : q = p := by simpa [Act.actor] using hp
      exact .exec ok rfl (exec_next h)
    | timer q cpu0 hrun =>
      obtain rfl : q = p := by simpa [Act.actor] using hp
      by_cases huser : s.pc q = .user
      · exact .timer cpu0 rfl huser (by simp [timer, huser])
      · exact .stay (by simp [timer, huser, yield, clockintr])
    | fault q hrun huser =>
      obtain rfl : q = p := by simpa [Act.actor] using hp
      exact .exit rfl huser (by simp)
  · cases step_touch h hp with
    | passive hproc hpc | started q hfork hfork' hproc hpc | freed hdead old hproc hpc =>
      exact .stay hpc
    | alloc hunused name hproc hpc hnext => exact .alloc hunused hpc

/-- A release of a spinlock, followed by steps that keep the history, keeps it. -/
theorem releaseThen_history {p : Slot} {l : Lock K} {k : State K → State K}
    (hk : ∀ s, (k s).history = s.history) : (releaseThen s p l k).history = s.history := by
  unfold releaseThen
  split_ifs
  · rw [hk]
    rfl
  · rfl

/-- The step by which a recovery goes astray: the process `p` makes `v` runnable, which neither
sleeps nor is runnable. -/
inductive Stray (s : State K) : Act K → State K → Prop
  | intro (p : Slot) (ok : Bool) (l : Lock K) (v : Slot) (hpc : s.pc p = .recover l (.wake v))
      (hstray : RecoveryPc.strays s.proc (.wake v) = true) :
      Stray s (.exec p ok) (execRecovery s p l (.wake v))

/-- The history changes at a registration, and where a recovery goes astray. -/
theorem step_history {a : Act K} (h : step s a = some s') :
    (∃ p ok l, a = .exec p ok ∧ (s.proc p).state = .running ∧ s.pc p = .register l ∧
      s' = execRegister s p l) ∨ s'.history = s.history ∨ Stray s a s' := by
  have hn : s.astray = false := Bool.eq_false_iff.mpr ((Option.ite_none_left_eq_some ..).mp h).1
  cases step_cases h with
  | exec p ok s' hrun h =>
    unfold exec at h
    cases hpc : s.pc p <;>
      simp only [hpc, reduceCtorEq, Option.some.injEq, Option.ite_none_left_eq_some] at h
    case register l => exact .inl ⟨p, ok, l, rfl, hrun, hpc, h.symm⟩
    case acquire l | holding l | release l =>
      obtain ⟨-, rfl⟩ := h
      exact .inr (.inl (by first | rfl | exact execHolding_history p l))
    case recover l r =>
      subst h
      cases hr : r.strays s.proc with
      | false => exact .inr (.inl (Prod.ext (hr.trans hn.symm) rfl))
      | true =>
        obtain ⟨v, rfl⟩ : ∃ v, r = .wake v := by cases r <;> first | exact ⟨_, rfl⟩ | cases hr
        exact .inr (.inr (.intro p ok l v hpc hr))
    all_goals
      subst h
      refine .inr (.inl ?_)
    case ret | exit => split_ifs <;> rfl
    case init c w => cases w <;> rfl
    case trap t => exact (execTrap_frame s p t).2.2.2.2
    case walk l o n => exact execWalk_history p l o n
    case sleep l => exact releaseThen_history fun s => rfl
    case take l => exact releaseThen_history fun s => rfl
    case fork => exact execFork_history p ok
    case wait => exact execWait_history p ok
    all_goals rfl
  | timer p cpu0 => exact .inr (.inl (timer_frame s p cpu0).2.2.2)
  | sched | call | fault | idle => exact .inr (.inl rfl)

/-- A step is safe, or a recovery goes astray by it. -/
theorem safeStep_or_stray {a : Act K} (h : step s a = some s') :
    safeStep s a = some s' ∨ Stray s a s' := by
  have hn : s.astray = false := Bool.eq_false_iff.mpr ((Option.ite_none_left_eq_some ..).mp h).1
  rcases step_history h with ⟨p, ok, l, rfl, -, -, rfl⟩ | hh | hstray
  · exact .inl (safeStep_eq_some.mpr ⟨h, hn⟩)
  · exact .inl (safeStep_eq_some.mpr ⟨h, (congrArg Prod.fst hh).trans hn⟩)
  · exact .inr hstray

/-- Nothing follows where a recovery has gone astray. -/
theorem Stray.step_eq_none {a b : Act K} (h : Stray s a s') : step s' b = none := by
  obtain ⟨p, ok, l, v, -, hstray⟩ := h
  exact if_pos hstray

/-- A step that another one follows is safe. -/
theorem safeStep_of_step {s'' : State K} {a b : Act K} (h : step s a = some s')
    (h' : step s' b = some s'') : safeStep s a = some s' := by
  refine (safeStep_or_stray h).resolve_right fun hstray => ?_
  rw [hstray.step_eq_none] at h'
  cases h'

/-- A safe step changes the history at a registration only. -/
theorem safeStep_history {a : Act K} (h : safeStep s a = some s') :
    (∃ p ok l, a = .exec p ok ∧ (s.proc p).state = .running ∧ s.pc p = .register l ∧
      s' = execRegister s p l) ∨ s'.history = s.history := by
  obtain ⟨h, hn⟩ := safeStep_eq_some.mp h
  rcases step_history h with hreg | hh | ⟨p, ok, l, v, hpc, hstray⟩
  · exact .inl hreg
  · exact .inr hh
  · exact absurd (hstray.symm.trans hn) (by simp)

/-- Whether the next step is one by which a recovery goes astray. -/
def Pc.strays (t : Table K) : Pc K → Bool
  | .recover _ r => r.strays t
  | _ => false

/-- A recovery finds its victim asleep or runnable when it makes it runnable. -/
def RecoversSafely (s : State K) : Act K → Prop
  | .exec p _ => (s.pc p).strays s.proc = false
  | _ => True

instance (s : State K) : ∀ a, Decidable (RecoversSafely s a)
  | .exec _ _ => inferInstanceAs (Decidable (_ = _))
  | .sched _ | .call _ _ | .timer _ _ | .fault _ | .idle => .isTrue trivial

/-- A run goes astray by its last step at most. -/
theorem safe_or_stray {C : State K → Act K → Prop} (h : ReachVia step C boot s) :
    ReachVia safeStep C boot s ∨ ∃ s₀ a, ReachVia safeStep C boot s₀ ∧ C s₀ a ∧ Stray s₀ a s := by
  induction h with
  | refl => exact .inl .refl
  | @tail s₀ s a hr hC hs ih =>
    rcases ih with hsafe | ⟨_, _, -, -, hstray⟩
    · exact (safeStep_or_stray hs).imp (hsafe.tail hC) fun hstray => ⟨s₀, a, hsafe, hC, hstray⟩
    · rw [hstray.step_eq_none] at hs
      cases hs

/-- A run that goes on has not gone astray. -/
theorem safe_of_step {C : State K → Act K → Prop} {a : Act K} (h : ReachVia step C boot s)
    (hs : step s a = some s') : ReachVia safeStep C boot s := by
  rcases safe_or_stray h with hr | ⟨s₀, b, -, -, hstray⟩
  · exact hr
  · rw [hstray.step_eq_none] at hs
    cases hs

omit [DecidableEq K] in
/-- It goes astray where a recovery finds its victim neither asleep nor runnable. -/
theorem Stray.not_recoversSafely {a : Act K} (h : Stray s a s') : ¬ RecoversSafely s a := by
  obtain ⟨p, ok, l, v, hpc, hstray⟩ := h
  simp [RecoversSafely, hpc, Pc.strays, hstray]

/-- So a run on which every recovery finds its victim asleep or runnable does not. -/
theorem safe_of_recoversSafely (h : ReachVia step RecoversSafely boot s) :
    ReachVia safeStep RecoversSafely boot s := by
  rcases safe_or_stray h with hr | ⟨s₀, a, -, ha, hstray⟩
  · exact hr
  · exact absurd ha hstray.not_recoversSafely

end SustainableXv6
