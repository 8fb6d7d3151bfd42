import SustainableXv6.Kernel.Ownership

/-!
# Mutual exclusion of the demo locks

`LockStep` says what an action does to the sleep locks and to the processes that are about to use
them: it is the protocol that `acquiresleep`, `releasesleep`, and `holdingsleep` follow, with the
stores of `initsleeplock` beside it. `LockInv` is its invariant: the spinlock of a sleep lock is
held by the process between its acquisition and its release, the lock is free where it is about to
be taken, and the process that has been given it is its owner.

`ensure_demo_locks_inited` tests and sets its flag without a lock. A process that has seen the flag
clear may execute its stores after another one has taken a demo lock, and frees it for a second
holder (`initRace_two_holders`). Where `initsleeplock` writes only to locks that are not in use
(`InitsIdle`), a demo lock has one holder (`demoLock_exclusive`).
-/

namespace SustainableXv6

open Function Lib

variable {K : Type} {s s' : State K}

/-- A place at which a process neither holds a spinlock nor is about to release a sleep lock. -/
def Pc.Outside (c : Pc K) : Prop := c.spinning = none ∧ ∀ l, c ≠ .release l

/-- The processes other than `p` stay where they are, or are outside. -/
def OthersStay (s s' : State K) (p : Slot) : Prop :=
  ∀ q ≠ p, s'.pc q = s.pc q ∨ (s'.pc q).Outside

/-- The invariant of the sleep locks. -/
structure LockInv (s : State K) : Prop where
  /-- A spinlock is held by the process that has acquired it and not released it. -/
  spin : ∀ q l, (s.pc q).spinning = some l → (s.lock l).lk = .heldBy q
  /-- A lock that is about to be taken is free. -/
  take : ∀ q l, s.pc q = .take l → (s.lock l).locked = false
  /-- A process that is about to release a lock owns it. -/
  release : ∀ q l, s.pc q = .release l → Owns s q l
  /-- A process that has been given a demo lock owns it. -/
  held : ∀ q i, s.held q i = true → Owns s q (.demo i)

/-- After booting, the locks are free. -/
theorem lockInv_boot : LockInv (boot : State K) := by
  constructor <;> simp [boot, Pc.spinning]

/-- Two processes do not hold one spinlock. -/
theorem LockInv.spin_unique (hI : LockInv s) {p q : Slot} {l : Lock K}
    (hp : (s.pc p).spinning = some l) (hq : (s.pc q).spinning = some l) : p = q := by
  have h := (hI.spin p l hp).symm.trans (hI.spin q l hq)
  simpa [Spinlock.heldBy] using h

/-- A spinlock that a process should hold is locked. -/
theorem LockInv.spin_locked (hI : LockInv s) {q : Slot} {l : Lock K}
    (hq : (s.pc q).spinning = some l) : (s.lock l).lk.locked = true := by
  rw [hI.spin q l hq]
  rfl

/-- If the process that acts is outside after the step, all processes stay or are outside. -/
theorem OthersStay.outside {p : Slot} (h : OthersStay s s' p) (hp : (s'.pc p).Outside) (q : Slot) :
    s'.pc q = s.pc q ∨ (s'.pc q).Outside := by
  by_cases hq : q = p
  · exact .inr (hq ▸ hp)
  · exact h q hq

variable [DecidableEq K]

/-- What the action `a` does to the sleep locks, and to the processes that use them. -/
inductive LockStep (s : State K) (a : Act K) (s' : State K) : Prop
  /-- No lock is touched. -/
  | outside (hlock : s'.lock = s.lock) (hheld : ∀ q i, s'.held q i = true → s.held q i = true)
      (hpc : ∀ q, s'.pc q = s.pc q ∨ (s'.pc q).Outside)
  /-- A spinlock is acquired. -/
  | enter (p : Slot) (l : Lock K) (hpc : s.pc p = .acquire l) (hfree : (s.lock l).lk.locked = false)
      (hlock : s'.lock = update s.lock l { s.lock l with lk := .heldBy p })
      (hheld : s'.held = s.held) (hpc' : s'.pc p = .test l) (hothers : OthersStay s s' p)
  /-- A process goes on while it holds a spinlock. -/
  | inside (p : Slot) (l : Lock K) (hpc : (s.pc p).spinning = some l) (hlock : s'.lock = s.lock)
      (hheld : s'.held = s.held) (hpc' : (s'.pc p).spinning = some l)
      (htake : s'.pc p = .take l → (s.lock l).locked = false) (hothers : OthersStay s s' p)
  /-- A process goes to sleep. -/
  | sleep (p : Slot) (l : Lock K) (hpc : s.pc p = .sleep l)
      (hlock : s'.lock = update s.lock l { s.lock l with lk := .free })
      (hheld : s'.held = s.held) (hpc' : s'.pc p = .asleep l) (hothers : OthersStay s s' p)
  /-- A lock is taken. -/
  | take (p : Slot) (l : Lock K) (hpc : s.pc p = .take l)
      (hlock : s'.lock = update s.lock l ⟨true, .free, (s.proc p).pid⟩)
      (hheld : ∀ q i, s'.held q i = true → s.held q i = true ∨ q = p ∧ l = .demo i)
      (hpc' : s'.pc p = .ret 0) (hothers : OthersStay s s' p)
  /-- The holder of a lock is about to release it. -/
  | holding (p : Slot) (l : Lock K) (hpc : s.pc p = .holding l) (hlock : s'.lock = s.lock)
      (hheld : s'.held = s.held)
      (howner : (s.lock l).locked = true ∧ (s.lock l).pid = (s.proc p).pid)
      (hpc' : s'.pc p = .release l) (hothers : OthersStay s s' p)
  /-- A lock is released. -/
  | release (p : Slot) (l : Lock K) (hpc : s.pc p = .release l)
      (hfree : (s.lock l).lk.locked = false)
      (hlock : s'.lock = update s.lock l .zero)
      (hheld : ∀ q i, s'.held q i = true → s.held q i = true ∧ ¬ (q = p ∧ l = .demo i))
      (hpc' : s'.pc p = .ret 0) (hothers : OthersStay s s' p)
  /-- A store of `ensure_demo_locks_inited` is executed. -/
  | init (p : Slot) (ok : Bool) (c : DemoCall) (w : InitStore) (ha : a = .exec p ok)
      (hpc : s.pc p = .init c w) (hlock : s'.lock = (w.exec s).lock) (hheld : s'.held = s.held)
      (hpc' : ∀ q, s'.pc q = s.pc q ∨ (s'.pc q).Outside)

/-- The processes that do not act stay. -/
theorem othersStay_of_exec {p : Slot} {ok : Bool} (h : exec s p ok = some s')
    (hn : s'.astray = false) : OthersStay s s' p := by
  intro q hq
  cases exec_touch h hn hq with
  | passive hproc hpc | started r hfork hfork' hproc hpc | freed hdead old hproc hpc =>
    exact .inl hpc
  | alloc hunused name hproc hpc hnext => exact .inr (by rw [hpc]; exact ⟨rfl, by simp⟩)

section Exec

variable {p : Slot} {ok : Bool}

/-- A process that leaves all locks alone and ends up outside. -/
theorem LockStep.leave (hlock : s'.lock = s.lock) (hheld : s'.held = s.held)
    (hothers : OthersStay s s' p) (hspin : (s'.pc p).spinning = none)
    (hrel : ∀ l, s'.pc p ≠ .release l) : LockStep s (.exec p ok) s' :=
  .outside hlock (fun _ _ h => hheld ▸ h) (hothers.outside ⟨hspin, hrel⟩)

/-- A round of the walk stays under the spinlock. -/
theorem LockStep.execWalk {l : Lock K} {owner_pid : ℤ} {hops : ℕ}
    (hpc : s.pc p = .walk l owner_pid hops)
    (hothers : OthersStay s (execWalk s p l owner_pid hops) p) :
    LockStep s (.exec p ok) (execWalk s p l owner_pid hops) := by
  unfold SustainableXv6.execWalk at hothers ⊢
  cases hw : walkRound s.proc s.lock p owner_pid hops with
  | next o' =>
    rw [hw] at hothers
    exact .inside p l (by rw [hpc]; rfl) rfl rfl (by simp [Pc.spinning]) (by simp) hothers
  | done b =>
    rw [hw] at hothers
    cases b <;>
      exact .inside p l (by rw [hpc]; rfl) rfl rfl (by simp [Pc.spinning]) (by simp) hothers

/-- The lock is taken by the process that holds its spinlock. -/
theorem LockStep.execTake {l : Lock K} (hpc : s.pc p = .take l)
    (hhold : (s.lock l).lk.holding p = true) (hothers : OthersStay s (execTake s p l) p) :
    LockStep s (.exec p ok) (execTake s p l) := by
  rw [SustainableXv6.execTake, releaseThen, if_pos (by simpa using hhold)] at hothers ⊢
  refine .take p l hpc ?_ (fun q i hq => ?_) (by simp) hothers
  · funext l'
    by_cases hl' : l' = l <;> simp [hl']
  · -- The history gives lock `i` to `p` if it is the lock taken.
    by_cases hqp : q = p
    · subst hqp
      by_cases hl : l = .demo i
      · exact .inr ⟨rfl, hl⟩
      · exact .inl (by simpa [hl] using hq)
    · exact .inl (by simpa [hqp] using hq)

/-- The lock is released by a process that has found that it holds it. -/
theorem LockStep.execRelease {l : Lock K} (hpc : s.pc p = .release l)
    (hfree : (s.lock l).lk.locked = false) (hothers : OthersStay s (execRelease s p l) p) :
    LockStep s (.exec p ok) (execRelease s p l) := by
  refine .release p l hpc hfree rfl (fun q i hq => ?_) (by simp [SustainableXv6.execRelease])
    hothers
  by_cases hqp : q = p
  · subst hqp
    by_cases hl : l = .demo i
    · simp [SustainableXv6.execRelease, hl] at hq
    · simpa [SustainableXv6.execRelease, hl] using hq
  · simpa [SustainableXv6.execRelease, hqp] using hq

/-- `holdingsleep` leaves the locks alone. -/
theorem LockStep.execHolding {l : Lock K} (hpc : s.pc p = .holding l)
    (hothers : OthersStay s (execHolding s p l) p) :
    LockStep s (.exec p ok) (execHolding s p l) := by
  unfold SustainableXv6.execHolding at hothers ⊢
  split_ifs at hothers ⊢ with howner
  · exact .holding p l hpc rfl rfl howner (by simp) hothers
  · cases l <;>
      exact .leave rfl rfl hothers (by simp [State.panic, Pc.spinning]) (by simp [State.panic])

/-- `allocproc` leaves the locks alone. -/
theorem LockStep.execFork (hothers : OthersStay s (execFork s p ok) p) :
    LockStep s (.exec p ok) (execFork s p ok) := by
  unfold SustainableXv6.execFork at hothers ⊢
  split at hothers
  · exact .leave rfl rfl hothers (by simp [Pc.spinning]) (by simp)
  · split_ifs at hothers ⊢ <;>
      exact .leave rfl rfl hothers (by simp [Pc.spinning]) (by simp)

/-- The scan of `kwait` leaves the locks alone. A slot that is freed has been given no lock. -/
theorem LockStep.execWait (hothers : OthersStay s (execWait s p ok) p) :
    LockStep s (.exec p ok) (execWait s p ok) := by
  unfold SustainableXv6.execWait at hothers ⊢
  split at hothers
  · rename_i pp hpp
    split_ifs at hothers ⊢
    · refine .outside rfl (fun q i hq => ?_)
        (hothers.outside ⟨by simp [Pc.spinning], by simp⟩)
      by_cases hqp : q = pp
      · simp [hqp] at hq
      · simpa [hqp] using hq
    · exact .leave rfl rfl hothers (by simp [Pc.spinning]) (by simp)
  · split_ifs at hothers ⊢ <;>
      exact .leave rfl rfl hothers (by simp [Pc.spinning]) (by simp)

end Exec

/-- A step of the process `p` follows the protocol, if the spinlocks are held by the processes that
should hold them. -/
theorem exec_lockStep {p : Slot} {ok : Bool}
    (hspin : ∀ l, (s.pc p).spinning = some l → (s.lock l).lk = .heldBy p)
    (h : exec s p ok = some s') (hn : s'.astray = false) : LockStep s (.exec p ok) s' := by
  have hothers := othersStay_of_exec h hn
  have hnext := exec_next h
  have hhold : ∀ l, (s.pc p).spinning = some l → (s.lock l).lk.holding p = true := fun l hl => by
    simp [hspin l hl, Spinlock.heldBy, Spinlock.holding]
  unfold exec at h
  cases hpc : s.pc p <;>
    simp only [hpc, reduceCtorEq, Option.some.injEq, Option.ite_none_left_eq_some] at h <;>
    rw [hpc] at hhold
  case acquire l =>
    obtain ⟨hfree, rfl⟩ := h
    exact .enter p l hpc (by simpa using hfree) rfl rfl (by simp) hothers
  case holding l =>
    obtain ⟨-, rfl⟩ := h
    exact .execHolding hpc hothers
  case release l =>
    obtain ⟨hfree, rfl⟩ := h
    exact .execRelease hpc (by simpa using hfree) hothers
  case sleep l =>
    rw [releaseThen, if_pos (hhold l rfl)] at h
    subst h
    exact .sleep p l hpc rfl rfl (by simp) hothers
  all_goals subst h
  case test l =>
    refine .inside p l (by rw [hpc]; rfl) rfl rfl ?_ ?_ hothers
    · split_ifs <;> simp [Pc.spinning]
    · split_ifs with hl
      · simp
      · simpa using hl
  case register l =>
    exact .inside p l (by rw [hpc]; rfl) rfl rfl (by simp [execRegister, Pc.spinning])
      (by simp [execRegister]) hothers
  case walkStart l =>
    exact .inside p l (by rw [hpc]; rfl) rfl rfl (by simp [Pc.spinning]) (by simp) hothers
  case recover l r =>
    refine .inside p l (by rw [hpc]; rfl) rfl rfl ?_ ?_ hothers <;>
      cases hr : (recoverRound s.proc s.lock p l r).2 <;> simp [execRecovery, hr, Pc.spinning]
  case trap t =>
    obtain ⟨hlock, hheld, -⟩ := execTrap_frame s p t
    rw [hpc] at hnext
    generalize hc : (execTrap s p t).pc p = c at hnext
    refine .leave hlock hheld hothers ?_ ?_ <;> rw [hc] <;> cases hnext <;> simp [Pc.spinning]
  case walk l o n => exact .execWalk hpc hothers
  case take l => exact .execTake hpc (hhold l rfl) hothers
  case init c w =>
    refine .init p ok c w rfl hpc rfl (by cases w <;> rfl) (hothers.outside ?_)
    cases hw : w.next <;> cases c <;> simp [Pc.Outside, DemoCall.entry, Pc.spinning]
  case ret r =>
    split_ifs at hothers ⊢ <;> exact .leave rfl rfl hothers (by simp [Pc.spinning]) (by simp)
  case exit status =>
    split_ifs at hothers ⊢ <;>
      exact .leave rfl rfl hothers (by simp [State.panic, hpc, Pc.spinning])
        (by simp [State.panic, hpc])
  case ensure c =>
    split_ifs at hothers ⊢ <;> cases c <;>
      exact .leave rfl rfl hothers (by simp [DemoCall.entry, Pc.spinning])
        (by simp [DemoCall.entry])
  case fork => exact .execFork hothers
  case wait => exact .execWait hothers
  all_goals exact .leave rfl rfl hothers (by simp [Pc.spinning]) (by simp)

/-- An action follows the protocol, if the spinlocks are held by the processes that should hold
them. -/
theorem step_lockStep {a : Act K}
    (hspin : ∀ p l, (s.pc p).spinning = some l → (s.lock l).lk = .heldBy p)
    (h : safeStep s a = some s') : LockStep s a s' := by
  have hpc : ∀ q, (∀ ok, a ≠ .exec q ok) → s'.pc q = s.pc q ∨ (s'.pc q).Outside := by
    intro q hq
    cases step_moved h q with
    | stay hpc => exact .inl hpc
    | exec ok ha hnext => exact absurd ha (hq ok)
    | call c ha huser hpc =>
      rw [hpc]
      refine .inr ?_
      cases c with
      | dlockacq lockid | dlockrel lockid =>
        cases hd : demoLock lockid <;> simp [Call.entry, hd, Pc.Outside, Pc.spinning]
      | _ => simp [Call.entry, Pc.Outside, Pc.spinning]
    | timer cpu0 ha huser hpc | exit ha huser hpc | alloc hunused hpc =>
      rw [hpc]; exact .inr ⟨rfl, by simp⟩
  obtain ⟨h, hn⟩ := safeStep_eq_some.mp h
  cases step_cases h with
  | exec p ok s' hrun h => exact exec_lockStep (hspin p) h hn
  | sched | call | fault | idle =>
    exact .outside rfl (fun _ _ h => h) fun q => hpc q (by simp)
  | timer p cpu0 =>
    obtain ⟨hlock, hheld, -⟩ := timer_frame s p cpu0
    exact .outside hlock (fun q i hq => hheld ▸ hq) fun q => hpc q (by simp)

/-! ## The invariant is kept -/

/-- `initsleeplock` writes to a demo lock only while it is not in use: it is not locked, and its
spinlock is not held. -/
def InitsIdle (s : State K) : Act K → Prop
  | .exec p _ => ∀ i ∈ (s.pc p).initTarget,
      (s.lock (.demo i)).locked = false ∧ (s.lock (.demo i)).lk.locked = false
  | _ => True

/-- A lock whose spinlock is held is not written to by `initsleeplock`. -/
theorem InitStore.exec_lock_of_inUse {p : Slot} {ok : Bool} {c : DemoCall} {w : InitStore}
    (hpc : s.pc p = .init c w) (ha : InitsIdle s (.exec p ok)) {l : Lock K}
    (hl : (s.lock l).locked = true ∨ (s.lock l).lk.locked = true) :
    (w.exec s).lock l = s.lock l := by
  rcases w.exec_lock s l with he | ⟨⟨i, hi, rfl⟩, -⟩
  · exact he
  · obtain ⟨hunlocked, hfree⟩ := ha i (by rw [hpc]; exact hi)
    rcases hl with hl | hl
    · rw [hunlocked] at hl; cases hl
    · rw [hfree] at hl; cases hl

section Step

variable {a : Act K} (hI : LockInv s) (ha : InitsIdle s a)
include hI ha

/-- The spinlocks stay with the processes that should hold them. -/
theorem LockInv.spin_step (h : LockStep s a s') {q : Slot} {l : Lock K}
    (hq : (s'.pc q).spinning = some l) : (s'.lock l).lk = .heldBy q := by
  have hstay : s'.pc q = s.pc q ∨ (s'.pc q).Outside → (s.pc q).spinning = some l := by
    rintro (hpc | ⟨hpc, -⟩)
    · rw [← hpc]; exact hq
    · rw [hpc] at hq; cases hq
  -- The process that acts is another one, if it holds no spinlock after the step.
  have hne : ∀ {p}, (s'.pc p).spinning = none → q ≠ p := by
    rintro p hp rfl
    rw [hp] at hq
    cases hq
  cases h with
  | outside hlock hheld hpc => rw [hlock]; exact hI.spin q l (hstay (hpc q))
  | enter p l' hpc hfree hlock hheld hpc' hothers =>
    by_cases hqp : q = p
    · subst hqp
      obtain rfl : l' = l := by simpa [hpc', Pc.spinning] using hq
      simp [hlock]
    · have hsp := hstay (hothers q hqp)
      have hl : l ≠ l' := by
        rintro rfl
        rw [hI.spin_locked hsp] at hfree
        cases hfree
      rw [hlock, update_of_ne hl]
      exact hI.spin q l hsp
  | inside p l' hpc hlock hheld hpc' htake hothers =>
    rw [hlock]
    by_cases hqp : q = p
    · subst hqp
      rw [hpc'] at hq
      exact hI.spin q l (hpc.trans hq)
    · exact hI.spin q l (hstay (hothers q hqp))
  | sleep p l' hpc hlock hheld hpc' hothers | take p l' hpc hlock hheld hpc' hothers =>
    have hqp : q ≠ p := hne (by rw [hpc']; rfl)
    have hsp := hstay (hothers q hqp)
    have hl : l ≠ l' := by
      rintro rfl
      exact hqp (hI.spin_unique hsp (by rw [hpc]; rfl))
    rw [hlock, update_of_ne hl]
    exact hI.spin q l hsp
  | holding p l' hpc hlock hheld howner hpc' hothers =>
    rw [hlock]
    exact hI.spin q l (hstay (hothers q (hne (by rw [hpc']; rfl))))
  | release p l' hpc hfree hlock hheld hpc' hothers =>
    have hsp := hstay (hothers q (hne (by rw [hpc']; rfl)))
    have hl : l ≠ l' := by
      rintro rfl
      rw [hI.spin_locked hsp] at hfree
      cases hfree
    rw [hlock, update_of_ne hl]
    exact hI.spin q l hsp
  | init p ok c w hact hpc hlock hheld hpc' =>
    subst hact
    have hsp := hstay (hpc' q)
    rw [hlock, w.exec_lock_of_inUse hpc ha (.inr (hI.spin_locked hsp))]
    exact hI.spin q l hsp

/-- A process that is about to take a lock after a step finds it free. -/
theorem LockInv.take_step (h : LockStep s a s') {q : Slot} {l : Lock K} (hq : s'.pc q = .take l) :
    (s'.lock l).locked = false := by
  have hstay : s'.pc q = s.pc q ∨ (s'.pc q).Outside → s.pc q = .take l := by
    rintro (hpc | ⟨hpc, -⟩)
    · rw [← hpc]; exact hq
    · rw [hq] at hpc; cases hpc
  have hsp : s.pc q = .take l → (s.pc q).spinning = some l := fun hpc => by rw [hpc]; rfl
  have hne : ∀ {p c}, s'.pc p = c → c ≠ .take l → q ≠ p := by
    rintro p c hp hc rfl
    exact hc (hp.symm.trans hq)
  cases h with
  | outside hlock hheld hpc => rw [hlock]; exact hI.take q l (hstay (hpc q))
  | enter p l' hpc hfree hlock hheld hpc' hothers | sleep p l' hpc hlock hheld hpc' hothers =>
    have hl := hI.take q l (hstay (hothers q (hne hpc' (by simp))))
    by_cases hll : l = l'
    · subst hll; simp [hlock, hl]
    · rw [hlock, update_of_ne hll]; exact hl
  | inside p l' hpc hlock hheld hpc' htake hothers =>
    rw [hlock]
    by_cases hqp : q = p
    · subst hqp
      obtain rfl : l = l' := by simpa [hq, Pc.spinning] using hpc'
      exact htake hq
    · exact hI.take q l (hstay (hothers q hqp))
  | take p l' hpc hlock hheld hpc' hothers =>
    -- The lock taken is another one: two processes do not hold its spinlock.
    have hqp : q ≠ p := hne hpc' (by simp)
    have htake := hstay (hothers q hqp)
    have hl : l ≠ l' := by
      rintro rfl
      exact hqp (hI.spin_unique (hsp htake) (by rw [hpc]; rfl))
    rw [hlock, update_of_ne hl]
    exact hI.take q l htake
  | holding p l' hpc hlock hheld howner hpc' hothers =>
    rw [hlock]
    exact hI.take q l (hstay (hothers q (hne hpc' (by simp))))
  | release p l' hpc hfree hlock hheld hpc' hothers =>
    by_cases hll : l = l'
    · subst hll; simp [hlock, SleepLock.zero]
    · rw [hlock, update_of_ne hll]
      exact hI.take q l (hstay (hothers q (hne hpc' (by simp))))
  | init p ok c w hact hpc hlock hheld hpc' =>
    subst hact
    have htake := hstay (hpc' q)
    rw [hlock, w.exec_lock_of_inUse hpc ha (.inr (hI.spin_locked (hsp htake)))]
    exact hI.take q l htake

/-- A lock keeps its owner, unless the owner releases it. -/
theorem LockInv.owner_step (hP : PidInv s) (h : LockStep s a s') {q : Slot} {l : Lock K}
    (hown : Owns s q l) :
    ((s'.lock l).locked = true ∧ (s'.lock l).pid = (s.lock l).pid) ∨
      s'.pc q = .ret 0 ∧ ∀ i, l = .demo i → s'.held q i = false := by
  cases h with
  | outside hlock | inside p l' hpc hlock | holding p l' hpc hlock =>
    rw [hlock]; exact .inl ⟨hown.1, rfl⟩
  | enter p l' hpc hfree hlock | sleep p l' hpc hlock =>
    left
    rw [hlock]
    by_cases hll : l = l'
    · subst hll; simp [hown.1]
    · simp [hll, hown.1]
  | take p l' hpc hlock hheld hpc' hothers =>
    left
    have hll : l ≠ l' := by
      rintro rfl
      exact absurd hown.1 (by simp [hI.take p l hpc])
    rw [hlock, update_of_ne hll]
    exact ⟨hown.1, rfl⟩
  | release p l' hpc hfree hlock hheld hpc' hothers =>
    by_cases hll : l = l'
    · subst hll
      obtain rfl : q = p := hown.unique hP (hI.release p l hpc)
      refine .inr ⟨hpc', fun i hi => Bool.eq_false_iff.mpr fun hh => ?_⟩
      exact (hheld q i hh).2 ⟨rfl, hi⟩
    · left
      rw [hlock, update_of_ne hll]
      exact ⟨hown.1, rfl⟩
  | init p ok c w hact hpc hlock hheld hpc' =>
    subst hact
    left
    rw [hlock, w.exec_lock_of_inUse hpc ha (.inl hown.1)]
    exact ⟨hown.1, rfl⟩

/-- A process that is alive, or to which a demo lock is still given, owns the locks that it owned
and has not released. -/
theorem LockInv.owns_step (hP : PidInv s) (he : Effect s a s') (h : LockStep s a s') {q : Slot}
    {l : Lock K} (hown : Owns s q l)
    (hpc : s'.pc q ≠ .ret 0 ∨ ∃ i, l = .demo i ∧ s'.held q i = true)
    (hq : (s.proc q).Alive ∨ ∃ i, s'.held q i = true) : Owns s' q l := by
  have hlock : (s'.lock l).locked = true ∧ (s'.lock l).pid = (s.lock l).pid := by
    rcases hI.owner_step ha hP h hown with hlock | ⟨hret, hheld⟩
    · exact hlock
    · rcases hpc with hpc | ⟨i, hi, hh⟩
      · exact absurd hret hpc
      · rw [hheld i hi] at hh; cases hh
  rcases he.pid q with ⟨hpid, hunused⟩ | ⟨hunused, -⟩ | ⟨hdead, -, hheld⟩
  · exact ⟨hlock.1, fun hu => hown.2.1 (hunused.mp hu), by rw [hlock.2, hpid, hown.2.2]⟩
  · exact absurd hunused hown.2.1
  · exfalso
    rcases hq with hq | ⟨i, hi⟩
    · exact hdead hq
    · rcases hheld with hu | hheld
      · exact hown.2.1 hu
      · rw [hheld i] at hi; cases hi

end Step

/-- A process that is about to release a lock was so before, or has just found that it holds it. -/
theorem LockStep.release_of {a : Act K} (h : LockStep s a s') {q : Slot} {l : Lock K}
    (hq : s'.pc q = .release l) :
    s.pc q = .release l ∨
      s.pc q = .holding l ∧ (s.lock l).locked = true ∧ (s.lock l).pid = (s.proc q).pid := by
  have hstay : s'.pc q = s.pc q ∨ (s'.pc q).Outside → s.pc q = .release l := by
    rintro (hpc | ⟨-, hpc⟩)
    · rw [← hpc]; exact hq
    · exact absurd hq (hpc l)
  have hother : ∀ {p}, OthersStay s s' p → s'.pc p ≠ .release l → s.pc q = .release l := by
    intro p hothers hp
    exact hstay (hothers q fun he => hp (he ▸ hq))
  cases h with
  | outside hlock hheld hpc => exact .inl (hstay (hpc q))
  | init p ok c w hact hpc hlock hheld hpc' => exact .inl (hstay (hpc' q))
  | enter p l' hpc hfree hlock hheld hpc' hothers | sleep p l' hpc hlock hheld hpc' hothers
  | take p l' hpc hlock hheld hpc' hothers | release p l' hpc hfree hlock hheld hpc' hothers =>
    exact .inl (hother hothers (by simp [hpc']))
  | inside p l' hpc hlock hheld hpc' htake hothers =>
    exact .inl (hother hothers fun he => by rw [he] at hpc'; cases hpc')
  | holding p l' hpc hlock hheld howner hpc' hothers =>
    by_cases hqp : q = p
    · subst hqp
      obtain rfl : l' = l := by simpa [hq] using hpc'.symm
      exact .inr ⟨hpc, howner⟩
    · exact .inl (hstay (hothers q hqp))

/-- A process that has a demo lock had it before, or has just taken it. -/
theorem LockStep.held_of {a : Act K} (h : LockStep s a s') {q : Slot} {i : Fin 2}
    (hq : s'.held q i = true) :
    s.held q i = true ∨ s.pc q = .take (.demo i) ∧ (s'.lock (.demo i)).locked = true ∧
      (s'.lock (.demo i)).pid = (s.proc q).pid := by
  cases h with
  | outside hlock hheld hpc => exact .inl (hheld q i hq)
  | enter p l' hpc hfree hlock hheld | inside p l' hpc hlock hheld | sleep p l' hpc hlock hheld
  | holding p l' hpc hlock hheld | init p ok c w hact hpc hlock hheld => exact .inl (hheld ▸ hq)
  | take p l' hpc hlock hheld hpc' hothers =>
    rcases hheld q i hq with hq | ⟨rfl, rfl⟩
    · exact .inl hq
    · exact .inr ⟨hpc, by simp [hlock]⟩
  | release p l' hpc hfree hlock hheld hpc' hothers => exact .inl (hheld q i hq).1

/-- Every action that writes to idle locks only keeps the invariant of the locks. -/
theorem LockInv.step (hI : LockInv s) (hP : PidInv s) (hL : LocalInv s) {a : Act K}
    (ha : InitsIdle s a) (hs : safeStep s a = some s') : LockInv s' := by
  have hls := step_lockStep hI.spin hs
  have he := step_effect hL.fork hs
  refine ⟨fun q l => hI.spin_step ha hls, fun q l => hI.take_step ha hls, fun q l hq => ?_,
    fun q i hq => ?_⟩
  · have hret : s'.pc q ≠ .ret 0 := by simp [hq]
    rcases hls.release_of hq with hpc | ⟨hpc, hlocked, hpid⟩
    · exact hI.owns_step ha hP he hls (hI.release q l hpc) (.inl hret)
        (.inl (hL.alive (by rw [hpc]; rfl)))
    · have halive : (s.proc q).Alive := hL.alive (by rw [hpc]; rfl)
      exact hI.owns_step ha hP he hls ⟨hlocked, halive.1, hpid⟩ (.inl hret) (.inl halive)
  · rcases hls.held_of hq with hheld | ⟨hpc, hlocked, hpid⟩
    · exact hI.owns_step ha hP he hls (hI.held q i hheld) (.inr ⟨i, rfl, hq⟩) (.inr ⟨i, hq⟩)
    · have halive : (s.proc q).Alive := hL.alive (by rw [hpc]; rfl)
      rcases he.pid q with ⟨hsame, hunused⟩ | ⟨hunused, -⟩ | ⟨hdead, -⟩
      · exact ⟨hlocked, fun hu => halive.1 (hunused.mp hu), by rw [hpid, hsame]⟩
      · exact absurd hunused halive.1
      · exact absurd halive hdead

/-- The invariant of the locks holds in every state reached while `initsleeplock` writes to idle
locks only. -/
theorem lockInv_of_reachVia (h : ReachVia safeStep InitsIdle boot s) : LockInv s :=
  h.invariant lockInv_boot fun _ _ _ hr hI ha hs =>
    hI.step (pidInv_of_reachVia hr) (localInv_of_reachVia hr) ha hs

/-- **Mutual exclusion of the demo locks.** In every state reached while `initsleeplock` writes to
idle locks only, at most one process has been given a demo lock and has not given it back. -/
theorem demoLock_exclusive (h : ReachVia step InitsIdle boot s) (i : Fin 2) (p q : Slot)
    (hp : s.held p i = true) (hq : s.held q i = true) : p = q := by
  -- The step by which a recovery goes astray gives nobody a lock.
  obtain ⟨s₀, hr, hheld⟩ : ∃ s₀, ReachVia safeStep InitsIdle boot s₀ ∧ s.held = s₀.held := by
    rcases safe_or_stray h with hr | ⟨s₀, a, hr, -, hs⟩
    · exact ⟨s, hr, rfl⟩
    · exact ⟨s₀, hr, by cases hs; rfl⟩
  rw [hheld] at hp hq
  have hI := lockInv_of_reachVia hr
  exact (hI.held p i hp).unique (pidInv_of_reachVia hr) (hI.held q i hq)

instance (s : State K) : ∀ a, Decidable (InitsIdle s a)
  | .exec _ _ => inferInstanceAs (Decidable (∀ _ ∈ _, _ ∧ _))
  | .sched _ | .call _ _ | .timer _ _ | .fault _ | .idle => .isTrue trivial

set_option maxRecDepth 10000 in
/-- While the parent of `deadlock_demo` waits for lock 1, the child is the only one that has it. -/
theorem demoLock_exclusive_parentWaits : ∃ s : State Empty, ReachVia step InitsIdle boot s ∧
    s.held 1 0 = true ∧ s.pc 1 = .asleep (.demo 1) ∧ s.held 2 1 = true ∧
    ∀ q, s.held q 1 = true → q = 2 := by
  obtain ⟨s, hs, hparent, hpc, hchild⟩ := exists_of_run step InitsIdle (boot : State Empty)
    parentWaits (fun s => s.held 1 0 = true ∧ s.pc 1 = .asleep (.demo 1) ∧ s.held 2 1 = true)
    (by decide +kernel)
  exact ⟨s, hs, hparent, hpc, hchild, fun q hq => demoLock_exclusive hs 1 q 2 hq hchild⟩

/-- The process in slot 1 forks a child, in slot 2, and sees the flag of `ensure_demo_locks_inited`
clear. The child initialises the locks and takes lock 0, and then the parent goes on. -/
def initRace : List (Act Empty) :=
  List.flatten [
    [.sched 0, .call 0 .fork], List.replicate 4 (.exec 0 true),
    [.sched 1, .call 1 .fork], List.replicate 4 (.exec 1 true),
    [.call 1 (.dlockacq 0), .exec 1 true],
    [.sched 2, .call 2 (.dlockacq 0)], List.replicate 14 (.exec 2 true),
    List.replicate 13 (.exec 1 true)]

set_option maxRecDepth 10000 in
/-- **A demo lock has two holders** after this race: both processes are back in user mode from a
`dlockacq(0)` that returned 0, and neither has released lock 0. -/
theorem initRace_two_holders : ∃ s : State Empty, Reach step boot s ∧
    s.held 1 0 = true ∧ s.held 2 0 = true ∧ s.pc 1 = .user ∧ s.pc 2 = .user :=
  exists_of_run step (fun _ _ => True) (boot : State Empty) initRace _ (by decide +kernel)

end SustainableXv6
