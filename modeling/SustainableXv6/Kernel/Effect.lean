import SustainableXv6.Kernel.Local

/-!
# What a step does to pids, waits, and owners

The wait-for graph of the sleep locks reads the pid of a process, whether its slot is in use, the
lock that it waits for, and the holder of each lock. `Effect` lists what an action can do to these,
and `step_effect` says that a safe step does nothing else. From it, the pids of the processes in use
are distinct in every state reached (`pidInv_of_reachVia`), so that a lock has one owner, which
`pid2proc` finds.
-/

namespace SustainableXv6

open Function Lib

/-- `k'` is the lock `k` after a step that does not take it: it has kept its holder or been
released. -/
def SleepLock.Keeps (k k' : SleepLock) : Prop :=
  k'.locked = k.locked ∧ k'.pid = k.pid ∨ k'.locked = false ∧ k'.pid = 0

/-- A lock is itself. -/
theorem SleepLock.Keeps.refl (k : SleepLock) : k.Keeps k := .inl ⟨rfl, rfl⟩

variable {K : Type} {s s' : State K}

/-! ## Pids -/

/-- The pids of the processes in use are distinct and have been given out, as have the pids in the
locks. -/
structure PidInv (s : State K) : Prop where
  next : 0 < s.nextpid
  lock : ∀ l, (s.lock l).pid < s.nextpid
  pos : ∀ q, (s.proc q).state ≠ .unused → 0 < (s.proc q).pid
  lt : ∀ q, (s.proc q).state ≠ .unused → (s.proc q).pid < s.nextpid
  inj : ∀ p q, (s.proc p).state ≠ .unused → (s.proc q).state ≠ .unused →
    (s.proc p).pid = (s.proc q).pid → p = q

/-- After booting, the first process has the first pid. -/
theorem pidInv_boot : PidInv (boot : State K) := by
  have huse : ∀ q, ((boot : State K).proc q).state ≠ .unused → q = initproc := by
    intro q hq
    by_contra hne
    exact hq (by simp [boot, hne, Proc.zero])
  refine ⟨by simp [boot], by simp [boot, SleepLock.zero], fun q hq => ?_, fun q hq => ?_,
    fun p q hp hq _ => ?_⟩
  · simp [huse q hq, boot, Proc.first, Proc.alloc]
  · simp [huse q hq, boot, Proc.first, Proc.alloc]
  · rw [huse p hp, huse q hq]

/-! ## Effects -/

variable [DecidableEq K]

/-- What the action `a` does to the pids, the waits, and the locks. -/
inductive Effect (s : State K) (a : Act K) (s' : State K) : Prop
  /-- At most, locks are released. -/
  | quiet (hproc : ∀ q, (s.proc q).SameId (s'.proc q)) (hlock : ∀ l, (s.lock l).Keeps (s'.lock l))
      (hnext : s'.nextpid = s.nextpid)
  /-- A store of `ensure_demo_locks_inited` is executed. -/
  | init (p : Slot) (ok : Bool) (c : DemoCall) (w : InitStore) (ha : a = .exec p ok)
      (hpc : s.pc p = .init c w)
      (hproc : s'.proc = s.proc) (hlock : s'.lock = (w.exec s).lock)
      (hnext : s'.nextpid = s.nextpid)
  /-- A wait is registered. -/
  | register (p : Slot) (l : Lock K) (hpc : s.pc p = .register l) (hs : s' = execRegister s p l)
  /-- A walk returns 1. -/
  | report (p : Slot) (l : Lock K) (owner_pid : ℤ) (hops : ℕ)
      (hpc : s.pc p = .walk l owner_pid hops) (hpc' : s'.pc p = .recover l .start)
      (hproc : s'.proc = update s.proc p
        { s.proc p with deadlock_reports := (s.proc p).deadlock_reports + 1 })
      (hlock : s'.lock = s.lock) (hnext : s'.nextpid = s.nextpid)
  /-- A lock is taken. -/
  | take (p : Slot) (l : Lock K) (hrun : (s.proc p).state = .running) (hpc : s.pc p = .take l)
      (hproc : s'.proc = update s.proc p { s.proc p with waiting_for_lock := none })
      (hlock : ∀ l' ≠ l, s'.lock l' = s.lock l')
      (htaken : (s'.lock l).locked = true ∧ (s'.lock l).pid = (s.proc p).pid)
      (hpc' : s'.pc p = .ret 0 ∨ s'.pc p = .panicked) (hnext : s'.nextpid = s.nextpid)
  /-- A process is allocated. -/
  | alloc (q : Slot) (name : String) (hunused : (s.proc q).state = .unused)
      (hproc : s'.proc = update s.proc q { (s.proc q).alloc s.nextpid with name := name })
      (hlock : s'.lock = s.lock) (hnext : s'.nextpid = s.nextpid + 1)
  /-- A slot is freed. -/
  | freed (q : Slot) (old : Proc K) (hdead : ¬ (s.proc q).Alive)
      (hproc : s'.proc = update s.proc q (freeproc old)) (hlock : s'.lock = s.lock)
      (hheld : (s.proc q).state = .unused ∨ ∀ i, s'.held q i = false)
      (hnext : s.nextpid ≤ s'.nextpid)
  /-- A process ends. -/
  | exited (p : Slot) (ok : Bool) (status : ℤ) (ha : a = .exec p ok)
      (hrun : (s.proc p).state = .running) (hpc : s.pc p = .exit status)
      (hs : s' = s.setTable (kexit s.proc p status))

/-- A step that changes no process as the sleep locks see it, and no lock. -/
theorem Effect.of_passive {a : Act K} (hproc : ∀ q, (s.proc q).SameId (s'.proc q))
    (hlock : s'.lock = s.lock) (hnext : s'.nextpid = s.nextpid) : Effect s a s' :=
  .quiet hproc (fun l => by rw [hlock]; exact .refl _) hnext

/-- A step that changes no process and no lock. -/
theorem Effect.of_eq {a : Act K} (hproc : s'.proc = s.proc) (hlock : s'.lock = s.lock)
    (hnext : s'.nextpid = s.nextpid) : Effect s a s' :=
  .of_passive (fun q => by rw [hproc]; exact (Proc.Passive.refl _).toSameId) hlock hnext

/-- A lock whose spinlock only changes keeps its holder. -/
theorem SleepLock.Keeps.update {lk : Locks K} {l : Lock K} {k : SleepLock} (h : (lk l).Keeps k) :
    ∀ r, (lk r).Keeps (update lk l k r) :=
  (forall_update_iff lk fun r x => (lk r).Keeps x).mpr ⟨h, fun _ _ => .refl _⟩

section Exec

variable {p : Slot}

/-- A round of the walk counts a report at most. -/
theorem Effect.execWalk {l : Lock K} {owner_pid : ℤ} {hops : ℕ}
    (hpc : s.pc p = .walk l owner_pid hops) (ok : Bool) :
    Effect s (.exec p ok) (execWalk s p l owner_pid hops) := by
  unfold SustainableXv6.execWalk
  cases walkRound s.proc s.lock p owner_pid hops with
  | next o' => exact .of_eq rfl rfl rfl
  | done b =>
    cases b with
    | true => exact .report p l owner_pid hops hpc (by simp) rfl rfl rfl
    | false => exact .of_eq rfl rfl rfl

/-- The lock is taken, also if `release` panics then. -/
theorem Effect.execTake (hrun : (s.proc p).state = .running) {l : Lock K} (hpc : s.pc p = .take l)
    (ok : Bool) : Effect s (.exec p ok) (execTake s p l) := by
  unfold SustainableXv6.execTake releaseThen
  split_ifs
  · exact .take p l hrun hpc rfl (fun l' hl' => by simp [hl']) (by simp) (by simp) rfl
  · exact .take p l hrun hpc rfl (fun l' hl' => by simp [State.panic, hl'])
      (by simp [State.panic]) (by simp [State.panic]) rfl

/-- `holdingsleep` changes no process and no lock. -/
theorem Effect.execHolding (l : Lock K) (ok : Bool) :
    Effect s (.exec p ok) (execHolding s p l) := by
  unfold SustainableXv6.execHolding
  split_ifs
  · exact .of_eq rfl rfl rfl
  · split <;> exact .of_eq rfl rfl rfl

/-- `allocproc` uses up a pid, also if the slot is freed again. -/
theorem Effect.execFork (ok : Bool) : Effect s (.exec p ok) (execFork s p ok) := by
  unfold SustainableXv6.execFork
  split
  · exact .of_eq rfl rfl rfl
  · rename_i np hnp
    have hun : (s.proc np).state = .unused := by simpa using findSlot_some hnp
    split_ifs
    · exact .alloc np _ hun rfl rfl rfl
    · exact .freed np _ (fun ha => ha.1 hun) rfl rfl (.inl hun) (by dsimp only; omega)

/-- The scan of `kwait` frees a zombie at most. -/
theorem Effect.execWait (hrun : (s.proc p).state = .running) (ok : Bool) :
    Effect s (.exec p ok) (execWait s p ok) := by
  unfold SustainableXv6.execWait
  split
  · rename_i pp hpp
    split_ifs
    · exact .freed pp _ (fun ha => ha.2 (zombieChild_some hpp)) rfl rfl (.inr fun i => by simp)
        le_rfl
    · exact .of_eq rfl rfl rfl
  · split_ifs
    · refine .of_passive (Proc.SameId.update ?_) rfl rfl
      exact ⟨rfl, by simp [hrun], by simp [hrun], rfl, rfl, .inl rfl⟩
    · exact .of_eq rfl rfl rfl

end Exec

/-- What a step of the process `p` does to the pids, the waits, and the locks. -/
theorem exec_effect (hF : ForkInv s) {p : Slot} {ok : Bool} (hrun : (s.proc p).state = .running)
    (h : exec s p ok = some s') (hn : s'.astray = false) : Effect s (.exec p ok) s' := by
  unfold exec at h
  cases hpc : s.pc p <;>
    simp only [hpc, reduceCtorEq, Option.some.injEq, Option.ite_none_left_eq_some] at h
  case acquire l =>
    obtain ⟨-, rfl⟩ := h
    exact .quiet (fun q => (Proc.Passive.refl _).toSameId)
      (SleepLock.Keeps.update (.inl ⟨rfl, rfl⟩)) rfl
  case holding l =>
    obtain ⟨-, rfl⟩ := h
    exact .execHolding l ok
  case release l =>
    obtain ⟨-, rfl⟩ := h
    exact .quiet (fun q => (wakeup_passive _ _ _ q).toSameId)
      (SleepLock.Keeps.update (.inr ⟨rfl, rfl⟩)) rfl
  case register l => exact .register p l hpc h.symm
  all_goals subst h
  case ret r => split_ifs <;> exact .of_eq rfl rfl rfl
  case exit status =>
    split_ifs
    · exact .of_eq rfl rfl rfl
    · exact .exited p ok status rfl hrun hpc rfl
  case init c w =>
    refine .init p ok c w rfl hpc (w.exec_proc s).1 rfl ?_
    cases w <;> rfl
  case walk l o n => exact .execWalk hpc ok
  case trap t =>
    obtain ⟨hlock, -, hnext, -⟩ := execTrap_frame s p t
    exact .of_passive (execTrap_sameId hrun t) hlock hnext
  case recover l r => exact .of_passive (fun q => (recoverRound_passive hn q).toSameId) rfl rfl
  case sleep l =>
    unfold releaseThen
    split_ifs
    · refine .quiet (Proc.SameId.update ?_) (SleepLock.Keeps.update (.inl ⟨rfl, rfl⟩)) rfl
      exact ⟨rfl, by simp [hrun], by simp [hrun], rfl, rfl, .inl rfl⟩
    · exact .of_eq rfl rfl rfl
  case take l => exact .execTake hrun hpc ok
  case fork => exact .execFork ok
  case asleep l | waitAsleep | forkParent np =>
    exact .of_passive (Proc.SameId.update ⟨rfl, Iff.rfl, Iff.rfl, rfl, rfl, .inl rfl⟩) rfl rfl
  case forkRun np =>
    have hused := hF.used p np (by rw [hpc]; rfl)
    refine .of_passive (Proc.SameId.update ?_) rfl rfl
    exact ⟨rfl, by simp [hused], by simp [hused], rfl, rfl, .inl rfl⟩
  case wait => exact .execWait hrun ok
  case kill pid => exact .of_passive (fun q => (kkill_passive _ _ q).toSameId) rfl rfl
  case checkDeadlock => exact .of_passive (fun q => (checkDeadlock_passive _ q).toSameId) rfl rfl
  all_goals exact .of_eq rfl rfl rfl

/-- What an action does to the pids, the waits, and the locks. -/
theorem step_effect (hF : ForkInv s) {a : Act K} (h : safeStep s a = some s') : Effect s a s' := by
  obtain ⟨h, hn⟩ := safeStep_eq_some.mp h
  cases step_cases h with
  | sched p hrun => exact .of_passive (fun q => (switchTo_passive hrun q).toSameId) rfl rfl
  | call | idle => exact .of_eq rfl rfl rfl
  | exec p ok s' hrun h => exact exec_effect hF hrun h hn
  | timer p cpu0 hrun =>
    obtain ⟨hlock, -, hnext, -⟩ := timer_frame s p cpu0
    exact .of_passive (timer_sameId cpu0 hrun) hlock hnext
  | fault p =>
    exact .of_passive (Proc.SameId.update ⟨rfl, Iff.rfl, Iff.rfl, rfl, rfl, .inl rfl⟩) rfl rfl

/-! ## What becomes of pids and locks -/

/-- A slot keeps its pid, or is allocated with the next one, or is freed. -/
theorem Effect.pid {a : Act K} (h : Effect s a s') (q : Slot) :
    ((s'.proc q).pid = (s.proc q).pid ∧
      ((s'.proc q).state = .unused ↔ (s.proc q).state = .unused)) ∨
    ((s.proc q).state = .unused ∧ (s'.proc q).pid = s.nextpid ∧ s'.nextpid = s.nextpid + 1 ∧
      s'.lock = s.lock ∧ ∀ r ≠ q, s'.proc r = s.proc r) ∨
    (¬ (s.proc q).Alive ∧ (s'.proc q).state = .unused ∧
      ((s.proc q).state = .unused ∨ ∀ i, s'.held q i = false)) := by
  cases h with
  | quiet hproc hlock hnext => exact .inl ⟨(hproc q).pid, (hproc q).unused⟩
  | init p ok c w ha hpc hproc hlock hnext => rw [hproc]; exact .inl ⟨rfl, Iff.rfl⟩
  | register p l hpc hs =>
    subst hs
    by_cases hq : q = p <;> simp [execRegister, hq]
  | report p l o n hpc hpc' hproc hlock hnext | take p l hrun hpc hproc hlock htaken hpc' hnext =>
    rw [hproc]
    by_cases hq : q = p <;> simp [hq]
  | alloc p name hunused hproc hlock hnext =>
    rw [hproc]
    by_cases hq : q = p
    · subst hq
      refine .inr (.inl ⟨hunused, by simp [Proc.alloc], hnext, hlock, fun r hr => ?_⟩)
      exact update_of_ne hr _ _
    · exact .inl (by simp [hq])
  | freed p old hdead hproc hlock hheld hnext =>
    rw [hproc]
    by_cases hq : q = p
    · subst hq
      exact .inr (.inr ⟨hdead, by simp [freeproc], hheld⟩)
    · exact .inl (by simp [hq])
  | exited p ok status ha hrun hpc hs =>
    subst hs
    by_cases hq : q = p
    · subst hq
      obtain ⟨hz, hpid, -⟩ := kexit_self s.proc q status
      exact .inl ⟨hpid, by rw [State.setTable_proc, hz, hrun]; simp⟩
    · have hpas := kexit_passive_of_ne s.proc p status hq
      exact .inl ⟨hpas.pid, hpas.unused⟩

/-- Pids are given out in order. -/
theorem Effect.nextpid_le {a : Act K} (h : Effect s a s') : s.nextpid ≤ s'.nextpid := by
  cases h with
  | quiet hproc hlock hnext | init p ok c w ha hpc hproc hlock hnext
  | report p l o n hpc hpc' hproc hlock hnext | take p l hrun hpc hproc hlock htaken hpc' hnext
  | alloc p name hunused hproc hlock hnext | freed p old hdead hproc hlock hheld hnext => omega
  | register p l hpc hs | exited p ok status ha hrun hpc hs => rw [hs]; exact le_rfl

/-- The demo lock that a store of `ensure_demo_locks_inited` writes to. -/
def InitStore.target : InitStore → Option (Fin 2)
  | .spinLocked i | .spinCpu i | .locked i | .pid i => some i
  | .flag => none

/-- The demo lock that `initsleeplock` is about to write to at a place. -/
def Pc.initTarget : Pc K → Option (Fin 2)
  | .init _ w => w.target
  | _ => none

/-- A store of `ensure_demo_locks_inited` writes to its lock only, locks nothing, and changes a pid
to 0 at most. -/
theorem InitStore.exec_lock (w : InitStore) (s : State K) (l : Lock K) :
    (w.exec s).lock l = s.lock l ∨
      (∃ i ∈ w.target, l = .demo i) ∧
        (((w.exec s).lock l).locked = true → (s.lock l).locked = true) ∧
        (((w.exec s).lock l).pid = (s.lock l).pid ∨ ((w.exec s).lock l).pid = 0) := by
  cases w with
  | flag => exact .inl rfl
  | spinLocked i | spinCpu i | locked i | pid i =>
    by_cases hl : l = .demo i
    · subst hl
      exact .inr ⟨⟨i, rfl, rfl⟩, by simp [InitStore.exec]⟩
    · exact .inl (by simp [InitStore.exec, hl])

/-- A lock keeps its pid, or has it cleared, or has just been taken. -/
theorem Effect.lock_pid {a : Act K} (h : Effect s a s') (l : Lock K) :
    (s'.lock l).pid = (s.lock l).pid ∨ (s'.lock l).pid = 0 ∨
      ∃ p, (s.proc p).state = .running ∧ (s'.lock l).pid = (s.proc p).pid := by
  cases h with
  | quiet hproc hlock hnext =>
    rcases hlock l with ⟨-, hpid⟩ | ⟨-, hpid⟩
    · exact .inl hpid
    · exact .inr (.inl hpid)
  | init p ok c w ha hpc hproc hlock hnext =>
    rw [hlock]
    rcases w.exec_lock s l with he | ⟨-, -, he | he⟩
    · exact .inl (by rw [he])
    · exact .inl he
    · exact .inr (.inl he)
  | take p l' hrun hpc hproc hlock htaken hpc' hnext =>
    by_cases hl : l = l'
    · subst hl
      exact .inr (.inr ⟨p, hrun, htaken.2⟩)
    · exact .inl (by rw [hlock l hl])
  | report p l' o n hpc hpc' hproc hlock hnext | alloc p name hunused hproc hlock hnext
  | freed p old hdead hproc hlock hheld hnext => exact .inl (by rw [hlock])
  | register p l' hpc hs | exited p ok status ha hrun hpc hs => exact .inl (by rw [hs]; rfl)

/-- A lock that is locked after a step was locked before with the same pid, or with its pid cleared
by a store of `initsleeplock`, or has just been taken. -/
theorem Effect.locked {a : Act K} (h : Effect s a s') {l : Lock K}
    (hl : (s'.lock l).locked = true) :
    ((s.lock l).locked = true ∧ (s'.lock l).pid = (s.lock l).pid) ∨
    ((s.lock l).locked = true ∧ (s'.lock l).pid = 0 ∧
      ∃ p ok c w i, a = .exec p ok ∧ s.pc p = .init c w ∧ i ∈ w.target ∧ l = .demo i) ∨
    (∃ p, (s.proc p).state = .running ∧ s.pc p = .take l ∧ (s'.lock l).pid = (s.proc p).pid ∧
      (s'.pc p = .ret 0 ∨ s'.pc p = .panicked) ∧
      s'.proc p = { s.proc p with waiting_for_lock := none }) := by
  cases h with
  | quiet hproc hlock hnext =>
    rcases hlock l with ⟨hlocked, hpid⟩ | ⟨hlocked, -⟩
    · exact .inl ⟨hlocked ▸ hl, hpid⟩
    · rw [hlocked] at hl; cases hl
  | init p ok c w ha hpc hproc hlock hnext =>
    rw [hlock] at hl ⊢
    rcases w.exec_lock s l with he | ⟨⟨i, hi, rfl⟩, hlocked, he | he⟩
    · rw [he] at hl ⊢; exact .inl ⟨hl, rfl⟩
    · exact .inl ⟨hlocked hl, he⟩
    · exact .inr (.inl ⟨hlocked hl, he, p, ok, c, w, i, ha, hpc, hi, rfl⟩)
  | take p l' hrun hpc hproc hlock htaken hpc' hnext =>
    by_cases hll : l = l'
    · subst hll
      exact .inr (.inr ⟨p, hrun, hpc, htaken.2, hpc', by rw [hproc, update_self]⟩)
    · rw [hlock l hll] at hl ⊢; exact .inl ⟨hl, rfl⟩
  | report p l' o n hpc hpc' hproc hlock hnext | alloc p name hunused hproc hlock hnext
  | freed p old hdead hproc hlock hheld hnext => rw [hlock] at hl ⊢; exact .inl ⟨hl, rfl⟩
  | register p l' hpc hs | exited p ok status ha hrun hpc hs => subst hs; exact .inl ⟨hl, rfl⟩

/-- Every action keeps the pids in use distinct. -/
theorem PidInv.effect (hP : PidInv s) {a : Act K} (h : Effect s a s') : PidInv s' := by
  have hnext := hP.next
  have hle := h.nextpid_le
  -- A slot in use has kept its pid or has been given the next one.
  have hpid : ∀ {q}, (s'.proc q).state ≠ .unused →
      ((s.proc q).state ≠ .unused ∧ (s'.proc q).pid = (s.proc q).pid) ∨
      ((s'.proc q).pid = s.nextpid ∧ s'.nextpid = s.nextpid + 1 ∧ ∀ r ≠ q, s'.proc r = s.proc r ∧
        ((s'.proc r).state ≠ .unused → (s'.proc r).pid < s.nextpid)) := by
    intro q hq
    rcases h.pid q with ⟨hsame, hunused⟩ | ⟨-, hnew, hnext', -, hne⟩ | ⟨-, hunused, -⟩
    · exact .inl ⟨fun hu => hq (hunused.mpr hu), hsame⟩
    · refine .inr ⟨hnew, hnext', fun r hr => ⟨hne r hr, fun hu => ?_⟩⟩
      rw [hne r hr] at hu ⊢
      exact hP.lt r hu
    · exact absurd hunused hq
  refine ⟨by omega, fun l => ?_, fun q hq => ?_, fun q hq => ?_, fun p q hp hq he => ?_⟩
  · have hl := hP.lock l
    rcases h.lock_pid l with he | he | ⟨p, hrun, he⟩
    · omega
    · omega
    · have := hP.lt p (by simp [hrun])
      omega
  · rcases hpid hq with ⟨hu, hsame⟩ | ⟨hnew, -, -⟩
    · rw [hsame]; exact hP.pos q hu
    · omega
  · rcases hpid hq with ⟨hu, hsame⟩ | ⟨hnew, hnext', -⟩
    · have := hP.lt q hu
      omega
    · omega
  · rcases hpid hp with ⟨hup, hsp⟩ | ⟨hnew, -, hne⟩
    · rcases hpid hq with ⟨huq, hsq⟩ | ⟨hnew, -, hne⟩
      · exact hP.inj p q hup huq (by rw [← hsp, ← hsq, he])
      · by_contra hpq
        have := (hne p hpq).2 hp
        omega
    · by_contra hpq
      have := (hne q (Ne.symm hpq)).2 hq
      omega

/-- The pids in use are distinct in every state reached. -/
theorem pidInv_of_reachVia {C : State K → Act K → Prop} (h : ReachVia safeStep C boot s) :
    PidInv s :=
  h.invariant pidInv_boot fun _ _ _ hr hP _ hs =>
    hP.effect (step_effect (localInv_of_reachVia hr).fork hs)

/-- A process that is alive stays alive unless it ends in `kexit`. -/
theorem Effect.of_alive {a : Act K} (h : Effect s a s') {q : Slot} (hq : (s.proc q).Alive) :
    (s'.proc q).Alive ∨ (s'.proc q).state = .zombie ∧
      ∃ ok status, a = .exec q ok ∧ s.pc q = .exit status := by
  cases h with
  | quiet hproc hlock hnext => exact .inl ((hproc q).alive_iff.mpr hq)
  | init p ok c w ha hpc hproc hlock hnext => rw [hproc]; exact .inl hq
  | register p l hpc hs =>
    subst hs
    left
    by_cases hqp : q = p
    · subst hqp; simpa [execRegister, Proc.Alive] using hq
    · simpa [execRegister, hqp] using hq
  | report p l o n hpc hpc' hproc hlock hnext | take p l hrun hpc hproc hlock htaken hpc' hnext =>
    rw [hproc]
    left
    by_cases hqp : q = p
    · subst hqp; simpa [Proc.Alive] using hq
    · simpa [hqp] using hq
  | alloc p name hunused hproc hlock hnext =>
    have hqp : q ≠ p := fun he => hq.1 (he ▸ hunused)
    rw [hproc, update_of_ne hqp]
    exact .inl hq
  | freed p old hdead hproc hlock hheld hnext =>
    have hqp : q ≠ p := fun he => hdead (he ▸ hq)
    rw [hproc, update_of_ne hqp]
    exact .inl hq
  | exited p ok status ha hrun hpc hs =>
    subst hs
    by_cases hqp : q = p
    · subst hqp
      exact .inr ⟨(kexit_self s.proc q status).1, ok, status, ha, hpc⟩
    · exact .inl ((kexit_passive_of_ne s.proc p status hqp).alive_iff.mpr hq)

end SustainableXv6
