import SustainableXv6.Kernel.Frame

/-!
# What holds of each process by itself

`Local s q` relates the place of the process `q` to its entry in the table: `waiting_for_lock` is
set only inside `acquiresleep`, and is set from the registration of a wait to the end of the loop; a
process that holds a spinlock runs; a slot that runs nothing is at no place of the kernel but
`kexit`. A step of another process keeps it by `step_touch`, and a step of `q` by the cases of
`exec`. `ForkInv`, which `step_touch` needs, is an invariant too.
-/

namespace SustainableXv6

open Function Lib

/-- The lock whose `acquiresleep` a process is in. -/
def Pc.waits {K : Type} : Pc K → Option (Lock K)
  | .acquire l | .test l | .register l | .walkStart l | .walk l _ _ | .recover l _ | .sleep l
  | .asleep l | .take l => some l
  | _ => none

/-- The lock for which a process has registered its wait in this round of the loop. -/
def Pc.asked {K : Type} : Pc K → Option (Lock K)
  | .walkStart l | .walk l _ _ | .recover l _ | .sleep l | .asleep l => some l
  | _ => none

/-- The process is in `would_create_deadlock`. -/
def Pc.walking {K : Type} : Pc K → Bool
  | .walkStart _ | .walk _ _ _ => true
  | _ => false

/-- The places of a slot that runs nothing: it starts in user mode and ends in `kexit`. -/
def Pc.idle {K : Type} : Pc K → Bool
  | .user | .exit _ => true
  | _ => false

variable {K : Type} {s s' : State K}

/-- Outside of `acquiresleep` a process has not registered, holds no spinlock, and does not walk. -/
theorem Pc.of_waits_eq_none {c : Pc K} (h : c.waits = none) :
    c.asked = none ∧ c.spinning = none ∧ c.walking = false := by
  cases c <;> simp_all [Pc.waits, Pc.asked, Pc.spinning, Pc.walking]

/-- An idle place is outside of `acquiresleep`. -/
theorem Pc.waits_of_idle {c : Pc K} (h : c.idle = true) : c.waits = none := by
  cases c <;> simp_all [Pc.idle, Pc.waits]

/-- A slot that is being set up stays so until its parent is done with it, and has one parent. -/
structure ForkInv (s : State K) : Prop where
  used : ∀ p np, (s.pc p).forking = some np → (s.proc np).state = .used
  inj : ∀ p q np, (s.pc p).forking = some np → (s.pc q).forking = some np → p = q

/-- What holds of the process `q` by itself. -/
structure Local (s : State K) (q : Slot) : Prop where
  waits : ∀ l, (s.proc q).waiting_for_lock = some l → (s.pc q).waits = some l ∨ s.pc q = .panicked
  asked : ∀ l, (s.pc q).asked = some l → (s.proc q).waiting_for_lock = some l
  spinning : ∀ l, (s.pc q).spinning = some l → (s.proc q).state = .running
  idle : ¬ (s.proc q).Alive ∨ (s.proc q).state = .used → (s.pc q).idle = true
  walking : (s.pc q).walking = true → (s.proc q).deadlock_reports = s.reports0 q
  resources : (s.proc q).state ≠ .unused → (s.proc q).waiting_res = -1

/-- Outside of `acquiresleep` a process waits for no lock. -/
theorem Local.waiting_eq_none {q : Slot} (h : Local s q) (hpc : (s.pc q).waits = none)
    (hpan : s.pc q ≠ .panicked) : (s.proc q).waiting_for_lock = none := by
  rw [Option.eq_none_iff_forall_ne_some]
  intro l hl
  rcases h.waits l hl with hw | hw
  · rw [hpc] at hw
    exact absurd hw (by simp)
  · exact hpan hw

/-- A process outside of `acquiresleep` that waits for no lock. -/
theorem Local.of_outside {q : Slot} (hw : (s.proc q).waiting_for_lock = none)
    (hpc : (s.pc q).waits = none)
    (hidle : ¬ (s.proc q).Alive ∨ (s.proc q).state = .used → (s.pc q).idle = true)
    (hres : (s.proc q).state ≠ .unused → (s.proc q).waiting_res = -1) : Local s q := by
  obtain ⟨hasked, hspin, hwalk⟩ := Pc.of_waits_eq_none hpc
  exact ⟨by simp [hw], by simp [hasked], by simp [hspin], hidle, by simp [hwalk], hres⟩

/-- An action from outside keeps what holds of a process. -/
theorem Local.of_touch {q : Slot} (hF : ForkInv s) (h : Local s q) (ht : Touch s s' q)
    (hr : s'.reports0 q = s.reports0 q) : Local s' q := by
  cases ht with
  | passive hproc hpc =>
    constructor
    · rw [hproc.waiting_for_lock, hpc]; exact h.waits
    · rw [hproc.waiting_for_lock, hpc]; exact h.asked
    · intro l hl
      rw [hpc] at hl
      exact hproc.running (h.spinning l hl)
    · rintro (hd | hu)
      · rw [hpc]; exact h.idle (.inl fun ha => hd (hproc.alive_iff.mpr ha))
      · rw [hpc]; exact h.idle (.inr (hproc.used.mp hu))
    · rw [hproc.deadlock_reports, hpc, hr]; exact h.walking
    · intro hu
      rcases hproc.waiting_res with he | he
      · rw [he]; exact h.resources fun hun => hu (hproc.unused.mpr hun)
      · exact he
  | alloc hunused name hproc hpc hnext =>
    exact .of_outside (by rw [hproc]; rfl) (by rw [hpc]; rfl) (by rw [hpc]; simp [Pc.idle])
      (by rw [hproc]; simp [Proc.alloc])
  | started p hfork hfork' hproc hpc =>
    have hidle := h.idle (.inr (hF.used p q (by rw [hfork]; rfl)))
    have hw : (s.proc q).waiting_for_lock = none :=
      h.waiting_eq_none (Pc.waits_of_idle hidle) (by rintro he; rw [he] at hidle; cases hidle)
    exact .of_outside (by rw [hproc, hw]) (by rw [hpc]; exact Pc.waits_of_idle hidle)
      (fun _ => by rw [hpc]; exact hidle)
      (fun _ => by rw [hproc]; exact h.resources (by simp [hF.used p q (by rw [hfork]; rfl)]))
  | freed hdead old hproc hpc =>
    have hidle := h.idle (.inl hdead)
    exact .of_outside (by rw [hproc]; rfl) (by rw [hpc]; exact Pc.waits_of_idle hidle)
      (fun _ => by rw [hpc]; exact hidle) (by rw [hproc]; simp [freeproc])

/-- A process that runs. -/
theorem Local.of_running {q : Slot} (hrun : (s.proc q).state = .running)
    (hwaits : ∀ l, (s.proc q).waiting_for_lock = some l →
      (s.pc q).waits = some l ∨ s.pc q = .panicked)
    (hasked : ∀ l, (s.pc q).asked = some l → (s.proc q).waiting_for_lock = some l)
    (hwalk : (s.pc q).walking = true → (s.proc q).deadlock_reports = s.reports0 q)
    (hres : (s.proc q).waiting_res = -1) : Local s q :=
  ⟨hwaits, hasked, fun _ _ => hrun, by simp [Proc.Alive, hrun], hwalk, fun _ => hres⟩

/-- A process that runs and is about to enter `acquiresleep`, or stays outside of it. -/
theorem Local.of_entering {q : Slot} (hrun : (s.proc q).state = .running)
    (hw : (s.proc q).waiting_for_lock = none) (hasked : (s.pc q).asked = none)
    (hwalk : (s.pc q).walking = false) (hres : (s.proc q).waiting_res = -1) : Local s q :=
  .of_running hrun (by simp [hw]) (by simp [hasked]) (by simp [hwalk]) hres

/-- A process that runs and calls an operation on the table from outside of `acquiresleep`. -/
theorem Local.of_passive {q : Slot} {p : Proc K} (hrun : p.state = .running)
    (hw : p.waiting_for_lock = none) (hres : p.waiting_res = -1) (hpas : p.Passive (s.proc q))
    (hasked : (s.pc q).asked = none) (hwalk : (s.pc q).walking = false) : Local s q := by
  refine .of_entering (hpas.running hrun) (hpas.waiting_for_lock.trans hw) hasked hwalk ?_
  rcases hpas.waiting_res with he | he
  · exact he.trans hres
  · exact he

/-- Where a system call starts, a process has not registered and does not walk. -/
theorem Call.entry_asked (c : Call K) :
    (c.entry).asked = none ∧ (c.entry).walking = false := by
  cases c with
  | dlockacq lockid | dlockrel lockid =>
    cases h : demoLock lockid <;> simp [Call.entry, h, Pc.asked, Pc.walking]
  | _ => exact ⟨rfl, rfl⟩

/-- A process that is interrupted while it holds no spinlock, and yields. -/
theorem Local.of_yield {q : Slot} (h : Local s q) (hsame : (s.proc q).SameId (s'.proc q))
    (hstate : (s'.proc q).state = .runnable) (hpc : s'.pc q = s.pc q)
    (hspin : (s.pc q).spinning = none) (hr : s'.reports0 q = s.reports0 q) : Local s' q where
  waits := by rw [hsame.waiting_for_lock, hpc]; exact h.waits
  asked := by rw [hsame.waiting_for_lock, hpc]; exact h.asked
  spinning := by simp [hpc, hspin]
  idle := by simp [Proc.Alive, hstate]
  walking := by rw [hsame.deadlock_reports, hpc, hr]; exact h.walking
  resources := by
    intro hu
    rcases hsame.waiting_res with he | he
    · rw [he]; exact h.resources fun hun => hu (hsame.unused.mpr hun)
    · exact he

/-- What holds of every process by itself, in every state reached. -/
structure LocalInv (s : State K) : Prop where
  fork : ForkInv s
  proc : ∀ q, Local s q

/-- After booting. -/
theorem localInv_boot : LocalInv (boot : State K) where
  fork := ⟨by simp [boot, Pc.forking], by simp [boot, Pc.forking]⟩
  proc := by
    intro q
    refine .of_outside ?_ rfl (fun _ => rfl) ?_
    · by_cases hq : q = initproc
      · subst hq; rfl
      · simp [boot, hq, Proc.zero]
    · by_cases hq : q = initproc
      · subst hq; exact fun _ => rfl
      · simp [boot, hq, Proc.zero]

/-- A process at a place other than user mode and `kexit` is alive. -/
theorem LocalInv.alive (hL : LocalInv s) {q : Slot} (hpc : (s.pc q).idle = false) :
    (s.proc q).Alive := by
  by_contra hdead
  rw [(hL.proc q).idle (.inl hdead)] at hpc
  cases hpc

/-- A system call starts with no slot to set up. -/
theorem Call.entry_forking (c : Call K) : (c.entry).forking = none := by
  cases c with
  | dlockacq lockid | dlockrel lockid =>
    cases h : demoLock lockid <;> simp [Call.entry, h, Pc.forking]
  | _ => rfl

section Exec

variable {p : Slot} (hrun : (s.proc p).state = .running) (hres : (s.proc p).waiting_res = -1)

include hrun hres

/-- A process that waits for no lock goes to a place at which it has registered no wait. -/
theorem Local.setPc (hw : (s.proc p).waiting_for_lock = none) {c : Pc K} (hasked : c.asked = none)
    (hwalk : c.walking = false) : Local (s.setPc p c) p :=
  .of_entering hrun hw (by simpa using hasked) (by simpa using hwalk) hres

/-- A round of the walk, after which the wait is still registered. -/
theorem Local.execWalk {l : Lock K} (hw : (s.proc p).waiting_for_lock = some l)
    (hreports : (s.proc p).deadlock_reports = s.reports0 p) (owner_pid : ℤ) (hops : ℕ) :
    Local (execWalk s p l owner_pid hops) p := by
  unfold SustainableXv6.execWalk
  split
  · exact .of_running hrun (by simp [hw, Pc.waits]) (by simp [hw, Pc.asked])
      (fun _ => hreports) hres
  · exact .of_running hrun (by simp [hw, Pc.waits]) (by simp [hw, Pc.asked])
      (by simp [Pc.walking]) hres
  · -- The report is counted as the process leaves the walk.
    exact .of_running (by simp [hrun]) (by simp [hw, Pc.waits]) (by simp [hw, Pc.asked])
      (by simp [Pc.walking]) (by simp [hres])

/-- The recovery leaves the wait of its caller registered, also if the caller is the victim. -/
theorem Local.execRecovery {l : Lock K} {r : RecoveryPc} (hn : r.strays s.proc = false)
    (hw : (s.proc p).waiting_for_lock = some l) : Local (execRecovery s p l r) p := by
  have hall : Passive s.proc (recoverRound s.proc s.lock p l r).1 := recoverRound_passive hn
  have hpas := hall p
  have hres' : ((recoverRound s.proc s.lock p l r).1 p).waiting_res = -1 := by
    rcases hpas.waiting_res with he | he
    · exact he.trans hres
    · exact he
  unfold SustainableXv6.execRecovery
  cases (recoverRound s.proc s.lock p l r).2 <;>
    exact .of_running (hpas.running hrun) (by simp [hpas.waiting_for_lock, hw, Pc.waits])
      (by simp [hpas.waiting_for_lock, hw, Pc.asked]) (by simp [Pc.walking]) hres'

/-- `holdingsleep`. -/
theorem Local.execHolding (hw : (s.proc p).waiting_for_lock = none) (l : Lock K) :
    Local (execHolding s p l) p := by
  unfold SustainableXv6.execHolding
  split_ifs
  · exact .setPc hrun hres hw rfl rfl
  · split <;> exact .setPc hrun hres hw rfl rfl

/-- `allocproc` called by `kfork`, which takes another slot. -/
theorem Local.execFork (hw : (s.proc p).waiting_for_lock = none) (ok : Bool) :
    Local (execFork s p ok) p := by
  unfold SustainableXv6.execFork
  split
  · exact .setPc hrun hres hw rfl rfl
  · rename_i np hnp
    have hun : (s.proc np).state = .unused := by simpa using findSlot_some hnp
    have hne : p ≠ np := by
      rintro rfl
      rw [hrun] at hun
      cases hun
    split_ifs <;> exact .of_entering (by simp [hne, hrun]) (by simp [hne, hw])
      (by simp [Pc.asked]) (by simp [Pc.walking]) (by simp [hne, hres])

/-- The scan of `kwait`, which frees another slot, or after which the process sleeps. -/
theorem Local.execWait (hw : (s.proc p).waiting_for_lock = none) (ok : Bool) :
    Local (execWait s p ok) p := by
  unfold SustainableXv6.execWait
  split
  · rename_i pp hpp
    have hz := zombieChild_some hpp
    have hne : p ≠ pp := by
      rintro rfl
      rw [hrun] at hz
      cases hz
    split_ifs
    · exact .of_entering (by simp [hne, hrun]) (by simp [hne, hw]) (by simp [Pc.asked])
        (by simp [Pc.walking]) (by simp [hne, hres])
    · exact .setPc hrun hres hw rfl rfl
  · split_ifs
    · exact .of_outside (by simp [hw]) (by simp [Pc.waits]) (by simp [Proc.Alive]) (by simp [hres])
    · exact .setPc hrun hres hw rfl rfl

variable [DecidableEq K]

/-- A process that takes a lock waits for none. -/
theorem Local.execTake (l : Lock K) : Local (execTake s p l) p := by
  unfold SustainableXv6.execTake releaseThen
  split_ifs
  · exact .of_entering (by simp [hrun]) (by simp) (by simp [Pc.asked]) (by simp [Pc.walking])
      (by simp [hres])
  · exact .of_entering (by simp [State.panic, hrun]) (by simp [State.panic])
      (by simp [Pc.asked, State.panic]) (by simp [Pc.walking, State.panic])
      (by simp [State.panic, hres])

end Exec

variable [DecidableEq K]

/-- A step of the process itself. -/
theorem Local.exec (hF : ForkInv s) {p : Slot} {ok : Bool} (hl : Local s p)
    (hrun : (s.proc p).state = .running) (h : exec s p ok = some s') (hn : s'.astray = false) :
    Local s' p := by
  have hres : (s.proc p).waiting_res = -1 := hl.resources (by simp [hrun])
  have hout : (s.pc p).waits = none → s.pc p ≠ .panicked → (s.proc p).waiting_for_lock = none :=
    hl.waiting_eq_none
  unfold SustainableXv6.exec at h
  cases hpc : s.pc p <;>
    simp only [hpc, reduceCtorEq, Option.some.injEq, Option.ite_none_left_eq_some] at h <;>
    rw [hpc] at hout
  -- Places in `acquiresleep` before the registration: an older wait may still be there.
  case acquire l =>
    obtain ⟨-, rfl⟩ := h
    exact .of_running hrun (by simpa [hpc, Pc.waits] using hl.waits) (by simp [Pc.asked])
      (by simp [Pc.walking]) hres
  case test l =>
    subst h
    split_ifs <;> exact .of_running hrun (by simpa [hpc, Pc.waits] using hl.waits)
      (by simp [Pc.asked]) (by simp [Pc.walking]) hres
  case asleep l =>
    subst h
    exact .of_running (by simp [hrun]) (by simpa [hpc, Pc.waits] using hl.waits)
      (by simp [Pc.asked]) (by simp [Pc.walking]) (by simp [hres])
  case register l =>
    subst h
    exact .of_running (by simp [execRegister, hrun]) (by simp [execRegister, Pc.waits])
      (by simp [execRegister, Pc.asked]) (by simp [execRegister]) (by simp [execRegister, hres])
  -- Places after it, up to `sleep`: the wait is for `l`.
  case walkStart l =>
    subst h
    exact .of_running hrun (by simpa [hpc, Pc.waits] using hl.waits)
      (by simpa [hpc, Pc.asked] using hl.asked) (fun _ => hl.walking (by rw [hpc]; rfl)) hres
  case walk l o n =>
    subst h
    exact .execWalk hrun hres (hl.asked l (by rw [hpc]; rfl)) (hl.walking (by rw [hpc]; rfl)) o n
  case recover l r =>
    subst h
    exact .execRecovery hrun hres hn (hl.asked l (by rw [hpc]; rfl))
  case sleep l =>
    subst h
    have hw : (s.proc p).waiting_for_lock = some l := hl.asked l (by rw [hpc]; rfl)
    unfold releaseThen
    split_ifs
    · constructor <;> simp [hw, Pc.waits, Pc.asked, Pc.spinning, Pc.walking, Proc.Alive, hres]
    · exact .of_running hrun (by simp [State.panic]) (by simp [Pc.asked, State.panic])
        (by simp [Pc.walking, State.panic]) hres
  case take l =>
    subst h
    exact .execTake hrun hres l
  -- Places outside: the process waits for no lock.
  case init c w =>
    subst h
    have hproc : (w.exec s).proc p = s.proc p := congrFun (w.exec_proc s).1 p
    refine .setPc (by rw [hproc, hrun]) (by rw [hproc, hres])
      (by rw [hproc, hout rfl (by simp)]) ?_ ?_
    · cases w.next <;> cases c <;> rfl
    · cases w.next <;> cases c <;> rfl
  case holding l =>
    obtain ⟨-, rfl⟩ := h
    exact .execHolding hrun hres (hout rfl (by simp)) l
  case release l =>
    obtain ⟨-, rfl⟩ := h
    exact .of_passive hrun (hout rfl (by simp)) hres (wakeup_passive s.proc p (.lock l) p)
      (by simp [execRelease, Pc.asked]) (by simp [execRelease, Pc.walking])
  all_goals subst h
  case trap t =>
    have hw := hout rfl (by simp)
    cases t with
    | killed =>
      rw [execTrap]
      split_ifs <;> exact .of_entering hrun hw (by simp [leaveTrap, Pc.asked])
        (by simp [leaveTrap, Pc.walking]) hres
    | yield =>
      exact .of_outside (by simp [execTrap, leaveTrap, yield, hw])
        (by simp [execTrap, leaveTrap, Pc.waits]) (by simp [execTrap, leaveTrap, Pc.idle])
        (by simp [execTrap, leaveTrap, yield, hres])
    | _ =>
      exact .of_passive hrun hw hres (execTrap_passive (.inr (by simp)))
        (by simp [execTrap, Pc.asked]) (by simp [execTrap, Pc.walking])
  case ret r => split_ifs <;> exact .setPc hrun hres (hout rfl (by simp)) rfl rfl
  case exit status =>
    split_ifs
    · exact .setPc hrun hres (hout rfl (by simp)) rfl rfl
    · obtain ⟨-, -, hw', -, hres'⟩ := kexit_self s.proc p status
      refine .of_outside (hw'.trans (hout rfl (by simp))) (by simp [hpc, Pc.waits])
        (by simp [hpc, Pc.idle]) fun _ => ?_
      rcases hres' with he | he
      · exact he.trans hres
      · exact he
  case ensure c =>
    split_ifs <;> cases c <;> exact .setPc hrun hres (hout rfl (by simp)) rfl rfl
  case fork => exact .execFork hrun hres (hout rfl (by simp)) ok
  case forkParent np | forkRun np =>
    -- The slot that is being set up is not that of the parent.
    have hused := hF.used p np (by rw [hpc]; rfl)
    have hne : p ≠ np := by
      rintro rfl
      rw [hrun] at hused
      cases hused
    exact .of_entering (by simp [hne, hrun]) (by simp [hne, hout rfl (by simp)])
      (by simp [Pc.asked]) (by simp [Pc.walking]) (by simp [hne, hres])
  case wait => exact .execWait hrun hres (hout rfl (by simp)) ok
  case waitAsleep =>
    exact .of_entering (by simp [hrun]) (by simp [hout rfl (by simp)]) (by simp [Pc.asked])
      (by simp [Pc.walking]) (by simp [hres])
  case kill pid =>
    exact .of_passive hrun (hout rfl (by simp)) hres (kkill_passive s.proc pid p)
      (by simp [Pc.asked]) (by simp [Pc.walking])
  case checkDeadlock =>
    exact .of_passive hrun (hout rfl (by simp)) hres (checkDeadlock_passive s.proc p)
      (by simp [Pc.asked]) (by simp [Pc.walking])

/-- A timer interrupt of the process itself. -/
theorem Local.timer {p : Slot} {cpu0 : Bool} (hl : Local s p) (hrun : (s.proc p).state = .running)
    (hspin : (s.pc p).spinning = none) : Local (timer s p cpu0) p := by
  have hsame := timer_sameId cpu0 hrun p
  by_cases hpc : s.pc p = .user
  · rw [SustainableXv6.timer, if_pos hpc]
    exact .of_passive hrun (hl.waiting_eq_none (by rw [hpc]; rfl) (by simp [hpc]))
      (hl.resources (by simp [hrun])) (Passive.update (clockintrCharge_passive _) p)
      (by simp [Pc.asked]) (by simp [Pc.walking])
  · rw [SustainableXv6.timer, if_neg hpc] at hsame ⊢
    exact hl.of_yield hsame (by simp [yield]) rfl hspin rfl

/-- Every action keeps what holds of each process. -/
theorem Local.step (hF : ForkInv s) {a : Act K} {q : Slot} (hl : Local s q)
    (h : safeStep s a = some s') : Local s' q := by
  by_cases hq : a.actor = some q
  · obtain ⟨h, hn⟩ := safeStep_eq_some.mp h
    cases step_cases h with
    | sched | idle => exact absurd hq (by simp [Act.actor])
    | call p c hrun hpc =>
      obtain rfl : p = q := by simpa [Act.actor] using hq
      have hw := hl.waiting_eq_none (by rw [hpc]; rfl) (by simp [hpc])
      refine .of_entering hrun hw ?_ ?_ (hl.resources (by simp [hrun]))
      · rw [State.setPc_pc, update_self]
        split_ifs
        · rfl
        · exact c.entry_asked.1
      · rw [State.setPc_pc, update_self]
        split_ifs
        · rfl
        · exact c.entry_asked.2
    | exec p ok s' hrun h =>
      obtain rfl : p = q := by simpa [Act.actor] using hq
      exact hl.exec hF hrun h hn
    | timer p cpu0 hrun hspin =>
      obtain rfl : p = q := by simpa [Act.actor] using hq
      exact hl.timer hrun hspin
    | fault p hrun hpc =>
      obtain rfl : p = q := by simpa [Act.actor] using hq
      have hw := hl.waiting_eq_none (by rw [hpc]; rfl) (by simp [hpc])
      exact .of_entering (by simp [hrun]) (by simp [hw]) (by simp [Pc.asked]) (by simp [Pc.walking])
        (by simp [hl.resources, hrun])
  · refine hl.of_touch hF (step_touch h hq) ?_
    rcases safeStep_history h with ⟨p, ok, l, rfl, -, -, rfl⟩ | hh
    · exact update_of_ne (fun he => hq (congrArg some he.symm)) _ _
    · exact congrFun (congrArg (·.2.2.2) hh) q

/-! ## Slots that are being set up -/

/-- Only a process that runs takes an action. -/
theorem step_actor_running {a : Act K} {p : Slot} (h : step s a = some s') (hp : a.actor = some p) :
    (s.proc p).state = .running := by
  cases step_cases h with
  | sched | idle => exact absurd hp (by simp [Act.actor])
  | call q c hrun | fault q hrun | timer q cpu0 hrun | exec q ok s' hrun =>
    obtain rfl : q = p := by simpa [Act.actor] using hp
    exact hrun

/-- A process that is setting up a slot after its step was setting it up before, or the step has
allocated it. -/
theorem exec_forking {p np : Slot} {ok : Bool} (h : exec s p ok = some s')
    (hf : (s'.pc p).forking = some np) :
    (s.pc p).forking = some np ∨ ((s.proc np).state = .unused ∧ (s'.proc np).state = .used) := by
  have hnext := exec_next h
  generalize hc : s.pc p = c at hnext
  generalize hc' : s'.pc p = c' at hnext hf
  cases hnext with
  | fork np' =>
    obtain rfl : np' = np := by simpa [Pc.forking] using hf
    simp only [exec, hc, Option.some.injEq] at h
    subst h
    unfold execFork at hc' ⊢
    split at hc'
    · simp at hc'
    · rename_i np'' hnp
      have hun : (s.proc np'').state = .unused := by simpa using findSlot_some hnp
      split_ifs at hc'
      · obtain rfl : np'' = np' := by simpa using hc'
        exact .inr ⟨hun, by simp [*, Proc.alloc]⟩
      · simp at hc'
  | forkParent np' => exact .inl hf
  | ensureDone c | initDone c w => cases c <;> cases hf
  | _ => cases hf

/-- A process that is setting up a slot after an action was setting it up before, or has allocated
it by this action. -/
theorem step_forking {a : Act K} {p np : Slot} (h : safeStep s a = some s')
    (hf : (s'.pc p).forking = some np) :
    (s.pc p).forking = some np ∨
      (a.actor = some p ∧ (s.proc np).state = .unused ∧ (s'.proc np).state = .used) := by
  cases step_moved h p with
  | stay hpc => exact .inl (hpc ▸ hf)
  | exec ok ha hnext =>
    subst ha
    cases step_cases (safeStep_eq_some.mp h).1 with
    | exec p ok s' hrun h => exact (exec_forking h hf).imp_right fun hnp => ⟨rfl, hnp⟩
  | call c ha huser hpc => rw [hpc, c.entry_forking] at hf; cases hf
  | timer cpu0 ha huser hpc | exit ha huser hpc | alloc hunused hpc => rw [hpc] at hf; cases hf

/-- Every action keeps the slots that are being set up. -/
theorem ForkInv.step (hF : ForkInv s) {a : Act K} (h : safeStep s a = some s') : ForkInv s' where
  used := by
    intro p np hf
    rcases step_forking h hf with hf₀ | ⟨-, -, hused⟩
    · have hused := hF.used p np hf₀
      have hact : a.actor ≠ some np := by
        intro hact
        rw [step_actor_running (safeStep_eq_some.mp h).1 hact] at hused
        cases hused
      cases step_touch h hact with
      | passive hproc hpc => exact hproc.used.mpr hused
      | alloc hunused => rw [hused] at hunused; cases hunused
      | started q hfork hfork' hproc hpc =>
        -- Its parent is the one that makes it runnable, and has left `kfork`.
        obtain rfl := hF.inj q p np (by rw [hfork]; rfl) hf₀
        rw [hfork'] at hf
        cases hf
      | freed hdead => exact absurd (by simp [Proc.Alive, hused]) hdead
    · exact hused
  inj := by
    intro p q np hp hq
    rcases step_forking h hp with hp₀ | ⟨ha, hun, -⟩ <;>
      rcases step_forking h hq with hq₀ | ⟨ha', hun', -⟩
    · exact hF.inj p q np hp₀ hq₀
    · rw [hF.used p np hp₀] at hun'; cases hun'
    · rw [hF.used q np hq₀] at hun; cases hun
    · exact Option.some.inj (ha.symm.trans ha')

/-! ## Runs -/

/-- Every action keeps it. -/
theorem LocalInv.step (hI : LocalInv s) {a : Act K} (h : safeStep s a = some s') : LocalInv s' where
  fork := hI.fork.step h
  proc q := (hI.proc q).step hI.fork h

/-- It holds in every state reached. -/
theorem localInv_of_reachVia {C : State K → Act K → Prop} (h : ReachVia safeStep C boot s) :
    LocalInv s :=
  h.invariant localInv_boot fun _ _ _ _ hI _ hs => hI.step hs

end SustainableXv6
