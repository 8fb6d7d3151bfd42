import SustainableXv6.Kernel.WaitFor

/-!
# No wait cycle forms unreported

`would_create_deadlock` walks the wait-for graph while other processes change it. A cycle of the
graph appears only when a member registers its wait. This member is the last one to have registered,
and while the cycle is there, its walk follows the cycle round to the start: `Walked` says where on
the cycle the walk is, and `walkInv_of_reachVia` carries this through every interleaving.
`waitCycle_reported` is the result. A walk that nobody disturbs is `wouldCreateDeadlock`
(`reachVia_wouldCreateDeadlock`).
-/

namespace SustainableXv6

open Fin.CommRing Fin.NatCast Function Lib

variable {K : Type} {s s' : State K}

/-! ## The walk along a cycle that stays -/

/-- A walk along a cycle has fewer than `NPROC` hops behind it. -/
theorem hops_lt (hP : PidInv s) {k : ℕ} {c : Fin (k + 1) → Slot} {i : Fin (k + 1)} {hops : ℕ}
    (hc : IsCycle (WaitEdge s) c) (hnew : ∀ j, 0 < j → j ≤ hops → c (i + (j : ℕ)) ≠ c i) :
    hops < NPROC := by
  obtain ⟨T, hpos, hle, hT⟩ := hc.exists_return (waitEdge_rightUnique hP) i
  have hlt : hops < T := by
    by_contra hge
    exact hnew T hpos (by omega) hT
  simp only [Fintype.card_fin] at hle
  omega

/-- A round of the walk along a cycle meets the next member: it returns 1 if this is the start, and
goes on to the one after it if not. -/
theorem walkRound_of_isCycle (hP : PidInv s) {k : ℕ} {c : Fin (k + 1) → Slot} {i j : Fin (k + 1)}
    {hops : ℕ} (hc : IsCycle (WaitEdge s) c) (hlt : hops < NPROC) :
    walkRound s.proc s.lock (c i) (s.proc (c j)).pid hops =
      if c j = c i then .done true else .next (s.proc (c (j + 1))).pid := by
  obtain ⟨l, hl, hown⟩ := hc (j - 1)
  rw [sub_add_cancel] at hown
  obtain ⟨l', hl', hown'⟩ := hc j
  obtain ⟨_, -, hown_i⟩ := hc (i - 1)
  rw [sub_add_cancel] at hown_i
  have hpid : (s.proc (c j)).pid = (s.proc (c i)).pid ↔ c j = c i :=
    ⟨hP.inj _ _ hown.2.1 hown_i.2.1, fun h => by rw [h]⟩
  have hfind := hown.pid2proc_eq hP
  rw [hown.2.2] at hfind
  unfold walkRound
  rw [if_pos ⟨hP.pos _ hown.2.1, hlt⟩, hfind]
  simp only [hpid, hl', hown'.1, hown'.2.2, if_true]

/-! ## The walk of the last member of a cycle -/

/-- The walk that the process `p` made for the wait that it registered last has returned 1. -/
def Reported (s : State K) (p : Slot) : Prop := (s.proc p).deadlock_reports = s.reports0 p + 1

/-- Where the walk of the member `i` of the cycle `c` is: it has returned 1, or it is at its start,
or it has gone along the cycle for `hops` members and has not met its start again. -/
inductive Walked (s : State K) {k : ℕ} (c : Fin (k + 1) → Slot) (i : Fin (k + 1)) : Prop
  | reported (h : Reported s (c i))
  | start (l : Lock K) (hpc : s.pc (c i) = .walkStart l)
  | along (l : Lock K) (owner_pid : ℤ) (hops : ℕ) (hpc : s.pc (c i) = .walk l owner_pid hops)
      (howner : owner_pid = (s.proc (c (i + (hops + 1 : ℕ)))).pid)
      (hnew : ∀ j, 0 < j → j ≤ hops → c (i + (j : ℕ)) ≠ c i)

/-- In each case it is in the walk or has been reported. -/
theorem Walked.reported_or_walking {k : ℕ} {c : Fin (k + 1) → Slot} {i : Fin (k + 1)}
    (h : Walked s c i) : Reported s (c i) ∨ (s.pc (c i)).walking = true := by
  cases h with
  | reported h => exact .inl h
  | start l hpc => exact .inr (by rw [hpc]; rfl)
  | along l o n hpc howner hnew => exact .inr (by rw [hpc]; rfl)

/-- The member of a cycle that registered last is being checked or has been reported. -/
structure WalkInv (s : State K) : Prop where
  clock : ∀ q, s.registered q ≤ s.clock
  walked : ∀ {k : ℕ} (c : Fin (k + 1) → Slot) (i : Fin (k + 1)), IsCycle (WaitEdge s) c →
    (∀ j, s.registered (c j) ≤ s.registered (c i)) → Walked s c i

/-- After booting, nobody waits. -/
theorem walkInv_boot : WalkInv (boot : State K) := by
  refine ⟨fun q => le_rfl, fun c i hc _ => ?_⟩
  obtain ⟨l, hl, -⟩ := hc i
  by_cases hq : c i = initproc
  · simp [boot, hq, Proc.first, Proc.alloc] at hl
  · simp [boot, hq, Proc.zero] at hl

variable [DecidableEq K]

/-- A report stays. -/
theorem Reported.of_effect (hL : LocalInv s) {a : Act K} (he : Effect s a s') {p : Slot}
    (h : Reported s p)
    (hw : (s'.proc p).waiting_for_lock ≠ none) (hr : s'.reports0 p = s.reports0 p) :
    Reported s' p := by
  unfold Reported at h ⊢
  rcases (he.of_waiting hw).2 with hrep | ⟨hwalk, -⟩
  · rw [hrep, hr, h]
  · -- While a process walks, nothing has been counted for this wait.
    rw [(hL.proc p).walking hwalk] at h
    simp at h

/-- A step of the walk along a cycle. -/
theorem Walked.exec (hP : PidInv s) (hL : LocalInv s) {k : ℕ} {c : Fin (k + 1) → Slot}
    {i : Fin (k + 1)} (hc : IsCycle (WaitEdge s) c) (h : Walked s c i) {ok : Bool}
    (hwalk : (s.pc (c i)).walking = true) (hs : exec s (c i) ok = some s') : Walked s' c i := by
  cases h with
  | reported h =>
    rw [Reported, (hL.proc _).walking hwalk] at h
    simp at h
  | start l hpc =>
    obtain ⟨l', hl', hown⟩ := hc i
    obtain rfl : l = l' :=
      Option.some.inj (((hL.proc _).asked l (by rw [hpc]; rfl)).symm.trans hl')
    simp only [SustainableXv6.exec, hpc, Option.some.injEq] at hs
    subst hs
    exact .along l (s.lock l).pid 0 (by simp) (by simp [hown.2.2]) (by omega)
  | along l o n hpc howner hnew =>
    simp only [SustainableXv6.exec, hpc, Option.some.injEq] at hs
    subst hs
    have hround := walkRound_of_isCycle hP (i := i) (j := i + (n + 1 : ℕ)) hc (hops_lt hP hc hnew)
    rw [← howner] at hround
    unfold execWalk
    split_ifs at hround with hstart
    · rw [hround]
      refine .reported ?_
      have hrep := (hL.proc (c i)).walking hwalk
      simp [Reported, hrep]
    · rw [hround]
      refine .along l (s.proc (c (i + (n + 1 : ℕ) + 1))).pid (n + 1) (by simp) ?_
        fun j hpos hle => ?_
      · rw [Nat.cast_succ (n + 1), add_assoc]
        rfl
      rcases Nat.lt_or_ge j (n + 1) with hj | hj
      · exact hnew j hpos (by omega)
      · obtain rfl : j = n + 1 := by omega
        exact hstart

/-- A process that walks moves by its own steps only. -/
theorem step_of_walking {a : Act K} {p : Slot} (hL : LocalInv s) (hwalk : (s.pc p).walking = true)
    (h : safeStep s a = some s') : (∃ ok, exec s p ok = some s') ∨ s'.pc p = s.pc p := by
  cases step_moved h p with
  | stay hpc => exact .inr hpc
  | exec ok ha hnext =>
    subst ha
    cases step_cases (safeStep_eq_some.mp h).1 with
    | exec p ok s' hrun h => exact .inl ⟨ok, h⟩
  | call c ha huser hpc | timer cpu0 ha huser hpc | exit ha huser hpc =>
    rw [huser] at hwalk
    cases hwalk
  | alloc hunused hpc =>
    have halive : (s.proc p).Alive :=
      hL.alive (by cases hp : s.pc p <;> simp_all [Pc.idle, Pc.walking])
    exact absurd hunused halive.1

/-- Every action keeps the place of the walk on a cycle. -/
theorem Walked.step (hP : PidInv s) (hL : LocalInv s) {k : ℕ} {c : Fin (k + 1) → Slot}
    {i : Fin (k + 1)} (hc : IsCycle (WaitEdge s) c) (hc' : IsCycle (WaitEdge s') c)
    (h : Walked s c i) {a : Act K} (hr : s'.reports0 (c i) = s.reports0 (c i))
    (hs : safeStep s a = some s') : Walked s' c i := by
  have he := step_effect hL.fork hs
  have hwait : ∀ j, (s'.proc (c j)).waiting_for_lock ≠ none := fun j => by
    obtain ⟨l, hl⟩ := waiting_of_isCycle hc' j
    simp [hl]
  cases h with
  | reported h => exact .reported (h.of_effect hL he (hwait i) hr)
  | start l hpc =>
    rcases step_of_walking hL (by rw [hpc]; rfl) hs with ⟨ok, hex⟩ | hpc'
    · exact Walked.exec hP hL hc (.start l hpc) (by rw [hpc]; rfl) hex
    · exact .start l (hpc'.trans hpc)
  | along l o n hpc howner hnew =>
    rcases step_of_walking hL (by rw [hpc]; rfl) hs with ⟨ok, hex⟩ | hpc'
    · exact Walked.exec hP hL hc (.along l o n hpc howner hnew) (by rw [hpc]; rfl) hex
    · exact .along l o n (hpc'.trans hpc) (howner.trans (he.of_waiting (hwait _)).1.symm) hnew

/-- Every action keeps the invariant of the walks. -/
theorem WalkInv.step (hI : WalkInv s) (hP : PidInv s) (hL : LocalInv s) {a : Act K}
    (hs : safeStep s a = some s') : WalkInv s' := by
  have he := step_effect hL.fork hs
  rcases safeStep_history hs with ⟨p, ok, l, rfl, hrun, hpc, rfl⟩ | hh
  · -- The registration of `p` is the latest of all.
    have hreg : (execRegister s p l).registered p = s.clock + 1 := update_self _ _ _
    have hreg' : ∀ q ≠ p, (execRegister s p l).registered q = s.registered q :=
      fun q hq => update_of_ne hq _ _
    refine ⟨fun q => ?_, fun {k} c i hc hlast => ?_⟩
    · by_cases hq : q = p
      · rw [hq, hreg]; exact le_rfl
      · rw [hreg' q hq]; exact (hI.clock q).trans (Nat.le_succ _)
    · by_cases hmem : ∃ j, c j = p
      · obtain ⟨j, hj⟩ := hmem
        have hi : c i = p := by
          by_contra hne
          have h1 := hlast j
          rw [hj, hreg, hreg' _ hne] at h1
          have h2 := hI.clock (c i)
          omega
        exact .start l (by rw [hi]; exact update_self _ _ _)
      · push Not at hmem
        have hc₀ : IsCycle (WaitEdge s) c := by
          rcases isCycle_of_effect hP he hc with hc₀ | ⟨j, l', hpc', hs'⟩
          · exact hc₀
          · have hj : (execRegister s p l).registered (c j) = s.clock + 1 := by
              rw [hs']; exact update_self _ _ _
            have hle := hI.clock (c j)
            rw [hreg' _ (hmem j)] at hj
            omega
        refine Walked.step hP hL hc₀ hc (hI.walked c i hc₀ fun j => ?_)
          (update_of_ne (hmem i) _ _) hs
        have := hlast j
        rwa [hreg' _ (hmem j), hreg' _ (hmem i)] at this
  · obtain ⟨-, hclock, hregd, hrep⟩ : s'.astray = s.astray ∧ s'.clock = s.clock ∧
        s'.registered = s.registered ∧ s'.reports0 = s.reports0 := by
      simpa [State.history] using hh
    refine ⟨fun q => by rw [hregd, hclock]; exact hI.clock q, fun {k} c i hc hlast => ?_⟩
    have hc₀ : IsCycle (WaitEdge s) c := by
      rcases isCycle_of_effect hP he hc with hc₀ | ⟨j, l', hpc', rfl⟩
      · exact hc₀
      · exact absurd hclock (Nat.succ_ne_self _)
    exact Walked.step hP hL hc₀ hc (hI.walked c i hc₀ (by rwa [hregd] at hlast)) (by rw [hrep]) hs

/-- The invariant of the walks holds in every state reached. -/
theorem walkInv_of_reachVia {C : State K → Act K → Prop} (h : ReachVia safeStep C boot s) :
    WalkInv s :=
  h.invariant walkInv_boot fun _ _ _ hr hI _ hs =>
    hI.step (pidInv_of_reachVia hr) (localInv_of_reachVia hr) hs

/-- **No wait cycle forms unreported.** In every state reached, the member of a cycle of the
wait-for graph that was the last to register its wait has been reported for this wait, or is still
in `would_create_deadlock`. -/
theorem waitCycle_reported (h : Reach step boot s) {k : ℕ} (c : Fin (k + 1) → Slot)
    (hc : IsCycle (WaitEdge s) c) (i : Fin (k + 1))
    (hlast : ∀ j, s.registered (c j) ≤ s.registered (c i)) :
    (s.proc (c i)).deadlock_reports = s.reports0 (c i) + 1 ∨ (s.pc (c i)).walking = true := by
  rcases safe_or_stray h with hr | ⟨s₀, a, hr, -, hs⟩
  · exact ((walkInv_of_reachVia hr).walked c i hc hlast).reported_or_walking
  · -- The recovery that has gone astray is that of a process that has left its walk.
    have hc₀ := isCycle_of_stray (localInv_of_reachVia hr) hs hc
    obtain ⟨p, ok, l, v, hpc, -⟩ := hs
    rcases ((walkInv_of_reachVia hr).walked c i hc₀ hlast).reported_or_walking with hrep | hwalk
    · refine .inl (.trans ?_ hrep)
      by_cases hv : c i = v <;> simp [execRecovery, recoverRound, hv]
    · have hp : c i ≠ p := by
        rintro rfl
        rw [hpc] at hwalk
        cases hwalk
      exact .inr (by simpa [execRecovery, hp] using hwalk)

/-! ## The walk that nobody disturbs -/

/-- The process `p` takes a step of its walk. -/
def WalkStep (p : Slot) (s : State K) (a : Act K) : Prop :=
  a = .exec p true ∧ (s.pc p).walking = true

/-- A round of the walk is such a step. -/
theorem reachVia_execWalk {s₀ : State K} {p : Slot} {l : Lock K} {owner_pid : ℤ} {hops : ℕ}
    (hr : ReachVia step (WalkStep p) s₀ s) (hn : s.astray = false)
    (hrun : (s.proc p).state = .running) (hpc : s.pc p = .walk l owner_pid hops) :
    ReachVia step (WalkStep p) s₀ (execWalk s p l owner_pid hops) :=
  hr.tail ⟨rfl, by rw [hpc]; rfl⟩ (by simp [step, act, hn, hrun, exec, hpc])

/-- The rounds of a walk, taken in a row, end as the loop of `would_create_deadlock` does. -/
theorem reachVia_walkLoop {s₀ : State K} {p : Slot} {l : Lock K} {owner_pid : ℤ} {fuel hops : ℕ}
    (hr : ReachVia step (WalkStep p) s₀ s) (hn : s.astray = false)
    (hrun : (s.proc p).state = .running) (hpc : s.pc p = .walk l owner_pid hops)
    (hfuel : NPROC < fuel + hops) :
    ∃ s', ReachVia step (WalkStep p) s₀ s' ∧ s'.pc p =
      if walkLoop s.proc s.lock p fuel owner_pid hops then .recover l .start else .sleep l := by
  induction fuel generalizing s owner_pid hops with
  | zero =>
    have hdone : walkRound s.proc s.lock p owner_pid hops = .done false :=
      if_neg fun h => absurd h.2 (by omega)
    refine ⟨_, reachVia_execWalk hr hn hrun hpc, ?_⟩
    simp [execWalk, hdone, walkLoop]
  | succ fuel ih =>
    have hround := reachVia_execWalk hr hn hrun hpc
    unfold walkLoop
    cases hwalk : walkRound s.proc s.lock p owner_pid hops with
    | done result =>
      refine ⟨_, hround, ?_⟩
      cases result <;> simp [execWalk, hwalk]
    | next owner_pid' =>
      simp only [execWalk, hwalk] at hround
      exact ih (s := s.setPc p _) hround hn hrun (by simp) (by omega)

/-- **A walk that nobody disturbs returns what `would_create_deadlock` returns**: if the process
takes its steps in a row, the last step of the walk leads to the recovery or to `sleep` as this
function says. -/
theorem reachVia_wouldCreateDeadlock {p : Slot} {l : Lock K} (hn : s.astray = false)
    (hrun : (s.proc p).state = .running) (hpc : s.pc p = .walkStart l) :
    ∃ s', ReachVia step (fun s a => a = .exec p true ∧ (s.pc p).walking = true) s s' ∧
      s'.pc p = if wouldCreateDeadlock s.proc s.lock p l then .recover l .start else .sleep l := by
  have hstart : step s (.exec p true) = some (s.setPc p (.walk l (s.lock l).pid 0)) := by
    simp [step, act, hn, hrun, exec, hpc]
  exact reachVia_walkLoop (s := s.setPc p _) (.tail .refl ⟨rfl, by rw [hpc]; rfl⟩ hstart) hn hrun
    (by simp) (by omega)

/-- **The walk follows the owners.** In every state reached while no recovery goes astray, a pid
belongs to one process in use, and `pid2proc` finds the owner of a lock and nobody else, also where
pids of earlier processes are left in locks. -/
theorem waitEdge_iff_pid2proc (h : ReachVia step RecoversSafely boot s) :
    (∀ p q, (s.proc p).state ≠ .unused → (s.proc q).state ≠ .unused →
      (s.proc p).pid = (s.proc q).pid → p = q) ∧
    ∀ p q, WaitEdge s p q ↔ ∃ l, (s.proc p).waiting_for_lock = some l ∧
      (s.lock l).locked = true ∧ pid2proc s.proc (s.lock l).pid = some q := by
  have hP := pidInv_of_reachVia (safe_of_recoversSafely h)
  refine ⟨hP.inj, fun p q => ⟨?_, ?_⟩⟩
  · rintro ⟨l, hl, hown⟩
    exact ⟨l, hl, hown.1, hown.pid2proc_eq hP⟩
  · rintro ⟨l, hl, hlocked, hfind⟩
    obtain ⟨-, hfind⟩ := (Option.ite_none_left_eq_some ..).mp hfind
    obtain ⟨hpid, hused⟩ := of_decide_eq_true (findSlot_some hfind)
    exact ⟨l, hl, hlocked, hused, hpid.symm⟩

/-! ## The run of `deadlock_demo` -/

/-- `user/deadlock_demo.c`: the process in slot 1 forks a child, in slot 2, and takes lock 0. The
child takes lock 1. Then the parent asks for lock 1 and goes to sleep. -/
def parentWaits : List (Act Empty) :=
  List.flatten [
    [.sched 0, .call 0 .fork], List.replicate 4 (.exec 0 true),
    [.sched 1, .call 1 .fork], List.replicate 4 (.exec 1 true),
    [.call 1 (.dlockacq 0)], List.replicate 14 (.exec 1 true),
    [.sched 2, .call 2 (.dlockacq 1)], List.replicate 5 (.exec 2 true),
    [.call 1 (.dlockacq 1)], List.replicate 7 (.exec 1 true)]

/-- The rest of `deadlock_demo`: the child asks for lock 0. -/
def deadlockDemo : List (Act Empty) :=
  List.flatten [parentWaits, [.call 2 (.dlockacq 0)], List.replicate 16 (.exec 2 true)]

set_option maxRecDepth 10000 in
/-- The walk of the child finds the cycle. -/
theorem reachVia_wouldCreateDeadlock_child : ∃ s s' : State Empty, Reach step boot s ∧
    s.pc 2 = .walkStart (.demo 0) ∧
    ReachVia step (fun s a => a = .exec 2 true ∧ (s.pc 2).walking = true) s s' ∧
      s'.pc 2 = .recover (.demo 0) .start := by
  obtain ⟨s, hs, hn, hst, hpc, hwould⟩ := exists_of_run step (fun _ _ => True) boot
    (deadlockDemo.take 47)
    (fun s => s.astray = false ∧ (s.proc 2).state = .running ∧ s.pc 2 = .walkStart (.demo 0) ∧
      wouldCreateDeadlock s.proc s.lock 2 (.demo 0) = true) (by decide +kernel)
  obtain ⟨s', hs', hpc'⟩ := reachVia_wouldCreateDeadlock hn hst hpc
  exact ⟨s, s', hs, hpc, hs', by rw [hpc', if_pos hwould]⟩

/-- After `deadlock_demo`, both processes sleep in `acquiresleep` for the lock of the other. -/
def DemoStuck (s : State Empty) : Prop :=
  (s.proc 1).state = .sleeping ∧ s.pc 1 = .asleep (.demo 1) ∧
    (s.lock (.demo 1)).locked = true ∧ (s.lock (.demo 1)).pid = (s.proc 2).pid ∧
  (s.proc 2).state = .sleeping ∧ s.pc 2 = .asleep (.demo 0) ∧
    (s.lock (.demo 0)).locked = true ∧ (s.lock (.demo 0)).pid = (s.proc 1).pid ∧
  (s.proc 2).killed = true ∧ s.registered 1 ≤ s.registered 2

instance (s : State Empty) : Decidable (DemoStuck s) := inferInstanceAs (Decidable (_ ∧ _))

/-- The two processes block each other. -/
theorem DemoStuck.isCycle {s : State Empty} (h : DemoStuck s) : IsCycle (BlockedOn s) ![1, 2] := by
  obtain ⟨hst, hpc, hlocked, hpid, hst', hpc', hlocked', hpid', -⟩ := h
  intro i
  fin_cases i
  · exact ⟨hst, _, hpc, hlocked, by simp [hst'], hpid⟩
  · exact ⟨hst', _, hpc', hlocked', by simp [hst], hpid'⟩

set_option maxRecDepth 10000 in
/-- The run of `deadlock_demo` ends in such a state. -/
theorem exists_demoStuck :
    ∃ s, ReachVia step RecoversSafely (boot : State Empty) s ∧ DemoStuck s :=
  exists_of_run step RecoversSafely (boot : State Empty) deadlockDemo _ (by decide +kernel)

/-- The walk from the parent of `deadlock_demo` comes to the child. -/
theorem waitEdge_iff_pid2proc_deadlockDemo : ∃ s : State Empty,
    ReachVia step RecoversSafely boot s ∧ ∃ l, (s.proc 1).waiting_for_lock = some l ∧
      (s.lock l).locked = true ∧ pid2proc s.proc (s.lock l).pid = some 2 := by
  obtain ⟨s, hs, h⟩ := exists_demoStuck
  have hL := localInv_of_reachVia (safe_of_recoversSafely hs)
  have hedge : WaitEdge s 1 2 := (h.isCycle 0).waitEdge hL
  exact ⟨s, hs, ((waitEdge_iff_pid2proc hs).2 1 2).mp hedge⟩

/-- The child of `deadlock_demo` registered last, and its wait has been reported. -/
theorem waitCycle_reported_deadlockDemo : ∃ s : State Empty, Reach step boot s ∧
    IsCycle (WaitEdge s) ![1, 2] ∧
    ((s.proc 2).deadlock_reports = s.reports0 2 + 1 ∨ (s.pc 2).walking = true) := by
  obtain ⟨s, hs, h⟩ := exists_demoStuck
  have hL := localInv_of_reachVia (safe_of_recoversSafely hs)
  have hreach : Reach step boot s := hs.mono fun _ _ _ => trivial
  have hc : IsCycle (WaitEdge s) ![1, 2] := h.isCycle.mono fun _ _ => BlockedOn.waitEdge hL
  refine ⟨s, hreach, hc, waitCycle_reported hreach ![1, 2] hc 1 fun j => ?_⟩
  fin_cases j
  · exact h.2.2.2.2.2.2.2.2.2
  · exact le_rfl

end SustainableXv6
