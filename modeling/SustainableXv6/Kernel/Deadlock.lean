import SustainableXv6.Kernel.Detection

/-!
# Deadlocks of sleep locks, and what the two detectors make of them

`acquiresleep` goes on to `sleep` after `energy_aware_deadlock_recovery` has killed a victim, and
its loop tests `lk->locked` and not `p->killed`. So a victim sleeps again, and the processes of
`deadlock_demo` end up asleep on each other's locks (`deadlockDemo_blocked`). `check_deadlock` does
not see them: nothing calls `res_wait` or `res_acquire`, so no process ever waits for a resource of
its graph (`checkDeadlock_of_reachVia`).

A deadlock has been reported before its last member sleeps, so there is none as long as the recovery
is not called (`not_blocked_of_neverRecovers`). There is none either if every process asks for its
locks in one order, although a walk over stale locks may call the recovery then. `TargetInv` carries
the order through a run: a process that is on its way to a lock owns locks before it only.
-/

namespace SustainableXv6

open Function Lib

variable {K : Type} {s s' : State K}

/-! ## Runs without recovery -/

/-- In `energy_aware_deadlock_recovery`. -/
def Pc.recovering : Pc K → Bool
  | .recover _ _ => true
  | _ => false

/-- No process takes the branch of `acquiresleep` that calls `energy_aware_deadlock_recovery`. -/
def NeverRecovers (s : State K) : Act K → Prop
  | .exec p _ => (s.pc p).recovering = false
  | _ => True

instance (s : State K) : ∀ a, Decidable (NeverRecovers s a)
  | .exec _ _ => inferInstanceAs (Decidable (_ = _))
  | .sched _ | .call _ _ | .timer _ _ | .fault _ | .idle => .isTrue trivial

/-- A wait has not been reported, or its process is about to call the recovery. -/
def UntoldInv (s : State K) : Prop :=
  ∀ p l, (s.proc p).waiting_for_lock = some l →
    (s.proc p).deadlock_reports = s.reports0 p ∨ ∃ l, s.pc p = .recover l .start

section

variable [DecidableEq K]

/-- A process that is about to call the recovery stays so while it is not called. -/
theorem recover_of_neverRecovers (hL : LocalInv s) {a : Act K} (ha : NeverRecovers s a)
    (h : safeStep s a = some s') {p : Slot} {l : Lock K} {r : RecoveryPc}
    (hpc : s.pc p = .recover l r) : s'.pc p = .recover l r := by
  cases step_moved h p with
  | stay hstay => exact hstay.trans hpc
  | exec ok hact hnext =>
    subst hact
    rw [NeverRecovers, hpc] at ha
    cases ha
  | call c hact huser hpc' | timer cpu0 hact huser hpc' | exit hact huser hpc' =>
    rw [hpc] at huser; cases huser
  | alloc hunused hpc' =>
    have halive : (s.proc p).Alive := hL.alive (by rw [hpc]; rfl)
    exact absurd hunused halive.1

/-- An action that calls no recovery leaves every report with its process. -/
theorem UntoldInv.step (hI : UntoldInv s) (hL : LocalInv s) {a : Act K} (ha : NeverRecovers s a)
    (h : safeStep s a = some s') : UntoldInv s' := by
  intro p l hl
  rcases safeStep_history h with ⟨q, ok, l', rfl, -, -, rfl⟩ | hh
  · by_cases hp : p = q
    · exact .inl (by simp [execRegister, hp])
    · -- The registration of another process changes nothing here.
      simp only [execRegister, State.setPc_proc, State.setProc_proc, State.setPc_pc,
        State.setProc_pc, update_of_ne hp] at hl ⊢
      exact hI p l hl
  · have hr : s'.reports0 p = s.reports0 p := congrFun (congrArg (fun x => x.2.2.2) hh) p
    have he := step_effect hL.fork h
    rcases (he.of_waiting (q := p) (by simp [hl])).2 with hrep | ⟨-, l', hpc⟩
    · obtain ⟨l₀, hl₀⟩ : ∃ l₀, (s.proc p).waiting_for_lock = some l₀ := by
        rcases he.waiting hl with hl₀ | ⟨-, rfl⟩
        · exact ⟨l, hl₀⟩
        · exact absurd (congrArg (fun x => x.2.1) hh) (Nat.succ_ne_self _)
      rcases hI p l₀ hl₀ with heq | ⟨l', hpc⟩
      · exact .inl (by rw [hrep, hr, heq])
      · exact .inr ⟨l', recover_of_neverRecovers hL ha h hpc⟩
    · exact .inr ⟨l', hpc⟩

/-- A run without recovery does not go astray. -/
theorem safe_of_neverRecovers (h : ReachVia step NeverRecovers boot s) :
    ReachVia safeStep NeverRecovers boot s := by
  rcases safe_or_stray h with hr | ⟨s₀, a, -, ha, p, ok, l, v, hpc, -⟩
  · exact hr
  · rw [NeverRecovers, hpc] at ha
    cases ha

/-- In a run without recovery, a reported wait is at the call of the recovery. -/
theorem untoldInv_of_reachVia (h : ReachVia safeStep NeverRecovers boot s) : UntoldInv s := by
  refine h.invariant (I := UntoldInv) (fun p l hl => .inl ?_) fun _ _ _ hr hI ha hs =>
    hI.step (localInv_of_reachVia hr) ha hs
  by_cases hp : p = initproc <;> simp [boot, hp, Proc.first, Proc.alloc, Proc.zero] at hl

/-- In a run without recovery, no processes sleep in a cycle: the one that was the last to register
has been reported, and is at the call of the recovery. -/
theorem not_hasCycle_of_neverRecovers (h : ReachVia step NeverRecovers boot s) :
    ¬ HasCycle (BlockedOn s) := by
  rintro ⟨k, c, hc⟩
  replace h := safe_of_neverRecovers h
  have hL := localInv_of_reachVia h
  obtain ⟨i, hlast⟩ := Finite.exists_max fun j => s.registered (c j)
  obtain ⟨-, l, hpc, -⟩ := hc i
  have hwait : (s.proc (c i)).waiting_for_lock = some l := (hL.proc _).asked l (by rw [hpc]; rfl)
  have hrep : Reported s (c i) := by
    have hwaits := hc.mono fun _ _ => BlockedOn.waitEdge hL
    cases (walkInv_of_reachVia h).walked c i hwaits hlast with
    | reported hrep => exact hrep
    | start l' hpc' | along l' o n hpc' howner hnew => rw [hpc] at hpc'; cases hpc'
  rcases untoldInv_of_reachVia h _ _ hwait with heq | ⟨l', hpc'⟩
  · rw [Reported, heq] at hrep
    simp at hrep
  · rw [hpc] at hpc'
    cases hpc'

end

set_option maxRecDepth 10000 in
/-- The first part of `deadlock_demo` needs no recovery. -/
theorem exists_parentWaits : ∃ s, ReachVia step NeverRecovers (boot : State Empty) s ∧
    BlockedOn s 1 2 := by
  obtain ⟨s, hs, hst, hpc, hown⟩ := exists_of_run step NeverRecovers (boot : State Empty)
    parentWaits
    (fun s => (s.proc 1).state = .sleeping ∧ s.pc 1 = .asleep (.demo 1) ∧ Owns s 2 (.demo 1))
    (by decide +kernel)
  exact ⟨s, hs, hst, _, hpc, hown⟩

/-- **No deadlock where recovery is not called for.** In every state reached without a call of
`energy_aware_deadlock_recovery`, no processes are asleep in `acquiresleep` in a cycle. -/
theorem not_blocked_of_neverRecovers [DecidableEq K] (h : ReachVia step NeverRecovers boot s) :
    ¬ HasCycle (BlockedOn s) :=
  not_hasCycle_of_neverRecovers h

/-- The parent of `deadlock_demo` sleeps for the lock of the child, and there is no cycle yet. -/
theorem not_blocked_of_neverRecovers_parentWaits : ∃ s : State Empty,
    ReachVia step NeverRecovers boot s ∧ BlockedOn s 1 2 ∧ ¬ HasCycle (BlockedOn s) := by
  obtain ⟨s, hs, h⟩ := exists_parentWaits
  exact ⟨s, hs, h, not_blocked_of_neverRecovers hs⟩

/-- **Recovery does not break the deadlock of `deadlock_demo`.** Its victim is killed, and is asleep
again in the cycle. -/
theorem deadlockDemo_blocked : ∃ s : State Empty, Reach step boot s ∧
    IsCycle (BlockedOn s) ![1, 2] ∧ (s.proc 2).killed = true := by
  obtain ⟨s, hs, h⟩ := exists_demoStuck
  exact ⟨s, hs.mono fun _ _ _ => trivial, h.isCycle, h.2.2.2.2.2.2.2.2.1⟩

variable {rank : Lock K → ℕ}

/-! ## Locks asked for in one order -/

/-- The lock that a system call acquires. -/
def Call.target : Call K → Option (Lock K)
  | .dlockacq lockid => (demoLock lockid).map .demo
  | .lockOther k => some (.other k)
  | _ => none

/-- The lock that a process is on its way to acquire, from the entry of the system call on. -/
def Pc.target : Pc K → Option (Lock K)
  | .ensure (.acq i) | .init (.acq i) _ => some (.demo i)
  | c => c.waits

/-- A process calls for a lock only while the locks that it owns come before it. -/
def AsksInOrder (rank : Lock K → ℕ) (s : State K) (a : Act K) : Prop :=
  ∀ p c l, a = .call p c → c.target = some l → ∀ l', Owns s p l' → rank l' < rank l

/-- Along the control flow, a process keeps its target until it has the lock. -/
theorem Pc.Next.target {c c' : Pc K} (h : c.Next c') {l : Lock K} (hl : c'.target = some l) :
    c.target = some l := by
  cases h with
  | ensureDone c | ensureInit c | initDone c w | initNext c w w' =>
    cases c <;> simp_all [Pc.target, Pc.waits, DemoCall.entry]
  | _ => simp_all [Pc.target, Pc.waits]

/-- A system call starts with its target. -/
theorem Call.entry_target (c : Call K) : (c.entry).target = c.target := by
  cases c with
  | dlockacq lockid | dlockrel lockid =>
    cases h : demoLock lockid <;> simp [Call.entry, Call.target, h, Pc.target, Pc.waits]
  | _ => rfl

/-- The process that a recovery is about to kill and to wake. -/
def Pc.victim : Pc K → Option Slot
  | .recover _ (.mark _ _ v _) | .recover _ (.kill v) | .recover _ (.test v)
  | .recover _ (.wake v) => some v
  | _ => none

/-- A recovery keeps its victim, or takes its caller or a process in use. -/
theorem victim_execRecovery {p v : Slot} {l : Lock K} {r : RecoveryPc}
    (hv : ((execRecovery s p l r).pc p).victim = some v) :
    (Pc.recover l r).victim = some v ∨ v = p ∨ (s.proc v).state ≠ .unused := by
  simp only [execRecovery, State.setPc_pc, update_self] at hv
  cases r with
  | start => exact .inr (.inl (by simpa [recoverRound, Pc.victim] using hv.symm))
  | mark owner_pid hops victim max_energy =>
    rw [recoverRound] at hv
    cases ho : ownerRound s.proc s.lock (s.proc p).pid owner_pid hops with
    | none => exact .inl (by simpa [ho, Pc.victim] using hv)
    | some x =>
      obtain ⟨owner, next⟩ := x
      have howner : (s.proc owner).state ≠ .unused := by
        simp only [ownerRound, Option.ite_none_right_eq_some, Option.map_eq_some_iff] at ho
        obtain ⟨-, q, hq, heq⟩ := ho
        obtain ⟨-, hq⟩ := (Option.ite_none_left_eq_some ..).mp hq
        obtain ⟨rfl, -⟩ := Prod.mk.inj heq
        exact (of_decide_eq_true (findSlot_some hq)).2
      have hpick : (pickRound s.proc (victim, max_energy) owner).1 = v := by
        cases next <;> simpa [ho, Pc.victim] using hv
      unfold pickRound at hpick
      split_ifs at hpick
      · exact .inr (.inr (hpick ▸ howner))
      · exact .inl (by simpa [Pc.victim] using hpick)
  | test victim =>
    rw [recoverRound] at hv
    split_ifs at hv
    · exact .inl hv
    · cases hv
  | unmark owner_pid hops =>
    rw [recoverRound] at hv
    cases ho : ownerRound s.proc s.lock (s.proc p).pid owner_pid hops with
    | none => simp [ho, Pc.victim] at hv
    | some x => cases hx : x.2 <;> simp [ho, hx, Pc.victim] at hv
  | kill => exact .inl hv
  | wake | clear => cases hv

/-- A process that is on its way to a lock owns locks before it only. -/
def TargetInv (rank : Lock K → ℕ) (s : State K) : Prop :=
  ∀ p l, (s.pc p).target = some l → ∀ l', Owns s p l' → rank l' < rank l

/-- Along an edge to a process that is blocked itself, the rank of the lock waited for grows. -/
theorem not_hasCycle_of_targetInv (hT : TargetInv rank s) : ¬ HasCycle (BlockedOn s) := by
  rintro ⟨k, c, hc⟩
  refine not_forall_lt_of_cyclic c (fun p => ((s.pc p).target.map rank).getD 0) fun i => ?_
  obtain ⟨-, l, hpc, hown⟩ := hc i
  obtain ⟨-, l', hpc', -⟩ := hc (i + 1)
  have hlt := hT (c (i + 1)) l' (by rw [hpc']; rfl) l hown
  simpa [hpc, hpc', Pc.target, Pc.waits] using hlt

variable [DecidableEq K]

/-- An action that keeps to the order keeps the order of targets. -/
theorem TargetInv.step (hT : TargetInv rank s) (hP : PidInv s) (hL : LocalInv s) {a : Act K}
    (ha : AsksInOrder rank s a) (h : safeStep s a = some s') : TargetInv rank s' := by
  intro p l hl l' hown
  -- A process that has just taken a lock has no target.
  have hown : Owns s p l' := by
    rcases hown.of_effect hP (step_effect hL.fork h) with hown | ⟨-, hpc | hpc, -⟩
    · exact hown
    · rw [hpc] at hl; cases hl
    · rw [hpc] at hl; cases hl
  cases step_moved h p with
  | stay hpc => exact hT p l (hpc ▸ hl) l' hown
  | exec ok ha' hnext => exact hT p l (hnext.target hl) l' hown
  | call c ha' huser hpc =>
    rw [hpc, c.entry_target] at hl
    exact ha p c l ha' hl l' hown
  | timer cpu0 ha' huser hpc | exit ha' huser hpc | alloc hunused hpc => rw [hpc] at hl; cases hl

/-- The order of targets holds in every state reached by actions that keep to the order. -/
theorem targetInv_of_reachVia (h : ReachVia safeStep (AsksInOrder rank) boot s) :
    TargetInv rank s :=
  h.invariant (fun p l hl => by cases hl) fun _ _ _ hr hT ha hs =>
    hT.step (pidInv_of_reachVia hr) (localInv_of_reachVia hr) ha hs

/-- **No deadlock among processes that ask in one order.** In every state reached by actions that
keep to one order of the locks, no processes are asleep in `acquiresleep` in a cycle. -/
theorem not_hasCycle_of_asksInOrder (h : ReachVia step (AsksInOrder rank) boot s) :
    ¬ HasCycle (BlockedOn s) := by
  rcases safe_or_stray h with hr | ⟨s₀, a, hr, -, hs⟩
  · exact not_hasCycle_of_targetInv (targetInv_of_reachVia hr)
  · rintro ⟨k, c, hc⟩
    exact not_hasCycle_of_targetInv (targetInv_of_reachVia hr)
      ⟨k, c, isCycle_blockedOn_of_stray (localInv_of_reachVia hr) hs hc⟩

/-- The demo locks in the order of their ids. -/
def idRank : Lock Empty → ℕ
  | .demo i => i

instance (s : State Empty) (a : Act Empty) : Decidable (AsksInOrder idRank s a) :=
  match a with
  | .call p c =>
    decidable_of_iff (∀ i j, c.target = some (.demo i) → Owns s p (.demo j) → j < i)
      ⟨fun h q c' l ha hl l' hown => by
        obtain ⟨rfl, rfl⟩ := Act.call.inj ha
        obtain i | ⟨⟨⟩⟩ := l
        obtain j | ⟨⟨⟩⟩ := l'
        exact h i j hl hown, fun h i j hl => h p c (.demo i) rfl hl (.demo j)⟩
  | .sched _ | .exec _ _ | .timer _ _ | .fault _ | .idle => .isTrue fun _ _ _ h => by cases h

set_option maxRecDepth 10000 in
/-- The parent of `deadlock_demo` asks for lock 0, then for lock 1, and sleeps. -/
theorem not_hasCycle_of_asksInOrder_parentWaits : ∃ s, ReachVia step (AsksInOrder idRank) boot s ∧
    (s.proc 1).state = .sleeping ∧ ¬ HasCycle (BlockedOn s) := by
  obtain ⟨s, hs, h⟩ := exists_of_run step (AsksInOrder idRank) boot parentWaits
    (fun s => (s.proc 1).state = .sleeping) (by decide +kernel)
  exact ⟨s, hs, h, not_hasCycle_of_asksInOrder hs⟩

/-! ## The two detectors -/

/-- The victim of a recovery has waited for no resource since it was in use, also if its slot has
been freed by now. -/
def VictimInv (s : State K) : Prop :=
  ∀ p v, (s.pc p).victim = some v → (s.proc v).waiting_res = -1

/-- A process that waits for no resource starts to wait for none. -/
theorem waiting_res_of_step (hL : LocalInv s) {a : Act K} (h : safeStep s a = some s') {v : Slot}
    (hv : (s.proc v).waiting_res = -1) : (s'.proc v).waiting_res = -1 := by
  by_cases hact : a.actor = some v
  · have hrun := step_actor_running (safeStep_eq_some.mp h).1 hact
    refine ((hL.step h).proc v).resources fun hu => ?_
    rcases (step_effect hL.fork h).of_alive (q := v) (by simp [Proc.Alive, hrun]) with ha | ⟨hz, -⟩
    · exact ha.1 hu
    · rw [hu] at hz; cases hz
  · cases step_touch h hact with
    | passive hproc hpc =>
      rcases hproc.waiting_res with he | he
      · rw [he, hv]
      · exact he
    | alloc hunused name hproc hpc hnext | freed hdead old hproc hpc => rw [hproc]; rfl
    | started p hfork hfork' hproc hpc => rw [hproc]; exact hv

/-- Every action keeps the victims. -/
theorem VictimInv.step (hI : VictimInv s) (hL : LocalInv s) {a : Act K}
    (h : safeStep s a = some s') : VictimInv s' := by
  intro p v hv
  refine waiting_res_of_step hL h ?_
  cases step_moved h p with
  | stay hpc => exact hI p v (hpc ▸ hv)
  | exec ok ha hnext =>
    subst ha
    cases step_cases (safeStep_eq_some.mp h).1 with
    | exec p ok s' hrun hex =>
      generalize hc : s.pc p = c at hnext
      generalize hc' : s'.pc p = c' at hnext hv
      cases hnext with
      | recoverNext l r r' =>
        rw [exec, hc] at hex
        obtain rfl := Option.some.inj hex
        rcases victim_execRecovery (by rw [hc']; exact hv) with hv | rfl | hu
        · exact hI p v (by rw [hc]; exact hv)
        · exact (hL.proc _).resources (by simp [hrun])
        · exact (hL.proc v).resources hu
      | ensureDone c | initDone c w => cases c <;> cases hv
      | _ => cases hv
  | call c ha huser hpc =>
    rw [hpc] at hv
    cases c with
    | dlockacq lockid | dlockrel lockid =>
      cases hd : demoLock lockid <;> simp [Call.entry, hd, Pc.victim] at hv
    | _ => cases hv
  | timer cpu0 ha huser hpc | exit ha huser hpc | alloc hunused hpc => rw [hpc] at hv; cases hv

/-- In every state reached, `check_deadlock` finds nothing. -/
theorem checkDeadlock_of_reachVia {C : State K → Act K → Prop} (h : ReachVia step C boot s) :
    checkDeadlock s.proc = (s.proc, 0) := by
  refine checkDeadlock_of_no_waiter fun q hq => ?_
  suffices hres : (s.proc q).waiting_res = -1 by rw [hres]; decide
  rcases safe_or_stray h with hr | ⟨s₀, a, hr, -, p, ok, l, v, hpc, -⟩
  · exact ((localInv_of_reachVia hr).proc q).resources hq
  · have hV : VictimInv s₀ := hr.invariant (fun p v hv => by cases hv) fun _ _ _ hr hI _ hs =>
      hI.step (localInv_of_reachVia hr) hs
    by_cases hqv : q = v
    · subst hqv
      simpa [execRecovery, recoverRound] using hV p q (by rw [hpc]; rfl)
    · have hsame : (execRecovery s₀ p l (.wake v)).proc q = s₀.proc q :=
        update_of_ne hqv _ _
      rw [hsame] at hq ⊢
      exact ((localInv_of_reachVia hr).proc q).resources hq

/-- If processes are blocked in a cycle, `check_deadlock` returns the pid of a process that is on
such a cycle. -/
def DetectorsAgree (s : State K) : Prop :=
  HasCycle (BlockedOn s) → (checkDeadlock s.proc).2 ≠ 0 ∧
    ∃ (k : ℕ) (c : Fin (k + 1) → Slot), IsCycle (BlockedOn s) c ∧
      ∃ i, (checkDeadlock s.proc).2 = (s.proc (c i)).pid

/-- The detectors agree in the states reached in which no processes are blocked in a cycle, and in
no others. -/
theorem detectorsAgree_iff {C : State K → Act K → Prop} (h : ReachVia step C boot s) :
    DetectorsAgree s ↔ ¬ HasCycle (BlockedOn s) := by
  constructor
  · intro hd hc
    exact (hd hc).1 (by rw [checkDeadlock_of_reachVia h])
  · exact fun hn hc => absurd hc hn

/-- **When the two detectors agree.** `check_deadlock` returns 0 in every state reached, so they
agree exactly where there is no deadlock, as in the states reached while the detector of the locks
has not called for recovery. -/
theorem detectorsAgree_of_neverRecovers :
    (∀ s : State K, Reach step boot s →
      (checkDeadlock s.proc).2 = 0 ∧ (DetectorsAgree s ↔ ¬ HasCycle (BlockedOn s))) ∧
    ∀ s : State K, ReachVia step NeverRecovers boot s → DetectorsAgree s := by
  refine ⟨fun s h => ⟨by rw [checkDeadlock_of_reachVia h], detectorsAgree_iff h⟩, fun s h => ?_⟩
  exact (detectorsAgree_iff h).mpr (not_hasCycle_of_neverRecovers h)

/-- They agree while the parent of `deadlock_demo` sleeps for the lock of the child. -/
theorem detectorsAgree_of_neverRecovers_parentWaits : ∃ s : State Empty,
    ReachVia step NeverRecovers boot s ∧ BlockedOn s 1 2 ∧ DetectorsAgree s := by
  obtain ⟨s, hs, h⟩ := exists_parentWaits
  exact ⟨s, hs, h, detectorsAgree_of_neverRecovers.2 s hs⟩

/-- **They do not agree on `deadlock_demo`**, whose processes block each other. -/
theorem deadlockDemo_not_detectorsAgree : ∃ s : State Empty, Reach step boot s ∧
    IsCycle (BlockedOn s) ![1, 2] ∧ (checkDeadlock s.proc).2 = 0 ∧ ¬ DetectorsAgree s := by
  obtain ⟨s, hs, h⟩ := exists_demoStuck
  refine ⟨s, hs.mono fun _ _ _ => trivial, h.isCycle, by rw [checkDeadlock_of_reachVia hs],
    fun hd => ?_⟩
  exact (detectorsAgree_iff hs).mp hd ⟨1, ![1, 2], h.isCycle⟩

end SustainableXv6
