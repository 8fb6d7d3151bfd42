import SustainableXv6.Kernel.Detection

/-!
# The demo locks of processes that have ended

`kexit` closes the files of a process and gives its children away, but it does not release the sleep
locks that the process holds. A process that ends with a demo lock leaves it locked with the pid of
a zombie, and later with a pid that nobody has (`exit_orphans_lock`). The same is left when
`initsleeplock` clears the pid of a lock that has just been taken. Where neither happens
(`KeepsOwners`), every locked demo lock belongs to a process that is alive (`demoLock_owner_alive`).
-/

namespace SustainableXv6

open Lib

variable {K : Type} {s s' : State K}

/-- At `kexit`. -/
def Pc.exiting : Pc K → Bool
  | .exit _ => true
  | _ => false

/-- A process that owns a demo lock does not end, and `initsleeplock` does not write to a demo lock
that is locked. -/
def KeepsOwners (s : State K) : Act K → Prop
  | .exec p _ =>
    ((s.pc p).exiting = true → ∀ i, ¬ Owns s p (.demo i)) ∧
      ∀ i ∈ (s.pc p).initTarget, (s.lock (.demo i)).locked = false
  | _ => True

/-- Every locked demo lock has the pid of a process that is alive. -/
def OwnersAlive (s : State K) : Prop :=
  ∀ i, (s.lock (.demo i)).locked = true →
    ∃ q, (s.proc q).Alive ∧ (s.proc q).pid = (s.lock (.demo i)).pid

/-- Where a recovery goes astray, nobody ends. -/
theorem OwnersAlive.stray (hO : OwnersAlive s) {a : Act K} (h : Stray s a s') :
    OwnersAlive s' := by
  obtain ⟨p, ok, l, v, -, -⟩ := h
  intro i hlocked
  obtain ⟨q, hq, hpid⟩ := hO i hlocked
  refine ⟨q, ?_⟩
  by_cases hv : q = v
  · subst hv
    simpa [execRecovery, recoverRound, Proc.Alive] using hpid
  · simpa [execRecovery, recoverRound, hv] using ⟨hq, hpid⟩

variable [DecidableEq K]

/-- An action that keeps owners alive keeps the owners of the demo locks alive. -/
theorem OwnersAlive.step (hO : OwnersAlive s) (hL : LocalInv s) {a : Act K} (ha : KeepsOwners s a)
    (h : safeStep s a = some s') : OwnersAlive s' := by
  intro i hlocked
  have he := step_effect hL.fork h
  rcases he.locked hlocked with ⟨hlocked₀, hpid⟩ |
    ⟨hlocked₀, -, p, ok, c, w, j, rfl, hpc, hj, hij⟩ | ⟨p, hrun, -, hpid, -, hproc⟩
  · obtain ⟨q, hq, hqpid⟩ := hO i hlocked₀
    have hsame : (s'.proc q).pid = (s.proc q).pid := by
      rcases he.pid q with ⟨hsame, -⟩ | ⟨hunused, -⟩ | ⟨hdead, -⟩
      · exact hsame
      · exact absurd hunused hq.1
      · exact absurd hq hdead
    rcases he.of_alive hq with halive | ⟨-, ok, status, rfl, hpc⟩
    · exact ⟨q, halive, by rw [hsame, hqpid, hpid]⟩
    · -- The owner would have ended.
      exact absurd ⟨hlocked₀, hq.1, hqpid.symm⟩ (ha.1 (by rw [hpc]; rfl) i)
  · -- `initsleeplock` would have written to a locked lock.
    rw [hij, ha.2 j (by rw [hpc]; exact hj)] at hlocked₀
    cases hlocked₀
  · exact ⟨p, by simp [hproc, Proc.Alive, hrun], by rw [hproc, hpid]⟩

/-- **No demo lock outlives its owner** in the runs in which no owner ends and `initsleeplock`
writes to no locked lock. -/
theorem demoLock_owner_alive (h : ReachVia step KeepsOwners boot s) (i : Fin 2)
    (hlocked : (s.lock (.demo i)).locked = true) :
    ∃ q, (s.proc q).Alive ∧ (s.proc q).pid = (s.lock (.demo i)).pid := by
  have hsafe : ∀ s : State K, ReachVia safeStep KeepsOwners boot s → OwnersAlive s := fun s hr =>
    hr.invariant (fun i hi => by cases hi) fun _ _ _ hr hO ha hs =>
      hO.step (localInv_of_reachVia hr) ha hs
  rcases safe_or_stray h with hr | ⟨s₀, a, hr, -, hs⟩
  · exact hsafe s hr i hlocked
  · exact (hsafe s₀ hr).stray hs i hlocked

instance (s : State K) : ∀ a, Decidable (KeepsOwners s a)
  | .exec _ _ => inferInstanceAs (Decidable (_ ∧ _))
  | .sched _ | .call _ _ | .timer _ _ | .fault _ | .idle => .isTrue trivial

set_option maxRecDepth 10000 in
/-- While the parent of `deadlock_demo` waits for lock 1, both locks are locked, and their owners
are alive. -/
theorem demoLock_owner_alive_parentWaits : ∃ s : State Empty, ReachVia step KeepsOwners boot s ∧
    s.pc 1 = .asleep (.demo 1) ∧ ∀ i, (s.lock (.demo i)).locked = true ∧
      ∃ q, (s.proc q).Alive ∧ (s.proc q).pid = (s.lock (.demo i)).pid := by
  obtain ⟨s, hs, hpc, hlocked⟩ := exists_of_run step KeepsOwners (boot : State Empty) parentWaits
    (fun s => s.pc 1 = .asleep (.demo 1) ∧ ∀ i, (s.lock (.demo i)).locked = true)
    (by decide +kernel)
  exact ⟨s, hs, hpc, fun i => ⟨hlocked i, demoLock_owner_alive hs i (hlocked i)⟩⟩

/-- A child takes lock 0 and exits. -/
def exitLocked : List (Act Empty) :=
  List.flatten [
    [.sched 0, .call 0 .fork], List.replicate 4 (.exec 0 true),
    [.sched 1, .call 1 (.dlockacq 0)], List.replicate 14 (.exec 1 true),
    [.call 1 (.exit 0), .exec 1 true]]

set_option maxRecDepth 10000 in
/-- **A demo lock outlives its owner**: after the child has exited, lock 0 is locked, and no process
that is alive has its pid. -/
theorem exit_orphans_lock : ∃ s : State Empty, Reach step boot s ∧
    (s.lock (.demo 0)).locked = true ∧
    ¬ ∃ q, (s.proc q).Alive ∧ (s.proc q).pid = (s.lock (.demo 0)).pid :=
  exists_of_run step (fun _ _ => True) (boot : State Empty) exitLocked _ (by decide +kernel)

end SustainableXv6
