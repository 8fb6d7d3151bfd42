import SustainableXv6.Kernel.Machine
import SustainableXv6.Lib.Path
import SustainableXv6.Sched.Select

/-!
# Overtaking on one processor

On one processor the scheduler runs only while no process does, and it switches to the process that
`chooseProc` names (`OneCpu`). While no child of `schedtest` is runnable, that is the first runnable
process of the table, because every iteration starts its scan at slot 0 again.

So a process waits as long as processes in earlier slots come back as runnable: the process that
yields is chosen again at once if its slot comes first (`yield_overtakes`). A process is not chosen
twice while another one waits in the runs in which no process becomes runnable in front of one that
waits (`no_overtaking`): the process chosen first is in an earlier slot than the one that waits, and
it must have become runnable again before it is chosen a second time.
-/

namespace SustainableXv6

open Lib (Path exists_becomes)

variable {K : Type} {s s' : State K}

/-- The actions on a single processor: `scheduler` runs while no process does, and switches to the
process that it chooses. -/
def OneCpu (s : State K) : Act K → Prop
  | .sched p => (∀ q, (s.proc q).state ≠ .running) ∧ chooseProc s.proc = some p
  | .timer _ cpu0 => cpu0 = true
  | .idle => ∀ q, (s.proc q).state ≠ .running
  | .call _ _ | .exec _ _ | .fault _ => True

/-- No child of `schedtest` is runnable. -/
def NoRunnableChild (s : State K) : Prop := ∀ q, childTest s.proc q = false

instance (s : State K) : ∀ a, Decidable (OneCpu s a)
  | .sched _ => inferInstanceAs (Decidable (_ ∧ _))
  | .timer _ cpu0 => inferInstanceAs (Decidable (cpu0 = true))
  | .idle => inferInstanceAs (Decidable (∀ q, (s.proc q).state ≠ .running))
  | .call _ _ | .exec _ _ | .fault _ => .isTrue trivial

instance (s : State K) : Decidable (NoRunnableChild s) :=
  inferInstanceAs (Decidable (∀ q, childTest s.proc q = false))

/-- The process that is chosen while no child of `schedtest` is runnable comes before every other
one that is runnable. -/
theorem lt_of_oneCpu {p q : Slot} (h : OneCpu s (.sched p)) (hc : NoRunnableChild s) (hne : q ≠ p)
    (hq : (s.proc q).state = .runnable) : p < q := by
  have hfirst := h.2
  rw [chooseProc_of_no_child hc] at hfirst
  exact lt_of_le_of_ne (findSlot_le hfirst (by simpa using hq)) hne.symm

variable [DecidableEq K]

/-- An action makes a process runnable, by its `yield`, by waking it up or by forking it, only while
no process in a later slot is runnable. -/
def ReturnsBehind (s : State K) (a : Act K) : Prop :=
  ∀ s' ∈ step s a, ∀ p, (s.proc p).state ≠ .runnable → (s'.proc p).state = .runnable →
    ∀ q, p < q → (s.proc q).state ≠ .runnable

instance (s : State K) (a : Act K) : Decidable (ReturnsBehind s a) :=
  inferInstanceAs (Decidable (∀ s' ∈ step s a, _))

/-- The process that is switched to runs. -/
theorem running_of_sched {p : Slot} (h : step s (.sched p) = some s') :
    (s.proc p).state = .runnable ∧ (s'.proc p).state = .running := by
  cases step_cases h with
  | sched p hrun => exact ⟨hrun, by simp [switchTo]⟩

/-- **No overtaking while waiting**, on one processor, in the runs in which no child of `schedtest`
is runnable and no process becomes runnable in front of one that waits: a process is not chosen
twice while another one stays runnable and unchosen from the first choice to the second. -/
theorem no_overtaking {s₀ : State K} {n : ℕ}
    (π : Path step (fun s a => (OneCpu s a ∧ NoRunnableChild s) ∧ ReturnsBehind s a) s₀ n)
    (p q : Slot) (hne : q ≠ p) (i j : ℕ) (hij : i < j) (hj : j < n) (hi : π.act i = .sched p)
    (hj' : π.act j = .sched p) :
    ¬ ∀ k, i ≤ k → k ≤ j → ((π.state k).proc q).state = .runnable ∧ π.act k ≠ .sched q := by
  intro hwait
  obtain ⟨⟨hcpu, hchild⟩, -⟩ := π.cond i (by omega)
  have hnext := π.next i (by omega)
  have hnext' := π.next j hj
  rw [hi] at hcpu hnext
  rw [hj'] at hnext'
  have hlt : p < q := lt_of_oneCpu hcpu hchild hne (hwait i le_rfl (by omega)).1
  -- After the first choice `p` runs, and before the second one it is runnable.
  have hran : ((π.state (i + 1)).proc p).state ≠ .runnable := by
    rw [(running_of_sched hnext).2]
    decide
  obtain ⟨k, hik, hkj, hk, hk'⟩ :=
    exists_becomes (P := fun k => ((π.state k).proc p).state = .runnable) (by omega) hran
      (running_of_sched hnext').1
  obtain ⟨-, hbehind⟩ := π.cond k (by omega)
  exact hbehind _ (π.next k (by omega)) p hk hk' q hlt (hwait k (by omega) (by omega)).1

/-- The first process forks a child and waits for it. -/
def waitsForChild : List (Act Empty) :=
  List.flatten [
    [.sched 0, .call 0 .fork], List.replicate 4 (.exec 0 true),
    [.call 0 .wait, .exec 0 true, .sched 1, .call 1 (.exit 0), .exec 1 true, .sched 0]]

set_option maxRecDepth 10000 in
/-- The first process is chosen, forks a child, waits for it, and is chosen again when the child has
exited. The child did not wait all the time. -/
theorem no_overtaking_waitsForChild :
    ∃ π : Path step (fun s a => (OneCpu s a ∧ NoRunnableChild s) ∧ ReturnsBehind s a)
      (boot : State Empty) waitsForChild.length,
      π.act 0 = .sched 0 ∧ π.act 11 = .sched 0 ∧
      ¬ ∀ k, 0 ≤ k → k ≤ 11 → ((π.state k).proc 1).state = .runnable ∧ π.act k ≠ .sched 1 := by
  refine ⟨.ofRun waitsForChild (by decide +kernel), rfl, rfl, ?_⟩
  exact no_overtaking _ 0 1 (by decide) 0 11 (by decide) (by decide) rfl rfl

/-- The first process forks a child, and yields twice when the timer interrupts it. -/
def yieldsTwice : List (Act Empty) :=
  List.flatten [
    [.sched 0, .call 0 .fork], List.replicate 4 (.exec 0 true),
    [.timer 0 true], List.replicate 4 (.exec 0 true), [.sched 0],
    [.timer 0 true], List.replicate 4 (.exec 0 true), [.sched 0]]

set_option maxRecDepth 10000 in
/-- **A process that yields overtakes the one that waits**: the first process is chosen twice, and
its child is runnable and unchosen all the time. -/
theorem yield_overtakes :
    ∃ π : Path step (fun s a => OneCpu s a ∧ NoRunnableChild s) (boot : State Empty)
      yieldsTwice.length,
      π.act 11 = .sched 0 ∧ π.act 17 = .sched 0 ∧
      ∀ k, 11 ≤ k → k ≤ 17 → ((π.state k).proc 1).state = .runnable ∧ π.act k ≠ .sched 1 := by
  refine ⟨.ofRun yieldsTwice (by decide +kernel), rfl, rfl, fun k hk hk' => ?_⟩
  interval_cases k <;> exact ⟨by decide +kernel, by decide⟩

end SustainableXv6
