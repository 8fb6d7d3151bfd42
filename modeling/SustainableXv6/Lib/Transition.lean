import Mathlib

/-!
# Runs of a step function

A system is given by a step function `step : σ → α → Option σ`: the state after the action `a`, or
`none` where `a` is not enabled. `ReachVia step C s₀ s` says that a run from `s₀` reaches `s` along
steps that all satisfy `C`, a condition on the state before the step and on the action. `Reach` is
the case without a condition. An invariant is proved once per step by `ReachVia.invariant`, and a
concrete run is given by its list of actions (`run`, `exists_of_run`).
-/

namespace SustainableXv6.Lib

variable {σ α : Type*} {step : σ → α → Option σ} {C : σ → α → Prop} {s₀ s s' : σ}

/-- The states reached from `s₀` by steps that all satisfy `C`. -/
inductive ReachVia (step : σ → α → Option σ) (C : σ → α → Prop) (s₀ : σ) : σ → Prop
  | refl : ReachVia step C s₀ s₀
  | tail {s s' : σ} {a : α} :
      ReachVia step C s₀ s → C s a → step s a = some s' → ReachVia step C s₀ s'

/-- The states reached from `s₀` by any steps. -/
def Reach (step : σ → α → Option σ) (s₀ : σ) : σ → Prop := ReachVia step (fun _ _ => True) s₀

/-- A predicate that holds at the start and that every step meeting the condition preserves holds
in every state reached. The state before the step may be taken to be reached itself. -/
theorem ReachVia.invariant {I : σ → Prop} (h : ReachVia step C s₀ s) (h₀ : I s₀)
    (hstep : ∀ s a s', ReachVia step C s₀ s → I s → C s a → step s a = some s' → I s') : I s := by
  induction h with
  | refl => exact h₀
  | tail hr hc hs ih => exact hstep _ _ _ hr ih hc hs

/-- A run that meets a condition meets every weaker one. -/
theorem ReachVia.mono {C' : σ → α → Prop} (h : ReachVia step C s₀ s)
    (hC : ∀ s a, C s a → C' s a) : ReachVia step C' s₀ s := by
  induction h with
  | refl => exact .refl
  | tail hr hc hs ih => exact ih.tail (hC _ _ hc) hs

section Run

variable [∀ s a, Decidable (C s a)]

/-- The state after a list of actions, or `none` if one of them is not enabled or does not satisfy
`C`. -/
def run (step : σ → α → Option σ) (C : σ → α → Prop) [∀ s a, Decidable (C s a)] :
    σ → List α → Option σ
  | s, [] => some s
  | s, a :: as => if C s a then (step s a).bind (run step C · as) else none

/-- A list of actions that runs to its end reaches its last state. -/
theorem reachVia_of_run :
    ∀ {as : List α} {s s' : σ}, ReachVia step C s₀ s → run step C s as = some s' →
      ReachVia step C s₀ s'
  | [], s, s', hr, h => by
    simp only [run, Option.some.injEq] at h
    exact h ▸ hr
  | a :: as, s, s', hr, h => by
    simp only [run, Option.ite_none_right_eq_some, Option.bind_eq_some_iff] at h
    obtain ⟨hc, t, ht, h⟩ := h
    exact reachVia_of_run (hr.tail hc ht) h

/-- A run given by its actions, whose last state passes a test, reaches a state that passes it. -/
theorem exists_of_run (step : σ → α → Option σ) (C : σ → α → Prop) [∀ s a, Decidable (C s a)]
    (s₀ : σ) (as : List α) (P : σ → Prop) [DecidablePred P]
    (h : (run step C s₀ as).any (fun s => decide (P s)) = true) :
    ∃ s, ReachVia step C s₀ s ∧ P s := by
  simp only [Option.any_eq_true, decide_eq_true_eq] at h
  obtain ⟨s, hs, hp⟩ := h
  exact ⟨s, reachVia_of_run .refl hs, hp⟩

end Run

end SustainableXv6.Lib
