import SustainableXv6.Lib.Transition

/-!
# Runs with their steps, and runs with a history

`ReachVia` forgets how a state was reached. A `Path` of length `n` keeps the states `state i` of a
run, for `i ≤ n`, and the actions `act i` between them, for `i < n`, so that properties of the order
of two steps can be stated. A path is given by its list of actions (`Path.ofRun`), and
`exists_becomes` finds the step at which a property came to hold. `withHistory` puts beside the
state a record of the steps taken, which no step reads, and `ReachVia.fst` forgets it again.
-/

namespace SustainableXv6.Lib

variable {σ α : Type*} {step : σ → α → Option σ} {C : σ → α → Prop} {s₀ : σ} {n : ℕ}

/-- A run of `n` steps from `s₀`, all of which satisfy `C`. -/
structure Path (step : σ → α → Option σ) (C : σ → α → Prop) (s₀ : σ) (n : ℕ) where
  /-- The states. -/
  state : ℕ → σ
  /-- The actions. -/
  act : ℕ → α
  start : state 0 = s₀
  cond : ∀ i < n, C (state i) (act i)
  next : ∀ i < n, step (state i) (act i) = some (state (i + 1))

/-- The states of a path are reached. -/
theorem Path.reachVia (π : Path step C s₀ n) {i : ℕ} (hi : i ≤ n) :
    ReachVia step C s₀ (π.state i) := by
  induction i with
  | zero => rw [π.start]; exact .refl
  | succ i ih => exact (ih (by omega)).tail (π.cond i (by omega)) (π.next i (by omega))

/-- A property that does not hold at `i` and holds later came to hold by some step. -/
theorem exists_becomes {P : ℕ → Prop} {i j : ℕ} (hij : i ≤ j) (hi : ¬ P i) (hj : P j) :
    ∃ k, i ≤ k ∧ k < j ∧ ¬ P k ∧ P (k + 1) := by
  induction j, hij using Nat.le_induction with
  | base => exact absurd hj hi
  | succ j hij ih =>
    by_cases h : P j
    · obtain ⟨k, hik, hkj, hk⟩ := ih h
      exact ⟨k, hik, by omega, hk⟩
    · exact ⟨j, hij, by omega, h, hj⟩

/-- The step function of a system with a history beside its state. -/
def withHistory {η : Type*} (step : σ → α → Option σ) (record : σ → α → η → η) (m : σ × η) (a : α) :
    Option (σ × η) :=
  (step m.1 a).map fun s' => (s', record m.1 a m.2)

/-- A run with a history is a run. -/
theorem ReachVia.fst {η : Type*} {record : σ → α → η → η} {m₀ m : σ × η}
    (h : ReachVia (withHistory step record) (fun m a => C m.1 a) m₀ m) :
    ReachVia step C m₀.1 m.1 := by
  induction h with
  | refl => exact .refl
  | tail _ hc hs ih =>
    obtain ⟨s', hs', rfl⟩ := Option.map_eq_some_iff.mp hs
    exact ih.tail hc hs'

section Run

variable [∀ s a, Decidable (C s a)]

/-- The last step of a list of actions. -/
theorem run_concat (s : σ) (as : List α) (a : α) :
    run step C s (as ++ [a]) =
      (run step C s as).bind fun t => if C t a then step t a else none := by
  induction as generalizing s with
  | nil => simp [run]
  | cons b as ih =>
    rw [List.cons_append, run, run]
    split_ifs
    · simp only [Option.bind_assoc, ih]
    · rfl

/-- Every step of a list of actions that runs to its end satisfies the condition and is enabled. -/
theorem run_take_succ [Inhabited α] {as : List α} (h : (run step C s₀ as).isSome) {i : ℕ}
    (hi : i < as.length) :
    ∃ s s', run step C s₀ (as.take i) = some s ∧ C s (as.getD i default) ∧
      step s (as.getD i default) = some s' ∧ run step C s₀ (as.take (i + 1)) = some s' := by
  induction as using List.reverseRecOn with
  | nil => simp at hi
  | append_singleton as a ih =>
    rw [run_concat, Option.isSome_bind] at h
    have hrun : (run step C s₀ as).isSome := by
      cases hs : run step C s₀ as with
      | none => simp [hs] at h
      | some s => rfl
    by_cases hlast : i < as.length
    · obtain ⟨s, s', hs, hc, hstep, hs'⟩ := ih hrun hlast
      refine ⟨s, s', ?_, ?_, ?_, ?_⟩
      · rwa [List.take_append_of_le_length (by omega)]
      · rwa [List.getD_append _ _ _ _ hlast]
      · rwa [List.getD_append _ _ _ _ hlast]
      · rwa [List.take_append_of_le_length (by omega)]
    · -- The last action.
      have hlen : i = as.length := by
        simp only [List.length_append, List.length_singleton] at hi
        omega
      subst hlen
      obtain ⟨s, hs⟩ := Option.isSome_iff_exists.mp hrun
      have hget : (as ++ [a]).getD as.length default = a := by simp
      simp only [hs, Option.any_some] at h
      split_ifs at h with hc
      · obtain ⟨s', hs'⟩ := Option.isSome_iff_exists.mp h
        refine ⟨s, s', by simpa using hs, by rwa [hget], by rwa [hget], ?_⟩
        rw [List.take_of_length_le (by simp), run_concat, hs, Option.bind_some, if_pos hc, hs']
      · simp at h

/-- The path of a list of actions that runs to its end. -/
def Path.ofRun [Inhabited α] (as : List α) (h : (run step C s₀ as).isSome) :
    Path step C s₀ as.length where
  state i := (run step C s₀ (as.take i)).getD s₀
  act i := as.getD i default
  start := by simp [run]
  cond := fun i hi => by
    obtain ⟨s, s', hs, hc, -, -⟩ := run_take_succ h hi
    rwa [hs]
  next := fun i hi => by
    obtain ⟨s, s', hs, -, hstep, hs'⟩ := run_take_succ h hi
    rw [hs, hs']
    exact hstep

end Run

end SustainableXv6.Lib
