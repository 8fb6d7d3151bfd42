import SustainableXv6.Rag.CheckDeadlock

/-!
# Repeated recovery removes the cycles one by one

`deadlock_recover` of `kernel/proc.c` calls `check_deadlock` for its effect on the table. Killing
the victim takes away the resources that it holds and the one that it waits for, which isolates it
in the resource allocation graph (`ragEdge_ragKill`): no resource has a second holder to which a
waiter could be redirected. So the victim's cycle goes and the others stay
(`cycleSets_deadlockRecover`), and a table with `k` cycles is cleared by exactly `k` calls
(`deadlockRecover_iterate`).
-/

namespace SustainableXv6

open Function Lib Relation

variable {K : Type} {t : Table K}

/-- `deadlock_recover`: the table after a call of `check_deadlock`. -/
def deadlockRecover (t : Table K) : Table K := (checkDeadlock t).1

/-- A killed process is in use exactly when it was. -/
theorem Proc.ragKill_state_eq_unused (p : Proc K) :
    p.ragKill.state = .unused ↔ p.state = .unused := by
  unfold Proc.ragKill
  dsimp only
  split_ifs with hs
  · simp [hs]
  · rfl

/-- Whether a slot is in use does not change when a process is killed. -/
theorem update_ragKill_unused (t : Table K) (v : Slot) :
    ∀ p, (update t v (t v).ragKill p).state = .unused ↔ (t p).state = .unused :=
  (forall_update_iff t fun p x => x.state = .unused ↔ (t p).state = .unused).mpr
    ⟨Proc.ragKill_state_eq_unused _, fun _ _ => Iff.rfl⟩

/-- Killing a process isolates it in the resource allocation graph. -/
theorem ragEdge_ragKill (t : Table K) (v : Slot) :
    RagEdge (update t v (t v).ragKill) = isolate (RagEdge t) v := by
  funext p q
  apply propext
  unfold RagEdge isolate
  rw [ne_eq, update_ragKill_unused, ne_eq, update_ragKill_unused]
  constructor
  · rintro ⟨hp, hq, r, hr, hqr⟩
    -- The victim waits for nothing and holds nothing.
    have hpv : p ≠ v := by
      rintro rfl
      rw [update_self] at hr
      simp only [Proc.ragKill] at hr
      omega
    have hqv : q ≠ v := by
      rintro rfl
      rw [update_self] at hqr
      simp [Proc.ragKill] at hqr
    rw [update_of_ne hpv] at hr
    rw [update_of_ne hqv] at hqr
    exact ⟨⟨hp, hq, r, hr, hqr⟩, hpv, hqv⟩
  · rintro ⟨⟨hp, hq, r, hr, hqr⟩, hpv, hqv⟩
    rw [update_of_ne hpv, update_of_ne hqv]
    exact ⟨hp, hq, r, hr, hqr⟩

/-- Killing a process keeps the conditions on tables. -/
theorem RagTable.ragKill (h : RagTable t) (v : Slot) :
    RagTable (update t v (t v).ragKill) where
  one_holder := by
    intro r p q hp hq hpr hqr
    rw [ne_eq, update_ragKill_unused] at hp hq
    -- Who holds a resource after the kill held it before.
    have hold : ∀ u, (update t v (t v).ragKill u).holding_res r = true →
        (t u).holding_res r = true := by
      intro u hu
      by_cases huv : u = v
      · subst huv
        rw [update_self] at hu
        simp [Proc.ragKill] at hu
      · rwa [update_of_ne huv] at hu
    exact h.one_holder r p q hp hq (hold p hpr) (hold q hqr)
  waiting := by
    intro p
    by_cases hp : p = v
    · subst hp
      rw [update_self]
      exact .inl rfl
    · rw [update_of_ne hp]
      exact h.waiting p
  pid_pos := by
    intro p hp
    rw [ne_eq, update_ragKill_unused] at hp
    by_cases hpv : p = v
    · subst hpv
      rw [update_self]
      exact h.pid_pos p hp
    · rw [update_of_ne hpv]
      exact h.pid_pos p hp

/-- The conditions on tables hold after a call of `check_deadlock`. -/
theorem RagTable.deadlockRecover (h : RagTable t) : RagTable (deadlockRecover t) := by
  unfold SustainableXv6.deadlockRecover
  cases hv : ragVictim t with
  | none => rw [checkDeadlock_of_none hv]; exact h
  | some v => rw [checkDeadlock_of_some hv]; exact h.ragKill v

/-- The cycles after a call of `check_deadlock` that found a victim are those before it, but for
one, which the victim is on. -/
theorem cycleSets_deadlockRecover (h : RagTable t) {v : Slot} (hv : ragVictim t = some v) :
    ∃ C ∈ cycleSets (RagEdge t), v ∈ C ∧
      cycleSets (RagEdge (deadlockRecover t)) = cycleSets (RagEdge t) \ {C} := by
  obtain ⟨k, c, hc, i, rfl, -⟩ := ragVictim_some h hv
  have hC : Set.range c ∈ cycleSets (RagEdge t) := ⟨k, c, hc, rfl⟩
  refine ⟨Set.range c, hC, ⟨i, rfl⟩, ?_⟩
  rw [deadlockRecover, checkDeadlock_of_some hv]
  dsimp only
  rw [ragEdge_ragKill]
  exact cycleSets_isolate h.rightUnique hC ⟨i, rfl⟩

/-- A call of `check_deadlock` that found a victim lowers the number of cycles by one. -/
theorem ncard_cycleSets_deadlockRecover (h : RagTable t) {v : Slot} (hv : ragVictim t = some v) :
    (cycleSets (RagEdge (deadlockRecover t))).ncard + 1 = (cycleSets (RagEdge t)).ncard := by
  obtain ⟨C, hC, -, he⟩ := cycleSets_deadlockRecover h hv
  rw [he]
  exact Set.ncard_sdiff_singleton_add_one hC (Set.toFinite _)

/-- There is a victim exactly when there are cycles. -/
theorem ragVictim_isSome_iff_ncard (h : RagTable t) :
    (∃ v, ragVictim t = some v) ↔ 0 < (cycleSets (RagEdge t)).ncard := by
  rw [ragVictim_isSome_iff h, hasCycle_iff_nonempty, Set.ncard_pos (Set.toFinite _)]

/-- From a table with `k` cycles, the first `k` calls find a victim, the next one finds none, and
a process on no cycle is as it was. -/
theorem deadlockRecover_iterate :
    ∀ (k : ℕ) (t : Table K), RagTable t → (cycleSets (RagEdge t)).ncard = k →
      (∀ j < k, ∃ v, ragVictim (deadlockRecover^[j] t) = some v) ∧
        ragVictim (deadlockRecover^[k] t) = none ∧
        ∀ p, (∀ C ∈ cycleSets (RagEdge t), p ∉ C) → deadlockRecover^[k] t p = t p := by
  intro k
  induction k with
  | zero =>
    intro t h hk
    have hnone : ragVictim t = none := by
      rw [Option.eq_none_iff_forall_ne_some]
      intro v hv
      have hpos := (ragVictim_isSome_iff_ncard h).mp ⟨v, hv⟩
      omega
    exact ⟨fun j hj => absurd hj (Nat.not_lt_zero j), hnone, fun p _ => rfl⟩
  | succ k ih =>
    intro t h hk
    -- The first call finds a victim, and leaves `k` cycles for the induction.
    obtain ⟨v, hv⟩ := (ragVictim_isSome_iff_ncard h).mpr (by omega)
    have hcard := ncard_cycleSets_deadlockRecover h hv
    obtain ⟨hsome, hnone, hkeep⟩ := ih (deadlockRecover t) h.deadlockRecover (by omega)
    refine ⟨?_, ?_, ?_⟩
    · intro j hj
      cases j with
      | zero => exact ⟨v, hv⟩
      | succ j => exact hsome j (by omega)
    · exact hnone
    · intro p hp
      obtain ⟨C, hC, hvC, he⟩ := cycleSets_deadlockRecover h hv
      rw [iterate_succ_apply, hkeep p]
      · -- The victim is on a cycle, and `p` is on none.
        have hpv : p ≠ v := by
          rintro rfl
          exact hp C hC hvC
        rw [deadlockRecover, checkDeadlock_of_some hv]
        exact update_of_ne hpv _ _
      · intro D hD
        rw [he] at hD
        exact hp D hD.1

/-- Recovery clears every deadlock and nothing else. A call of `check_deadlock` that returns 0
leaves the table as it is. A call that returns a pid changes the resources, the kill flag, and the
state of that process only, makes no new cycle, and removes exactly one. So a table with `k` cycles
takes exactly `k` calls to clear, and the processes that were on no cycle are then untouched. -/
theorem checkDeadlock_recovery (h : RagTable t) :
    ((checkDeadlock t).2 = 0 → (checkDeadlock t).1 = t) ∧
    ((checkDeadlock t).2 ≠ 0 → ∃ v, (checkDeadlock t).2 = (t v).pid ∧
      (checkDeadlock t).1 = update t v
        { t v with
          holding_res := fun _ => false
          waiting_res := -1
          killed := true
          state := if (t v).state = .sleeping then .runnable else (t v).state } ∧
      cycleSets (RagEdge (checkDeadlock t).1) ⊆ cycleSets (RagEdge t) ∧
      (cycleSets (RagEdge (checkDeadlock t).1)).ncard + 1 = (cycleSets (RagEdge t)).ncard) ∧
    ∀ k, (cycleSets (RagEdge t)).ncard = k →
      (∀ j < k, (checkDeadlock (deadlockRecover^[j] t)).2 ≠ 0) ∧
      (checkDeadlock (deadlockRecover^[k] t)).2 = 0 ∧
      ¬ HasCycle (RagEdge (deadlockRecover^[k] t)) ∧
      ∀ p, (∀ C ∈ cycleSets (RagEdge t), p ∉ C) → deadlockRecover^[k] t p = t p := by
  have htable : ∀ j, RagTable (deadlockRecover^[j] t) := by
    intro j
    induction j with
    | zero => exact h
    | succ j ih => rw [iterate_succ_apply']; exact ih.deadlockRecover
  refine ⟨?_, ?_, ?_⟩
  · intro h0
    cases hv : ragVictim t with
    | none => rw [checkDeadlock_of_none hv]
    | some v => exact absurd h0 ((checkDeadlock_ne_zero_iff h).mpr ⟨v, hv⟩)
  · intro hne
    obtain ⟨v, hv⟩ := (checkDeadlock_ne_zero_iff h).mp hne
    obtain ⟨C, -, -, he⟩ := cycleSets_deadlockRecover h hv
    have hcard := ncard_cycleSets_deadlockRecover h hv
    rw [deadlockRecover] at he hcard
    refine ⟨v, ?_, ?_, ?_, hcard⟩
    · rw [checkDeadlock_of_some hv]
    · rw [checkDeadlock_of_some hv]
      rfl
    · rw [he]
      exact Set.sdiff_subset
  · intro k hk
    obtain ⟨hsome, hnone, hkeep⟩ := deadlockRecover_iterate k t h hk
    refine ⟨?_, ?_, ?_, hkeep⟩
    · intro j hj
      exact (checkDeadlock_ne_zero_iff (htable j)).mpr (hsome j hj)
    · rw [checkDeadlock_of_none hnone]
    · intro hcyc
      obtain ⟨v, hv⟩ := (ragVictim_isSome_iff (htable k)).mpr hcyc
      rw [hnone] at hv
      exact absurd hv (by simp)

/-- On the crossed table one call kills slot 1, which ends the deadlock. -/
theorem checkDeadlock_recovery_crossedTable :
    (checkDeadlock crossedTable).2 ≠ 0 ∧
      (cycleSets (RagEdge (deadlockRecover crossedTable))).ncard + 1 =
        (cycleSets (RagEdge crossedTable)).ncard := by
  have hne : (checkDeadlock crossedTable).2 ≠ 0 := by decide
  obtain ⟨v, -, -, -, hcard⟩ := (checkDeadlock_recovery ragTable_crossedTable).2.1 hne
  exact ⟨hne, hcard⟩

end SustainableXv6
