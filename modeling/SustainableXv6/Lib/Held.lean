import Mathlib

/-!
# Locks and their holders

A lock `l` is held by `lock l`, or by nobody, and the holder `c` is at a place where it should have
the locks `locks c`. `Held lock locks` says that these agree. So a lock is in the list of one holder
at most.
-/

namespace SustainableXv6.Lib

open Function

variable {L C : Type} {lock : L → Option C} {locks locks' : C → List L} {l : L} {c c' : C}
  {ls : List L}

/-- The locks are held by those whose places say so. -/
structure Held (lock : L → Option C) (locks : C → List L) : Prop where
  held_iff : ∀ l c, lock l = some c ↔ l ∈ locks c

namespace Held

variable (h : Held lock locks)
include h

variable [DecidableEq C]

/-- A holder keeps its locks. -/
theorem keep (hls : ∀ l, l ∈ ls ↔ l ∈ locks c) : Held lock (update locks c ls) := by
  refine ⟨fun l c' => ?_⟩
  by_cases hc : c' = c
  · rw [hc, update_self, hls, h.held_iff]
  · rw [update_of_ne hc, h.held_iff]

variable [DecidableEq L]

/-- A free lock is acquired. -/
theorem acquire (hfree : lock l = none) (hls : ∀ l', l' ∈ ls ↔ l' = l ∨ l' ∈ locks c) :
    Held (update lock l (some c)) (update locks c ls) := by
  refine ⟨fun l' c' => ?_⟩
  by_cases hc : c' = c
  · subst hc
    rw [update_self, hls, ← h.held_iff]
    by_cases hl : l' = l
    · simp [hl]
    · simp [hl]
  · rw [update_of_ne hc, ← h.held_iff]
    by_cases hl : l' = l
    · simp [hl, hfree, Ne.symm hc]
    · rw [update_of_ne hl]

/-- A lock is released by its holder. -/
theorem release (hl : l ∈ locks c) (hls : ∀ l', l' ∈ ls ↔ l' ≠ l ∧ l' ∈ locks c) :
    Held (update lock l none) (update locks c ls) := by
  refine ⟨fun l' c' => ?_⟩
  by_cases hc : c' = c
  · subst hc
    rw [update_self, hls, ← h.held_iff]
    by_cases hl' : l' = l
    · simp [hl']
    · simp [hl']
  · rw [update_of_ne hc, ← h.held_iff]
    by_cases hl' : l' = l
    · subst hl'
      simp [(h.held_iff l' c).mpr hl, Ne.symm hc]
    · rw [update_of_ne hl']

end Held

end SustainableXv6.Lib
