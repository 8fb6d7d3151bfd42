import Mathlib

/-!
# Two ids

`Fin 2` is the type of the two ids of a lock for two parties, and of the indices of an array of two
elements. `other` is the id that is not the given one.
-/

namespace SustainableXv6.Lib

/-- The instance behind the literals `0` and `1`, under one name for all definitions that have
them. -/
instance instNeZeroTwo : NeZero 2 := ⟨two_ne_zero⟩

/-- The other id. -/
def other (i : Fin 2) : Fin 2 := 1 - i

theorem other_ne : ∀ i : Fin 2, other i ≠ i := by decide

theorem other_other : ∀ i : Fin 2, other (other i) = i := by decide

theorem eq_other_of_ne : ∀ {i j : Fin 2}, i ≠ j → i = other j := by decide

end SustainableXv6.Lib
