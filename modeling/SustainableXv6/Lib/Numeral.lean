import Mathlib

/-!
# Numerals

A numeral of a natural number in a base is the list of its digits, the most significant first,
without a leading zero (`Canonical`). The number 0 has the numeral 0. A numeral is built from the
right: a digit is one (`Canonical.digit`), and a digit can be put behind the numeral of a number
other than 0 (`Canonical.snoc`).
-/

namespace SustainableXv6.Lib

variable {base d n : ℕ} {ds : List ℕ}

/-- The digits `ds` are the numeral of `n`, the most significant digit first. -/
structure Canonical (base : ℕ) (ds : List ℕ) (n : ℕ) : Prop where
  lt : ∀ d ∈ ds, d < base
  ne_nil : ds ≠ []
  leading : ds.head? = some 0 → ds = [0]
  value : Nat.ofDigits base ds.reverse = n

theorem Canonical.digit (h : d < base) : Canonical base [d] d where
  lt := by simpa using h
  ne_nil := List.cons_ne_nil d []
  leading := by simp
  value := Nat.ofDigits_singleton

theorem Canonical.snoc (h : Canonical base ds n) (hn : n ≠ 0) (hd : d < base) :
    Canonical base (ds ++ [d]) (d + base * n) where
  lt := by
    simp only [List.mem_append, List.mem_singleton]
    rintro k (hk | rfl)
    · exact h.lt k hk
    · exact hd
  ne_nil := by simp
  leading := by
    intro hzero
    -- A numeral with a leading zero is that of 0.
    rw [List.head?_append_of_ne_nil _ h.ne_nil] at hzero
    refine absurd h.value ?_
    rw [h.leading hzero]
    exact fun heq => hn heq.symm
  value := by
    rw [List.reverse_append, List.reverse_singleton, List.singleton_append, Nat.ofDigits_cons,
      h.value]

end SustainableXv6.Lib
