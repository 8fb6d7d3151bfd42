import Mathlib

/-!
# Copies in a memory, one place after another

A memory is a function from addresses to values. `copyAll dst src ks` copies the value at `src k` to
`dst k`, for the indices `k` of the list `ks` in their order. The source may overlap the
destination: the copy is as if all values had been read before the first one was written, as long as
no place is written before it is read (`copyAll_moved`).
-/

namespace SustainableXv6.Lib

open Function

variable {A α ι κ : Type*} [DecidableEq A]

/-- The values at `src k` are copied to `dst k`, for `k` in the order of the list. -/
def copyAll (dst src : ι → A) : List ι → (A → α) → A → α
  | [], m => m
  | k :: ks, m => copyAll dst src ks (update m (dst k) (m (src k)))

/-- The indices are those of a list under a function. -/
theorem copyAll_map (dst src : ι → A) (f : κ → ι) (ks : List κ) (m : A → α) :
    copyAll dst src (ks.map f) m = copyAll (dst ∘ f) (src ∘ f) ks m := by
  induction ks generalizing m with
  | nil => rfl
  | cons k ks ih => exact ih _

/-- The values at `src k` of the memory `m` are at `dst k` in `m'`, for `k` with `P`, and nothing
else has changed. -/
structure MovedTo (dst src : ι → A) (P : ι → Prop) (m m' : A → α) : Prop where
  moved : ∀ k, P k → m' (dst k) = m (src k)
  kept : ∀ a, (∀ k, P k → a ≠ dst k) → m' a = m a

/-- A copy moves the values, where no place is written twice, and none is written before it is
read. -/
theorem copyAll_moved (dst src : ι → A) {ks : List ι}
    (hdst : ks.Pairwise fun i j => dst i ≠ dst j)
    (hsrc : ks.Pairwise fun i j => dst i ≠ src j) (m : A → α) :
    MovedTo dst src (· ∈ ks) m (copyAll dst src ks m) := by
  induction ks generalizing m with
  | nil => exact ⟨fun k hk => absurd hk List.not_mem_nil, fun a _ => rfl⟩
  | cons k ks ih =>
    obtain ⟨hdst₁, hdst⟩ := List.pairwise_cons.mp hdst
    obtain ⟨hsrc₁, hsrc⟩ := List.pairwise_cons.mp hsrc
    have hrest := ih hdst hsrc (update m (dst k) (m (src k)))
    refine ⟨fun j hj => ?_, fun a ha => ?_⟩
    · rcases List.mem_cons.mp hj with rfl | hj
      · -- The first place is not written again.
        exact (hrest.kept _ fun i hi => hdst₁ i hi).trans (update_self ..)
      · exact (hrest.moved j hj).trans (update_of_ne (hsrc₁ j hj).symm ..)
    · obtain ⟨hk, hks⟩ := List.forall_mem_cons.mp ha
      exact (hrest.kept a hks).trans (update_of_ne hk ..)

end SustainableXv6.Lib
