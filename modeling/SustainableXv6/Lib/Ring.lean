import Mathlib

/-!
# Ring buffers with free-running counters

A ring of `N` cells with two counters of `w` bits, which count the elements taken out and put in and
are reduced modulo `N` only to index the cells. The counters wrap at `2^w`. As `N` divides `2^w`, a
counter and its wrapped value index the same cell (`slot_add`).

`Ring.Holds r q` says that the ring holds the queue `q`. `push` and `pop` are the operations of the
queue on it (`Holds.push`, `Holds.pop`), and what has been put in last can be taken back
(`Holds.unpush`). As `N < 2^w`, the tests of the counters decide whether the
queue is empty or full (`Holds.nread_eq_nwrite_iff`, `Holds.full_iff`), and their difference is its
length (`Holds.length_eq`).
-/

namespace SustainableXv6.Lib

open Function

/-- A ring of `N` cells with counters of `w` bits. -/
structure Ring (α : Type*) (N w : ℕ) where
  data : Fin N → α
  /-- The number of elements taken out, modulo `2^w`. -/
  nread : BitVec w
  /-- The number of elements put in, modulo `2^w`. -/
  nwrite : BitVec w

namespace Ring

variable {α : Type*} {N w : ℕ} [NeZero N]

/-- The cell that a counter points to. -/
def slot (N : ℕ) [NeZero N] (c : BitVec w) : Fin N := Fin.ofNat N c.toNat

/-- An element is put in. -/
def push (r : Ring α N w) (x : α) : Ring α N w :=
  { r with data := update r.data (slot N r.nwrite) x, nwrite := r.nwrite + 1 }

/-- The element that is taken out next. -/
def front (r : Ring α N w) : α := r.data (slot N r.nread)

/-- An element is taken out. -/
def pop (r : Ring α N w) : Ring α N w := { r with nread := r.nread + 1 }

/-- The ring holds the queue `q`. -/
structure Holds (r : Ring α N w) (q : List α) : Prop where
  le : q.length ≤ N
  count : r.nwrite = r.nread + BitVec.ofNat w q.length
  cells : ∀ (i : ℕ) (h : i < q.length), r.data (slot N (r.nread + BitVec.ofNat w i)) = q[i]

/-- The cell `i` places after the one that a counter points to. -/
theorem slot_add (hN : N ∣ 2 ^ w) (c : BitVec w) (i : ℕ) :
    (slot N (c + BitVec.ofNat w i)).val = (c.toNat + i) % N := by
  simp [slot, Nat.mod_mod_of_dvd _ hN]

/-- Fewer than `N` places after a counter, the cells are distinct. -/
theorem slot_add_ne (hN : N ∣ 2 ^ w) (c : BitVec w) {i j : ℕ} (hij : i < j) (hj : j < N) :
    slot N (c + BitVec.ofNat w i) ≠ slot N (c + BitVec.ofNat w j) := by
  intro h
  have h := congrArg Fin.val h
  rw [slot_add hN, slot_add hN] at h
  have hmod : i ≡ j [MOD N] := Nat.ModEq.add_left_cancel' c.toNat h
  have := hmod.eq_of_lt_of_lt (by omega) hj
  omega

/-- One step of a counter and then `i` more. -/
theorem add_one_add (c : BitVec w) (i : ℕ) :
    c + 1 + BitVec.ofNat w i = c + BitVec.ofNat w (i + 1) := by
  rw [Nat.add_comm, BitVec.ofNat_add, ← BitVec.add_assoc]
  rfl

/-- An element put into a queue that is not full goes to its end. -/
theorem Holds.push {r : Ring α N w} {q : List α} (h : r.Holds q) (hN : N ∣ 2 ^ w)
    (hlt : q.length < N) (x : α) : (r.push x).Holds (q ++ [x]) where
  le := by rw [List.length_append]; exact hlt
  count := by
    simp only [Ring.push, h.count, List.length_append, List.length_singleton]
    rw [BitVec.ofNat_add, ← BitVec.add_assoc]
    rfl
  cells := by
    intro i hi
    simp only [List.length_append, List.length_singleton] at hi
    simp only [Ring.push, h.count]
    rcases Nat.lt_succ_iff_lt_or_eq.mp hi with hi | rfl
    · rw [update_of_ne (slot_add_ne hN _ hi hlt), h.cells i hi,
        List.getElem_append_left hi]
    · rw [update_self, List.getElem_append_right le_rfl]
      simp

/-- The element taken out of a queue is its first. -/
theorem Holds.pop {r : Ring α N w} {x : α} {q : List α} (h : r.Holds (x :: q)) :
    r.front = x ∧ r.pop.Holds q := by
  have hle := h.le
  rw [List.length_cons] at hle
  refine ⟨?_, ⟨by omega, ?_, fun i hi => ?_⟩⟩
  · have h0 := h.cells 0 (Nat.succ_pos _)
    rwa [BitVec.add_zero] at h0
  · rw [Ring.pop, add_one_add, h.count, List.length_cons]
  · have hi' := h.cells (i + 1) (Nat.succ_lt_succ hi)
    rwa [← add_one_add] at hi'

/-- The element put in last, and the ring without it. -/
theorem Holds.unpush {r : Ring α N w} {x : α} {q : List α} (h : r.Holds (q ++ [x])) :
    r.data (slot N (r.nwrite - 1)) = x ∧ Holds { r with nwrite := r.nwrite - 1 } q := by
  have hle := h.le
  have hcount : r.nwrite - 1 = r.nread + BitVec.ofNat w q.length := by
    rw [h.count, List.length_append, List.length_singleton, BitVec.ofNat_add, ← BitVec.add_assoc]
    exact BitVec.add_sub_cancel _ _
  rw [List.length_append, List.length_singleton] at hle
  refine ⟨?_, ⟨by omega, hcount, fun i hi => ?_⟩⟩
  · have hlast := h.cells q.length (by simp)
    rw [← hcount, List.getElem_append_right le_rfl] at hlast
    simpa using hlast
  · rw [h.cells i (by rw [List.length_append]; omega), List.getElem_append_left hi]

section Counters

variable {r : Ring α N w} {q : List α} (h : r.Holds q) (hN : N < 2 ^ w)
include h hN

/-- The difference of the counters, modulo `2^w`, is the length of the queue. -/
theorem Holds.length_eq : (r.nwrite - r.nread).toNat = q.length := by
  have hle := h.le
  rw [h.count, BitVec.add_comm, BitVec.add_sub_cancel, BitVec.toNat_ofNat,
    Nat.mod_eq_of_lt (by omega)]

/-- The counters are equal exactly when the queue is empty. -/
theorem Holds.nread_eq_nwrite_iff : r.nread = r.nwrite ↔ q = [] := by
  have hlen := h.length_eq hN
  constructor
  · intro he
    rw [he, BitVec.sub_self] at hlen
    exact List.length_eq_zero_iff.mp hlen.symm
  · rintro rfl
    rw [h.count]
    exact (BitVec.add_zero _).symm

/-- The counters differ by `N` exactly when the queue is full. -/
theorem Holds.full_iff : r.nwrite = r.nread + BitVec.ofNat w N ↔ q.length = N := by
  have hlen := h.length_eq hN
  constructor
  · intro he
    rw [he, BitVec.add_comm, BitVec.add_sub_cancel, BitVec.toNat_ofNat, Nat.mod_eq_of_lt hN] at hlen
    exact hlen.symm
  · intro he
    rw [h.count, he]

end Counters

end Ring

end SustainableXv6.Lib
