import Mathlib

/-!
# Cycles of a graph in which every vertex has at most one successor

A graph is a relation `E`. A cycle is a family `c 0, …, c k` indexed by `Fin (k + 1)`, whose
addition is cyclic, in which `c i` has an edge to `c (i + 1)`. Wait-for graphs give every vertex at
most one successor (`Relator.RightUnique E`). Then a cycle is determined by any of its vertices
(`IsCycle.range_eq`), two cycles are equal or disjoint (`cycleSets_eq_of_mem`), and isolating a
vertex of a cycle removes that cycle and no other (`cycleSets_isolate`).
-/

namespace SustainableXv6.Lib

open Relation Fin.NatCast Fin.CommRing

variable {α : Type*} {E : α → α → Prop} {k : ℕ} {c : Fin (k + 1) → α}

/-- `c 0, …, c k` follow each other along `E`, and `c k` is followed by `c 0`. -/
def IsCycle (E : α → α → Prop) {k : ℕ} (c : Fin (k + 1) → α) : Prop := ∀ i, E (c i) (c (i + 1))

/-- Some vertices form a cycle. -/
def HasCycle (E : α → α → Prop) : Prop := ∃ (k : ℕ) (c : Fin (k + 1) → α), IsCycle E c

/-- Every vertex of a cycle reaches the vertices after it, any number of places on. -/
theorem IsCycle.reflTransGen_add (h : IsCycle E c) (i : Fin (k + 1)) (n : ℕ) :
    ReflTransGen E (c i) (c (i + n)) := by
  induction n with
  | zero => rw [Nat.cast_zero, add_zero]
  | succ n ih =>
    rw [Nat.cast_succ, ← add_assoc]
    exact ih.tail (h _)

/-- Every vertex of a cycle reaches every vertex of it by at least one edge. -/
theorem IsCycle.transGen (h : IsCycle E c) (i j : Fin (k + 1)) : TransGen E (c i) (c j) := by
  have hr := h.reflTransGen_add (i + 1) (j - (i + 1)).val
  rw [Fin.cast_val_eq_self, add_sub_cancel] at hr
  exact TransGen.head' (h i) hr

/-- A larger graph keeps the cycles. -/
theorem IsCycle.mono {E' : α → α → Prop} (hE : ∀ a b, E a b → E' a b) (h : IsCycle E c) :
    IsCycle E' c := fun i => hE _ _ (h i)

/-- A quantity cannot grow along every edge of a cycle. -/
theorem not_forall_lt_of_cyclic {β : Type*} [LinearOrder β] (c : Fin (k + 1) → α) (f : α → β) :
    ¬ ∀ i, f (c i) < f (c (i + 1)) := by
  intro h
  obtain ⟨i, hi⟩ := Finite.exists_max fun i => f (c i)
  exact absurd (h i) (not_lt.mpr (hi (i + 1)))

/-- From a vertex of a cycle, edges lead to vertices of the cycle only. -/
theorem IsCycle.mem_range_of_reflTransGen (hE : Relator.RightUnique E) (h : IsCycle E c)
    (i : Fin (k + 1)) {b : α} (hb : ReflTransGen E (c i) b) : b ∈ Set.range c := by
  induction hb with
  | refl => exact ⟨i, rfl⟩
  | tail _ he ih =>
    obtain ⟨j, rfl⟩ := ih
    exact ⟨j + 1, hE (h j) he⟩

/-- The vertices of a cycle are those that any one of them reaches. -/
theorem IsCycle.range_eq (hE : Relator.RightUnique E) (h : IsCycle E c) {v : α}
    (hv : v ∈ Set.range c) : Set.range c = {b | TransGen E v b} := by
  obtain ⟨i, rfl⟩ := hv
  ext b
  constructor
  · rintro ⟨j, rfl⟩
    exact h.transGen i j
  · intro hb
    exact h.mem_range_of_reflTransGen hE i hb.to_reflTransGen

/-- In a graph with finitely many vertices, going round a cycle returns to the start after at most
as many edges as there are vertices. The family `c` may itself go round several times. -/
theorem IsCycle.exists_return [Fintype α] (hE : Relator.RightUnique E) (h : IsCycle E c)
    (i : Fin (k + 1)) : ∃ T : ℕ, 0 < T ∧ T ≤ Fintype.card α ∧ c (i + T) = c i := by
  -- Two of the first `card α + 1` vertices coincide.
  obtain ⟨a, b, hab, he⟩ :=
    Fintype.exists_ne_map_eq_of_card_lt
      (fun t : Fin (Fintype.card α + 1) => c (i + (t.val : ℕ))) (by simp)
  wlog hlt : a.val < b.val generalizing a b with H
  · have hne : a.val ≠ b.val := fun hv => hab (Fin.ext hv)
    exact H b a hab.symm he.symm (by omega)
  -- From there on the two places stay together, and going on to a multiple of `k + 1` gives `c i`.
  have hstay : ∀ u : ℕ, c (i + (a.val : ℕ) + u) = c (i + (b.val : ℕ) + u) := by
    intro u
    induction u with
    | zero => simpa using he
    | succ u ih =>
      have h1 := h (i + (a.val : ℕ) + u)
      have h2 := h (i + (b.val : ℕ) + u)
      rw [← ih] at h2
      rw [Nat.cast_succ, ← add_assoc, ← add_assoc]
      exact hE h1 h2
  refine ⟨b.val - a.val, by omega, by omega, ?_⟩
  have hu := hstay (a.val * k)
  have hka : ((a.val : ℕ) : Fin (k + 1)) + ((a.val * k : ℕ) : Fin (k + 1)) = 0 := by
    have hm : a.val + a.val * k = a.val * (k + 1) := by rw [Nat.mul_add, Nat.mul_one, Nat.add_comm]
    rw [← Nat.cast_add, hm, Nat.cast_mul]
    simp
  have hb : ((b.val : ℕ) : Fin (k + 1)) = ((b.val - a.val : ℕ) : Fin (k + 1)) + (a.val : ℕ) := by
    rw [← Nat.cast_add, Nat.sub_add_cancel hlt.le]
  rw [add_assoc, hka, add_zero, hb, ← add_assoc, add_assoc, hka, add_zero] at hu
  exact hu.symm

/-! ## Cycles as vertex sets -/

/-- The vertex sets of the cycles of a graph. -/
def cycleSets (E : α → α → Prop) : Set (Set α) :=
  {C | ∃ (k : ℕ) (c : Fin (k + 1) → α), IsCycle E c ∧ C = Set.range c}

/-- A graph has a cycle exactly when it has a vertex set of one. -/
theorem hasCycle_iff_nonempty : HasCycle E ↔ (cycleSets E).Nonempty := by
  constructor
  · rintro ⟨k, c, h⟩
    exact ⟨_, k, c, h, rfl⟩
  · rintro ⟨_, k, c, h, -⟩
    exact ⟨k, c, h⟩

/-- Two cycles that share a vertex are the same. -/
theorem cycleSets_eq_of_mem (hE : Relator.RightUnique E) {C D : Set α} (hC : C ∈ cycleSets E)
    (hD : D ∈ cycleSets E) {v : α} (hvC : v ∈ C) (hvD : v ∈ D) : C = D := by
  obtain ⟨k, c, hc, rfl⟩ := hC
  obtain ⟨l, d, hd, rfl⟩ := hD
  rw [hc.range_eq hE hvC, hd.range_eq hE hvD]

/-- The graph without the edges from and to `v`. -/
def isolate (E : α → α → Prop) (v : α) (a b : α) : Prop := E a b ∧ a ≠ v ∧ b ≠ v

/-- The cycles that are left when a vertex is isolated are those that do not meet it. -/
theorem isCycle_isolate_iff {v : α} : IsCycle (isolate E v) c ↔ IsCycle E c ∧ v ∉ Set.range c := by
  constructor
  · intro h
    refine ⟨fun i => (h i).1, ?_⟩
    rintro ⟨i, rfl⟩
    exact (h i).2.1 rfl
  · rintro ⟨h, hv⟩ i
    exact ⟨h i, fun he => hv ⟨i, he⟩, fun he => hv ⟨i + 1, he⟩⟩

/-- Isolating a vertex of a cycle removes that cycle and keeps the others. -/
theorem cycleSets_isolate (hE : Relator.RightUnique E) {C : Set α} (hC : C ∈ cycleSets E) {v : α}
    (hv : v ∈ C) : cycleSets (isolate E v) = cycleSets E \ {C} := by
  ext D
  constructor
  · rintro ⟨k, c, hc, rfl⟩
    obtain ⟨hc, hvc⟩ := isCycle_isolate_iff.mp hc
    refine ⟨⟨k, c, hc, rfl⟩, ?_⟩
    rintro rfl
    exact hvc hv
  · rintro ⟨hD, hne⟩
    obtain ⟨k, c, hc, rfl⟩ := id hD
    refine ⟨k, c, isCycle_isolate_iff.mpr ⟨hc, fun hvc => hne ?_⟩, rfl⟩
    exact cycleSets_eq_of_mem hE hD hC hvc hv

/-! ## Cycles as lists -/

/-- A list whose members follow each other along `E`, with an edge from its last member to its
first, is a cycle. -/
theorem exists_isCycle_of_list {l : List α} (hne : l ≠ []) (hchain : l.IsChain E)
    (hclose : E (l.getLast hne) (l.head hne)) :
    ∃ (k : ℕ) (c : Fin (k + 1) → α), IsCycle E c ∧ Set.range c = {a | a ∈ l} := by
  have hlen : 0 < l.length := List.length_pos_iff.mpr hne
  obtain ⟨k, hk⟩ : ∃ k, l.length = k + 1 := ⟨l.length - 1, by omega⟩
  refine ⟨k, fun i => l.get ⟨i.val, by omega⟩, ?_, ?_⟩
  · intro i
    rcases Nat.lt_or_ge (i.val + 1) (k + 1) with hi | hi
    · have hv : (i + 1).val = i.val + 1 := Fin.val_add_one_of_lt' hi
      simp only [List.get_eq_getElem, hv]
      exact List.isChain_iff_getElem.mp hchain i.val (by omega)
    · -- The last member is followed by the first.
      have hik : i = Fin.last k := Fin.ext (by simp only [Fin.val_last]; omega)
      subst hik
      simp only [List.get_eq_getElem, Fin.last_add_one, Fin.val_zero, Fin.val_last]
      rw [List.getLast_eq_getElem, List.head_eq_getElem] at hclose
      simpa [hk] using hclose
  · ext a
    simp only [Set.mem_range, Set.mem_ofPred_eq, List.mem_iff_get]
    constructor
    · rintro ⟨i, rfl⟩
      exact ⟨⟨i.val, by omega⟩, rfl⟩
    · rintro ⟨i, rfl⟩
      exact ⟨⟨i.val, by omega⟩, rfl⟩

/-- What is left of a list that holds `a`, from its first `a` on. -/
theorem dropWhile_ne_eq_cons [DecidableEq α] {l : List α} {a : α} (h : a ∈ l) :
    ∃ pre post, l = pre ++ a :: post ∧ l.dropWhile (· ≠ a) = a :: post := by
  induction l with
  | nil => simp at h
  | cons b l ih =>
    by_cases hb : b = a
    · subst hb
      exact ⟨[], l, rfl, by simp⟩
    · have ha : a ∈ l := (List.mem_cons.mp h).resolve_left (Ne.symm hb)
      obtain ⟨pre, post, hl, hd⟩ := ih ha
      refine ⟨b :: pre, post, by rw [hl]; rfl, ?_⟩
      simpa [hb] using hd

/-- A chain that comes back to one of its members: from that member on it is a cycle. -/
theorem exists_isCycle_of_revisit [DecidableEq α] {l : List α} {a : α}
    (hchain : (l ++ [a]).IsChain E) (h : a ∈ l) :
    ∃ (k : ℕ) (c : Fin (k + 1) → α), IsCycle E c ∧ Set.range c = {b | b ∈ l.dropWhile (· ≠ a)} := by
  obtain ⟨pre, post, hl, hd⟩ := dropWhile_ne_eq_cons h
  rw [hl, List.append_assoc, List.isChain_append] at hchain
  obtain ⟨-, hchain, -⟩ := hchain
  rw [List.isChain_append] at hchain
  obtain ⟨hchain, -, hclose⟩ := hchain
  have hne : a :: post ≠ [] := List.cons_ne_nil _ _
  have he : E ((a :: post).getLast hne) ((a :: post).head hne) :=
    hclose _ (List.getLast?_eq_getLast_of_ne_nil hne) a rfl
  rw [hd]
  exact exists_isCycle_of_list hne hchain he

end SustainableXv6.Lib
