import Mathlib

/-!
# Radix trees in memory

A memory `m` has nodes `A`, and each node has an entry of `V` for every index of `I`. An entry may
point to a node (`child`). From a root, a list of indices leads to a node, or to nothing
(`descend`). The tree has `n` levels: the nodes at the end of fewer than `n` indices. Its last level
has the leaves, which are read by `lookup`. Where the nodes of the levels are different ones
(`Spread`), an entry that is written is seen by one path only, and a new empty node can be linked
without effect on the leaves.
-/

namespace SustainableXv6.Lib.Radix

open Function

variable {A I V : Type} {child : V → Option A} {m m' : A → I → V} {r a : A} {p q : List I}
  {i k l : I} {n : ℕ} {v : V}

/-- The node at the end of a path. -/
def descend (child : V → Option A) (m : A → I → V) : A → List I → Option A
  | r, [] => some r
  | r, i :: p => (child (m r i)).bind fun a => descend child m a p

@[simp]
theorem descend_nil : descend child m r [] = some r := rfl

/-- A path ends with a step from the node before. -/
theorem descend_concat (r : A) (p : List I) (i : I) :
    descend child m r (p ++ [i]) = (descend child m r p).bind fun a => child (m a i) := by
  induction p generalizing r with
  | nil =>
    simp [descend]
  | cons j p ih =>
    simp only [List.cons_append, descend]
    cases child (m r j) with
    | none => rfl
    | some b => exact ih b

/-- A path depends on the entries that it goes through. -/
theorem descend_congr (h : ∀ q i, q ++ [i] <+: p → ∀ a, descend child m r q = some a →
    child (m' a i) = child (m a i)) : descend child m' r p = descend child m r p := by
  induction p using List.reverseRecOn with
  | nil => rfl
  | append_singleton p i ih =>
    have hp : descend child m' r p = descend child m r p :=
      ih fun q j hq => h q j (hq.trans (List.prefix_append p [i]))
    rw [descend_concat, descend_concat, hp]
    cases ha : descend child m r p with
    | none => rfl
    | some a => exact h p i List.prefix_rfl a ha

/-- The nodes of the first `n` levels below the root. -/
def Node (child : V → Option A) (n : ℕ) (m : A → I → V) (r a : A) : Prop :=
  ∃ p, p.length < n ∧ descend child m r p = some a

/-- The nodes of the first `n` levels below the root are different ones. -/
def Spread (child : V → Option A) (n : ℕ) (m : A → I → V) (r : A) : Prop :=
  ∀ p q a, p.length < n → q.length < n → descend child m r p = some a →
    descend child m r q = some a → p = q

/-- An entry, if it points to something. -/
def present (child : V → Option A) (v : V) : Option V := if (child v).isSome then some v else none

theorem present_of_none (h : child v = none) : present child v = none := by simp [present, h]

theorem present_of_some (h : child v = some a) : present child v = some v := by simp [present, h]

/-- The leaf at the end of a path, if its entry points to something. -/
def lookup (child : V → Option A) (m : A → I → V) (r : A) (p : List I) (k : I) : Option V :=
  (descend child m r p).bind fun a => present child (m a k)

/-! ## Nodes that are not of the tree -/

/-- The nodes of the tree are as before. -/
def Agree (child : V → Option A) (n : ℕ) (m : A → I → V) (r : A) (m' : A → I → V) : Prop :=
  ∀ a, Node child n m r a → m' a = m a

section Agree

variable (h : Agree child n m r m')
include h

theorem Agree.descend_eq (hp : p.length ≤ n) : descend child m' r p = descend child m r p := by
  refine descend_congr fun q i hq a ha => ?_
  have hlen := hq.length_le
  rw [List.length_append, List.length_singleton] at hlen
  rw [h a ⟨q, by omega, ha⟩]

theorem Agree.lookup_eq (hp : p.length < n) : lookup child m' r p k = lookup child m r p k := by
  rw [lookup, lookup, h.descend_eq hp.le]
  cases ha : descend child m r p with
  | none => rfl
  | some a => rw [Option.bind_some, Option.bind_some, h a ⟨p, hp, ha⟩]

theorem Agree.node_iff : Node child n m' r a ↔ Node child n m r a :=
  exists_congr fun p => and_congr_right fun hp => by rw [h.descend_eq hp.le]

theorem Agree.spread (hs : Spread child n m r) : Spread child n m' r := by
  intro p q a hp hq ha hb
  rw [h.descend_eq hp.le] at ha
  rw [h.descend_eq hq.le] at hb
  exact hs p q a hp hq ha hb

end Agree

/-! ## An entry is written -/

variable [DecidableEq A] [DecidableEq I]

/-- The memory with another entry `i` of the node `a`. -/
def store (m : A → I → V) (a : A) (i : I) (v : V) : A → I → V :=
  update m a (update (m a) i v)

theorem store_self : store m a i v a i = v := by
  rw [store, update_self, update_self]

theorem store_of_ne {b : A} (h : b ≠ a ∨ k ≠ i) : store m a i v b k = m b k := by
  unfold store
  by_cases hb : b = a
  · subst hb
    rw [update_self, update_of_ne (h.resolve_left fun hn => hn rfl)]
  · rw [update_of_ne hb]

section Leaf

variable (hs : Spread child n m r) (ha : descend child m r p = some a) (hp : p.length + 1 = n)
include hs ha hp

/-- A leaf is not on the way to a node. -/
theorem descend_store (hq : q.length < n) :
    descend child (store m a k v) r q = descend child m r q := by
  refine descend_congr fun q' i hq' b hb => ?_
  have hlen := hq'.length_le
  rw [List.length_append, List.length_singleton] at hlen
  rw [store_of_ne (.inl _)]
  rintro rfl
  have := hs p q' b (by omega) (by omega) ha hb
  rw [← this] at hlen
  omega

/-- A leaf that is written leads somewhere else, and no other path does. -/
theorem descend_store_leaf (hq : q.length ≤ n) :
    descend child (store m a k v) r q = if q = p ++ [k] then child v else descend child m r q := by
  induction q using List.reverseRecOn with
  | nil => simp
  | append_singleton q i ih =>
    rw [List.length_append, List.length_singleton] at hq
    rw [descend_concat, descend_store hs ha hp (by omega), descend_concat]
    by_cases hqp : q ++ [i] = p ++ [k]
    · obtain ⟨rfl, rfl⟩ := List.append_singleton_inj.mp hqp
      rw [if_pos rfl, ha, Option.bind_some, store_self]
    · rw [if_neg hqp]
      cases hb : descend child m r q with
      | none => rfl
      | some b =>
        have hne : b ≠ a ∨ i ≠ k := by
          by_contra hn
          rw [not_or, not_not, not_not] at hn
          rw [hn.1] at hb
          rw [hs q p a (by omega) (by omega) hb ha, hn.2] at hqp
          exact hqp rfl
        rw [Option.bind_some, Option.bind_some, store_of_ne hne]

/-- A leaf that is written is seen by its path only. -/
theorem lookup_store (hq : q.length < n) :
    lookup child (store m a k v) r q l =
      if q = p ∧ l = k then present child v else lookup child m r q l := by
  rw [lookup, lookup, descend_store hs ha hp hq]
  by_cases hqp : q = p
  · subst hqp
    rw [ha, Option.bind_some, Option.bind_some]
    by_cases hl : l = k
    · subst hl
      rw [store_self, if_pos ⟨rfl, rfl⟩]
    · rw [store_of_ne (.inr hl), if_neg fun h => hl h.2]
  · rw [if_neg fun h => hqp h.1]
    cases hb : descend child m r q with
    | none => rfl
    | some b =>
      have hne : b ≠ a := by
        rintro rfl
        exact hqp (hs q p b hq (by omega) hb ha)
      rw [Option.bind_some, Option.bind_some, store_of_ne (.inl hne)]

theorem spread_store : Spread child n (store m a k v) r := by
  intro q q' b hq hq' hb hb'
  rw [descend_store hs ha hp hq] at hb
  rw [descend_store hs ha hp hq'] at hb'
  exact hs q q' b hq hq' hb hb'

theorem node_store_iff {b : A} : Node child n (store m a k v) r b ↔ Node child n m r b :=
  exists_congr fun q => and_congr_right fun hq => by rw [descend_store hs ha hp hq]

end Leaf

/-! ## A node is linked -/

/-- The memory in which the entry `i` of the node `a` points to the node `f`, which is empty. -/
structure Linked (child : V → Option A) (m : A → I → V) (a : A) (i : I) (f : A)
    (m' : A → I → V) : Prop where
  link : child (m' a i) = some f
  siblings : ∀ k, k ≠ i → m' a k = m a k
  empty : ∀ k, child (m' f k) = none
  others : ∀ b, b ≠ a → b ≠ f → m' b = m b

section Link

variable {f : A} (hl : Linked child m a i f m') (hs : Spread child n m r)
  (ha : descend child m r p = some a) (hp : p.length < n) (hnone : child (m a i) = none)
  (hf : ¬ Node child n m r f)
include hl hs ha hp hnone hf

/-- The new node is at the end of one path, and the other nodes are where they were. -/
theorem Linked.descend_eq (hq : q.length ≤ n) :
    descend child m' r q = if q = p ++ [i] then some f else descend child m r q := by
  induction q using List.reverseRecOn with
  | nil => simp
  | append_singleton q k ih =>
    rw [List.length_append, List.length_singleton] at hq
    rw [descend_concat, ih (by omega), descend_concat]
    by_cases hqp : q = p ++ [i]
    · -- Below the new node there is nothing, and there was nothing.
      have hne : q ++ [k] ≠ p ++ [i] := by
        intro heq
        have := congrArg List.length heq
        rw [hqp] at this
        simp at this
      rw [if_pos hqp, if_neg hne, Option.bind_some, hl.empty, hqp, descend_concat, ha,
        Option.bind_some, hnone, Option.bind_none]
    · rw [if_neg hqp]
      cases hb : descend child m r q with
      | none =>
        have hne : q ++ [k] ≠ p ++ [i] := by
          intro heq
          rw [(List.append_singleton_inj.mp heq).1, ha] at hb
          exact Option.some_ne_none a hb
        rw [if_neg hne]
        rfl
      | some b =>
        rw [Option.bind_some, Option.bind_some]
        have hbf : b ≠ f := by
          rintro rfl
          exact hf ⟨q, by omega, hb⟩
        by_cases hba : b = a
        · subst hba
          have hqp' : q = p := hs q p b (by omega) hp hb ha
          subst hqp'
          by_cases hki : k = i
          · rw [hki, if_pos rfl, hl.link]
          · rw [hl.siblings k hki, if_neg]
            exact fun heq => hki (List.append_singleton_inj.mp heq).2
        · rw [hl.others b hba hbf, if_neg]
          intro heq
          rw [(List.append_singleton_inj.mp heq).1, ha] at hb
          exact hba (Option.some.inj hb).symm

/-- The leaves are as before. -/
theorem Linked.lookup_eq (hq : q.length + 1 = n) (hpq : p.length + 1 < n) :
    lookup child m' r q k = lookup child m r q k := by
  rw [lookup, lookup, hl.descend_eq hs ha hp hnone hf (by omega)]
  by_cases hqp : q = p ++ [i]
  · rw [if_pos hqp, Option.bind_some, present_of_none (hl.empty k), hqp, descend_concat, ha,
      Option.bind_some, hnone, Option.bind_none]
  · rw [if_neg hqp]
    cases hb : descend child m r q with
    | none => rfl
    | some b =>
      have hba : b ≠ a := by
        rintro rfl
        have := hs q p b (by omega) hp hb ha
        rw [this] at hq
        omega
      have hbf : b ≠ f := by
        rintro rfl
        exact hf ⟨q, by omega, hb⟩
      rw [Option.bind_some, Option.bind_some, hl.others b hba hbf]

theorem Linked.node_iff (hpq : p.length + 1 < n) {b : A} :
    Node child n m' r b ↔ b = f ∨ Node child n m r b := by
  constructor
  · rintro ⟨q, hq, hb⟩
    rw [hl.descend_eq hs ha hp hnone hf hq.le] at hb
    by_cases hqp : q = p ++ [i]
    · rw [if_pos hqp] at hb
      exact .inl (Option.some.inj hb).symm
    · rw [if_neg hqp] at hb
      exact .inr ⟨q, hq, hb⟩
  · rintro (rfl | ⟨q, hq, hb⟩)
    · refine ⟨p ++ [i], by simpa using hpq, ?_⟩
      rw [hl.descend_eq hs ha hp hnone hf (by simpa using hp), if_pos rfl]
    · refine ⟨q, hq, ?_⟩
      rw [hl.descend_eq hs ha hp hnone hf hq.le, if_neg, hb]
      rintro rfl
      rw [descend_concat, ha, Option.bind_some, hnone] at hb
      exact Option.some_ne_none b hb.symm

theorem Linked.spread : Spread child n m' r := by
  intro q q' b hq hq' hb hb'
  rw [hl.descend_eq hs ha hp hnone hf hq.le] at hb
  rw [hl.descend_eq hs ha hp hnone hf hq'.le] at hb'
  by_cases hqp : q = p ++ [i]
  · by_cases hqp' : q' = p ++ [i]
    · rw [hqp, hqp']
    · rw [if_pos hqp] at hb
      rw [if_neg hqp'] at hb'
      exact absurd ⟨q', hq', hb'.trans hb.symm⟩ hf
  · rw [if_neg hqp] at hb
    by_cases hqp' : q' = p ++ [i]
    · rw [if_pos hqp'] at hb'
      exact absurd ⟨q, hq, hb.trans hb'.symm⟩ hf
    · rw [if_neg hqp'] at hb'
      exact hs q q' b hq hq' hb hb'

end Link

end SustainableXv6.Lib.Radix
