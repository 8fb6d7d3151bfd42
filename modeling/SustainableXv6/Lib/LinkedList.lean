import Mathlib

/-!
# Linked lists

A memory of pointers is a function `f : A → A` on nodes. `Chain f a l z` says that the pointers
lead from `a` through the nodes of `l`, in this order, to `z`. A chain is cut and joined by
`chain_append`, and it is kept by stores at other nodes (`Chain.restart`). `scan` is the loop
that follows the pointers up to a node where it stops, and on a chain it is a search of the list
(`Chain.scan`).

A circular list with a sentinel `head` has two pointers in each node, and their chains are the
reverse of each other (`Circular`). `pushFront` and `unlink` are the two operations on it, as the
usual sequences of stores, and they insert in the list and remove from it (`Circular.pushFront`,
`Circular.unlink`).
-/

namespace SustainableXv6.Lib

open Function

variable {A : Type*} {f g : A → A} {a b z : A} {l l₁ l₂ : List A} {p : A → Bool} {n : ℕ}

/-! ## Chains -/

/-- From `a` the pointers lead through the nodes of `l` to `z`. -/
def Chain (f : A → A) (a : A) : List A → A → Prop
  | [], z => f a = z
  | b :: l, z => f a = b ∧ Chain f b l z

@[simp] theorem chain_nil : Chain f a [] z ↔ f a = z := Iff.rfl

@[simp] theorem chain_cons : Chain f a (b :: l) z ↔ f a = b ∧ Chain f b l z := Iff.rfl

/-- A chain is cut at a node. -/
@[simp] theorem chain_append :
    Chain f a (l₁ ++ b :: l₂) z ↔ Chain f a l₁ b ∧ Chain f b l₂ z := by
  induction l₁ generalizing a with
  | nil => rfl
  | cons c l₁ ih =>
    rw [List.cons_append, chain_cons, chain_cons, ih, and_assoc]

/-- The nodes of a chain keep it, and another first node takes it over. -/
theorem Chain.restart (h : Chain f a l z) (ha : g b = f a) (hl : ∀ x ∈ l, g x = f x) :
    Chain g b l z := by
  induction l generalizing a b with
  | nil => exact ha.trans h
  | cons c l ih =>
    obtain ⟨hc, h⟩ := h
    exact ⟨ha.trans hc, ih h (hl c (List.mem_cons_self ..))
      fun x hx => hl x (List.mem_cons_of_mem _ hx)⟩

/-- Stores at other nodes keep a chain. -/
theorem Chain.congr (h : Chain f a l z) (hl : ∀ x ∈ a :: l, g x = f x) : Chain g a l z :=
  h.restart (hl a (List.mem_cons_self ..)) fun x hx => hl x (List.mem_cons_of_mem _ hx)

/-- The first pointer leads into the chain or to its end. -/
theorem Chain.mem (h : Chain f a l z) : f a ∈ z :: l := by
  cases l with
  | nil => exact h ▸ List.mem_cons_self ..
  | cons b l => simp [h.1]

/-- A property of the start that the pointers keep holds of every node. -/
theorem Chain.forall_mem {P : A → Prop} (h : Chain f a l z) (hf : ∀ x, P x → P (f x)) (ha : P a) :
    ∀ x ∈ l, P x := by
  induction l generalizing a with
  | nil => simp
  | cons c l ih =>
    have hc : P c := h.1 ▸ hf a ha
    exact List.forall_mem_cons.mpr ⟨hc, ih h.2 hc⟩

/-- A chain from one of its nodes on. -/
theorem Chain.from_mem (h : Chain f a l z) {x : A} (hx : x ∈ a :: l) :
    ∃ m₁ m₂, a :: l = m₁ ++ x :: m₂ ∧ Chain f x m₂ z := by
  rcases List.mem_cons.mp hx with rfl | hx
  · exact ⟨[], l, rfl, h⟩
  · obtain ⟨m₁, m₂, rfl⟩ := List.append_of_mem hx
    exact ⟨a :: m₁, m₂, rfl, (chain_append.mp h).2⟩

/-- A chain from the last node of its first part on. -/
theorem Chain.from_last (h : Chain f a (l₁ ++ l₂) z) :
    Chain f ((a :: l₁).getLast (List.cons_ne_nil _ _)) l₂ z := by
  induction l₁ generalizing a with
  | nil => exact h
  | cons b l₁ ih =>
    rw [List.getLast_cons (List.cons_ne_nil _ _)]
    exact ih h.2

/-- The last node of the first part is made to point to another chain. -/
theorem Chain.redirect {l : List A} {y : A} (h : Chain f a (l₁ ++ l₂) z) (hnd : (a :: l₁).Nodup)
    (hg : ∀ x ∈ a :: l₁, x ≠ (a :: l₁).getLast (List.cons_ne_nil _ _) → g x = f x)
    (hl : Chain g ((a :: l₁).getLast (List.cons_ne_nil _ _)) l y) : Chain g a (l₁ ++ l) y := by
  induction l₁ generalizing a with
  | nil => exact hl
  | cons b l₁ ih =>
    obtain ⟨hb, h⟩ := h
    rw [List.getLast_cons (List.cons_ne_nil _ _)] at hg hl
    obtain ⟨ha, hnd⟩ := List.nodup_cons.mp hnd
    have hlast : a ≠ (b :: l₁).getLast (List.cons_ne_nil _ _) :=
      fun he => ha (he ▸ List.getLast_mem (List.cons_ne_nil _ _))
    exact ⟨(hg a (List.mem_cons_self ..) hlast).trans hb,
      ih h hnd (fun x hx => hg x (List.mem_cons_of_mem _ hx)) hl⟩

/-- The node before `b` is made to point to the node after `b`. -/
theorem Chain.bypass [DecidableEq A] {q : A} (h : Chain f a (l₁ ++ b :: l₂) z)
    (hnd : (a :: (l₁ ++ b :: l₂)).Nodup) (hq : q ∈ a :: l₁) (hqb : f q = b) :
    Chain (update f q (f b)) a (l₁ ++ l₂) z := by
  induction l₁ generalizing a with
  | nil =>
    obtain rfl : q = a := by simpa using hq
    refine (chain_append.mp h).2.restart (update_self ..) fun x hx => ?_
    have hxq : x ≠ q := by
      rintro rfl
      exact (List.nodup_cons.mp hnd).1 (by simp [hx])
    exact update_of_ne hxq ..
  | cons c l₁ ih =>
    obtain ⟨hc, h⟩ := h
    have hnd' : (c :: (l₁ ++ b :: l₂)).Nodup := (List.nodup_cons.mp hnd).2
    -- The first node points to `c`, which is not `b`.
    have hqa : q ≠ a := by
      rintro rfl
      have hcb : c = b := hc.symm.trans hqb
      exact (List.nodup_cons.mp hnd').1 (by simp [hcb])
    have hq : q ∈ c :: l₁ := (List.mem_cons.mp hq).resolve_left hqa
    exact ⟨(update_of_ne hqa.symm ..).trans hc, ih h hnd' hq⟩

/-! ## Loops over a chain -/

section Scan

variable [DecidableEq A]

/-- The loop that follows the pointers from `b` up to the first node that passes the test, or to
`stop`. It returns the node, and has no result if it does not end within `n` rounds. -/
def scan (f : A → A) (stop : A) (p : A → Bool) : ℕ → A → Option (Option A)
  | 0, _ => none
  | n + 1, b =>
    if b = stop then some none
    else if p b then some (some b)
    else scan f stop p n (f b)

/-- The loop finds what a search of the list finds. -/
theorem Chain.scan (h : Chain f a l z) (hz : z ∉ l) (hn : l.length < n) :
    Lib.scan f z p n (f a) = some (l.find? p) := by
  induction l generalizing a n with
  | nil =>
    obtain ⟨n, rfl⟩ := Nat.exists_eq_add_of_lt hn
    rw [show f a = z from h, Lib.scan, if_pos rfl, List.find?_nil]
  | cons b l ih =>
    obtain ⟨rfl, h⟩ := h
    obtain ⟨n, rfl⟩ : ∃ m, n = m + 1 := ⟨n - 1, by simp at hn; omega⟩
    obtain ⟨hzb, hz⟩ := not_or.mp (List.mem_cons.not.mp hz)
    rw [Lib.scan, if_neg (Ne.symm hzb), List.find?_cons]
    cases p (f a) with
    | true => rfl
    | false => exact ih h hz (by simpa using hn)

end Scan

/-- The loop that follows the pointers from `b` up to the first node that passes the test. It has no
result if it does not end within `n` rounds. -/
def follow (f : A → A) (p : A → Bool) : ℕ → A → Option A
  | 0, _ => none
  | n + 1, b => if p b then some b else follow f p n (f b)

/-- The loop goes along a chain whose nodes do not pass the test. -/
theorem Chain.follow (h : Chain f a l z) (hp : ∀ x ∈ a :: l, p x = false) :
    Lib.follow f p (l.length + 1 + n) a = Lib.follow f p n z := by
  induction l generalizing a with
  | nil =>
    rw [List.length_nil, Nat.zero_add, Nat.add_comm, Lib.follow, hp a (List.mem_cons_self ..),
      if_neg Bool.false_ne_true, show f a = z from h]
  | cons b l ih =>
    obtain ⟨rfl, h⟩ := h
    rw [List.length_cons, Nat.add_right_comm _ 1 n, Lib.follow, hp a (List.mem_cons_self ..),
      if_neg Bool.false_ne_true]
    exact ih h fun x hx => hp x (List.mem_cons_of_mem _ hx)

/-! ## Cycles -/

/-- A cycle may be started at any of its nodes. -/
theorem Chain.rotate (h : Chain f a l a) {t : A} (ht : t ∈ a :: l) :
    ∃ m, Chain f t m t ∧ (t :: m).Perm (a :: l) := by
  rcases List.mem_cons.mp ht with rfl | ht
  · exact ⟨l, h, .refl _⟩
  · obtain ⟨l₁, l₂, rfl⟩ := List.append_of_mem ht
    obtain ⟨h₁, h₂⟩ := chain_append.mp h
    refine ⟨l₂ ++ a :: l₁, chain_append.mpr ⟨h₂, h₁⟩, ?_⟩
    have hcomm : ((t :: l₂) ++ (a :: l₁)).Perm ((a :: l₁) ++ (t :: l₂)) := List.perm_append_comm
    exact hcomm

/-- From every node of a cycle the pointers lead to every node of it, through other nodes of the
cycle. -/
theorem Chain.exists_to (h : Chain f a l a) (hnd : (a :: l).Nodup) {q t : A} (hq : q ∈ a :: l)
    (ht : t ∈ a :: l) : ∃ m, Chain f q m t ∧ m ⊆ a :: l ∧ t ∉ m ∧ m.length ≤ l.length := by
  obtain ⟨m, hm, hperm⟩ := h.rotate ht
  have htm : t ∉ m := (List.nodup_cons.mp (hperm.nodup_iff.mpr hnd)).1
  have hlen : m.length = l.length := by simpa using hperm.length_eq
  have hsub : m ⊆ a :: l := fun x hx => hperm.subset (List.mem_cons_of_mem _ hx)
  rcases List.mem_cons.mp (hperm.mem_iff.mpr hq) with rfl | hq
  · exact ⟨m, hm, hsub, htm, hlen.le⟩
  · obtain ⟨m₁, m₂, rfl⟩ := List.append_of_mem hq
    refine ⟨m₂, (chain_append.mp hm).2, fun x hx => hsub (by simp [hx]),
      fun hx => htm (by simp [hx]), ?_⟩
    rw [← hlen, List.length_append, List.length_cons]
    omega

/-- The pointer of a node of a cycle leads to a node of it. -/
theorem Chain.mem_of_mem (h : Chain f a l a) {q : A} (hq : q ∈ a :: l) : f q ∈ a :: l := by
  obtain ⟨m, hm, hperm⟩ := h.rotate hq
  exact hperm.subset hm.mem

/-! ## Circular lists -/

/-- The two pointers of every node. -/
@[ext]
structure Links (A : Type*) where
  next : A → A
  prev : A → A

/-- The list from `head` on visits the nodes of `l`, each of them once, and comes back to `head`,
and in the other direction it visits them in the opposite order. -/
structure Links.Circular (L : Links A) (head : A) (l : List A) : Prop where
  nodup : (head :: l).Nodup
  next : Chain L.next head l head
  prev : Chain L.prev head l.reverse head

/-- The list in the other direction. -/
def Links.swap (L : Links A) : Links A := ⟨L.prev, L.next⟩

namespace Links.Circular

variable {L : Links A} {head : A}

/-- The list in the other direction is circular too. -/
theorem swap (h : L.Circular head l) : L.swap.Circular head l.reverse where
  nodup := by
    have := h.nodup
    simpa using this
  next := h.prev
  prev := by
    rw [List.reverse_reverse]
    exact h.next

/-- The node before `x`, where the list from `head` on comes to `x` after `l₁`. -/
theorem next_prev_of_chain {x : A} (hn : Chain L.next head l₁ x)
    (hp : Chain L.prev x l₁.reverse head) : L.next (L.prev x) = x ∧ L.prev x ∈ head :: l₁ := by
  rcases List.eq_nil_or_concat l₁ with rfl | ⟨l₁, c, rfl⟩
  · rw [show L.prev x = head from hp]
    exact ⟨hn, List.mem_cons_self ..⟩
  · rw [List.concat_eq_append] at hn hp ⊢
    rw [List.reverse_append, List.reverse_singleton, List.singleton_append, chain_cons] at hp
    rw [hp.1]
    exact ⟨(chain_append.mp hn).2, by simp⟩

/-- The node before `b` is in the list before `b`, and it points to `b`. -/
theorem next_prev_of_mem (h : L.Circular head (l₁ ++ b :: l₂)) :
    L.next (L.prev b) = b ∧ L.prev b ∈ head :: l₁ := by
  have hp := h.prev
  rw [List.reverse_append, List.reverse_cons, List.append_assoc, List.singleton_append,
    chain_append] at hp
  exact next_prev_of_chain (chain_append.mp h.next).1 hp.2

/-- `next` undoes `prev` at all nodes of the list. -/
theorem next_prev (h : L.Circular head l) {x : A} (hx : x ∈ head :: l) :
    L.next (L.prev x) = x := by
  rcases List.mem_cons.mp hx with rfl | hx
  · exact (next_prev_of_chain h.next h.prev).1
  · obtain ⟨l₁, l₂, rfl⟩ := List.append_of_mem hx
    exact h.next_prev_of_mem.1

/-- `prev` undoes `next` at all nodes of the list. -/
theorem prev_next (h : L.Circular head l) {x : A} (hx : x ∈ head :: l) :
    L.prev (L.next x) = x :=
  h.swap.next_prev (by simpa using hx)

/-- A node is not among the others of the list. -/
theorem not_mem_of_split (h : L.Circular head (l₁ ++ b :: l₂)) :
    b ∉ head :: (l₁ ++ l₂) := by
  have hnd := h.nodup
  rw [List.perm_middle.cons head |>.nodup_iff] at hnd
  rw [(List.Perm.swap b head (l₁ ++ l₂)).nodup_iff] at hnd
  exact (List.nodup_cons.mp hnd).1

end Links.Circular

/-! ## Insertion and removal -/

section Store

variable [DecidableEq A]

namespace Links

variable {L : Links A} {head : A}

/-- `b` is made the first node: `b->next = head.next; b->prev = &head; head.next->prev = b;
head.next = b;`. -/
def pushFront (head : A) (L : Links A) (b : A) : Links A :=
  let L := { L with next := update L.next b (L.next head) }
  let L := { L with prev := update L.prev b head }
  let L := { L with prev := update L.prev (L.next head) b }
  { L with next := update L.next head b }

/-- `b` is taken out: `b->next->prev = b->prev; b->prev->next = b->next;`. -/
def unlink (L : Links A) (b : A) : Links A :=
  let L := { L with prev := update L.prev (L.next b) (L.prev b) }
  { L with next := update L.next (L.prev b) (L.next b) }

/-- A node that is not in the list becomes its first one. -/
theorem Circular.pushFront (h : L.Circular head l) (hb : b ∉ head :: l) :
    (L.pushFront head b).Circular head (b :: l) := by
  obtain ⟨hbh, hbl⟩ := not_or.mp (List.mem_cons.not.mp hb)
  obtain ⟨hhead, hnd⟩ := List.nodup_cons.mp h.nodup
  have hfirst : update L.next b (L.next head) head = L.next head :=
    update_of_ne (Ne.symm hbh) ..
  -- The pointers after the four stores.
  have hnext : (L.pushFront head b).next =
      update (update L.next b (L.next head)) head b := rfl
  have hprev : (L.pushFront head b).prev =
      update (update L.prev b head) (L.next head) b := by
    simp only [Links.pushFront, hfirst]
  have hmem : L.next head ∈ head :: l := h.next.mem
  refine ⟨?_, ?_, ?_⟩
  · simp only [List.nodup_cons, List.mem_cons, not_or]
    exact ⟨⟨Ne.symm hbh, hhead⟩, hbl, hnd⟩
  · rw [hnext]
    refine ⟨update_self .., h.next.restart ?_ fun x hx => ?_⟩
    · rw [update_of_ne hbh, update_self]
    · have hxb : x ≠ b := fun he => hbl (he ▸ hx)
      have hxh : x ≠ head := fun he => hhead (he ▸ hx)
      rw [update_of_ne hxh, update_of_ne hxb]
  · rw [List.reverse_cons, hprev, chain_append, chain_nil]
    constructor
    · -- The last pointer of the chain led to `head`, and now it leads to `b`.
      cases l with
      | nil =>
        rw [show L.next head = head from h.next]
        exact update_self ..
      | cons c l =>
        have hp := h.prev
        rw [show L.next head = c from h.next.1]
        rw [List.reverse_cons, chain_append] at hp ⊢
        refine ⟨hp.1.congr fun x hx => ?_, update_self ..⟩
        have hxc : x ≠ c := by
          rintro rfl
          rcases List.mem_cons.mp hx with rfl | hx
          · exact hhead (List.mem_cons_self ..)
          · exact (List.nodup_cons.mp hnd).1 (List.mem_reverse.mp hx)
        have hxb : x ≠ b := by
          rintro rfl
          rcases List.mem_cons.mp hx with rfl | hx
          · exact hbh rfl
          · exact hbl (List.mem_cons_of_mem _ (List.mem_reverse.mp hx))
        rw [update_of_ne hxc, update_of_ne hxb]
    · have hbn : b ≠ L.next head := fun he => hb (he ▸ hmem)
      rw [update_of_ne hbn, update_self]

/-- Some nodes are made the first one, one after the other. -/
theorem Circular.foldl_pushFront (h : L.Circular head l) (m : List A)
    (hm : (m.reverse ++ l).Nodup) (hh : head ∉ m) :
    (m.foldl (Links.pushFront head) L).Circular head (m.reverse ++ l) := by
  induction m generalizing L l with
  | nil => exact h
  | cons b m ih =>
    obtain ⟨hbh, hh⟩ := not_or.mp (List.mem_cons.not.mp hh)
    rw [List.reverse_cons, List.append_assoc, List.singleton_append] at hm ⊢
    have hbl : b ∉ l := (List.nodup_cons.mp hm.of_append_right).1
    exact ih (h.pushFront (by simp [Ne.symm hbh, hbl])) hm hh

/-- A node of the list is taken out of it. -/
theorem Circular.unlink (h : L.Circular head (l₁ ++ b :: l₂)) :
    (L.unlink b).Circular head (l₁ ++ l₂) := by
  have hrev : (l₁ ++ b :: l₂).reverse = l₂.reverse ++ b :: l₁.reverse := by simp
  have hswap : L.swap.Circular head (l₂.reverse ++ b :: l₁.reverse) := hrev ▸ h.swap
  obtain ⟨hnp, hpm⟩ := h.next_prev_of_mem
  obtain ⟨hpn, hnm⟩ := hswap.next_prev_of_mem
  have hne : b ≠ L.next b := by
    intro he
    have hnd := hswap.nodup
    rw [← List.cons_append, List.nodup_append] at hnd
    exact hnd.2.2 _ hnm b (List.mem_cons_self ..) he.symm
  have hprev : (L.unlink b).prev = update L.prev (L.next b) (L.prev b) := rfl
  have hnext : (L.unlink b).next = update L.next (L.prev b) (L.next b) := by
    simp only [Links.unlink, update_of_ne hne]
  refine ⟨h.nodup.sublist (by simp), ?_, ?_⟩
  · rw [hnext]
    exact h.next.bypass h.nodup hpm hnp
  · rw [hprev, List.reverse_append]
    exact hswap.next.bypass hswap.nodup hnm hpn

end Links

end Store

end SustainableXv6.Lib
