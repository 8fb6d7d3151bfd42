import Mathlib

/-!
# Tilings by intervals

An interval of natural numbers is a pair of its start and its length. `Tiles bs R` says that the
intervals of the list `bs` are not empty, that no two of them overlap, and that together they are
the set `R`. A tiling does not depend on the order of its intervals (`Tiles.perm`). An interval may
be cut in two, or two that touch may be joined (`tiles_split`), and an interval that is apart from
all of `R` may be added (`Tiles.add`). Where no two intervals of a tiling touch, they are the
maximal intervals of `R` (`Tiles.mem_of_maximal`).
-/

namespace SustainableXv6.Lib

variable {bs bs' : List (ℕ × ℕ)} {b c : ℕ × ℕ} {R : Set ℕ} {a k m x : ℕ}

/-- The number `x` lies in the interval. -/
def Within (b : ℕ × ℕ) (x : ℕ) : Prop := b.1 ≤ x ∧ x < b.1 + b.2

/-- The intervals do not overlap. -/
def Apart (b c : ℕ × ℕ) : Prop := b.1 + b.2 ≤ c.1 ∨ c.1 + c.2 ≤ b.1

theorem Apart.symm (h : Apart b c) : Apart c b := Or.symm h

/-- The intervals `bs` tile the set `R`. -/
structure Tiles (bs : List (ℕ × ℕ)) (R : Set ℕ) : Prop where
  pos : ∀ b ∈ bs, 0 < b.2
  apart : bs.Pairwise Apart
  cover : ∀ x, (∃ b ∈ bs, Within b x) ↔ x ∈ R

/-- The lengths of the intervals together. -/
def totalLength (bs : List (ℕ × ℕ)) : ℕ := (bs.map Prod.snd).sum

@[simp] theorem totalLength_nil : totalLength [] = 0 := rfl

@[simp] theorem totalLength_cons : totalLength (b :: bs) = b.2 + totalLength bs := rfl

theorem totalLength_perm (h : bs.Perm bs') : totalLength bs = totalLength bs' :=
  (h.map Prod.snd).sum_eq

namespace Tiles

/-- There is nothing to tile. -/
theorem nil : Tiles [] ∅ := ⟨by simp, List.Pairwise.nil, by simp⟩

theorem perm (h : Tiles bs R) (hp : bs.Perm bs') : Tiles bs' R where
  pos b hb := h.pos b (hp.mem_iff.mpr hb)
  apart := h.apart.perm hp fun hbc => hbc.symm
  cover x := by simp only [← h.cover x, hp.mem_iff]

/-- Two different intervals do not overlap. -/
theorem apart_of_ne (h : Tiles bs R) (hb : b ∈ bs) (hc : c ∈ bs) (hne : b ≠ c) : Apart b c :=
  have : Std.Symm Apart := ⟨fun _ _ => Apart.symm⟩
  h.apart.forall hb hc hne

/-- An interval that is apart from the others is added. -/
theorem add (h : Tiles bs R) (hb : 0 < b.2) (ha : ∀ c ∈ bs, Apart b c) :
    Tiles (b :: bs) (R ∪ {x | Within b x}) where
  pos := List.forall_mem_cons.mpr ⟨hb, h.pos⟩
  apart := List.pairwise_cons.mpr ⟨ha, h.apart⟩
  cover x := by
    simp only [List.mem_cons, exists_eq_or_imp, h.cover x, Set.mem_union, Set.mem_ofPred_eq,
      or_comm]

/-- Where no two intervals touch, every maximal interval of the set is one of them. -/
theorem mem_of_maximal (h : Tiles bs R) (hfree : ∀ b ∈ bs, ∀ c ∈ bs, b.1 + b.2 ≠ c.1)
    (hk : 0 < k) (hin : ∀ x, Within (a, k) x → x ∈ R) (hlo : ∀ x, x + 1 = a → x ∉ R)
    (hhi : a + k ∉ R) : (a, k) ∈ bs := by
  obtain ⟨⟨a', k'⟩, hb, hab⟩ := (h.cover a).mpr (hin a ⟨le_rfl, by simpa using hk⟩)
  have hk' : 0 < k' := h.pos _ hb
  obtain ⟨hle, hlt⟩ : a' ≤ a ∧ a < a' + k' := hab
  -- The interval of `a` starts there, as the number before is not in the set.
  have hstart : a' = a := by
    by_contra hne
    have hin : a' ≤ a - 1 ∧ a - 1 < a' + k' := by omega
    exact hlo (a - 1) (by omega) ((h.cover _).mp ⟨_, hb, hin⟩)
  subst hstart
  have hle : k' ≤ k := by
    by_contra hgt
    exact hhi ((h.cover _).mp ⟨_, hb, show a' ≤ a' + k ∧ a' + k < a' + k' by omega⟩)
  have hge : k ≤ k' := by
    by_contra hgt
    -- The interval of its end would touch it.
    obtain ⟨⟨c, m⟩, hc, hcw⟩ := (h.cover (a' + k')).mpr
      (hin _ (show a' ≤ a' + k' ∧ a' + k' < a' + k by omega))
    obtain ⟨hcl, hcr⟩ : c ≤ a' + k' ∧ a' + k' < c + m := hcw
    have hne : ((a', k') : ℕ × ℕ) ≠ (c, m) := by
      intro he
      obtain ⟨rfl, rfl⟩ := Prod.mk.inj he
      omega
    have hap : a' + k' ≤ c ∨ c + m ≤ a' := h.apart_of_ne hb hc hne
    exact hfree _ hb _ hc (show a' + k' = c by omega)
  obtain rfl : k' = k := Nat.le_antisymm hle hge
  exact hb

end Tiles

/-- An interval is cut in two. -/
theorem tiles_split (hk : 0 < k) (hm : 0 < m) :
    Tiles ((a, k + m) :: bs) R ↔ Tiles ((a, k) :: (a + k, m) :: bs) R := by
  have hwithin (x : ℕ) : Within (a, k + m) x ↔ Within (a, k) x ∨ Within (a + k, m) x := by
    unfold Within
    simp only
    omega
  have hcover (x : ℕ) : (∃ b ∈ (a, k + m) :: bs, Within b x) ↔
      ∃ b ∈ (a, k) :: (a + k, m) :: bs, Within b x := by
    simp only [List.mem_cons, exists_eq_or_imp, hwithin x, or_assoc]
  -- What an interval that is not empty is apart from.
  have happ (c : ℕ × ℕ) (hc : 0 < c.2) :
      Apart (a, k + m) c ↔ Apart (a, k) c ∧ Apart (a + k, m) c := by
    unfold Apart
    simp only
    omega
  constructor
  · intro h
    obtain ⟨hall, hp⟩ := List.pairwise_cons.mp h.apart
    have hpos := fun c hc => h.pos c (List.mem_cons_of_mem _ hc)
    refine ⟨?_, ?_, fun x => (hcover x).symm.trans (h.cover x)⟩
    · simpa only [List.forall_mem_cons] using ⟨hk, hm, hpos⟩
    · simp only [List.pairwise_cons, List.forall_mem_cons]
      exact ⟨⟨.inl le_rfl, fun c hc => ((happ c (hpos c hc)).mp (hall c hc)).1⟩,
        fun c hc => ((happ c (hpos c hc)).mp (hall c hc)).2, hp⟩
  · intro h
    have hpos := fun c hc => h.pos c (List.mem_cons_of_mem _ (List.mem_cons_of_mem _ hc))
    have hp := h.apart
    simp only [List.pairwise_cons, List.forall_mem_cons] at hp
    obtain ⟨⟨-, h₁⟩, h₂, hp⟩ := hp
    refine ⟨?_, ?_, fun x => (hcover x).trans (h.cover x)⟩
    · simpa only [List.forall_mem_cons] using ⟨Nat.add_pos_left hk m, hpos⟩
    · exact List.pairwise_cons.mpr ⟨fun c hc => (happ c (hpos c hc)).mpr ⟨h₁ c hc, h₂ c hc⟩, hp⟩

end SustainableXv6.Lib
