import Mathlib

/-!
# Exact ownership

Places `L` name things `B`: the place `l` names `loc l`, or nothing. `Owned base loc used` says that
each thing is named by at most one place, that no place names one of the things `base`, and that the
things in use are exactly those of `base` and those that a place names. So nothing is lost and
nothing has two owners. A place that names nothing may take a thing that is not in use
(`Owned.alloc`, and `Owned.acquire` for several), and places may give up their things
(`Owned.free`, and `Owned.release` for several). A thing may also stay in `base` for a while
(`Owned.reserve`, `Owned.discard`) before a place takes it (`Owned.give`). Where the things that are
not in use are enough for the places that name nothing, they stay enough while these places take
them (`Owned.enough`).
-/

namespace SustainableXv6.Lib

open Function

variable {L B : Type} {base : Set B} {loc loc' : L → Option B} {used used' : B → Prop}

/-- The places own what they name, and what is in use is `base` and what they name. -/
structure Owned (base : Set B) (loc : L → Option B) (used : B → Prop) : Prop where
  inj : ∀ l l' b, loc l = some b → loc l' = some b → l = l'
  notBase : ∀ l b, loc l = some b → b ∉ base
  used_iff : ∀ b, used b ↔ b ∈ base ∨ ∃ l, loc l = some b

namespace Owned

variable (h : Owned base loc used) {l : L} {b : B}
include h

/-- What a place names is in use. -/
theorem used_of_loc (hl : loc l = some b) : used b := (h.used_iff b).mpr (.inr ⟨l, hl⟩)

/-- What is not in use is not named. -/
theorem loc_ne (hb : ¬ used b) (l : L) : loc l ≠ some b := fun hl => hb (h.used_of_loc hl)

/-- The names and the use may be replaced by equal ones. -/
theorem congr (hloc : ∀ l, loc' l = loc l) (hused : ∀ b, used' b ↔ used b) :
    Owned base loc' used' := by
  obtain rfl : loc' = loc := funext hloc
  exact ⟨h.inj, h.notBase, fun b => (hused b).trans (h.used_iff b)⟩

/-- The places `P` give up the things that they name. -/
theorem release (P : L → Prop) (hP : ∀ l, P l → loc' l = none) (hnot : ∀ l, ¬ P l → loc' l = loc l)
    (hused : ∀ b, used' b ↔ used b ∧ ∀ l, P l → loc l ≠ some b) : Owned base loc' used' := by
  have hold {l : L} {b : B} (hl : loc' l = some b) : ¬ P l ∧ loc l = some b := by
    by_cases hPl : P l
    · simp [hP l hPl] at hl
    · exact ⟨hPl, by rwa [← hnot l hPl]⟩
  refine ⟨fun l l' b hl hl' => h.inj l l' b (hold hl).2 (hold hl').2,
    fun l b hl => h.notBase l b (hold hl).2, fun b => ?_⟩
  rw [hused, h.used_iff]
  constructor
  · rintro ⟨hb | ⟨l, hl⟩, hfree⟩
    · exact .inl hb
    · exact .inr ⟨l, by rw [hnot l fun hPl => hfree l hPl hl, hl]⟩
  · rintro (hb | ⟨l, hl⟩)
    · exact ⟨.inl hb, fun l _ hl => h.notBase l b hl hb⟩
    · obtain ⟨hPl, hl⟩ := hold hl
      exact ⟨.inr ⟨l, hl⟩, fun l' hPl' hl' => hPl (h.inj l l' b hl hl' ▸ hPl')⟩

/-- The places `P`, which name nothing, take things that are not in use. -/
theorem acquire (P : L → Prop) (hnone : ∀ l, P l → loc l = none)
    (hnot : ∀ l, ¬ P l → loc' l = loc l)
    (hinj : ∀ l l' b, P l → P l' → loc' l = some b → loc' l' = some b → l = l')
    (hfree : ∀ l b, P l → loc' l = some b → ¬ used b)
    (hused : ∀ b, used' b ↔ used b ∨ ∃ l, P l ∧ loc' l = some b) : Owned base loc' used' := by
  have hold {l : L} {b : B} (hP : ¬ P l) (hl : loc' l = some b) : loc l = some b := by
    rwa [← hnot l hP]
  refine ⟨fun l l' b hl hl' => ?_, fun l b hl hb => ?_, fun b => ?_⟩
  · by_cases hP : P l
    · by_cases hP' : P l'
      · exact hinj l l' b hP hP' hl hl'
      · exact absurd (hold hP' hl') (h.loc_ne (hfree l b hP hl) l')
    · by_cases hP' : P l'
      · exact absurd (hold hP hl) (h.loc_ne (hfree l' b hP' hl') l)
      · exact h.inj l l' b (hold hP hl) (hold hP' hl')
  · by_cases hP : P l
    · exact hfree l b hP hl ((h.used_iff b).mpr (.inl hb))
    · exact h.notBase l b (hold hP hl) hb
  · rw [hused, h.used_iff]
    constructor
    · rintro ((hb | ⟨l, hl⟩) | ⟨l, -, hl⟩)
      · exact .inl hb
      · have hP : ¬ P l := fun hP => by simp [hnone l hP] at hl
        exact .inr ⟨l, by rw [hnot l hP, hl]⟩
      · exact .inr ⟨l, hl⟩
    · rintro (hb | ⟨l, hl⟩)
      · exact .inl (.inl hb)
      · by_cases hP : P l
        · exact .inr ⟨l, hP, hl⟩
        · exact .inl (.inr ⟨l, hold hP hl⟩)

/-- A thing that is not in use becomes one of `base`. -/
theorem reserve (hb : ¬ used b) (hused : ∀ c, used' c ↔ c = b ∨ used c) :
    Owned (insert b base) loc used' := by
  refine ⟨h.inj, fun l c hl hc => ?_, fun c => ?_⟩
  · rcases hc with rfl | hc
    · exact h.loc_ne hb l hl
    · exact h.notBase l c hl hc
  · rw [hused, h.used_iff, Set.mem_insert_iff, or_assoc]

/-- A thing of `base` goes out of use. -/
theorem discard (hb : b ∈ base) (hused : ∀ c, used' c ↔ c ≠ b ∧ used c) :
    Owned (base \ {b}) loc used' := by
  refine ⟨h.inj, fun l c hl hc => h.notBase l c hl hc.1, fun c => ?_⟩
  rw [hused, h.used_iff]
  constructor
  · rintro ⟨hcb, hc | hc⟩
    · exact .inl ⟨hc, hcb⟩
    · exact .inr hc
  · rintro (hc | ⟨l, hl⟩)
    · exact ⟨hc.2, .inl hc.1⟩
    · refine ⟨?_, .inr ⟨l, hl⟩⟩
      rintro rfl
      exact h.notBase l c hl hb

variable [DecidableEq L]

/-- A place that names nothing takes a thing that is not in use. -/
theorem alloc (hl : loc l = none) (hb : ¬ used b) (hused : ∀ c, used' c ↔ c = b ∨ used c) :
    Owned base (update loc l (some b)) used' := by
  refine h.acquire (· = l) (fun k hk => hk ▸ hl) (fun k hk => update_of_ne hk _ _)
    (fun k k' c hk hk' _ _ => hk.trans hk'.symm) (fun k c hk hc => ?_) fun c => ?_
  · rw [hk, update_self] at hc
    exact Option.some.inj hc ▸ hb
  · rw [hused, or_comm]
    simp [eq_comm]

/-- A place that names nothing takes a thing of `base`. -/
theorem give (hl : loc l = none) (hb : b ∈ base) :
    Owned (base \ {b}) (update loc l (some b)) used := by
  have hub : used b := (h.used_iff b).mpr (.inl hb)
  have hless : Owned (base \ {b}) loc fun c => c ≠ b ∧ used c := h.discard hb fun _ => Iff.rfl
  refine hless.alloc hl (fun hn => hn.1 rfl) fun c => ?_
  by_cases hcb : c = b
  · simp [hcb, hub]
  · simp [hcb]

/-- A place gives up the thing that it names. -/
theorem free (hl : loc l = some b) (hused : ∀ c, used' c ↔ c ≠ b ∧ used c) :
    Owned base (update loc l none) used' := by
  refine h.release (· = l) (fun k hk => by rw [hk, update_self])
    (fun k hk => update_of_ne hk _ _) fun c => ?_
  rw [hused, and_comm]
  refine and_congr_right fun _ => ?_
  constructor
  · rintro hcb k rfl hk
    exact hcb (Option.some.inj (hk.symm.trans hl))
  · rintro hall rfl
    exact hall l rfl hl

end Owned

/-! ## Counting -/

/-- The places of `M` that name nothing. -/
def missing (loc : L → Option B) (M : Finset L) : Finset L := M.filter fun l => (loc l).isNone

/-- The things of `U` that are not in use. -/
def unused (used : B → Prop) [DecidablePred used] (U : Finset B) : Finset B :=
  U.filter fun b => ¬ used b

theorem mem_missing {M : Finset L} {l : L} : l ∈ missing loc M ↔ l ∈ M ∧ loc l = none := by
  simp [missing]

variable [DecidablePred used] [DecidablePred used']

theorem mem_unused {U : Finset B} {b : B} : b ∈ unused used U ↔ b ∈ U ∧ ¬ used b := by
  simp [unused]

/-- The things that places of `M` have taken are as many as these places at most. -/
theorem Owned.card_taken_le [DecidableEq B] {M : Finset L} {U : Finset B}
    (h : Owned base loc used) (h' : Owned base loc' used')
    (hmono : ∀ l b, loc l = some b → loc' l = some b)
    (hnew : ∀ l b, loc' l = some b → loc l = some b ∨ l ∈ M) :
    ((unused used U).filter used').card ≤
      ((missing loc M).filter fun l => ¬ (loc' l).isNone).card := by
  calc ((unused used U).filter used').card
      = (((unused used U).filter used').image some).card :=
        (Finset.card_image_of_injective _ (Option.some_injective B)).symm
    _ ≤ (((missing loc M).filter fun l => ¬ (loc' l).isNone).image loc').card := by
        refine Finset.card_le_card fun o ho => ?_
        obtain ⟨b, hb, rfl⟩ := Finset.mem_image.mp ho
        obtain ⟨hb, hused'⟩ := Finset.mem_filter.mp hb
        have hnot := (mem_unused.mp hb).2
        rcases (h'.used_iff b).mp hused' with hbase | ⟨l, hl⟩
        · exact absurd ((h.used_iff b).mpr (.inl hbase)) hnot
        · -- The place did not name the thing, so that it named nothing.
          have hnone : loc l = none := by
            by_contra hsome
            obtain ⟨c, hc⟩ := Option.ne_none_iff_exists'.mp hsome
            obtain rfl : c = b := Option.some.inj ((hmono l c hc).symm.trans hl)
            exact h.loc_ne hnot l hc
          have hM : l ∈ M := (hnew l b hl).resolve_left (by simp [hnone])
          exact Finset.mem_image.mpr
            ⟨l, Finset.mem_filter.mpr ⟨mem_missing.mpr ⟨hM, hnone⟩, by simp [hl]⟩, hl⟩
    _ ≤ _ := Finset.card_image_le

/-- While places of `M` take things, what is not in use stays enough for those that are left. -/
theorem Owned.enough [DecidableEq B] {M : Finset L} {U : Finset B}
    (h : Owned base loc used) (h' : Owned base loc' used')
    (hmono : ∀ l b, loc l = some b → loc' l = some b)
    (hnew : ∀ l b, loc' l = some b → loc l = some b ∨ l ∈ M)
    (henough : (missing loc M).card ≤ (unused used U).card) :
    (missing loc' M).card ≤ (unused used' U).card := by
  have htaken := h.card_taken_le (M := M) (U := U) h' hmono hnew
  have hplaces : (missing loc M).filter (fun l => (loc' l).isNone) = missing loc' M := by
    ext l
    simp only [Finset.mem_filter, mem_missing, Option.isNone_iff_eq_none]
    refine ⟨fun hl => ⟨hl.1.1, hl.2⟩, fun hl => ⟨⟨hl.1, ?_⟩, hl.2⟩⟩
    by_contra hsome
    obtain ⟨b, hb⟩ := Option.ne_none_iff_exists'.mp hsome
    simp [hmono l b hb] at hl
  have hthings : (unused used U).filter (fun b => ¬ used' b) ⊆ unused used' U := by
    intro b hb
    obtain ⟨hb, hnot⟩ := Finset.mem_filter.mp hb
    exact mem_unused.mpr ⟨(mem_unused.mp hb).1, hnot⟩
  have hsplit := Finset.card_filter_add_card_filter_not (s := missing loc M)
    (fun l => (loc' l).isNone)
  have hsplit' := Finset.card_filter_add_card_filter_not (s := unused used U) used'
  have hle := Finset.card_le_card hthings
  rw [hplaces] at hsplit
  omega

end SustainableXv6.Lib
