import SustainableXv6.Lib.Overwrite

/-!
# Finite maps in slots

A finite map is kept in a list of slots, each of which is free or has a key and its value. Where no
key is in two slots, a pair that is put into a free slot or behind the end extends the map, and a
slot that is freed removes its key.
-/

namespace SustainableXv6.Lib

/-- The slots of a finite map. -/
abbrev Slots (κ ν : Type) : Type := List (Option (κ × ν))

namespace Slots

variable {κ ν : Type} {l : Slots κ ν} {k k' : κ} {v v' : ν} {i j : ℕ}

/-- The slot `i` has the key `k` with the value `v`. -/
def Has (l : Slots κ ν) (k : κ) (v : ν) (i : ℕ) : Prop := l[i]? = some (some (k, v))

/-- No key is in two slots. -/
def Distinct (l : Slots κ ν) : Prop := ∀ k v v' i j, Has l k v i → Has l k v' j → i = j

/-- A slot has one pair. -/
theorem Has.unique (h : Has l k v i) (h' : Has l k' v' i) : k = k' ∧ v = v' := by
  unfold Has at h h'
  rw [h] at h'
  exact Prod.mk.inj (Option.some.inj (Option.some.inj h'))

/-- A slot is overwritten, or a slot is added behind the end. -/
theorem has_overwrite (hi : i ≤ l.length) (o : Option (κ × ν)) :
    Has (overwrite l i [o]) k v j ↔ j = i ∧ o = some (k, v) ∨ j ≠ i ∧ Has l k v j := by
  unfold Has
  rw [getElem?_overwrite hi, List.length_singleton]
  by_cases hj : j = i
  · subst hj
    rw [if_pos ⟨le_rfl, Nat.lt_succ_self j⟩, Nat.sub_self]
    simp
  · rw [if_neg (by omega)]
    simp [hj]

/-- A new key is put into a slot. -/
theorem Distinct.insert (h : Distinct l) (hi : i ≤ l.length) (hk : ∀ v j, ¬ Has l k v j) :
    Distinct (overwrite l i [some (k, v)]) := by
  intro k' w w' j j' hj hj'
  rw [has_overwrite hi] at hj hj'
  rcases hj with ⟨rfl, hj⟩ | ⟨-, hj⟩
  · rcases hj' with ⟨rfl, -⟩ | ⟨-, hj'⟩
    · rfl
    · rw [(Prod.mk.inj (Option.some.inj hj)).1] at hk
      exact absurd hj' (hk w' j')
  · rcases hj' with ⟨rfl, hj'⟩ | ⟨-, hj'⟩
    · rw [(Prod.mk.inj (Option.some.inj hj')).1] at hk
      exact absurd hj (hk w j)
    · exact h k' w w' j j' hj hj'

/-- A slot is freed. -/
theorem Distinct.erase (h : Distinct l) (hi : i ≤ l.length) :
    Distinct (overwrite l i [none]) := by
  have hold {k : κ} {v : ν} {j : ℕ} (hj : Has (overwrite l i [none]) k v j) : Has l k v j := by
    rcases (has_overwrite hi none).mp hj with ⟨-, hno⟩ | ⟨-, hj⟩
    · exact absurd hno (by simp)
    · exact hj
  exact fun k v v' j j' hj hj' => h k v v' j j' (hold hj) (hold hj')

/-! ## Lookups -/

variable [DecidableEq κ]

/-- The value of the key `k`, with the first slot that has it. -/
def lookup (l : Slots κ ν) (k : κ) : Option (ν × ℕ) :=
  l.zipIdx.findSome? fun p => p.1.bind fun x => if x.1 = k then some (x.2, p.2) else none

theorem lookup_eq_none_iff : lookup l k = none ↔ ∀ v i, ¬ Has l k v i := by
  unfold lookup
  rw [List.findSome?_eq_none_iff]
  constructor
  · intro hnone v i hhas
    have := hnone (some (k, v), i) (List.mem_zipIdx_iff_getElem?.mpr hhas)
    simp at this
  · rintro hno ⟨o, i⟩ hmem
    rw [List.mem_zipIdx_iff_getElem?] at hmem
    cases o with
    | none => rfl
    | some x =>
      refine if_neg fun hx => hno x.2 i ?_
      rw [Has, ← hx]
      exact hmem

theorem Has.of_lookup (h : lookup l k = some (v, i)) : Has l k v i := by
  obtain ⟨⟨o, j⟩, hmem, hx⟩ := List.exists_of_findSome?_eq_some h
  rw [List.mem_zipIdx_iff_getElem?] at hmem
  obtain ⟨⟨k', v'⟩, rfl, hx⟩ := Option.bind_eq_some_iff.mp hx
  dsimp only at hx hmem
  split_ifs at hx with hk
  obtain ⟨rfl, rfl⟩ := Prod.mk.inj (Option.some.inj hx)
  rw [Has, ← hk]
  exact hmem

/-- Where no key is in two slots, a lookup finds the slot of its key. -/
theorem lookup_eq_some_iff (h : Distinct l) : lookup l k = some (v, i) ↔ Has l k v i := by
  refine ⟨Has.of_lookup, fun hhas => ?_⟩
  cases hl : lookup l k with
  | none => exact absurd hhas (lookup_eq_none_iff.mp hl v i)
  | some p =>
    have hp := Has.of_lookup hl
    obtain rfl := h k _ _ _ _ hp hhas
    rw [← (hp.unique hhas).2]

/-- Two lookups in maps that have the same slots for their keys. -/
theorem lookup_congr {l' : Slots κ ν} (h : Distinct l) (h' : Distinct l')
    (hiff : ∀ v i, Has l k v i ↔ Has l' k v i) : lookup l k = lookup l' k := by
  refine Option.ext fun p => ?_
  rw [← Prod.mk.eta (p := p), lookup_eq_some_iff h, lookup_eq_some_iff h', hiff]

/-- The map after a new key has been put into a free slot or behind the end. -/
theorem lookup_insert (h : Distinct l) (hi : i ≤ l.length) (hk : ∀ v j, ¬ Has l k v j)
    (hfree : ∀ k' v', ¬ Has l k' v' i) (k' : κ) :
    lookup (overwrite l i [some (k, v)]) k' = if k' = k then some (v, i) else lookup l k' := by
  have hnew := h.insert (v := v) hi hk
  split_ifs with hkk
  · rw [lookup_eq_some_iff hnew, has_overwrite hi, hkk]
    exact .inl ⟨rfl, rfl⟩
  · refine lookup_congr hnew h fun w j => ?_
    rw [has_overwrite hi]
    constructor
    · rintro (⟨-, hw⟩ | ⟨-, hw⟩)
      · exact absurd (Prod.mk.inj (Option.some.inj hw)).1.symm hkk
      · exact hw
    · exact fun hw => .inr ⟨fun hj => hfree k' w (hj ▸ hw), hw⟩

/-- The map after the slot of a key has been freed. -/
theorem lookup_erase (h : Distinct l) (hk : Has l k v i) (k' : κ) :
    lookup (overwrite l i [none]) k' = if k' = k then none else lookup l k' := by
  have hi : i ≤ l.length := (List.getElem?_eq_some_iff.mp hk).1.le
  have hnew := h.erase hi
  split_ifs with hkk
  · rw [lookup_eq_none_iff, hkk]
    intro w j hw
    rcases (has_overwrite hi none).mp hw with ⟨-, hno⟩ | ⟨hj, hw⟩
    · exact absurd hno (by simp)
    · exact hj (h k _ _ _ _ hw hk)
  · refine lookup_congr hnew h fun w j => ?_
    rw [has_overwrite hi]
    constructor
    · rintro (⟨-, hw⟩ | ⟨-, hw⟩)
      · exact absurd hw (by simp)
      · exact hw
    · refine fun hw => .inr ⟨fun hj => hkk ?_, hw⟩
      subst hj
      exact (hw.unique hk).1

end Slots

end SustainableXv6.Lib
