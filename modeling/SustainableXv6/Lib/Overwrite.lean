import Mathlib

/-!
# Overwriting a part of a list

`overwrite l off src` is the array `l` after a write of `src` at `off`. A write at a position up to
the end may extend the array. Writes of consecutive pieces are one write (`overwrite_overwrite`).
-/

namespace SustainableXv6.Lib

variable {α : Type} {l src : List α} {off : ℕ}

/-- The list `l` with the elements `src` from the position `off` on. -/
def overwrite (l : List α) (off : ℕ) (src : List α) : List α :=
  l.take off ++ src ++ l.drop (off + src.length)

theorem length_overwrite (h : off ≤ l.length) :
    (overwrite l off src).length = max l.length (off + src.length) := by
  simp only [overwrite, List.length_append, List.length_take, List.length_drop]
  omega

theorem overwrite_nil (l : List α) (off : ℕ) : overwrite l off [] = l := by
  rw [overwrite, List.append_nil, List.length_nil, Nat.add_zero, List.take_append_drop]

/-- An element is one of `src`, or the old one. -/
theorem getElem?_overwrite (h : off ≤ l.length) (i : ℕ) :
    (overwrite l off src)[i]? =
      if off ≤ i ∧ i < off + src.length then src[i - off]? else l[i]? := by
  have hlen : (l.take off).length = off := by rw [List.length_take, Nat.min_eq_left h]
  rw [overwrite, List.append_assoc]
  by_cases hi : i < off
  · rw [if_neg (by omega), List.getElem?_append_left (by omega), List.getElem?_take_of_lt hi]
  · rw [List.getElem?_append_right (by omega), hlen]
    split_ifs with hsrc
    · rw [List.getElem?_append_left (by omega)]
    · rw [List.getElem?_append_right (by omega), List.getElem?_drop]
      congr 1
      omega

/-- Two writes one after the other are one write. -/
theorem overwrite_overwrite {src' : List α} (h : off ≤ l.length) :
    overwrite (overwrite l off src) (off + src.length) src' = overwrite l off (src ++ src') := by
  have hlen : (overwrite l off src).length = max l.length (off + src.length) := length_overwrite h
  refine List.ext_getElem? fun i => ?_
  rw [getElem?_overwrite (by omega), getElem?_overwrite h, getElem?_overwrite h,
    List.length_append]
  by_cases hsecond : off + src.length ≤ i ∧ i < off + src.length + src'.length
  · rw [if_pos hsecond, if_pos (by omega), List.getElem?_append_right (by omega), Nat.sub_sub]
  · rw [if_neg hsecond]
    by_cases hfirst : off ≤ i ∧ i < off + src.length
    · rw [if_pos hfirst, if_pos (by omega), List.getElem?_append_left (by omega)]
    · rw [if_neg hfirst, if_neg (by omega)]

end SustainableXv6.Lib
