import Mathlib

/-!
# The matcher of `grep`

`match`, `matchhere` and `matchstar` of `user/grep.c`. A string is the list of its characters before
the NUL, so that `re[0] == '\0'` is an empty list. `matchhere` looks for a match at the start of a
text, and `matchstar` first tries the rest of the pattern with the shortest repetition.

A pattern is read as a list of items, from the left to the right (`readItems`), and denotes a
language (`lang`). `matchhere` accepts a text iff it starts with a word of the language
(`matchhere_iff`): by recursion on the pattern, with `matchstar_iff` by induction on the text. The
whole matcher then accepts a text iff a part of it is such a word (`match_language`).
-/

namespace SustainableXv6.Grep

variable {c t : Char} {re text : List Char}

/-! ## The functions -/

mutual

/-- Search for the pattern at the beginning of the text. -/
def matchhere (re text : List Char) : Bool :=
  match re with
  | [] => true
  | c :: '*' :: re => matchstar c re text
  | c :: re =>
    if c = '$' ∧ re = [] then text.isEmpty
    else
      match text with
      | [] => false
      | t :: text => (c = '.' ∨ c = t) && matchhere re text
termination_by (re.length, 0)

/-- Search for `c*re` at the beginning of the text. -/
def matchstar (c : Char) (re text : List Char) : Bool :=
  matchhere re text ||
    match text with
    | [] => false
    | t :: text => (t = c ∨ c = '.') && matchstar c re text
termination_by (re.length, text.length + 1)

end

/-- The loop of `match`, which also looks at the empty string. -/
def search (re : List Char) : List Char → Bool
  | [] => matchhere re []
  | t :: text => matchhere re (t :: text) || search re text

/-- `match`. -/
def matchRe (re text : List Char) : Bool :=
  match re with
  | '^' :: re => matchhere re text
  | re => search re text

/-! ## The meaning of a pattern -/

/-- An item of a pattern. -/
inductive Item
  /-- One character. -/
  | one (c : Char)
  /-- Zero or more of a character. -/
  | star (c : Char)
  deriving Repr, DecidableEq

/-- A pattern is its items, and whether it ends with the end of the text. -/
def readItems : List Char → List Item × Bool
  | [] => ([], false)
  | c :: '*' :: re => (.star c :: (readItems re).1, (readItems re).2)
  | ['$'] => ([], true)
  | c :: re => (.one c :: (readItems re).1, (readItems re).2)

/-- The words of one character that `c` stands for. -/
def single (c : Char) : Language Char := {w | ∃ t, w = [t] ∧ (c = '.' ∨ c = t)}

/-- The words of an item. -/
def Item.lang : Item → Language Char
  | .one c => single c
  | .star c => KStar.kstar (single c)

/-- The words of a list of items. -/
def lang (items : List Item) : Language Char := (items.map Item.lang).prod

/-- The text starts with a word of the pattern, which is the whole text if the pattern ends with
the end of the text. -/
def Here (p : List Item × Bool) (text : List Char) : Prop :=
  ∃ w post, text = w ++ post ∧ w ∈ lang p.1 ∧ (p.2 = true → post = [])

/-! ## Matches at the start of a text -/

theorem mem_lang_nil {w : List Char} : w ∈ lang [] ↔ w = [] := Language.mem_one w

theorem here_nil (text : List Char) : Here ([], false) text :=
  ⟨[], text, rfl, mem_lang_nil.mpr rfl, fun h => absurd h (by decide)⟩

theorem here_end : Here ([], true) text ↔ text = [] := by
  constructor
  · rintro ⟨w, post, rfl, hw, hpost⟩
    rw [mem_lang_nil.mp hw, hpost rfl]
    rfl
  · rintro rfl
    exact ⟨[], [], rfl, mem_lang_nil.mpr rfl, fun _ => rfl⟩

/-- A match of the first item, then one of the rest. -/
theorem here_cons {i : Item} {items : List Item} {e : Bool} :
    Here (i :: items, e) text ↔ ∃ u v, text = u ++ v ∧ u ∈ i.lang ∧ Here (items, e) v := by
  constructor
  · rintro ⟨w, post, rfl, hw, hpost⟩
    obtain ⟨u, hu, w, hrest, rfl⟩ := Language.mem_mul.mp hw
    exact ⟨u, w ++ post, List.append_assoc .., hu, w, post, rfl, hrest, hpost⟩
  · rintro ⟨u, v, rfl, hu, w, post, rfl, hw, hpost⟩
    exact ⟨u ++ w, post, (List.append_assoc ..).symm, Language.mem_mul.mpr ⟨u, hu, w, hw, rfl⟩,
      hpost⟩

/-- A match of one character, then one of the rest. -/
theorem here_one {items : List Item} {e : Bool} :
    Here (.one c :: items, e) text ↔
      ∃ t v, text = t :: v ∧ (c = '.' ∨ c = t) ∧ Here (items, e) v := by
  rw [here_cons]
  constructor
  · rintro ⟨_, v, rfl, ⟨t, rfl, ht⟩, hv⟩
    exact ⟨t, v, rfl, ht, hv⟩
  · rintro ⟨t, v, rfl, ht, hv⟩
    exact ⟨[t], v, rfl, ⟨t, rfl, ht⟩, hv⟩

/-- A match of a repetition is one of the rest, or has a first character. -/
theorem here_star {items : List Item} {e : Bool} :
    Here (.star c :: items, e) text ↔
      Here (items, e) text ∨
        ∃ t v, text = t :: v ∧ (c = '.' ∨ c = t) ∧ Here (.star c :: items, e) v := by
  have hstar : (Item.star c).lang = 1 + single c * (Item.star c).lang :=
    (Language.one_add_self_mul_kstar_eq_kstar (single c)).symm
  rw [here_cons]
  constructor
  · rintro ⟨u, v, rfl, hu, hv⟩
    rw [hstar] at hu
    rcases (Language.mem_add ..).mp hu with hu | hu
    · rw [(Language.mem_one u).mp hu]
      exact .inl hv
    · obtain ⟨_, ⟨t, rfl, ht⟩, u, hrest, rfl⟩ := Language.mem_mul.mp hu
      exact .inr ⟨t, u ++ v, rfl, ht, here_cons.mpr ⟨u, v, rfl, hrest, hv⟩⟩
  · rintro (hv | ⟨t, v, rfl, ht, hv⟩)
    · exact ⟨[], text, rfl, Language.nil_mem_kstar _, hv⟩
    · obtain ⟨u, v, rfl, hu, hv⟩ := here_cons.mp hv
      refine ⟨t :: u, v, rfl, ?_, hv⟩
      rw [hstar]
      exact (Language.mem_add ..).mpr
        (.inr (Language.mem_mul.mpr ⟨[t], ⟨t, rfl, ht⟩, u, hu, rfl⟩))

/-- `matchstar` tries every repetition. -/
theorem matchstar_iff {p : List Item × Bool} (h : ∀ text, matchhere re text = true ↔ Here p text)
    (c : Char) (text : List Char) :
    matchstar c re text = true ↔ Here (.star c :: p.1, p.2) text := by
  induction text with
  | nil =>
    rw [matchstar, Bool.or_false, h, here_star]
    simp
  | cons t text ih =>
    rw [matchstar, Bool.or_eq_true, h, here_star, Bool.and_eq_true, ih, decide_eq_true_eq]
    simp [or_comm, eq_comm]

section Char

variable (h : ∀ rest, re = '*' :: rest → False)
include h

/-- A first character that is not repeated does not match at the end of the text, unless it is the
final `$`. -/
theorem matchhere_char_nil : matchhere (c :: re) [] = decide (c = '$' ∧ re = []) := by
  rw [matchhere.eq_def]
  split
  · contradiction
  · rename_i rest heq
    exact (h rest (List.cons.inj heq).2).elim
  · rename_i heq
    obtain ⟨rfl, rfl⟩ := List.cons.inj heq
    split_ifs with hend <;> simp [hend]

/-- A first character that is not repeated is compared with that of the text. -/
theorem matchhere_char_cons :
    matchhere (c :: re) (t :: text) =
      (!decide (c = '$' ∧ re = []) && (c = '.' ∨ c = t) && matchhere re text) := by
  rw [matchhere.eq_def]
  split
  · contradiction
  · rename_i rest heq
    exact (h rest (List.cons.inj heq).2).elim
  · rename_i heq
    obtain ⟨rfl, rfl⟩ := List.cons.inj heq
    split_ifs with hend <;> simp [hend]

end Char

/-- `matchhere` accepts the texts that start with a word of the pattern. -/
theorem matchhere_iff (re text : List Char) :
    matchhere re text = true ↔ Here (readItems re) text := by
  fun_induction readItems re generalizing text with
  | case1 =>
    rw [matchhere]
    exact iff_of_true rfl (here_nil text)
  | case2 c re ih =>
    rw [matchhere]
    exact matchstar_iff ih c text
  | case3 =>
    rw [here_end]
    cases text with
    | nil => simp [matchhere_char_nil]
    | cons t text => simp [matchhere_char_cons]
  | case4 c re hstar hend ih =>
    have hne : ¬(c = '$' ∧ re = []) := fun h => hend h.1 h.2
    rw [here_one]
    cases text with
    | nil => simp [matchhere_char_nil hstar, hne]
    | cons t text => simp [matchhere_char_cons hstar, hne, ih]

/-! ## Matches anywhere -/

/-- The loop of `match` tries every suffix. -/
theorem search_iff (re text : List Char) :
    search re text = true ↔ ∃ pre rest, text = pre ++ rest ∧ matchhere re rest = true := by
  induction text with
  | nil => simp [search]
  | cons t text ih =>
    rw [search, Bool.or_eq_true, ih]
    constructor
    · rintro (h | ⟨pre, rest, rfl, h⟩)
      · exact ⟨[], t :: text, rfl, h⟩
      · exact ⟨t :: pre, rest, rfl, h⟩
    · rintro ⟨pre, rest, heq, h⟩
      cases pre with
      | nil => exact .inl (heq ▸ h)
      | cons s pre => exact .inr ⟨pre, rest, (List.cons.inj heq).2, h⟩

/-- The pattern behind a first `^`. -/
def body : List Char → List Char
  | '^' :: re => re
  | re => re

theorem matchRe_iff (re text : List Char) :
    matchRe re text = true ↔ ∃ pre rest, text = pre ++ rest ∧
      (re.head? = some '^' → pre = []) ∧ matchhere (body re) rest = true := by
  rw [matchRe.eq_def]
  split
  · constructor
    · exact fun h => ⟨[], text, rfl, fun _ => rfl, h⟩
    · rintro ⟨pre, rest, rfl, hpre, h⟩
      rwa [hpre rfl]
  · rename_i hfirst
    have hhead : re.head? ≠ some '^' := by
      intro h
      obtain ⟨rest, rfl⟩ := List.head?_eq_some_iff.mp h
      exact hfirst rest rfl
    rw [search_iff, body.eq_def]
    split
    · exact absurd rfl hhead
    · simp [hhead]

/-- `match` returns 1 if and only if a part of the text is a word of the pattern. The part starts at
the first character if the pattern starts with `^`, and ends at the last one if the pattern ends
with a `$` that is not repeated. -/
theorem match_language (re text : List Char) :
    matchRe re text = true ↔ ∃ pre w post, text = pre ++ w ++ post ∧
      w ∈ lang (readItems (body re)).1 ∧ (re.head? = some '^' → pre = []) ∧
      ((readItems (body re)).2 = true → post = []) := by
  rw [matchRe_iff]
  constructor
  · rintro ⟨pre, rest, rfl, hpre, h⟩
    obtain ⟨w, post, rfl, hw, hpost⟩ := (matchhere_iff ..).mp h
    exact ⟨pre, w, post, (List.append_assoc ..).symm, hw, hpre, hpost⟩
  · rintro ⟨pre, w, post, rfl, hw, hpre, hpost⟩
    exact ⟨pre, w ++ post, List.append_assoc .., hpre,
      (matchhere_iff ..).mpr ⟨w, post, rfl, hw, hpost⟩⟩

end SustainableXv6.Grep
