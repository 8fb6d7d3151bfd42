import SustainableXv6.Sh.Machine

/-!
# Tokens

`lex` splits a line into its tokens, character by character: white space separates, a symbol is a
token, two `>` in a row are one token, and characters of words that follow each other are joined.
`gettoken` takes the first of these tokens (`wp_gettoken`), and `peek` looks at it (`wp_peek`). So
the functions of the parser can be read as functions on the list of tokens that are left
(`Cursor.toks`).
-/

namespace SustainableXv6.Sh

open Lib

variable {i : ℕ} {c : Char} {s l : List Char} {E : Err → Prop} {cur : Cursor}

/-! ## The tokens of a line -/

/-- A token: the character that `gettoken` returns for it (`'a'` for a word, `'+'` for `>>`), and
where it stands. -/
structure Token where
  code : Char
  word : Word
  deriving DecidableEq, Repr

/-- A character of a word at `i`, in front of the tokens from `i + 1` on. -/
def joinWord (i : ℕ) : List Token → List Token
  | [] => [⟨'a', ⟨i, i + 1⟩⟩]
  | t :: ts =>
    if t.code = 'a' ∧ t.word.q = i + 1 then ⟨'a', ⟨i, t.word.eq⟩⟩ :: ts
    else ⟨'a', ⟨i, i + 1⟩⟩ :: t :: ts

/-- The tokens of the characters `s`, the first of which stands at `i`. -/
def lex (i : ℕ) : List Char → List Token
  | [] => []
  | '>' :: '>' :: s => ⟨'+', ⟨i, i + 2⟩⟩ :: lex (i + 2) s
  | c :: s =>
    if whitespace.contains c then lex (i + 1) s
    else if symbols.contains c then ⟨c, ⟨i, i + 1⟩⟩ :: lex (i + 1) s
    else joinWord i (lex (i + 1) s)

/-- The tokens of a line. -/
def tokens (s : List Char) : List Token := lex 0 s

example : tokens ['l', 's', '>', '>', '>', ' ', 'x', ';'] =
    [⟨'a', ⟨0, 2⟩⟩, ⟨'+', ⟨2, 4⟩⟩, ⟨'>', ⟨4, 5⟩⟩, ⟨'a', ⟨6, 7⟩⟩, ⟨';', ⟨7, 8⟩⟩] := by
  decide +kernel

/-- The tokens that are left at the cursor. -/
def Cursor.toks (cur : Cursor) : List Token := lex cur.pos cur.rest

theorem lex_space (hc : whitespace.contains c = true) : lex i (c :: s) = lex (i + 1) s := by
  rw [lex.eq_3, if_pos hc]
  rintro s' rfl -
  exact absurd hc (by decide)

theorem lex_symbol (hc : symbols.contains c = true) (hgt : c ≠ '>' ∨ s.head? ≠ some '>') :
    lex i (c :: s) = ⟨c, ⟨i, i + 1⟩⟩ :: lex (i + 1) s := by
  have hw : whitespace.contains c = false := by
    by_contra hw
    revert hc hw
    simp only [symbols, whitespace, List.contains_eq_mem, List.mem_cons, List.not_mem_nil, or_false,
      decide_eq_true_eq, Bool.not_eq_false]
    rintro (rfl | rfl | rfl | rfl | rfl | rfl | rfl) <;> decide
  rw [lex.eq_3, hw, hc]
  · simp
  · rintro s' rfl rfl
    simp at hgt

theorem lex_word (hc : isWord c = true) : lex i (c :: s) = joinWord i (lex (i + 1) s) := by
  simp only [isWord, Bool.and_eq_true, Bool.not_eq_true'] at hc
  rw [lex.eq_3, hc.1, hc.2]
  · simp
  · rintro s' rfl -
    exact absurd hc.2 (by decide)

/-- A character is white space, a symbol or one of a word. -/
theorem char_cases (c : Char) :
    whitespace.contains c = true ∨ symbols.contains c = true ∨ isWord c = true := by
  cases hw : whitespace.contains c with
  | true => exact .inl rfl
  | false =>
    cases hs : symbols.contains c with
    | true => exact .inr (.inl rfl)
    | false =>
      right
      right
      rw [isWord, hw, hs]
      rfl

/-- The first token where a word starts. -/
theorem joinWord_eq (i : ℕ) (ts : List Token) : ∃ e ts', joinWord i ts = ⟨'a', ⟨i, e⟩⟩ :: ts' ∧
    ∀ t ∈ ts', t ∈ ts := by
  cases ts with
  | nil => exact ⟨_, [], rfl, by simp⟩
  | cons t ts =>
    rw [joinWord]
    split_ifs with h
    · exact ⟨_, ts, rfl, fun t ht => List.mem_cons_of_mem _ ht⟩
    · exact ⟨_, t :: ts, rfl, fun t ht => ht⟩

/-- What `gettoken` returns for a token. -/
def IsCode (c : Char) : Prop := c = 'a' ∨ c = '+' ∨ symbols.contains c = true

theorem IsCode.ne_nul (h : IsCode c) : c ≠ '\x00' := by
  rintro rfl
  revert h
  unfold IsCode
  decide

/-- The tokens from `i` on stand at `i` or behind, and each has a code. -/
theorem of_mem_lex {t : Token} (ht : t ∈ lex i s) : i ≤ t.word.q ∧ IsCode t.code := by
  fun_induction lex i s with
  | case1 => simp at ht
  | case2 i s ih =>
    rcases List.mem_cons.mp ht with rfl | ht
    · exact ⟨le_rfl, .inr (.inl rfl)⟩
    · exact ⟨by have := (ih ht).1; omega, (ih ht).2⟩
  | case3 i c s _ _ ih => exact ⟨by have := (ih ht).1; omega, (ih ht).2⟩
  | case4 i c s _ _ hs ih =>
    rcases List.mem_cons.mp ht with rfl | ht
    · exact ⟨le_rfl, .inr (.inr hs)⟩
    · exact ⟨by have := (ih ht).1; omega, (ih ht).2⟩
  | case5 i c s _ _ _ ih =>
    obtain ⟨e, ts', heq, hsub⟩ := joinWord_eq i (lex (i + 1) s)
    rw [heq] at ht
    rcases List.mem_cons.mp ht with rfl | ht
    · exact ⟨le_rfl, .inl rfl⟩
    · have := ih (hsub t ht)
      exact ⟨by omega, this.2⟩

/-- A line has no more tokens than characters. -/
theorem length_lex_le : (lex i s).length ≤ s.length := by
  fun_induction lex i s with
  | case1 => exact le_rfl
  | case2 i s ih =>
    simp only [List.length_cons]
    omega
  | case3 i c s _ _ ih =>
    simp only [List.length_cons]
    omega
  | case4 i c s _ _ _ ih =>
    simp only [List.length_cons]
    omega
  | case5 i c s _ _ _ ih =>
    have hle (ts : List Token) : (joinWord i ts).length ≤ ts.length + 1 := by
      cases ts with
      | nil => exact le_rfl
      | cons t ts =>
        rw [joinWord]
        split_ifs with h
        · simp
        · simp
    have := hle (lex (i + 1) s)
    simp only [List.length_cons]
    omega

/-- A word is one token. -/
theorem lex_run {w r : List Char} (hne : w ≠ []) (hw : ∀ c ∈ w, isWord c = true)
    (hr : ∀ c ∈ r.head?, isWord c = false) :
    lex i (w ++ r) = ⟨'a', ⟨i, i + w.length⟩⟩ :: lex (i + w.length) r := by
  induction w generalizing i with
  | nil => exact absurd rfl hne
  | cons c w ih =>
    obtain ⟨hc, hw⟩ := List.forall_mem_cons.mp hw
    rw [List.cons_append, lex_word hc]
    cases w with
    | cons d w =>
      rw [ih (List.cons_ne_nil _ _) hw, joinWord, if_pos ⟨rfl, rfl⟩]
      simp only [List.length_cons]
      rw [show i + 1 + (w.length + 1) = i + (w.length + 1 + 1) by omega]
    | nil =>
      -- What follows is not joined, as it is not a word that starts at once.
      rw [List.nil_append, List.length_singleton]
      have hnext : ∀ t ∈ (lex (i + 1) r).head?, ¬ (t.code = 'a' ∧ t.word.q = i + 1) := by
        intro t ht
        cases r with
        | nil => simp [lex] at ht
        | cons d r =>
          have hd : isWord d = false := hr d rfl
          rcases char_cases d with hs | hs | hs
          · rw [lex_space hs] at ht
            have := (of_mem_lex (List.mem_of_mem_head? ht)).1
            omega
          · rintro ⟨hcode, -⟩
            by_cases hgt : d = '>' ∧ r.head? = some '>'
            · obtain ⟨rfl, hgt⟩ := hgt
              obtain ⟨r', rfl⟩ := List.head?_eq_some_iff.mp hgt
              rw [lex.eq_2] at ht
              obtain rfl : _ = t := Option.some.inj ht
              exact absurd (show '+' = 'a' from hcode) (by decide)
            · rw [lex_symbol hs (not_and_or.mp hgt)] at ht
              obtain rfl : _ = t := Option.some.inj ht
              simp only at hcode
              rw [hcode] at hs
              exact absurd hs (by decide)
          · rw [hs] at hd
            exact absurd hd (by decide)
      cases hl : lex (i + 1) r with
      | nil => rfl
      | cons t ts =>
        rw [hl] at hnext
        rw [joinWord, if_neg (hnext t rfl)]

/-! ## `gettoken` and `peek` -/

theorem toks_skipWhile {p : Char → Bool} (hp : ∀ c, p c = true → whitespace.contains c = true)
    (i : ℕ) (s : List Char) :
    lex (i + (s.takeWhile p).length) (s.dropWhile p) = lex i s := by
  induction s generalizing i with
  | nil => rfl
  | cons c s ih =>
    cases hc : p c with
    | true =>
      rw [List.takeWhile_cons_of_pos hc, List.dropWhile_cons_of_pos hc, lex_space (hp c hc),
        ← ih (i + 1), List.length_cons]
      congr 1
      omega
    | false =>
      rw [List.takeWhile_cons_of_neg (by simp [hc]), List.dropWhile_cons_of_neg (by simp [hc])]
      rfl

@[simp] theorem toks_skip (cur : Cursor) : cur.skip.toks = cur.toks :=
  toks_skipWhile (fun _ hc => hc) cur.pos cur.rest

/-- After white space is skipped there is none. -/
theorem skip_head (hc : c ∈ cur.skip.rest.head?) : whitespace.contains c = false := by
  have := List.head?_dropWhile_not whitespace.contains cur.rest
  rw [show cur.rest.dropWhile whitespace.contains = cur.skip.rest from rfl] at this
  rw [Option.mem_def.mp hc] at this
  simpa using this

/-- The `switch` of `gettoken` takes the first token. -/
theorem toks_eq_cons (hs : ∀ c ∈ cur.rest.head?, whitespace.contains c = false)
    (hne : cur.rest ≠ []) :
    cur.toks = ⟨cur.token.1, ⟨cur.pos, cur.token.2.pos⟩⟩ :: cur.token.2.toks := by
  obtain ⟨pos, rest⟩ := cur
  unfold Cursor.token
  simp only
  split
  · exact absurd rfl hne
  · rfl
  · rename_i c rest hgt
    have hc : whitespace.contains c = false := hs c rfl
    split_ifs with hsym
    · refine lex_symbol hsym ?_
      by_contra hcon
      obtain ⟨rfl, hhead⟩ : c = '>' ∧ rest.head? = some '>' := by tauto
      obtain ⟨r', rfl⟩ := List.head?_eq_some_iff.mp hhead
      exact hgt r' rfl rfl
    · have hword : isWord c = true := by
        rcases char_cases c with h | h | h
        · rw [hc] at h
          exact absurd h (by decide)
        · exact absurd h hsym
        · exact h
      have hsplit := List.takeWhile_append_dropWhile (p := isWord) (l := c :: rest)
      change lex pos (c :: rest) = _
      conv_lhs => rw [← hsplit]
      refine lex_run ?_ (fun d hd => ?_) fun d hd => ?_
      · rw [List.takeWhile_cons_of_pos hword]
        exact List.cons_ne_nil _ _
      · exact List.mem_takeWhile_imp hd
      · have := List.head?_dropWhile_not isWord (c :: rest)
        rw [Option.mem_def.mp hd] at this
        simpa using this

/-- The token that starts with the character `c`. -/
theorem token_cases {r : List Char} (hrest : cur.rest = c :: r) :
    cur.token.1 = '+' ∧ c = '>' ∨ cur.token.1 = c ∧ symbols.contains c = true ∨
      cur.token.1 = 'a' ∧ symbols.contains c = false := by
  unfold Cursor.token
  split
  · rename_i hnil
    rw [hnil] at hrest
    exact absurd hrest (by simp)
  · rename_i heq
    rw [heq] at hrest
    exact .inl ⟨rfl, (List.cons.inj hrest).1.symm⟩
  · rename_i d r' _ heq
    rw [heq] at hrest
    obtain ⟨rfl, -⟩ := List.cons.inj hrest
    cases hs : symbols.contains d with
    | true => exact .inr (.inl ⟨rfl, rfl⟩)
    | false => exact .inr (.inr ⟨rfl, rfl⟩)

/-- `gettoken` takes the first token, or returns 0 where there is none. -/
theorem wp_gettoken :
    wp gettoken cur (fun r cur' => (cur.toks = [] ∧ r.1 = '\x00' ∧ cur'.toks = []) ∨
      cur.toks = ⟨r.1, r.2⟩ :: cur'.toks) E := by
  simp only [gettoken, wp_bind, wp_get, wp_set, wp_pure, toks_skip]
  by_cases hnil : cur.skip.rest = []
  · left
    have htok : cur.skip.token = ('\x00', cur.skip) := by
      unfold Cursor.token
      rw [hnil]
    have htoks : cur.toks = [] := by
      rw [← toks_skip, Cursor.toks, hnil]
      rfl
    rw [htok]
    exact ⟨htoks, rfl, (toks_skip cur).trans htoks⟩
  · right
    rw [← toks_eq_cons (fun c hc => skip_head hc) hnil, toks_skip]

/-- The first character of a token. -/
def Token.first (t : Token) : Char := if t.code = '+' then '>' else t.code

/-- `peek` looks at the first token. -/
theorem wp_peek (hl : l.all symbols.contains = true) :
    wp (peek l) cur (fun b cur' => cur'.toks = cur.toks ∧
      b = cur.toks.head?.any fun t => l.contains t.first) E := by
  simp only [peek, wp_bind, wp_get, wp_set, wp_pure, toks_skip, true_and]
  by_cases hnil : cur.skip.rest = []
  · have htoks : cur.toks = [] := by
      rw [← toks_skip, Cursor.toks, hnil]
      rfl
    rw [hnil, htoks]
    rfl
  · have htoks := toks_eq_cons (fun c hc => skip_head hc) hnil
    rw [toks_skip] at htoks
    obtain ⟨c, rest, hrest⟩ := List.exists_cons_of_ne_nil hnil
    rw [htoks, hrest]
    -- A word starts with none of the characters, and its code is none of them.
    have hnot (d : Char) (hd : symbols.contains d = false) : l.contains d = false := by
      by_contra hcon
      rw [Bool.not_eq_false, List.contains_iff_mem] at hcon
      rw [List.all_eq_true.mp hl d hcon] at hd
      exact absurd hd (by decide)
    simp only [List.head?_cons, Option.any_some, Token.first]
    rcases token_cases hrest with ⟨htok, rfl⟩ | ⟨htok, hsym⟩ | ⟨htok, hsym⟩
    · rw [htok, if_pos rfl]
    · have hne : c ≠ '+' := by
        rintro rfl
        exact absurd hsym (by decide)
      rw [htok, if_neg hne]
    · rw [htok, if_neg (by decide), hnot c hsym, hnot 'a' (by decide)]

end SustainableXv6.Sh
