import SustainableXv6.Sh.Grammar

/-!
# The strings of a command

`nulterminate` writes a NUL behind each word of the tree. What stands behind a word is white space,
a symbol or the end of the line, and never a character of a word. So every word is a string with its
own text afterwards (`parsecmd_grammar`). A symbol that stands directly behind a word is overwritten
(`symbol_overwritten`), which does no harm, since the line has been read by then.
-/

namespace SustainableXv6.Sh

open Lib

variable {i j n : ℕ} {s mem : List Char} {w : Word} {ws : List Word} {t : Token}
  {ts ts' : List Token} {cmd c c' : Cmd}

/-! ## The words of a tree -/

/-- The words of a tree. -/
def Cmd.words : Cmd → List Word
  | .exec argv => argv
  | .redir cmd file _ _ => cmd.words ++ [file]
  | .pipe left right => left.words ++ right.words
  | .list left right => left.words ++ right.words
  | .back cmd => cmd.words

/-- A NUL is written behind each of the words. -/
def cut (mem : List Char) (ws : List Word) : List Char :=
  ws.foldl (fun mem w => mem.set w.eq '\x00') mem

theorem cut_append (mem : List Char) (ws ws' : List Word) :
    cut mem (ws ++ ws') = cut (cut mem ws) ws' := List.foldl_append ..

theorem nulterminate_eq (cmd : Cmd) (mem : List Char) :
    nulterminate cmd mem = cut mem cmd.words := by
  induction cmd generalizing mem with
  | exec argv => rfl
  | redir cmd file mode fd ih =>
    rw [nulterminate, ih, Cmd.words, cut_append]
    rfl
  | pipe left right ihl ihr => rw [nulterminate, ihr, ihl, Cmd.words, cut_append]
  | list left right ihl ihr => rw [nulterminate, ihr, ihl, Cmd.words, cut_append]
  | back cmd ih => rw [nulterminate, ih, Cmd.words]

/-- A word is one of the tokens. -/
def Among (ts : List Token) (w : Word) : Prop := ⟨'a', w⟩ ∈ ts

theorem among_of_mem (ht : t ∈ ts) (hcode : t.code = 'a') : Among ts t.word := by
  obtain ⟨code, w⟩ := t
  simp only at hcode
  subst hcode
  exact ht

theorem Among.append_left (h : Among ts w) : Among (ts ++ ts') w := List.mem_append_left _ h

theorem Among.append_right (h : Among ts' w) : Among (ts ++ ts') w := List.mem_append_right _ h

theorem Among.cons (h : Among ts w) : Among (t :: ts) w := List.mem_cons_of_mem _ h

theorem words_addArg {v : Word} (hw : w ∈ (c.addArg v).words) : w ∈ c.words ∨ w = v := by
  induction c with
  | exec argv => simpa [Cmd.addArg, Cmd.words] using hw
  | redir cmd file mode fd ih =>
    rcases List.mem_append.mp hw with hw | hw
    · exact (ih hw).imp_left (List.mem_append_left _)
    · exact .inl (List.mem_append_right _ hw)
  | pipe left right _ _ => exact .inl hw
  | list left right _ _ => exact .inl hw
  | back cmd _ => exact .inl hw

theorem words_redirect {tok : Char} {file : Word} (hw : w ∈ (redirect tok file c).words) :
    w ∈ c.words ∨ w = file := by
  unfold redirect at hw
  split_ifs at hw
  · simpa [Cmd.words] using hw
  · simpa [Cmd.words] using hw
  · simpa [Cmd.words] using hw
  · exact .inl hw

theorem words_iterate_back (n : ℕ) (c : Cmd) : (Cmd.back^[n] c).words = c.words := by
  induction n generalizing c with
  | zero => rfl
  | succ n ih => exact ih (.back c)

theorem Redirs.words (h : Redirs c ts c') (hw : w ∈ c'.words) : w ∈ c.words ∨ Among ts w := by
  induction h with
  | nil => exact .inl hw
  | cons _ ht' _ ih =>
    rcases ih hw with hw | hw
    · refine (words_redirect hw).imp_right ?_
      rintro rfl
      exact among_of_mem (List.mem_cons_of_mem _ (List.mem_cons_self ..)) ht'
    · exact .inr hw.cons.cons

theorem Args.words (h : Args c ts c' n) (hw : w ∈ c'.words) : w ∈ c.words ∨ Among ts w := by
  induction h with
  | nil => exact .inl hw
  | cons ht hred _ ih =>
    rcases ih hw with hw | hw
    · rcases hred.words hw with hw | hw
      · refine (words_addArg hw).imp_right ?_
        rintro rfl
        exact among_of_mem (List.mem_cons_self ..) ht
      · exact .inr hw.append_left.cons
    · exact .inr hw.append_right.cons

/-- The words of the tree are words of the line. -/
theorem Derives.words {p : Part} (h : Derives p ts c) (hw : w ∈ c.words) : Among ts w := by
  induction h with
  | line _ _ ih =>
    rw [words_iterate_back] at hw
    exact (ih hw).append_left
  | list _ _ _ _ ih ih₁ =>
    rcases List.mem_append.mp hw with hw | hw
    · rw [words_iterate_back] at hw
      exact (ih hw).append_left
    · exact (ih₁ hw).cons.append_right.append_right
  | cmd _ ih => exact ih hw
  | pipe _ _ _ ih ih₁ =>
    rcases List.mem_append.mp hw with hw | hw
    · exact (ih hw).append_left
    · exact (ih₁ hw).cons.append_right
  | block _ _ _ hred ih =>
    rcases hred.words hw with hw | hw
    · exact (ih hw).append_left.cons
    · exact hw.cons.append_right.cons
  | exec hred hargs _ =>
    rcases hargs.words hw with hw | hw
    · refine ((hred.words hw).resolve_left ?_).append_left
      simp [Cmd.words]
    · exact hw.append_right

/-! ## Where words stand -/

/-- The text of a word. -/
def text (s : List Char) (w : Word) : List Char := (s.drop w.q).take (w.eq - w.q)

/-- From `q` to `eq` the line has characters of words, and no such character at `eq`. -/
structure IsRun (s : List Char) (w : Word) : Prop where
  lt : w.q < w.eq
  inside : ∀ j, w.q ≤ j → j < w.eq → ∃ c ∈ s[j]?, isWord c = true
  behind : ∀ c ∈ s[w.eq]?, isWord c = false

/-- A word of one character. -/
theorem isRun_single {u : List Char} {c : Char} (hc : isWord c = true)
    (hs : ∀ d ∈ s.head?, isWord d = false) : IsRun (u ++ c :: s) ⟨u.length, u.length + 1⟩ where
  lt := Nat.lt_succ_self _
  inside j hle hlt := by
    obtain rfl : j = u.length := Nat.le_antisymm (Nat.le_of_lt_succ hlt) hle
    exact ⟨c, by simp, hc⟩
  behind d hd := by
    refine hs d ?_
    rw [List.getElem?_append_right (Nat.le_succ _)] at hd
    simpa [List.head?_eq_getElem?] using hd

/-- A word that starts behind the first `i` characters is one of the line. -/
theorem isRun_of_mem_lex {u : List Char} (hu : u.length = i) (ht : ⟨'a', w⟩ ∈ lex i s) :
    IsRun (u ++ s) w := by
  fun_induction lex i s generalizing u w with
  | case1 => simp at ht
  | case2 i s ih =>
    rcases List.mem_cons.mp ht with he | ht
    · exact absurd (show 'a' = '+' from congrArg Token.code he) (by decide)
    · have := ih (u := u ++ ['>', '>']) (by simp [hu]) ht
      simpa using this
  | case3 i c s _ _ ih =>
    have := ih (u := u ++ [c]) (by simp [hu]) ht
    simpa using this
  | case4 i c s _ _ hs ih =>
    rcases List.mem_cons.mp ht with he | ht
    · obtain rfl : 'a' = c := congrArg Token.code he
      exact absurd hs (by decide)
    · have := ih (u := u ++ [c]) (by simp [hu]) ht
      simpa using this
  | case5 i c s hgt hsp hsy ih =>
    have hc : isWord c = true := by
      have := char_cases c
      tauto
    replace ih {w : Word} (hw : ⟨'a', w⟩ ∈ lex (i + 1) s) : IsRun (u ++ c :: s) w := by
      have := ih (u := u ++ [c]) (by simp [hu]) hw
      simpa using this
    -- A word that starts behind `c` would be the first token.
    have hhead (hno : ∀ t ∈ (lex (i + 1) s).head?, ¬ (t.code = 'a' ∧ t.word.q = i + 1)) :
        ∀ d ∈ s.head?, isWord d = false := by
      intro d hd
      obtain ⟨s', rfl⟩ := List.head?_eq_some_iff.mp hd
      by_contra hw
      rw [Bool.not_eq_false] at hw
      obtain ⟨e, ts, heq, -⟩ := joinWord_eq (i + 1) (lex (i + 1 + 1) s')
      rw [lex_word hw, heq] at hno
      exact hno _ rfl ⟨rfl, rfl⟩
    cases hl : lex (i + 1) s with
    | nil =>
      rw [hl] at ht hhead
      obtain rfl : w = ⟨i, i + 1⟩ := by simpa [joinWord] using ht
      rw [← hu]
      exact isRun_single hc (hhead (by simp))
    | cons t ts =>
      rw [hl] at ht hhead ih
      rw [joinWord] at ht
      split_ifs at ht with hjoin
      · rcases List.mem_cons.mp ht with he | ht
        · obtain rfl : w = ⟨i, t.word.eq⟩ := congrArg Token.word he
          obtain ⟨code, q, e⟩ := t
          obtain ⟨rfl, rfl⟩ : code = 'a' ∧ q = i + 1 := hjoin
          have hrun := ih (List.mem_cons_self ..)
          refine ⟨(Nat.lt_succ_self i).trans hrun.lt, fun j hle hlt => ?_, hrun.behind⟩
          rcases Nat.eq_or_lt_of_le hle with heq | hgt
          · obtain rfl : i = j := heq
            exact ⟨c, by simp [← hu], hc⟩
          · exact hrun.inside j hgt hlt
        · exact ih (List.mem_cons_of_mem _ ht)
      · rcases List.mem_cons.mp ht with he | ht
        · obtain rfl : w = ⟨i, i + 1⟩ := congrArg Token.word he
          rw [← hu]
          refine isRun_single hc (hhead fun t' ht' => ?_)
          obtain rfl : t = t' := Option.some.inj ht'
          exact hjoin
        · exact ih ht

/-- The words of a line are runs of characters of words. -/
theorem isRun_of_among (hw : Among (tokens s) w) : IsRun s w :=
  isRun_of_mem_lex (u := []) rfl hw

/-! ## NULs behind words -/

/-- No NUL is written into a word. -/
theorem IsRun.not_within {v : Word} (hw : IsRun s w) (hv : IsRun s v) :
    ¬ (v.q ≤ w.eq ∧ w.eq < v.eq) := by
  rintro ⟨hle, hlt⟩
  obtain ⟨c, hc, hword⟩ := hv.inside w.eq hle hlt
  rw [hw.behind c hc] at hword
  exact absurd hword (by decide)

theorem getElem?_cut (mem : List Char) (ws : List Word) (j : ℕ) :
    (cut mem ws)[j]? = if j ∈ ws.map Word.eq ∧ j < mem.length then some '\x00' else mem[j]? := by
  induction ws generalizing mem with
  | nil => simp [cut]
  | cons w ws ih =>
    have hcons : cut mem (w :: ws) = cut (mem.set w.eq '\x00') ws := rfl
    rw [hcons, ih, List.length_set]
    simp only [List.map_cons, List.mem_cons]
    by_cases hlt : j < mem.length
    · by_cases heq : w.eq = j
      · subst heq
        simp [hlt]
      · rw [List.getElem?_set_ne heq]
        simp only [Ne.symm heq, false_or]
    · simp [hlt]

/-- The string in front of a NUL, or of the end of the memory. -/
theorem cstr_append {u r : List Char} (hu : '\x00' ∉ u) (hr : ∀ c ∈ r.head?, c = '\x00') :
    cstr (u ++ r) = u := by
  have hall : ∀ c ∈ u, (decide (c ≠ '\x00')) = true := by
    intro c hc
    rw [decide_eq_true_eq]
    rintro rfl
    exact hu hc
  have hnil : cstr r = [] := by
    cases r with
    | nil => rfl
    | cons c r =>
      rw [cstr, List.takeWhile_cons_of_neg]
      simp [hr c rfl]
  rw [cstr, List.takeWhile_append_of_pos hall, ← cstr, hnil, List.append_nil]

/-- After the NULs are written, every word is a string with its own text. -/
theorem cstr_cut (hall : ∀ v ∈ ws, IsRun (cstr mem) v) (hw : w ∈ ws) :
    cstr ((cut mem ws).drop w.q) = text (cstr mem) w := by
  have hrun := hall w hw
  have hmem : cstr mem ++ mem.dropWhile (· ≠ '\x00') = mem := List.takeWhile_append_dropWhile
  have hle : w.eq ≤ (cstr mem).length := by
    obtain ⟨c, hc, -⟩ := hrun.inside (w.eq - 1) (by have := hrun.lt; omega) (by
      have := hrun.lt
      omega)
    have := (List.getElem?_eq_some_iff.mp hc).1
    omega
  have hlen : (cstr mem).length ≤ mem.length := by
    conv_rhs => rw [← hmem]
    simp
  -- The characters of the word are as before.
  have hsame (j : ℕ) (h₁ : w.q ≤ j) (h₂ : j < w.eq) : (cut mem ws)[j]? = (cstr mem)[j]? := by
    have hnot : ¬ (j ∈ ws.map Word.eq ∧ j < mem.length) := by
      rintro ⟨hj, -⟩
      obtain ⟨v, hv, rfl⟩ := List.mem_map.mp hj
      exact (hall v hv).not_within hrun ⟨h₁, h₂⟩
    rw [getElem?_cut, if_neg hnot]
    conv_lhs => rw [← hmem]
    exact List.getElem?_append_left (by omega)
  have htext : ((cut mem ws).drop w.q).take (w.eq - w.q) = text (cstr mem) w := by
    refine List.ext_getElem? fun j => ?_
    rw [text, List.getElem?_take, List.getElem?_take, List.getElem?_drop, List.getElem?_drop]
    split_ifs with hj
    · exact hsame (w.q + j) (Nat.le_add_right ..) (by omega)
    · rfl
  have hsplit := List.take_append_drop (w.eq - w.q) ((cut mem ws).drop w.q)
  rw [htext, List.drop_drop] at hsplit
  rw [← hsplit]
  refine cstr_append (fun hnul => ?_) fun c hc => ?_
  · have hin : '\x00' ∈ cstr mem := List.mem_of_mem_drop (List.mem_of_mem_take hnul)
    have := List.mem_takeWhile_imp hin
    simp at this
  · rw [List.head?_drop, Nat.add_sub_cancel' hrun.lt.le, getElem?_cut] at hc
    split_ifs at hc with hcut
    · exact (Option.some.inj hc).symm
    · exfalso
      have hlt := (List.getElem?_eq_some_iff.mp hc).1
      exact hcut ⟨List.mem_map_of_mem hw, hlt⟩

/-! ## `parsecmd` -/

/-- Where no token is left, nothing is left behind the white space. -/
theorem skip_rest_eq_nil {cur : Cursor} (h : cur.toks = []) : cur.skip.rest = [] := by
  by_contra hne
  have := toks_eq_cons (fun c hc => skip_head hc) hne
  rw [toks_skip, h] at this
  exact absurd this (by simp)

/-- What `parsecmd` accepts is a line of the grammar, and where it does not, it does so by
`panic`. -/
theorem wp_parseAll (s : List Char) :
    wp (parseAll (4 * s.length + 4)) ⟨0, s⟩ (fun cmd _ => Derives .line (tokens s) cmd)
      fun e => e ≠ .fuel := by
  refine wp_bind.mpr (wp_mono ((wp_parse _).1 ⟨0, s⟩) ?_ ?_)
  · rintro cmd cur ⟨ts, htoks, hd⟩
    simp only [peek, wp_bind, wp_get, wp_set, wp_pure, wp_ite, wp_throw]
    refine ⟨fun _ => by simp, fun hnil => ?_⟩
    have hrest : cur.toks = [] := by
      rw [← toks_skip, Cursor.toks, not_not.mp hnil]
      rfl
    rw [hrest, List.append_nil] at htoks
    change Derives .line (Cursor.toks ⟨0, s⟩) cmd
    rwa [htoks]
  · intro e he hfuel
    have hlt := he hfuel
    have hle : (Cursor.toks ⟨0, s⟩).length ≤ s.length := length_lex_le
    omega

/-- A line of the grammar is accepted with its tree. -/
theorem parseAll_complete {fuel : ℕ} (h : Derives .line (tokens s) cmd) :
    wp (parseAll fuel) ⟨0, s⟩ (fun cmd' _ => cmd' = cmd) (· = .fuel) := by
  have htoks : Cursor.toks ⟨0, s⟩ = tokens s ++ [] := (List.append_nil _).symm
  have hline : wp (parseline fuel) ⟨0, s⟩ (Is cmd []) (· = .fuel) :=
    h.complete (by simp [Starts]) htoks
  refine wp_call hline ?_
  rintro _ cur ⟨rfl, htoks⟩
  simp only [peek, wp_bind, wp_get, wp_set, wp_pure, wp_ite, wp_throw]
  exact ⟨fun hne => absurd (skip_rest_eq_nil htoks) hne, fun _ => trivial⟩

/-- `parsecmd` returns or calls `panic`, for every line. Where it returns, the tree is that of the
grammar for the tokens of the line, it is the only one, and every word of it, which is a word of the
line, is a string with its own text in the memory afterwards. No NUL is written to a character of a
word. It calls `panic` exactly where the tokens are not a line of the grammar. -/
theorem parsecmd_grammar (mem : List Char) :
    (∃ cmd mem', parsecmd mem = .ok (cmd, mem') ∧ Derives .line (tokens (cstr mem)) cmd ∧
      (∀ cmd', Derives .line (tokens (cstr mem)) cmd' → cmd' = cmd) ∧
      ∀ w ∈ cmd.words, Among (tokens (cstr mem)) w ∧
        cstr (mem'.drop w.q) = text (cstr mem) w ∧
        ∀ v, Among (tokens (cstr mem)) v → ¬ (v.q ≤ w.eq ∧ w.eq < v.eq)) ∨
    (∃ msg, parsecmd mem = .error (.panic msg)) ∧
      ¬ ∃ cmd, Derives .line (tokens (cstr mem)) cmd := by
  have hsound := wp_parseAll (cstr mem)
  -- What is derived is what is returned.
  have hcomplete (cmd : Cmd) (h : Derives .line (tokens (cstr mem)) cmd) :
      ∃ cur, parseAll (4 * (cstr mem).length + 4) ⟨0, cstr mem⟩ = .ok (cmd, cur) := by
    obtain ⟨cmd', cur, hok, -, rfl⟩ := wp.exists_ok
      (wp_mono (hsound.and (parseAll_complete h)) (fun _ _ hq => hq) fun e he => he.1 he.2)
    exact ⟨cur, hok⟩
  cases hres : parseAll (4 * (cstr mem).length + 4) ⟨0, cstr mem⟩ with
  | ok r =>
    left
    obtain ⟨cmd, cur⟩ := r
    have hd := hsound.of_ok hres
    refine ⟨cmd, nulterminate cmd mem, by simp only [parsecmd, hres], hd, fun cmd' hd' => ?_,
      fun w hw => ?_⟩
    · obtain ⟨cur', hok⟩ := hcomplete cmd' hd'
      rw [hres] at hok
      exact (Prod.mk.inj (Except.ok.inj hok)).1.symm
    · have hrun : ∀ v ∈ cmd.words, IsRun (cstr mem) v := fun v hv => isRun_of_among (hd.words hv)
      refine ⟨hd.words hw, ?_, fun v hv => (hrun w hw).not_within (isRun_of_among hv)⟩
      rw [nulterminate_eq]
      exact cstr_cut hrun hw
  | error e =>
    right
    constructor
    · cases e with
      | fuel => exact absurd rfl (hsound.of_error hres)
      | panic msg => exact ⟨msg, by simp only [parsecmd, hres]⟩
    · rintro ⟨cmd, hd⟩
      obtain ⟨cur, hok⟩ := hcomplete cmd hd
      rw [hres] at hok
      exact absurd hok (by simp)

/-- The NUL behind the word of `a|b` is written over the symbol. -/
theorem symbol_overwritten :
    ∃ cmd mem', parsecmd ['a', '|', 'b', '\x00'] = .ok (cmd, mem') ∧
      ∃ w ∈ cmd.words, ∃ t ∈ tokens (cstr ['a', '|', 'b', '\x00']),
        t.word ≠ w ∧ t.word.q ≤ w.eq ∧ w.eq < t.word.eq ∧ mem'[w.eq]? ≠ some '|' := by
  refine ⟨.pipe (.exec [⟨0, 1⟩]) (.exec [⟨2, 3⟩]), ['a', '\x00', 'b', '\x00'], by decide +kernel,
    ⟨0, 1⟩, by decide, ⟨'|', ⟨1, 2⟩⟩, by decide +kernel, by decide, by decide, by decide, by decide⟩

end SustainableXv6.Sh
