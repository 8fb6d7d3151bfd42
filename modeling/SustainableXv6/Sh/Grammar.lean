import SustainableXv6.Sh.Tokens

/-!
# The grammar of the shell

`Derives` is the grammar

    line  = pipe {"&"} [";" line]
    pipe  = cmd ["|" pipe]
    cmd   = "(" line ")" {redir}
          | {redir} {word {redir}}
    redir = ("<" | ">" | ">>") word

over tokens, with the tree of each derivation. A command has less than `MAXARGS` words.

What the parser returns is derived from the tokens that it has read (`wp_parseline`, one induction
on the bound of all four functions, which also shows how large the bound has to be). And where the
tokens at the cursor start with a derivation, followed by a token that may stand behind it
(`Follows`), the parser returns the tree of this derivation (`Derives.complete`, an induction on the
derivation).
-/

namespace SustainableXv6.Sh

open Lib

/-! ## Derivations -/

/-- The codes of the tokens that start a redirection. -/
def redirCodes : List Char := ['<', '>', '+']

/-- `{redir}`, around the command. -/
inductive Redirs : Cmd → List Token → Cmd → Prop
  | nil {c : Cmd} : Redirs c [] c
  | cons {c c' : Cmd} {t t' : Token} {ts : List Token} :
      t.code ∈ redirCodes → t'.code = 'a' → Redirs (redirect t.code t'.word c) ts c' →
      Redirs c (t :: t' :: ts) c'

/-- `{word {redir}}`, with the number of words. -/
inductive Args : Cmd → List Token → Cmd → ℕ → Prop
  | nil {c : Cmd} : Args c [] c 0
  | cons {c c₁ c₂ : Cmd} {t : Token} {ts₁ ts₂ : List Token} {n : ℕ} :
      t.code = 'a' → Redirs (c.addArg t.word) ts₁ c₁ → Args c₁ ts₂ c₂ n →
      Args c (t :: (ts₁ ++ ts₂)) c₂ (n + 1)

/-- The parts of the grammar. -/
inductive Part
  | line
  | pipe
  | cmd

/-- The tokens are derived from the part, with the tree. -/
inductive Derives : Part → List Token → Cmd → Prop
  | line {c : Cmd} {ts amps : List Token} :
      Derives .pipe ts c → (∀ t ∈ amps, t.code = '&') →
      Derives .line (ts ++ amps) (Cmd.back^[amps.length] c)
  | list {c c₁ : Cmd} {ts amps ts₁ : List Token} {t : Token} :
      Derives .pipe ts c → (∀ t ∈ amps, t.code = '&') → t.code = ';' → Derives .line ts₁ c₁ →
      Derives .line (ts ++ (amps ++ t :: ts₁)) (.list (Cmd.back^[amps.length] c) c₁)
  | cmd {c : Cmd} {ts : List Token} : Derives .cmd ts c → Derives .pipe ts c
  | pipe {c c₁ : Cmd} {ts ts₁ : List Token} {t : Token} :
      Derives .cmd ts c → t.code = '|' → Derives .pipe ts₁ c₁ →
      Derives .pipe (ts ++ t :: ts₁) (.pipe c c₁)
  | block {c c₁ : Cmd} {ts ts₁ : List Token} {t t' : Token} :
      t.code = '(' → Derives .line ts c → t'.code = ')' → Redirs c ts₁ c₁ →
      Derives .cmd (t :: (ts ++ t' :: ts₁)) c₁
  | exec {c c₁ : Cmd} {ts ts₁ : List Token} {n : ℕ} :
      Redirs (.exec []) ts c → Args c ts₁ c₁ n → n ≤ MAXARGS - 1 → Derives .cmd (ts ++ ts₁) c₁

variable {α : Type} {cur : Cursor} {t t' : Token} {ts ts' ts₁ ts₂ rest : List Token}
  {cmd cmd' c c' c₁ c₂ : Cmd} {fuel n argc : ℕ} {l : List Char} {E : Err → Prop}
  {Q : α → Cursor → Prop}

/-! ## Steps of the parser -/

/-- A branch on `peek` is one on the first token. -/
theorem wp_ifPeek {m m' : Parse α} (hl : l.all symbols.contains = true)
    (hyes : ∀ cur' t ts, cur'.toks = t :: ts → cur.toks = t :: ts → t.first ∈ l → wp m cur' Q E)
    (hno : ∀ cur', cur'.toks = cur.toks → (∀ t ∈ cur.toks.head?, t.first ∉ l) → wp m' cur' Q E) :
    wp (do if ← peek l then m else m') cur Q E := by
  refine wp_call (wp_peek hl) fun b cur' ⟨htoks, hb⟩ => ?_
  cases hcur : cur.toks with
  | nil =>
    rw [hcur] at hb
    obtain rfl : b = false := hb
    exact hno cur' htoks (by simp [hcur])
  | cons t ts =>
    rw [hcur, List.head?_cons, Option.any_some] at hb
    subst hb
    cases hin : l.contains t.first with
    | true => exact hyes cur' t ts (htoks.trans hcur) hcur (List.contains_iff_mem.mp hin)
    | false =>
      refine hno cur' htoks fun t' ht' => ?_
      rw [hcur] at ht'
      obtain rfl : t = t' := Option.some.inj ht'
      rw [← List.contains_iff_mem, hin]
      decide

/-- `gettoken` takes the first token. -/
theorem wp_take {f : Char × Word → Parse α} (htoks : cur.toks = t :: ts)
    (hf : ∀ cur', cur'.toks = ts → wp (f (t.code, t.word)) cur' Q E) :
    wp (gettoken >>= f) cur Q E := by
  refine wp_call wp_gettoken fun r cur' hr => ?_
  rw [htoks] at hr
  rcases hr with ⟨hnil, -⟩ | heq
  · exact absurd hnil (List.cons_ne_nil _ _)
  · obtain ⟨rfl, rfl⟩ := List.cons.inj heq
    exact hf cur' rfl

/-- A first character that is not `>` is the code. -/
theorem Token.code_of_first {a : Char} (ha : a ≠ '>') (h : t.first ∈ [a]) : t.code = a := by
  rw [List.mem_singleton, Token.first] at h
  split_ifs at h
  · exact absurd h.symm ha
  · exact h

/-- The tokens that start a redirection are those that `peek` finds. -/
theorem Token.first_mem_redir : t.first ∈ ['<', '>'] ↔ t.code ∈ redirCodes := by
  unfold Token.first redirCodes
  split_ifs with h
  · simp [h]
  · simp [h]

/-! ## What the parser returns is derived -/

/-- `parseredirs` reads redirections. -/
theorem wp_parseredirs :
    wp (parseredirs fuel cmd) cur
      (fun cmd' cur' => ∃ ts, cur.toks = ts ++ cur'.toks ∧ Redirs cmd ts cmd')
      fun e => e = .fuel → fuel ≤ cur.toks.length := by
  induction fuel generalizing cmd cur with
  | zero => exact fun _ => Nat.zero_le _
  | succ fuel ih =>
    refine wp_ifPeek rfl (fun cur₁ t ts htoks₁ htoks hfirst => ?_) fun cur₁ htoks₁ _ =>
      ⟨[], htoks₁.symm, .nil⟩
    refine wp_take htoks₁ fun cur₂ htoks₂ => ?_
    refine wp_call wp_gettoken fun r cur₃ hr => ?_
    rw [htoks₂] at hr
    refine wp_ite.mpr ⟨fun _ => ?_, fun hword => ?_⟩
    · simp
    · have hcode : r.1 = 'a' := not_not.mp hword
      rcases hr with ⟨-, h0, -⟩ | hr
      · rw [h0] at hcode
        exact absurd hcode (by decide)
      · refine wp_mono ih ?_ ?_
        · rintro cmd' cur' ⟨ts', htoks', hred⟩
          refine ⟨t :: ⟨r.1, r.2⟩ :: ts', ?_, ?_⟩
          · rw [htoks, hr, htoks']
            rfl
          · exact .cons (Token.first_mem_redir.mp hfirst) hcode hred
        · grind

/-- The loop of `parseexec` reads words and redirections. -/
theorem wp_argLoop (hargc : argc ≤ MAXARGS - 1) :
    wp (argLoop fuel argc cmd) cur
      (fun cmd' cur' => ∃ ts n, cur.toks = ts ++ cur'.toks ∧ Args cmd ts cmd' n ∧
        argc + n ≤ MAXARGS - 1)
      fun e => e = .fuel → fuel ≤ cur.toks.length := by
  induction fuel generalizing argc cmd cur with
  | zero => exact fun _ => Nat.zero_le _
  | succ fuel ih =>
    refine wp_ifPeek rfl (fun cur₁ t ts htoks₁ htoks _ => ?_) fun cur₁ htoks₁ _ => ?_
    · exact ⟨[], 0, by rw [htoks, htoks₁]; rfl, .nil, hargc⟩
    refine wp_call wp_gettoken fun r cur₂ hr => ?_
    rw [htoks₁] at hr
    refine wp_ite.mpr ⟨fun h0 => ?_, fun h0 => ?_⟩
    · -- There is no token left.
      have hnil : cur.toks = [] ∧ cur₂.toks = [] := by
        rcases hr with ⟨hnil, -, hnil₂⟩ | hr
        · exact ⟨hnil, hnil₂⟩
        · have hmem : (⟨r.1, r.2⟩ : Token) ∈ cur.toks := by rw [hr]; exact List.mem_cons_self ..
          exact absurd h0 (of_mem_lex hmem).2.ne_nul
      exact ⟨[], 0, by rw [hnil.1, hnil.2]; rfl, .nil, hargc⟩
    replace hr : cur.toks = ⟨r.1, r.2⟩ :: cur₂.toks := hr.resolve_left fun h => h0 h.2.1
    refine wp_ite.mpr ⟨fun _ => by simp, fun hword => ?_⟩
    refine wp_ite.mpr ⟨fun _ => by simp, fun hmany => ?_⟩
    refine wp_bind.mpr (wp_mono wp_parseredirs ?_ ?_)
    · rintro cmd₁ cur₃ ⟨ts₁, htoks₁, hred⟩
      refine wp_mono (ih (by simp only [MAXARGS] at hmany ⊢; omega)) ?_ ?_
      · rintro cmd' cur' ⟨ts₂, n, htoks₂, hargs, hn⟩
        refine ⟨⟨r.1, r.2⟩ :: (ts₁ ++ ts₂), n + 1, ?_, .cons (not_not.mp hword) hred hargs, ?_⟩
        · rw [hr, htoks₁, htoks₂]
          simp
        · omega
      · grind
    · grind

/-- The loop of `parseline` reads `&`. -/
theorem wp_backLoop :
    wp (backLoop fuel cmd) cur
      (fun cmd' cur' => ∃ ts, cur.toks = ts ++ cur'.toks ∧ (∀ t ∈ ts, t.code = '&') ∧
        cmd' = Cmd.back^[ts.length] cmd)
      fun e => e = .fuel → fuel ≤ cur.toks.length := by
  induction fuel generalizing cmd cur with
  | zero => exact fun _ => Nat.zero_le _
  | succ fuel ih =>
    refine wp_ifPeek rfl (fun cur₁ t ts htoks₁ htoks hfirst => ?_) fun cur₁ htoks₁ _ =>
      ⟨[], htoks₁.symm, by simp, rfl⟩
    have hcode := Token.code_of_first (by decide) hfirst
    refine wp_take htoks₁ fun cur₂ htoks₂ => wp_mono ih ?_ ?_
    · rintro cmd' cur' ⟨ts', htoks', hall, rfl⟩
      refine ⟨t :: ts', ?_, List.forall_mem_cons.mpr ⟨hcode, hall⟩, rfl⟩
      rw [htoks, ← htoks₂, htoks']
      rfl
    · grind

/-- What has been read is derived from the part. -/
def Reads (p : Part) (cur : Cursor) (cmd : Cmd) (cur' : Cursor) : Prop :=
  ∃ ts, cur.toks = ts ++ cur'.toks ∧ Derives p ts cmd

/-- The bound is used up only where it is less than four calls for each token. -/
def Short (fuel k : ℕ) (cur : Cursor) (e : Err) : Prop :=
  e = .fuel → fuel < 4 * cur.toks.length + k

/-- `parsepipe`, by what `parseexec` reads. -/
theorem wp_parsepipe_succ
    (hexec : ∀ cur, wp (parseexec fuel) cur (Reads .cmd cur) (Short fuel 2 cur))
    (hpipe : ∀ cur, wp (parsepipe fuel) cur (Reads .pipe cur) (Short fuel 3 cur)) :
    wp (parsepipe (fuel + 1)) cur (Reads .pipe cur) (Short (fuel + 1) 3 cur) := by
  rw [parsepipe]
  refine wp_bind.mpr (wp_mono (hexec cur) ?_ ?_)
  · rintro c cur₁ ⟨ts, htoks, hc⟩
    refine wp_ifPeek rfl (fun cur₂ t ts₁ htoks₂ htoks₁ hfirst => ?_)
      fun cur₂ htoks₂ _ => ⟨ts, by rw [htoks, htoks₂], .cmd hc⟩
    have hcode := Token.code_of_first (by decide) hfirst
    refine wp_take htoks₂ fun cur₃ htoks₃ => wp_bind.mpr (wp_mono (hpipe cur₃) ?_ ?_)
    · rintro c₁ cur' ⟨ts', htoks', hc₁⟩
      refine ⟨ts ++ t :: ts', ?_, .pipe hc hcode hc₁⟩
      rw [htoks, htoks₁, ← htoks₃, htoks']
      simp
    · grind [Short]
  · grind [Short]

/-- `parseline`, by what `parsepipe` reads. -/
theorem wp_parseline_succ
    (hpipe : ∀ cur, wp (parsepipe fuel) cur (Reads .pipe cur) (Short fuel 3 cur))
    (hline : ∀ cur, wp (parseline fuel) cur (Reads .line cur) (Short fuel 4 cur)) :
    wp (parseline (fuel + 1)) cur (Reads .line cur) (Short (fuel + 1) 4 cur) := by
  rw [parseline]
  refine wp_bind.mpr (wp_mono (hpipe cur) ?_ ?_)
  · rintro c cur₁ ⟨ts, htoks, hc⟩
    refine wp_bind.mpr (wp_mono wp_backLoop ?_ ?_)
    · rintro _ cur₂ ⟨amps, htoks₁, hamps, rfl⟩
      refine wp_ifPeek rfl (fun cur₃ t ts₁ htoks₃ htoks₂ hfirst => ?_)
        fun cur₃ htoks₃ _ => ⟨ts ++ amps, ?_, .line hc hamps⟩
      · have hcode := Token.code_of_first (by decide) hfirst
        refine wp_take htoks₃ fun cur₄ htoks₄ => wp_bind.mpr (wp_mono (hline cur₄) ?_ ?_)
        · rintro c₁ cur' ⟨ts', htoks', hc₁⟩
          refine ⟨ts ++ (amps ++ t :: ts'), ?_, .list hc hamps hcode hc₁⟩
          rw [htoks, htoks₁, htoks₂, ← htoks₄, htoks']
          simp
        · grind [Short]
      · rw [htoks, htoks₁, htoks₃, List.append_assoc]
    · grind [Short]
  · grind [Short]

/-- `parseexec`, by what `parseblock` reads. -/
theorem wp_parseexec_succ
    (hblock : ∀ cur, wp (parseblock fuel) cur (Reads .cmd cur) (Short fuel 1 cur)) :
    wp (parseexec (fuel + 1)) cur (Reads .cmd cur) (Short (fuel + 1) 2 cur) := by
  rw [parseexec]
  refine wp_ifPeek rfl (fun cur₁ t ts htoks₁ htoks _ => ?_) fun cur₁ htoks₁ _ => ?_
  · refine wp_mono (hblock cur₁) ?_ ?_
    · rintro c cur' ⟨ts', htoks', hc⟩
      exact ⟨ts', by rw [htoks, ← htoks₁, htoks'], hc⟩
    · grind [Short]
  · refine wp_bind.mpr (wp_mono wp_parseredirs ?_ ?_)
    · rintro c cur₂ ⟨ts, htoks₂, hred⟩
      refine wp_mono (wp_argLoop (Nat.zero_le _)) ?_ ?_
      · rintro c₁ cur' ⟨ts', n, htoks', hargs, hn⟩
        refine ⟨ts ++ ts', ?_, .exec hred hargs (by omega)⟩
        rw [← htoks₁, htoks₂, htoks', List.append_assoc]
      · grind [Short]
    · grind [Short]

/-- `parseblock`, by what `parseline` reads. -/
theorem wp_parseblock_succ
    (hline : ∀ cur, wp (parseline fuel) cur (Reads .line cur) (Short fuel 4 cur)) :
    wp (parseblock (fuel + 1)) cur (Reads .cmd cur) (Short (fuel + 1) 1 cur) := by
  rw [parseblock]
  refine wp_ifPeek rfl (fun cur₁ t ts htoks₁ htoks hfirst => ?_)
    fun _ _ _ => by simp [Short]
  have hcode := Token.code_of_first (by decide) hfirst
  refine wp_take htoks₁ fun cur₂ htoks₂ => wp_bind.mpr (wp_mono (hline cur₂) ?_ ?_)
  · rintro c cur₃ ⟨ts', htoks', hc⟩
    refine wp_ifPeek rfl (fun cur₄ t' ts₁ htoks₄ htoks₃ hfirst' => ?_)
      fun _ _ _ => by simp [Short]
    have hcode' := Token.code_of_first (by decide) hfirst'
    refine wp_take htoks₄ fun cur₅ htoks₅ => wp_mono wp_parseredirs ?_ ?_
    · rintro c₁ cur' ⟨ts₂, htoks₆, hred⟩
      refine ⟨t :: (ts' ++ t' :: ts₂), ?_, .block hcode hc hcode' hred⟩
      rw [htoks, ← htoks₂, htoks', htoks₃, ← htoks₅, htoks₆]
      simp
    · grind [Short]
  · grind [Short]

/-- What each function of the parser returns is derived from the tokens that it has read, and its
bound is not used up where it is large enough. -/
theorem wp_parse (fuel : ℕ) :
    (∀ cur, wp (parseline fuel) cur (Reads .line cur) (Short fuel 4 cur)) ∧
    (∀ cur, wp (parsepipe fuel) cur (Reads .pipe cur) (Short fuel 3 cur)) ∧
    (∀ cur, wp (parseexec fuel) cur (Reads .cmd cur) (Short fuel 2 cur)) ∧
    ∀ cur, wp (parseblock fuel) cur (Reads .cmd cur) (Short fuel 1 cur) := by
  induction fuel with
  | zero =>
    have hshort (k : ℕ) (cur : Cursor) : Short 0 (k + 1) cur .fuel := fun _ => Nat.succ_pos _
    exact ⟨fun cur => hshort 3 cur, fun cur => hshort 2 cur, fun cur => hshort 1 cur,
      fun cur => hshort 0 cur⟩
  | succ fuel ih =>
    obtain ⟨hline, hpipe, hexec, hblock⟩ := ih
    exact ⟨fun _ => wp_parseline_succ hpipe hline, fun _ => wp_parsepipe_succ hexec hpipe,
      fun _ => wp_parseexec_succ hblock, fun _ => wp_parseblock_succ hline⟩

/-! ## What is derived is returned -/

/-- The first of the tokens has one of the codes. -/
def Starts (l : List Char) (ts : List Token) : Prop := ∀ t ∈ ts.head?, t.code ∈ l

theorem Starts.append (h : Starts l ts) (h' : Starts l ts') : Starts l (ts ++ ts') := by
  cases ts with
  | nil => exact h'
  | cons t ts => exact h

theorem starts_cons (h : t.code ∈ l) : Starts l (t :: ts) := by
  rintro t' ht'
  obtain rfl : t = t' := Option.some.inj ht'
  exact h

theorem Starts.mono {l' : List Char} (h : Starts l ts) (hl : l ⊆ l') : Starts l' ts :=
  fun t ht => hl (h t ht)

/-- `peek` does not find the first token among others. -/
theorem Starts.first_not_mem {l' : List Char} (h : Starts l ts)
    (hl : ∀ a ∈ l, (if a = '+' then '>' else a) ∉ l') : ∀ t ∈ ts.head?, t.first ∉ l' :=
  fun t ht => hl t.code (h t ht)

/-- The codes that may follow a part. -/
def follow : Part → List Char
  | .line => [')']
  | .pipe => [')', '&', ';']
  | .cmd => [')', '&', ';', '|']

theorem Redirs.starts (h : Redirs c ts c') : Starts redirCodes ts := by
  cases h with
  | nil => simp [Starts]
  | cons ht _ _ => exact starts_cons ht

theorem Args.starts (h : Args c ts c' n) : Starts ['a'] ts := by
  cases h with
  | nil => simp [Starts]
  | cons ht _ _ => exact starts_cons (by rw [ht]; exact List.mem_singleton_self _)

/-- A test of `peek` that fails. -/
theorem wp_peekNot {m m' : Parse α} {l' : List Char} (hl : l.all symbols.contains = true)
    (hs : Starts l' cur.toks) (hdis : ∀ a ∈ l', (if a = '+' then '>' else a) ∉ l)
    (hno : ∀ cur', cur'.toks = cur.toks → wp m' cur' Q E) :
    wp (do if ← peek l then m else m') cur Q E := by
  refine wp_ifPeek hl (fun cur' t ts _ htoks hfirst => ?_) fun cur' htoks _ => hno cur' htoks
  exact absurd hfirst (hs.first_not_mem hdis t (by rw [htoks]; rfl))

/-- A test of `peek` that succeeds. -/
theorem wp_peekYes {m m' : Parse α} (hl : l.all symbols.contains = true)
    (htoks : cur.toks = t :: ts) (hfirst : t.first ∈ l)
    (hyes : ∀ cur', cur'.toks = t :: ts → wp m cur' Q E) :
    wp (do if ← peek l then m else m') cur Q E := by
  refine wp_ifPeek hl (fun cur' t' ts' htoks' htoks'' _ => ?_) fun cur' _ hno => ?_
  · rw [htoks] at htoks''
    exact hyes cur' (htoks'.trans htoks''.symm)
  · exact absurd hfirst (hno t (by rw [htoks]; rfl))

/-- The tree and the tokens that are left are those of the derivation. -/
def Is (cmd : Cmd) (rest : List Token) (cmd' : Cmd) (cur : Cursor) : Prop :=
  cmd' = cmd ∧ cur.toks = rest

/-- The call of a function that returns a known tree, in front of a program. -/
theorem wp_then {m : Parse Cmd} {f : Cmd → Parse α} (h : wp m cur (Is c rest) E)
    (hf : ∀ cur', cur'.toks = rest → wp (f c) cur' Q E) : wp (m >>= f) cur Q E := by
  refine wp_call h ?_
  rintro _ cur' ⟨rfl, htoks⟩
  exact hf cur' htoks

/-- Redirections are read where no other follows. -/
theorem Redirs.complete (h : Redirs c ts c') {l : List Char} (hrest : Starts l rest)
    (hl : ∀ a ∈ l, a ∉ redirCodes) :
    ∀ {fuel cur}, cur.toks = ts ++ rest →
      wp (parseredirs fuel c) cur (Is c' rest) (· = .fuel) := by
  have hdis : ∀ a ∈ l, (if a = '+' then '>' else a) ∉ ['<', '>'] := by
    intro a ha
    have := hl a ha
    simp only [redirCodes, List.mem_cons, List.not_mem_nil, or_false, not_or] at this
    simp [this.1, this.2.1, this.2.2]
  induction h with
  | nil =>
    intro fuel cur htoks
    obtain _ | fuel := fuel
    · exact rfl
    rw [List.nil_append] at htoks
    exact wp_peekNot rfl (htoks ▸ hrest) hdis
      fun cur' h' => ⟨rfl, h'.trans htoks⟩
  | cons ht ht' _ ih =>
    intro fuel cur htoks
    obtain _ | fuel := fuel
    · exact rfl
    refine wp_peekYes rfl htoks (Token.first_mem_redir.mpr ht) fun cur₁ htoks₁ => ?_
    refine wp_take htoks₁ fun cur₂ htoks₂ => wp_take htoks₂ fun cur₃ htoks₃ => ?_
    refine wp_ite.mpr ⟨fun hne => absurd ht' hne, fun _ => ih htoks₃⟩

/-- Words and redirections are read where a token follows that may follow a command. -/
theorem Args.complete (h : Args c ts c' n) (hrest : Starts (follow .cmd) rest) :
    ∀ {fuel argc cur}, argc + n ≤ MAXARGS - 1 → cur.toks = ts ++ rest →
      wp (argLoop fuel argc c) cur (Is c' rest) (· = .fuel) := by
  induction h with
  | nil =>
    intro fuel argc cur hn htoks
    obtain _ | fuel := fuel
    · exact rfl
    rw [List.nil_append] at htoks
    refine wp_ifPeek rfl (fun cur₁ t ts htoks₁ htoks' _ => ⟨rfl, ?_⟩)
      fun cur₁ htoks₁ hno => ?_
    · rw [htoks₁, ← htoks', htoks]
    · -- The only way to go on is the end of the line.
      have hnil : cur.toks = [] := by
        cases hcur : cur.toks with
        | nil => rfl
        | cons t ts =>
          have hmem : t ∈ cur.toks.head? := by rw [hcur]; rfl
          have hcode := hrest t (htoks ▸ hmem)
          refine absurd ?_ (hno t hmem)
          simp only [follow, List.mem_cons, List.not_mem_nil, or_false] at hcode
          rcases hcode with hcode | hcode | hcode | hcode <;> simp [Token.first, hcode]
      refine wp_call wp_gettoken fun r cur₂ hr => ?_
      rw [htoks₁, hnil] at hr
      obtain ⟨-, h0, hnil₂⟩ := hr.resolve_right (by simp)
      refine wp_ite.mpr ⟨fun _ => ⟨rfl, ?_⟩, fun hne => absurd h0 hne⟩
      rw [hnil₂, ← htoks, hnil]
  | cons ht hred hargs ih =>
    intro fuel argc cur hn htoks
    obtain _ | fuel := fuel
    · exact rfl
    rename_i c c₁ c₂ t ts₁ ts₂ n
    have hs : Starts ['a'] cur.toks := by
      rw [htoks]
      exact starts_cons (by rw [ht]; exact List.mem_singleton_self _)
    refine wp_peekNot rfl hs (by simp) fun cur₁ htoks₁ => ?_
    rw [htoks, List.cons_append, List.append_assoc] at htoks₁
    refine wp_take htoks₁ fun cur₂ htoks₂ => ?_
    refine wp_ite.mpr ⟨fun h0 => ?_, fun _ => ?_⟩
    · exact absurd (ht.symm.trans h0) (by decide)
    refine wp_ite.mpr ⟨fun hne => absurd ht hne, fun _ => ?_⟩
    refine wp_ite.mpr ⟨fun hmany => ?_, fun _ => ?_⟩
    · simp only [MAXARGS] at hmany hn
      omega
    have hnext : Starts ('a' :: follow .cmd) (ts₂ ++ rest) :=
      (hargs.starts.mono (by simp)).append (hrest.mono (by simp))
    refine wp_then (hred.complete hnext (by simp [follow, redirCodes]) htoks₂) fun cur₃ htoks₃ => ?_
    exact ih (by omega) htoks₃

/-- `&` is read where something else follows. -/
theorem backLoop_complete (hall : ∀ t ∈ ts, t.code = '&') (hrest : Starts [')', ';'] rest) :
    ∀ {fuel c cur}, cur.toks = ts ++ rest →
      wp (backLoop fuel c) cur (Is (Cmd.back^[ts.length] c) rest) (· = .fuel) := by
  induction ts with
  | nil =>
    intro fuel c cur htoks
    obtain _ | fuel := fuel
    · exact rfl
    rw [List.nil_append] at htoks
    exact wp_peekNot rfl (htoks ▸ hrest) (by simp)
      fun cur' h' => ⟨rfl, h'.trans htoks⟩
  | cons t ts ih =>
    intro fuel c cur htoks
    obtain ⟨ht, hall⟩ := List.forall_mem_cons.mp hall
    obtain _ | fuel := fuel
    · exact rfl
    refine wp_peekYes rfl htoks (by simp [Token.first, ht]) fun cur₁ htoks₁ => ?_
    exact wp_take htoks₁ fun cur₂ htoks₂ => ih hall htoks₂

/-- The function for a part. -/
def parse : Part → ℕ → Parse Cmd
  | .line => parseline
  | .pipe => parsepipe
  | .cmd => parseexec

/-- Where the tokens start with a derivation, and with a token behind it that may follow, the parser
returns its tree. -/
theorem Derives.complete {p : Part} (h : Derives p ts c) :
    ∀ {rest fuel cur}, Starts (follow p) rest → cur.toks = ts ++ rest →
      wp (parse p fuel) cur (Is c rest) (· = .fuel) := by
  induction h with
  | @line c ts amps hpipe hamps ih =>
    intro rest fuel cur hrest htoks
    obtain _ | fuel := fuel
    · exact rfl
    have hnext : Starts (follow .pipe) (amps ++ rest) :=
      Starts.append (fun t ht => by simp [follow, hamps t (List.mem_of_mem_head? ht)])
        (hrest.mono (by simp [follow]))
    rw [List.append_assoc] at htoks
    rw [parse, parseline]
    refine wp_then (ih hnext htoks) fun cur₁ htoks₁ => ?_
    refine wp_then (backLoop_complete hamps (hrest.mono (by simp [follow])) htoks₁)
      fun cur₂ htoks₂ => ?_
    exact wp_peekNot rfl (htoks₂ ▸ hrest) (by simp [follow])
      fun cur' h' => ⟨rfl, h'.trans htoks₂⟩
  | @list c c₁ ts amps ts₁ t hpipe hamps ht hline ih ih₁ =>
    intro rest fuel cur hrest htoks
    obtain _ | fuel := fuel
    · exact rfl
    have hsemi : Starts [')', ';'] (t :: (ts₁ ++ rest)) := starts_cons (by simp [ht])
    have hnext : Starts (follow .pipe) (amps ++ t :: (ts₁ ++ rest)) :=
      Starts.append (fun t ht => by simp [follow, hamps t (List.mem_of_mem_head? ht)])
        (hsemi.mono (by simp [follow]))
    rw [List.append_assoc, List.append_assoc, List.cons_append] at htoks
    rw [parse, parseline]
    refine wp_then (ih hnext htoks) fun cur₁ htoks₁ => ?_
    refine wp_then (backLoop_complete hamps hsemi htoks₁) fun cur₂ htoks₂ => ?_
    refine wp_peekYes rfl htoks₂ (by simp [Token.first, ht]) fun cur₃ htoks₃ => ?_
    refine wp_take htoks₃ fun cur₄ htoks₄ => wp_then (ih₁ hrest htoks₄) fun cur' htoks' => ?_
    exact ⟨rfl, htoks'⟩
  | @cmd c ts hcmd ih =>
    intro rest fuel cur hrest htoks
    obtain _ | fuel := fuel
    · exact rfl
    rw [parse, parsepipe]
    refine wp_then (ih (hrest.mono (by simp [follow])) htoks) fun cur₁ htoks₁ => ?_
    exact wp_peekNot rfl (htoks₁ ▸ hrest) (by simp [follow])
      fun cur' h' => ⟨rfl, h'.trans htoks₁⟩
  | @pipe c c₁ ts ts₁ t hcmd ht hpipe ih ih₁ =>
    intro rest fuel cur hrest htoks
    obtain _ | fuel := fuel
    · exact rfl
    have hnext : Starts (follow .cmd) (t :: (ts₁ ++ rest)) := starts_cons (by simp [follow, ht])
    rw [List.append_assoc, List.cons_append] at htoks
    rw [parse, parsepipe]
    refine wp_then (ih hnext htoks) fun cur₁ htoks₁ => ?_
    refine wp_peekYes rfl htoks₁ (by simp [Token.first, ht]) fun cur₂ htoks₂ => ?_
    refine wp_take htoks₂ fun cur₃ htoks₃ => wp_then (ih₁ hrest htoks₃) fun cur' htoks' => ?_
    exact ⟨rfl, htoks'⟩
  | @block c c₁ ts ts₁ t t' ht hline ht' hred ih =>
    intro rest fuel cur hrest htoks
    obtain _ | fuel := fuel
    · exact rfl
    have hfirst : t.first ∈ ['('] := by simp [Token.first, ht]
    rw [List.cons_append, List.append_assoc, List.cons_append] at htoks
    rw [parse, parseexec]
    refine wp_peekYes rfl htoks hfirst fun cur₁ htoks₁ => ?_
    obtain _ | fuel := fuel
    · exact rfl
    have hclose : Starts (follow .line) (t' :: (ts₁ ++ rest)) :=
      starts_cons (by simp [follow, ht'])
    rw [parseblock]
    refine wp_peekYes rfl htoks₁ hfirst fun cur₂ htoks₂ => ?_
    refine wp_take htoks₂ fun cur₃ htoks₃ => ?_
    refine wp_then (ih hclose htoks₃) fun cur₄ htoks₄ => ?_
    refine wp_peekYes rfl htoks₄ (by simp [Token.first, ht'])
      fun cur₅ htoks₅ => ?_
    exact wp_take htoks₅ fun cur₆ htoks₆ =>
      hred.complete hrest (by simp [follow, redirCodes]) htoks₆
  | @exec c c₁ ts ts₁ n hred hargs hn =>
    intro rest fuel cur hrest htoks
    obtain _ | fuel := fuel
    · exact rfl
    have hnext : Starts ('a' :: follow .cmd) (ts₁ ++ rest) :=
      (hargs.starts.mono (by simp)).append (hrest.mono (by simp))
    have hall : Starts (redirCodes ++ 'a' :: follow .cmd) cur.toks := by
      rw [htoks, List.append_assoc]
      exact (hred.starts.mono (by simp)).append (hnext.mono (by simp))
    rw [parse, parseexec]
    refine wp_peekNot rfl hall (by simp [follow, redirCodes]) fun cur₁ htoks₁ => ?_
    rw [htoks, List.append_assoc] at htoks₁
    refine wp_then (hred.complete hnext (by simp [follow, redirCodes]) htoks₁) fun cur₂ htoks₂ => ?_
    exact hargs.complete hrest (by omega) htoks₂

end SustainableXv6.Sh
