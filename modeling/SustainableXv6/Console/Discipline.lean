import SustainableXv6.Console.Machine

/-!
# The line discipline of the console

`Tracks s q line` says that the buffer has the characters `q`, which have been committed and not
read, and then the line `line`, which is being edited. Each thing that the code does to the three
indices is one lemma about it, and from these `consoleintr` is a key of the editor (`Tracks.intr`),
and a section of `consoleread` takes characters from the front of `q` (`Tracks.readLoop`). The
invariant of a run is `Inv`, and `console_discipline` is what the reads get.
-/

namespace SustainableXv6.Console

open Function Lib

/-! ## The buffer -/

/-- The buffer has the characters `q`, and then the line `line`. -/
structure Tracks (s : Cons) (q line : List UInt8) : Prop where
  ring : s.ring.Holds (q ++ line)
  w : s.w = s.r + BitVec.ofNat 32 q.length

theorem toNat_sub_eq_zero_iff {x y : BitVec 32} : (x - y).toNat = 0 ↔ x = y := by
  bv_omega

section Indices

variable {s : Cons} {q line : List UInt8} (h : Tracks s q line)
include h

theorem Tracks.length_le : q.length + line.length ≤ INPUT_BUF_SIZE := by
  have := h.ring.le
  rwa [List.length_append] at this

/-- The characters up to the edit index. -/
theorem Tracks.e_sub_r : (s.e - s.r).toNat = q.length + line.length := by
  have := h.ring.length_eq INPUT_BUF_SIZE_lt
  rwa [List.length_append] at this

/-- The characters that have been committed. -/
theorem Tracks.w_sub_r : (s.w - s.r).toNat = q.length := by
  have hle := h.length_le
  have hlt := INPUT_BUF_SIZE_lt
  rw [h.w, BitVec.add_comm, BitVec.add_sub_cancel, BitVec.toNat_ofNat, Nat.mod_eq_of_lt (by omega)]

/-- The characters of the line. -/
theorem Tracks.e_sub_w : (s.e - s.w).toNat = line.length := by
  have hle := h.length_le
  have hlt := INPUT_BUF_SIZE_lt
  have hcount : s.e = s.w + BitVec.ofNat 32 line.length := by
    have := h.ring.count
    rw [List.length_append, BitVec.ofNat_add, ← BitVec.add_assoc] at this
    rw [h.w]
    exact this
  rw [hcount, BitVec.add_comm, BitVec.add_sub_cancel, BitVec.toNat_ofNat,
    Nat.mod_eq_of_lt (by omega)]

/-- The test `cons.e != cons.w`. -/
theorem Tracks.e_eq_w_iff : s.e = s.w ↔ line = [] := by
  rw [← List.length_eq_zero_iff, ← h.e_sub_w, toNat_sub_eq_zero_iff]

/-- The test `cons.r == cons.w`. -/
theorem Tracks.r_eq_w_iff : s.r = s.w ↔ q = [] := by
  rw [← List.length_eq_zero_iff, ← h.w_sub_r, toNat_sub_eq_zero_iff, eq_comm]

end Indices

/-- `cons.e--`. -/
theorem Tracks.erase {s : Cons} {q line : List UInt8} {c : UInt8} (h : Tracks s q (line ++ [c])) :
    s.cell (s.e - 1) = c ∧ Tracks { s with e := s.e - 1 } q line := by
  obtain ⟨hring, hw⟩ := h
  rw [← List.append_assoc] at hring
  obtain ⟨hc, hring⟩ := hring.unpush
  exact ⟨hc, hring, hw⟩

/-- `cons.buf[cons.r++ % INPUT_BUF_SIZE]`. -/
theorem Tracks.take {s : Cons} {q line : List UInt8} {c : UInt8} (h : Tracks s (c :: q) line) :
    s.cell s.r = c ∧ Tracks { s with r := s.r + 1 } q line := by
  obtain ⟨hring, hw⟩ := h
  obtain ⟨hc, hring⟩ := hring.pop
  refine ⟨hc, hring, ?_⟩
  rw [hw, List.length_cons, Ring.add_one_add]

/-- `cons.buf[cons.e++ % INPUT_BUF_SIZE] = c`. -/
theorem Tracks.store {s : Cons} {q line : List UInt8} (h : Tracks s q line)
    (hlt : q.length + line.length < INPUT_BUF_SIZE) (c : UInt8) :
    Tracks { s with
      buf := update s.buf (Ring.slot INPUT_BUF_SIZE s.e) c
      e := s.e + 1 } q (line ++ [c]) := by
  refine ⟨?_, h.w⟩
  rw [← List.append_assoc]
  exact h.ring.push INPUT_BUF_SIZE_dvd (by rwa [List.length_append]) c

/-- `cons.w = cons.e`. -/
theorem Tracks.commit {s : Cons} {q line : List UInt8} (h : Tracks s q line) :
    Tracks { s with w := s.e } (q ++ line) [] := by
  refine ⟨?_, h.ring.count⟩
  rw [List.append_nil]
  exact h.ring

/-! ## `consoleintr` -/

/-- The line is killed to its start, as it has no newline. -/
theorem Tracks.killLoop {q : List UInt8} (line : List UInt8) :
    ∀ {s : Cons}, Tracks s q line → NL ∉ line → Tracks (killLoop line.length s) q [] := by
  induction line using List.reverseRecOn with
  | nil =>
    intro s h _
    exact h
  | append_singleton line c ih =>
    intro s h hnl
    have he : s.e ≠ s.w := fun he => by simpa using h.e_eq_w_iff.mp he
    obtain ⟨hc, h⟩ := h.erase
    simp only [List.mem_append, List.mem_singleton, not_or] at hnl
    rw [List.length_append, List.length_singleton, Console.killLoop,
      if_pos ⟨he, by rw [hc]; exact fun hcn => hnl.2 hcn.symm⟩]
    exact ih h hnl.1

/-- `consoleintr` is a key of the editor. The line never gets a newline, since the newline commits
it. -/
theorem Tracks.intr {s : Cons} {q : List UInt8} {ed : Editor} (h : Tracks s q ed.line)
    (hnl : NL ∉ ed.line) (c : UInt8) :
    ∃ new, (ed.key q.length c).committed = ed.committed ++ new ∧
      Tracks (consoleintr c s) (q ++ new) (ed.key q.length c).line ∧
      NL ∉ (ed.key q.length c).line := by
  have hsame : ∃ new, ed.committed = ed.committed ++ new ∧ Tracks s (q ++ new) ed.line ∧
      NL ∉ ed.line := ⟨[], by simp, by simpa using h, hnl⟩
  unfold consoleintr Editor.key
  by_cases hP : c = C 'P'
  · rw [if_pos hP, if_pos (.inl hP)]
    exact hsame
  rw [if_neg hP]
  by_cases h0 : c = 0
  · -- A NUL is no other key, and is not stored.
    subst h0
    rw [if_pos (.inr rfl), if_neg (by decide), if_neg (by decide), if_neg (by simp)]
    exact hsame
  rw [if_neg (by simp [hP, h0])]
  by_cases hU : c = C 'U'
  · rw [if_pos hU, if_pos hU, h.e_sub_w]
    exact ⟨[], by simp, by simpa using h.killLoop ed.line hnl, by simp⟩
  rw [if_neg hU, if_neg hU]
  by_cases hH : c = C 'H' ∨ c = DEL
  · rw [if_pos hH, if_pos hH]
    rcases List.eq_nil_or_concat' ed.line with hline | ⟨line, x, hline⟩
    · rw [if_neg (by simpa using h.e_eq_w_iff.mpr hline)]
      refine ⟨[], by simp, ?_, by simp [hline]⟩
      simpa [hline] using h
    · rw [hline] at h hnl
      rw [if_pos fun he => by simpa using h.e_eq_w_iff.mp he]
      refine ⟨[], by simp, ?_, ?_⟩
      · simpa [hline] using h.erase.2
      · rw [hline, List.dropLast_concat]
        exact fun hmem => hnl (List.mem_append_left _ hmem)
  rw [if_neg hH, if_neg hH, h.e_sub_r]
  by_cases hlt : q.length + ed.line.length < INPUT_BUF_SIZE
  · have hroom : c ≠ 0 ∧ q.length + ed.line.length < INPUT_BUF_SIZE := ⟨h0, hlt⟩
    rw [if_pos hlt, if_pos hroom]
    generalize (if c = CR then NL else c) = c'
    have hstore := h.store hlt c'
    dsimp only
    rw [hstore.e_sub_r]
    split_ifs with hcommit
    · exact ⟨ed.line ++ [c'], rfl, hstore.commit, by simp⟩
    · refine ⟨[], by simp, by simpa using hstore, ?_⟩
      simp only [List.mem_append, List.mem_singleton, not_or]
      exact ⟨hnl, fun he => hcommit (.inl he.symm)⟩
  · rw [if_neg hlt, if_neg fun hc => hlt hc.2]
    exact hsame

/-! ## `consoleread` -/

/-- What a section of `consoleread` does that has `n` of `target` bytes to read. -/
structure Section.Ok (t : Section) (killed : Bool) (target n : ℕ) : Prop where
  length : t.n + t.bytes.length = n
  noEof : C 'D' ∉ t.bytes
  oneLine : NL ∉ t.bytes.dropLast
  sleeps : t.leaves = .sleeps → NL ∉ t.bytes ∧ 0 < t.n
  killed : t.leaves = .killed → killed = true
  eof : t.eof = true → t.leaves = .returns ∧ t.bytes = [] ∧ n = target ∧ 0 < n
  zero : t.leaves = .returns → t.n = target → 0 < n → t.eof = true

/-- A section takes characters from the front of the buffer. -/
theorem Tracks.readLoop (killed : Bool) {copy : ℕ → Bool} {target : ℕ} {line : List UInt8} :
    ∀ {n : ℕ} {s : Cons} {q : List UInt8}, Tracks s q line → n ≤ target →
      (∀ i < n, copy i = true) →
      (readLoop killed copy target n s).Ok killed target n ∧
        ∃ q', q = (readLoop killed copy target n s).bytes ++
            (if (readLoop killed copy target n s).eof then [C 'D'] else []) ++ q' ∧
          Tracks (readLoop killed copy target n s).cons q' line
  | 0, s, q, h, hn, hcopy => by
    refine ⟨⟨rfl, ?_, ?_, ?_, ?_, ?_, ?_⟩, q, rfl, h⟩ <;> simp [Console.readLoop]
  | n + 1, s, q, h, hn, hcopy => by
    unfold Console.readLoop
    by_cases hrw : s.r = s.w
    · -- There is nothing to read.
      obtain rfl := h.r_eq_w_iff.mp hrw
      rw [if_pos hrw]
      refine ⟨⟨rfl, ?_, ?_, ?_, ?_, ?_, ?_⟩, [], rfl, h⟩ <;> cases killed <;> simp
    rw [if_neg hrw]
    cases q with
    | nil => exact absurd (h.r_eq_w_iff.mpr rfl) hrw
    | cons c q =>
      obtain ⟨hc, htake⟩ := h.take
      simp only [hc]
      by_cases hD : c = C 'D'
      · rw [if_pos hD]
        subst hD
        by_cases hlt : n + 1 < target
        · -- The `^D` stays.
          rw [if_pos hlt]
          have hback : { s with r := s.r + 1 - 1 } = s := by
            rw [BitVec.add_sub_cancel]
          refine ⟨⟨rfl, ?_, ?_, ?_, ?_, ?_, ?_⟩, C 'D' :: q, rfl, by rw [hback]; exact h⟩ <;>
            simp
          omega
        · rw [if_neg hlt]
          refine ⟨⟨rfl, ?_, ?_, ?_, ?_, ?_, ?_⟩, q, rfl, htake⟩ <;> simp
          omega
      rw [if_neg hD, if_pos (hcopy n (by omega))]
      by_cases hnl : c = NL
      · rw [if_pos hnl]
        refine ⟨⟨by simp, ?_, ?_, ?_, ?_, ?_, ?_⟩, q, rfl, htake⟩ <;> simp
        · exact fun he => hD he.symm
        · omega
      · rw [if_neg hnl]
        obtain ⟨hok, q', hq, htracks⟩ := Tracks.readLoop killed htake (by omega : n ≤ target)
          fun i hi => hcopy i (by omega)
        -- As a byte has been read before, the rest does not take a `^D`.
        have heof : (Console.readLoop killed copy target n { s with r := s.r + 1 }).eof ≠ true :=
          fun he => by have := (hok.eof he).2.2; omega
        have hlength := hok.length
        refine ⟨⟨?_, ?_, ?_, fun hs => ?_, hok.killed, fun he => absurd he heof, fun _ ht => ?_⟩,
          q', by simp [hq], htracks⟩
        · change (Console.readLoop killed copy target n _).n + (_ :: _).length = n + 1
          rw [List.length_cons]
          omega
        · exact List.not_mem_cons_of_ne_of_not_mem (fun he => hD he.symm) hok.noEof
        · cases hb : (Console.readLoop killed copy target n { s with r := s.r + 1 }).bytes with
          | nil => simp
          | cons x l =>
            have hline := hok.oneLine
            rw [hb] at hline
            rw [List.dropLast_cons_cons]
            exact List.not_mem_cons_of_ne_of_not_mem (fun he => hnl he.symm) hline
        · obtain ⟨hmem, hpos⟩ := hok.sleeps hs
          exact ⟨List.not_mem_cons_of_ne_of_not_mem (fun he => hnl he.symm) hmem, hpos⟩
        · dsimp only at ht
          omega

/-! ## Runs -/

variable {P : Type} [DecidableEq P]

/-- The bytes that the process `p` has got, of the characters taken out of the buffer. -/
def bytesOf (p : P) (events : List (Event P)) : List UInt8 :=
  events.filterMap fun
    | .byte q c => if q = p then some c else none
    | .eof _ => none

/-- The bytes of the calls of the process `p` that have returned. -/
def returnedTo (p : P) (returns : List (Return P)) : List UInt8 :=
  returns.flatMap fun r => if r.proc = p then r.bytes else []

/-- The bytes of the call in which the process `p` sleeps. -/
def State.inProgress (s : State P) (p : P) : List UInt8 := ((s.reader p).map Call.bytes).getD []

/-- A read of at least one byte that got none. -/
def Return.isEof (p : P) (r : Return P) : Bool :=
  decide (r.proc = p) && decide (0 < r.arg) && decide (r.value = 0)

/-- What a call has returned. -/
structure Return.Ok (r : Return P) : Prop where
  value : r.value = r.bytes.length ∨ r.value = -1 ∧ r.killed = true
  length : r.bytes.length ≤ r.arg.toNat
  noEof : C 'D' ∉ r.bytes
  oneLine : NL ∉ r.bytes.dropLast

/-- A call that sleeps, or one that begins. -/
structure Call.Ok (c : Call) : Prop where
  target : c.target = c.arg.toNat
  length : c.n + c.bytes.length = c.target
  pos : 0 < c.arg → 0 < c.n
  noEof : C 'D' ∉ c.bytes
  noNewline : NL ∉ c.bytes

/-- The invariant of a run. -/
structure Inv (s : State P) : Prop where
  tracks : ∃ q, s.editor.committed = s.events.map Event.char ++ q ∧
    Tracks s.cons q s.editor.line
  noNewline : NL ∉ s.editor.line
  calls : ∀ p c, s.reader p = some c → c.Ok ∧ 0 < c.n
  bytes : ∀ p, bytesOf p s.events = returnedTo p s.returns ++ s.inProgress p
  returns : ∀ r ∈ s.returns, r.Ok
  eofs : ∀ p, s.events.count (.eof p) = s.returns.countP (Return.isEof p)

omit [DecidableEq P] in
theorem Section.char_events (t : Section) (p : P) :
    (t.events p).map Event.char = t.bytes ++ if t.eof then [C 'D'] else [] := by
  unfold Section.events
  cases t.eof <;> simp [comp_def, Event.char]

theorem Section.bytesOf_events (t : Section) (p q : P) :
    bytesOf q (t.events p) = if p = q then t.bytes else [] := by
  unfold Section.events bytesOf
  cases t.eof <;> by_cases hq : p = q <;> simp [List.filterMap_map, hq]

theorem Section.count_events (t : Section) (p q : P) :
    (t.events p).count (.eof q) = if p = q ∧ t.eof = true then 1 else 0 := by
  have hbytes : (t.bytes.map (Event.byte p)).count (.eof q) = 0 := by
    rw [List.count_eq_zero]
    simp
  unfold Section.events
  rw [List.count_append, hbytes]
  cases t.eof <;> by_cases hq : p = q <;> simp [hq]

section Enter

variable {s : State P} {p : P} {c : Call} {killed : Bool} {t : Section} {q : List UInt8}
  (h : Inv s) (hprogress : s.inProgress p = c.bytes)
  (hcommitted : s.editor.committed = (s.events ++ t.events p).map Event.char ++ q)
  (htracks : Tracks t.cons q s.editor.line)
include h hprogress hcommitted htracks

/-- A section of a call that ends in `sleep`. -/
theorem Inv.sleeps (hc : c.Ok) (ht : t.Ok killed c.target c.n) (hleaves : t.leaves = .sleeps) :
    Inv { s with
      cons := t.cons
      events := s.events ++ t.events p
      reader := update s.reader p (some { c with n := t.n, bytes := c.bytes ++ t.bytes })
      } := by
  obtain ⟨hnl, hpos⟩ := ht.sleeps hleaves
  have heof : t.eof = false := by
    rw [Bool.eq_false_iff]
    intro he
    rw [(ht.eof he).1] at hleaves
    simp at hleaves
  have hlength := ht.length
  have hlength' := hc.length
  refine ⟨⟨q, hcommitted, htracks⟩, h.noNewline, fun p' c' hc' => ?_, fun p' => ?_, h.returns,
    fun p' => ?_⟩
  · dsimp only at hc'
    by_cases hp : p' = p
    · subst hp
      rw [update_self, Option.some.injEq] at hc'
      subst hc'
      refine ⟨⟨hc.target, ?_, fun _ => hpos, ?_, ?_⟩, hpos⟩
      · change t.n + (c.bytes ++ t.bytes).length = c.target
        rw [List.length_append]
        omega
      · simpa using ⟨hc.noEof, ht.noEof⟩
      · simpa using ⟨hc.noNewline, hnl⟩
    · rw [update_of_ne hp] at hc'
      exact h.calls p' c' hc'
  · have hbytes := h.bytes p'
    unfold bytesOf at hbytes ⊢
    rw [List.filterMap_append, hbytes]
    change _ ++ bytesOf p' (t.events p) = _
    rw [Section.bytesOf_events]
    by_cases hp : p = p'
    · subst hp
      simp [State.inProgress, ← hprogress]
    · simp [State.inProgress, hp, Ne.symm hp]
  · rw [List.count_append, Section.count_events, h.eofs]
    simp [heof]

/-- A section of a call that ends in its return. -/
theorem Inv.leaves {r : Return P} (hproc : r.proc = p) (hbytes : r.bytes = c.bytes ++ t.bytes)
    (hr : r.Ok) (heof : r.isEof p = t.eof) :
    Inv { s with
      cons := t.cons
      events := s.events ++ t.events p
      reader := update s.reader p none
      returns := s.returns ++ [r] } := by
  refine ⟨⟨q, hcommitted, htracks⟩, h.noNewline, fun p' c' hc' => ?_, fun p' => ?_,
    fun r' hr' => ?_, fun p' => ?_⟩
  · dsimp only at hc'
    by_cases hp : p' = p
    · subst hp
      simp at hc'
    · rw [update_of_ne hp] at hc'
      exact h.calls p' c' hc'
  · have hold := h.bytes p'
    unfold bytesOf at hold ⊢
    rw [List.filterMap_append, hold]
    change _ ++ bytesOf p' (t.events p) = _
    rw [Section.bytesOf_events]
    by_cases hp : p = p'
    · subst hp
      rw [hprogress]
      simp [State.inProgress, returnedTo, hproc, hbytes]
    · simp [State.inProgress, returnedTo, hproc, hp, Ne.symm hp]
  · rcases List.mem_append.mp hr' with hr' | hr'
    · exact h.returns r' hr'
    · rw [List.mem_singleton.mp hr']
      exact hr
  · rw [List.count_append, Section.count_events, h.eofs, List.countP_append,
      List.countP_singleton]
    by_cases hp : p = p'
    · subst hp
      simp [heof]
    · simp [hp, Return.isEof, hproc]

end Enter

/-- A section of a call keeps the invariant. -/
theorem Inv.enter {s : State P} (h : Inv s) {p : P} {c : Call} (hc : c.Ok)
    (hprogress : s.inProgress p = c.bytes) (killed : Bool) {copy : ℕ → Bool}
    (hcopy : ∀ i < c.n, copy i = true) : Inv (s.enter p c killed copy) := by
  obtain ⟨q, hcommitted, htracks⟩ := h.tracks
  have hle : c.n ≤ c.target := by have := hc.length; omega
  obtain ⟨ht, q', hq, htracks⟩ := htracks.readLoop killed hle hcopy
  unfold State.enter
  generalize readLoop killed copy c.target c.n s.cons = t at ht hq htracks ⊢
  dsimp only
  have hcommitted' : s.editor.committed = (s.events ++ t.events p).map Event.char ++ q' := by
    rw [hcommitted, List.map_append, Section.char_events, hq]
    simp
  have hlength : t.n + (c.bytes ++ t.bytes).length = c.target := by
    have h₁ := hc.length
    have h₂ := ht.length
    rw [List.length_append]
    omega
  have hnoEof : C 'D' ∉ c.bytes ++ t.bytes := by simpa using ⟨hc.noEof, ht.noEof⟩
  have hline : NL ∉ (c.bytes ++ t.bytes).dropLast := by
    by_cases hnil : t.bytes = []
    · rw [hnil, List.append_nil]
      exact fun hmem => hc.noNewline (List.mem_of_mem_dropLast hmem)
    · rw [List.dropLast_append_of_ne_nil hnil]
      simpa using ⟨hc.noNewline, ht.oneLine⟩
  have hbound : (c.bytes ++ t.bytes).length ≤ c.arg.toNat := by
    rw [← hc.target]
    omega
  cases hleaves : t.leaves with
  | sleeps => exact h.sleeps hprogress hcommitted' htracks hc ht hleaves
  | killed =>
    refine h.leaves hprogress hcommitted' htracks rfl rfl
      ⟨.inr ⟨rfl, ht.killed hleaves⟩, hbound, hnoEof, hline⟩ ?_
    have heof : t.eof = false := by
      rw [Bool.eq_false_iff]
      intro he
      rw [(ht.eof he).1] at hleaves
      simp at hleaves
    simp [Return.isEof, heof]
  | returns =>
    have hvalue : (c.target : ℤ) - t.n = (c.bytes ++ t.bytes).length := by omega
    refine h.leaves hprogress hcommitted' htracks rfl rfl ⟨.inl hvalue, hbound, hnoEof, hline⟩ ?_
    rw [Bool.eq_iff_iff]
    simp only [Return.isEof, decide_true, Bool.true_and, Bool.and_eq_true, decide_eq_true_eq]
    constructor
    · rintro ⟨hpos, hzero⟩
      exact ht.zero hleaves (by omega) (hc.pos hpos)
    · intro he
      obtain ⟨-, hnil, heq, hpos⟩ := ht.eof he
      have h₁ := hc.target
      have h₂ := ht.length
      rw [hnil, List.length_nil] at h₂
      omega

/-- Every action keeps the invariant. -/
theorem Inv.step {s s' : State P} (h : Inv s) {a : Act P} (ha : CopiesSucceed s a)
    (hs : step s a = some s') : Inv s' := by
  cases a with
  | intr c =>
    obtain rfl := Option.some.inj hs
    obtain ⟨q, hcommitted, htracks⟩ := h.tracks
    have hunread : s.editor.committed.length - s.events.length = q.length := by
      rw [hcommitted, List.length_append, List.length_map]
      omega
    obtain ⟨new, hnew, htracks, hnl⟩ := htracks.intr h.noNewline c
    refine ⟨⟨q ++ new, ?_, ?_⟩, ?_, h.calls, h.bytes, h.returns, h.eofs⟩
    · rw [hunread, hnew, hcommitted, List.append_assoc]
    · rw [hunread]
      exact htracks
    · rw [hunread]
      exact hnl
  | read p n killed copy =>
    simp only [Console.step] at hs
    split at hs
    · rename_i hreader
      obtain rfl := Option.some.inj hs
      exact h.enter ⟨rfl, rfl, fun hpos => by simpa using hpos, by simp, by simp⟩
        (by simp [State.inProgress, hreader]) killed ha
    · cases hs
  | resume p killed copy =>
    simp only [Console.step] at hs
    split at hs
    · cases hs
    · rename_i c hreader
      obtain rfl := Option.some.inj hs
      refine h.enter (h.calls p c hreader).1 (by simp [State.inProgress, hreader]) killed ?_
      simpa [CopiesSucceed, hreader] using ha

/-- The invariant holds before the first key. -/
theorem inv_init {s : Cons} (hrw : s.r = s.w) (hwe : s.w = s.e) : Inv (init s : State P) := by
  refine ⟨⟨[], rfl, ⟨by simp [init], ?_, by simp [init]⟩, by simp [init, hrw]⟩, by simp [init],
    fun p c hc => by simp [init] at hc, fun p => rfl, fun r hr => by simp [init] at hr,
    fun p => rfl⟩
  simp [init, Cons.ring, hrw, hwe]

/-- The invariant in every state of a run. -/
theorem inv_of_reachVia {s₀ : Cons} (hrw : s₀.r = s₀.w) (hwe : s₀.w = s₀.e) {s : State P}
    (h : ReachVia step CopiesSucceed (init s₀) s) : Inv s :=
  h.invariant (inv_init hrw hwe) fun _ _ _ _ hI ha hs => hI.step ha hs

/-- A section of `consoleread` that finds a `^D`. -/
theorem Tracks.readLoop_eof {s : Cons} {q line : List UInt8} (h : Tracks s (C 'D' :: q) line)
    (killed : Bool) (copy : ℕ → Bool) (target n : ℕ) :
    Console.readLoop killed copy target (n + 1) s =
      if n + 1 < target then ⟨s, n + 1, [], false, .returns⟩
      else ⟨{ s with r := s.r + 1 }, n + 1, [], true, .returns⟩ := by
  have hrw : s.r ≠ s.w := fun he => by simpa using h.r_eq_w_iff.mp he
  rw [Console.readLoop, if_neg hrw]
  simp only [h.take.1, if_true, BitVec.add_sub_cancel]

/-- The process that an action lets read, if it has something to read. -/
def Act.reads : Act P → Option P
  | .intr _ => none
  | .read p n _ _ => if 0 < n then some p else none
  | .resume p _ _ => some p

/-- A read that finds a `^D` returns what it has. It takes the `^D` if it has nothing. -/
theorem Inv.step_eof {s s' : State P} (h : Inv s) {q : List UInt8}
    (hq : s.editor.committed = s.events.map Event.char ++ C 'D' :: q) {a : Act P} {p : P}
    (hp : a.reads = some p) (hs : Console.step s a = some s') :
    s'.reader p = none ∧
      s'.events = if s.inProgress p = [] then s.events ++ [.eof p] else s.events := by
  obtain ⟨q', hq', htracks⟩ := h.tracks
  obtain rfl := List.append_cancel_left (hq.symm.trans hq')
  have henter (c : Call) (killed : Bool) (copy : ℕ → Bool) (hc : c.Ok) (hpos : 0 < c.n)
      (hprogress : s.inProgress p = c.bytes) :
      (s.enter p c killed copy).reader p = none ∧ (s.enter p c killed copy).events =
        if s.inProgress p = [] then s.events ++ [.eof p] else s.events := by
    obtain ⟨n, hn⟩ := Nat.exists_eq_succ_of_ne_zero hpos.ne'
    have hlength := hc.length
    unfold State.enter
    rw [hn, Nat.succ_eq_add_one, htracks.readLoop_eof, hprogress]
    by_cases hnil : c.bytes = []
    · rw [if_pos hnil, if_neg (by rw [hnil, List.length_nil] at hlength; omega)]
      simp [Section.events]
    · have := List.length_pos_iff.mpr hnil
      rw [if_neg hnil, if_pos (by omega)]
      simp [Section.events]
  cases a with
  | intr c => simp [Act.reads] at hp
  | read p' n killed copy =>
    simp only [Act.reads, Option.ite_none_right_eq_some, Option.some.injEq] at hp
    obtain ⟨hpos, rfl⟩ := hp
    simp only [Console.step] at hs
    split at hs
    · rename_i hreader
      obtain rfl := Option.some.inj hs
      exact henter _ killed copy ⟨rfl, rfl, fun hpos => by simpa using hpos, by simp, by simp⟩
        (by simpa using hpos) (by simp [State.inProgress, hreader])
    · cases hs
  | resume p' killed copy =>
    obtain rfl : p' = p := by simpa [Act.reads] using hp
    simp only [Console.step] at hs
    split at hs
    · cases hs
    · rename_i c hreader
      obtain rfl := Option.some.inj hs
      obtain ⟨hc, hpos⟩ := h.calls p' c hreader
      exact henter c killed copy hc hpos (by simp [State.inProgress, hreader])

/-- **The line discipline of the console.** From an empty buffer, wherever its indices stand, in
every state that keys and reads reach:
- modulo `2^32`, `r ≤ w ≤ e ≤ r + INPUT_BUF_SIZE`;
- the characters that reads have taken are the input that the editor has committed, in its order,
  up to the `w - r` characters that are still in the buffer;
- of these, the bytes that a process has got are those that its calls have returned, and those of
  the call in which it sleeps;
- a call returns the number of its bytes, which are at most as many as asked for and at most one
  line, and no `^D`, except that a process that has been killed gets `-1`;
- each `^D` taken is one read that returned 0 bytes;
- a read that comes to a `^D` returns, and leaves it to the next read if it has bytes to return. -/
theorem console_discipline (s₀ : Cons) (hrw : s₀.r = s₀.w) (hwe : s₀.w = s₀.e) {s : State P}
    (h : ReachVia step CopiesSucceed (init s₀) s) :
    ((s.cons.w - s.cons.r).toNat ≤ (s.cons.e - s.cons.r).toNat ∧
      (s.cons.e - s.cons.r).toNat ≤ INPUT_BUF_SIZE) ∧
    (∃ q, s.editor.committed = s.events.map Event.char ++ q ∧
      q.length = (s.cons.w - s.cons.r).toNat) ∧
    (∀ p, bytesOf p s.events = returnedTo p s.returns ++ s.inProgress p) ∧
    (∀ r ∈ s.returns, r.Ok) ∧
    (∀ p, s.events.count (.eof p) = s.returns.countP (Return.isEof p)) ∧
    ∀ a p s' q, a.reads = some p → s.editor.committed = s.events.map Event.char ++ C 'D' :: q →
      step s a = some s' → s'.reader p = none ∧
        s'.events = if s.inProgress p = [] then s.events ++ [.eof p] else s.events := by
  have hI := inv_of_reachVia hrw hwe h
  obtain ⟨q, hcommitted, htracks⟩ := hI.tracks
  refine ⟨⟨?_, ?_⟩, ⟨q, hcommitted, htracks.w_sub_r.symm⟩, hI.bytes, hI.returns, hI.eofs,
    fun a p s' q ha hq hs => hI.step_eof hq ha hs⟩
  · rw [htracks.w_sub_r, htracks.e_sub_r]
    omega
  · rw [htracks.e_sub_r]
    exact htracks.length_le

/-- A buffer whose indices are about to wrap. -/
def wrappingCons : Cons := ⟨fun _ => 5, -1, -1, -1⟩

/-- The keys `a`, backspace, `b`, return, `c` and `^D` are read by two processes. The second one
begins before the first key and asks for more than a line, and the first one reads twice after the
`^D`. -/
theorem console_discipline_wrappingCons : ∃ s : State Bool,
    ReachVia step CopiesSucceed (init wrappingCons) s ∧ s.cons.r = 3 ∧
    s.editor.committed = ['b'.toUInt8, NL, 'c'.toUInt8, C 'D'] ∧
    s.returns.map (fun r => (r.proc, r.bytes, r.value)) =
      [(true, ['b'.toUInt8, NL], 2), (false, ['c'.toUInt8], 1), (false, [], 0)] ∧
    s.events.map Event.char = s.editor.committed := by
  obtain ⟨s, hs, hr, hw, hcommitted, hreturns⟩ := exists_of_run step CopiesSucceed
    (init wrappingCons)
    [.read true 9 false (fun _ => true), .intr 'a'.toUInt8, .intr (C 'H'), .intr 'b'.toUInt8,
      .intr CR, .intr 'c'.toUInt8, .intr (C 'D'), .resume true false (fun _ => true),
      .read false 7 false (fun _ => true), .read false 7 false (fun _ => true)]
    (fun s => s.cons.r = 3 ∧ s.cons.w = 3 ∧
      s.editor.committed = ['b'.toUInt8, NL, 'c'.toUInt8, C 'D'] ∧
      s.returns.map (fun r => (r.proc, r.bytes, r.value)) =
        [(true, ['b'.toUInt8, NL], 2), (false, ['c'.toUInt8], 1), (false, [], 0)])
    (by decide +kernel)
  refine ⟨s, hs, hr, hcommitted, hreturns, ?_⟩
  obtain ⟨-, ⟨q, hq, hlength⟩, -⟩ := console_discipline wrappingCons rfl rfl hs
  rw [hr, hw] at hlength
  rw [hq, List.length_eq_zero_iff.mp hlength, List.append_nil]

end SustainableXv6.Console
