import SustainableXv6.Bio.Transparent

/-!
# Room for `commit` in the cache

Each logged block has a buffer that is pinned until `install_trans` has copied the block home, and
`write_log` and `install_trans` need one more buffer at a time for the log block. There are as many
buffers as log slots, `NBUF = LOGBLOCKS`. So a full log leaves no buffer for `commit`, and one that
is not full leaves one, if no other process uses a buffer at that time.
-/

namespace SustainableXv6.Bio

variable {P : Type} {start : BlockNo} {s s' : State P} {p : P} {T : List BlockNo}

/-! ## The rules -/

section Rules

variable [DecidableEq P]

/-- The rules of the callers, where in addition no other process has a buffer while a commit runs.
-/
def CommitAlone (start : BlockNo) (s : State P) (a : Act P) : Prop :=
  LogRules start s a ∧
    match a with
    | .endOp p => s.inside = {p} → ∀ i, (s.buf i).holder = none ∧ s.waits i = ∅
    | .bget _ _ => s.commit = none
    | .beginOp _ | .lock _ _ | .logWrite _ _ _ | .bwrite _ _ _ | .brelse _ _ | .commit => True

/-- The last operation ends with fewer logged blocks than there are buffers. -/
def RoomToCommit (s : State P) : Act P → Prop
  | .endOp p => s.inside = {p} → s.lh.length < NBUF
  | .beginOp _ | .bget _ _ | .lock _ _ | .logWrite _ _ _ | .bwrite _ _ _ | .brelse _ _
  | .commit => True

instance (start : BlockNo) (s : State P) (a : Act P) : Decidable (CommitAlone start s a) :=
  match a with
  | .endOp p =>
    inferInstanceAs (Decidable (_ ∧
      (s.inside = {p} → ∀ i, (s.buf i).holder = none ∧ s.waits i = ∅)))
  | .bget _ _ => inferInstanceAs (Decidable (_ ∧ s.commit = none))
  | .beginOp _ | .lock _ _ | .logWrite _ _ _ | .bwrite _ _ _ | .brelse _ _ | .commit =>
    inferInstanceAs (Decidable (_ ∧ True))

instance (s : State P) : ∀ a, Decidable (RoomToCommit s a)
  | .endOp p => inferInstanceAs (Decidable (s.inside = {p} → s.lh.length < NBUF))
  | .beginOp _ | .bget _ _ | .lock _ _ | .logWrite _ _ _ | .bwrite _ _ _ | .brelse _ _
  | .commit => .isTrue trivial

end Rules

/-! ## A buffer for the log block -/

/-- If no process uses a buffer, and fewer blocks are pinned than there are buffers, `bget` finds a
buffer to recycle. -/
theorem Core.exists_unused (hI : Core T s) (hT : T.length < NBUF)
    (hfree : ∀ i, (s.buf i).holder = none ∧ s.waits i = ∅) : ∃ i, s.unused = some i := by
  have hpin (i : BufId) (hi : (s.buf i).refcnt ≠ 0) :
      (s.buf i).isFor (s.buf i).blockno ∧ (s.buf i).blockno ∈ T := by
    have hcount := (hI.ok i).count
    obtain ⟨hholder, hwaits⟩ := hfree i
    have hpins : (s.buf i).pins T ≠ 0 := by
      simp only [hholder, hwaits, Finset.card_empty, Option.toList_none, List.length_nil] at hcount
      omega
    obtain ⟨hdev, hmem⟩ : (s.buf i).dev = ROOTDEV ∧ (s.buf i).blockno ∈ T := by
      simpa [Buf.pins] using hpins
    exact ⟨Buf.isFor_iff.mpr ⟨hdev, rfl⟩, hmem⟩
  by_contra hnone
  have hused (i : BufId) : (s.buf i).refcnt ≠ 0 := by
    intro h0
    have hfind : s.unused = none := by
      cases hu : s.unused with
      | none => rfl
      | some j => exact absurd ⟨j, hu⟩ hnone
    have := List.find?_eq_none.mp hfind i (by simpa using hI.lru i)
    simp [h0] at this
  -- Different buffers are for different blocks, and all of them are pinned.
  have hcard : Fintype.card BufId ≤ T.toFinset.card := by
    refine Finset.card_le_card_of_injOn (fun i => (s.buf i).blockno) (fun i _ => ?_)
      fun i _ j _ h => ?_
    · simpa using (hpin i (hused i)).2
    · have hi := (hpin i (hused i)).1
      have hj := (hpin j (hused j)).1
      refine hI.unique i j _ hi ?_
      rw [show (s.buf i).blockno = (s.buf j).blockno from h]
      exact hj
  have hle := T.toFinset_card_le
  rw [Fintype.card_fin] at hcard
  omega

section Bget

variable [DecidableEq P]

/-- `bget` of a block whose buffer is pinned. -/
theorem Core.bget_isSome_of_mem (hI : Core T s) {b : BlockNo} (hb : b ∈ T) :
    s.bget p b ≠ none := by
  obtain ⟨i, hi, -⟩ := hI.cached_isSome hb
  simp [State.bget, hi]

/-- `bget` while there is a buffer to recycle. -/
theorem bget_isSome_of_unused (h : ∃ i, s.unused = some i) (b : BlockNo) : s.bget p b ≠ none := by
  obtain ⟨i, hi⟩ := h
  unfold State.bget
  cases s.cached b with
  | some j => simp
  | none => simp [hi]

end Bget

/-! ## Runs -/

/-- While a commit runs, only its process has buffers, and the log is not full. -/
structure Alone (s : State P) (p : P) : Prop where
  room : s.lh.length < NBUF
  holder : ∀ i q, (s.buf i).holder = some q → q = p
  waits : ∀ i, ∀ q ∈ s.waits i, q = p

section Step

variable [DecidableEq P]

/-- The steps that meet the rules and the condition keep the process of a commit alone. -/
theorem Alone.step (hI : Inv start s) (hA : ∀ p c, s.commit = some (p, c) → Alone s p) {a : Act P}
    (hrules : CommitAlone start s a) (hroom : RoomToCommit s a)
    (h : step start s a = some s') : ∀ p c, s'.commit = some (p, c) → Alone s' p := by
  intro p c hc
  obtain ⟨hwaits, hholder, hcommit, hlh⟩ := hI.handover h
  rcases hcommit p c hc with ⟨b, rfl⟩ | rfl | ⟨c₀, hc₀⟩
  · -- `bget` does not start a commit.
    have hnone : s.commit = none := hrules.2
    have hcommit' : s'.commit = s.commit := by
      unfold Bio.step at h
      split_ifs at h
      simp only [Option.ite_none_right_eq_some] at h
      cases hget : s.bget p b with
      | none =>
        rw [hget] at h
        exact Option.some.inj h.2 ▸ rfl
      | some x =>
        rw [hget] at h
        exact Option.some.inj h.2 ▸ (State.bget_gotBuffer hget).commit
    simp [hcommit', hnone] at hc
  · -- The last operation has ended.
    unfold Bio.step at h
    split_ifs at h
    simp only [Option.ite_none_right_eq_some] at h
    obtain ⟨⟨-, hp⟩, h⟩ := h
    have hnone := hI.commit_eq_none (Finset.ne_empty_of_mem hp)
    have hlast (hempty : s.inside.erase p = ∅) : s.inside = {p} := by
      rw [← Finset.insert_erase hp, hempty]
      rfl
    have halone (hempty : s.inside.erase p = ∅) : Alone s p := by
      have hfree := hrules.2 (hlast hempty)
      exact ⟨hroom (hlast hempty), fun i q hq => by simp [(hfree i).1] at hq,
        fun i q hq => by simp [(hfree i).2] at hq⟩
    split_ifs at h with hempty
    · obtain ⟨h₁, h₂, h₃⟩ := halone hempty
      exact Option.some.inj h ▸ ⟨h₁, h₂, h₃⟩
    · obtain ⟨h₁, h₂, h₃⟩ := halone hempty
      exact Option.some.inj h ▸ ⟨h₁, h₂, h₃⟩
    · rw [← Option.some.inj h] at hc
      simp [hnone] at hc
  · obtain ⟨hr, hh, hw⟩ := hA p c₀ hc₀
    have hasks (q : P) (hq : Asks s a q) : q = p := by
      rcases hq with ⟨b, rfl⟩ | rfl | ⟨c₁, hc₁⟩
      · have hnone : s.commit = none := hrules.2
        simp [hnone] at hc₀
      · -- No operation ends while a commit runs.
        unfold Bio.step at h
        split_ifs at h
        simp only [Option.ite_none_right_eq_some] at h
        have hnone := hI.commit_eq_none (Finset.ne_empty_of_mem h.1.2)
        simp [hnone] at hc₀
      · rw [hc₀] at hc₁
        exact (Prod.mk.inj (Option.some.inj hc₁)).1.symm
    refine ⟨?_, fun i q hq => ?_, fun i q hq => ?_⟩
    · rcases hlh with hle | hinside
      · omega
      · exact absurd (hI.commits p c₀ hc₀).ops hinside
    · rcases hholder i q hq with hq | hq
      · exact hh i q hq
      · exact hw i q hq.mem
    · rcases hwaits i q hq with hq | hq
      · exact hw i q hq
      · exact hasks q hq

/-- A step of `commit` that finds the buffer it asks for does not stop the system. -/
theorem CommitStep.panicked {x : Option Bcache.Section} (h : CommitStep s p x s')
    (hget : ∀ b, x = some (.bget ROOTDEV b) → s.bget p b ≠ none) : s'.panicked = s.panicked := by
  cases h with
  | full hnone => exact absurd hnone (hget _ rfl)
  | bget hsome => exact (State.bget_gotBuffer hsome).panicked
  | lock _ | bwrite | copyHome _ | brelse _ | goto _ | done => rfl

/-- Where `commit` asks for a buffer, it has none, or the block has not been copied home. -/
theorem CommitPc.sectionOf_bget {c : CommitPc} {lh : List BlockNo} {d b : UInt32}
    (h : c.sectionOf start lh = some (.bget d b)) :
    c.sleeps = none ∧ c.holds = [] ∨ b ∈ c.toInstall lh := by
  cases c with
  | writeLog tail c =>
    obtain ⟨b', hb, h⟩ := Option.bind_eq_some_iff.mp h
    cases c <;> simp [CopyPc.sectionOf] at h
    · exact .inl ⟨rfl, rfl⟩
    · exact .inr (h.2 ▸ List.mem_of_getElem? hb)
  | install tail c =>
    obtain ⟨b', hb, h⟩ := Option.bind_eq_some_iff.mp h
    cases c <;> simp [CopyPc.sectionOf] at h
    · exact .inl ⟨rfl, rfl⟩
    · refine .inr (h.2 ▸ List.mem_of_getElem? (i := 0) ?_)
      simpa [CommitPc.toInstall, CopyPc.copied] using hb
  | writeHead c | clear c =>
    cases c <;> simp [CommitPc.sectionOf, HeadPc.sectionOf] at h
    exact .inl ⟨rfl, rfl⟩
  | done => simp [CommitPc.sectionOf] at h

/-- A step of `commit` finds its buffers if its process is alone. -/
theorem Inv.commit_panicked {c : CommitPc} (hI : Inv start s) (hc : s.commit = some (p, c))
    (hA : Alone s p) (h : Bio.execCommit start s p c = some s') : s'.panicked = s.panicked := by
  have hcore := hI.core_commit hc
  have hroom : (c.toInstall s.lh).length < NBUF := by
    have hle : (c.toInstall s.lh).length ≤ s.lh.length := by
      cases c with
      | install tail c => exact (List.drop_sublist _ s.lh).length_le
      | writeLog _ _ | writeHead _ | clear _ | done => exact le_rfl
    exact lt_of_le_of_lt hle hA.room
  obtain ⟨-, hok, hsleeps, hholds, -⟩ := hI.commits p c hc
  -- At a `bread` of a log block or the header the process has no buffer.
  have hfirst (hs : c.sleeps = none) (hh : c.holds = []) (b : BlockNo) : s.bget p b ≠ none := by
    refine bget_isSome_of_unused (hcore.exists_unused hroom fun i => ⟨?_, ?_⟩) b
    · cases hq : (s.buf i).holder with
      | none => rfl
      | some q =>
        obtain rfl := hA.holder i q hq
        have := hholds i hq
        simp [hh] at this
    · refine Finset.eq_empty_of_forall_notMem fun q hq => ?_
      obtain rfl := hA.waits i q hq
      simpa [hs] using hsleeps i hq
  refine (commitStep_execCommit hok h).panicked fun b hb => ?_
  rcases CommitPc.sectionOf_bget hb with ⟨hs, hh⟩ | hmem
  · exact hfirst hs hh b
  · exact hcore.bget_isSome_of_mem hmem

/-- A commit finds a buffer at every `bread`, in every run in which each commit begins with fewer
logged blocks than there are buffers. -/
theorem commit_finds_buffers (hstart : start.toNat + LOGBLOCKS < 2 ^ 32) {d : Disk}
    (hr : Lib.ReachVia (step start) (fun s a => CommitAlone start s a ∧ RoomToCommit s a)
      (State.start d : State P) s) (hstep : step start s .commit = some s') :
    s'.panicked = none := by
  have halive := panicked_of_step hstep
  have hboth : s.panicked = none → Inv start s ∧ ∀ p c, s.commit = some (p, c) → Alone s p :=
    hr.invariant (I := fun s => s.panicked = none →
        Inv start s ∧ ∀ p c, s.commit = some (p, c) → Alone s p)
      (fun _ => ⟨inv_start start d, fun p c h => by simp [State.start] at h⟩)
      fun s a s' _ hI hC hs halive' => by
        obtain ⟨hI, hA⟩ := hI (panicked_of_step hs)
        exact ⟨hI.step hstart hC.1.1 hs halive', Alone.step hI hA hC.1 hC.2 hs⟩
  obtain ⟨hI, hA⟩ := hboth halive
  unfold step at hstep
  split_ifs at hstep
  cases hc : s.commit with
  | none => simp [hc] at hstep
  | some x =>
    simp only [hc] at hstep
    rw [hI.commit_panicked hc (hA x.1 x.2 hc) hstep]
    exact halive

end Step

/-! ## A full log -/

/-- The process `p` reads the block `b` into the buffer `i`, logs it, and releases it. -/
def logOne (p : Fin 3) (b : BlockNo) (i : BufId) : List (Act (Fin 3)) :=
  [.bget p b, .lock p i, .logWrite p i (fun _ => 1), .brelse p i]

/-- The process `p` logs `n` blocks, into buffers that are not in use. -/
def logSome (p : Fin 3) (n : ℕ) : List (Act (Fin 3)) :=
  (List.range n).flatMap fun k =>
    logOne p (UInt32.ofNat (50 + n * p + k)) (Fin.ofNat NBUF (n * p + k))

/-- Three operations, of which each logs `n` blocks. -/
def threeOps (n : ℕ) : List (Act (Fin 3)) :=
  [[.beginOp 0, .beginOp 1, .beginOp 2], logSome 0 n, logSome 1 n, logSome 2 n,
    [.endOp 0, .endOp 1, .endOp 2]].flatten

/-- Whether an action is a `log_write` of the process `p`. -/
def Act.isLogWriteOf [DecidableEq P] (p : P) : Act P → Bool
  | .logWrite q _ _ => q = p
  | .beginOp _ | .endOp _ | .bget _ _ | .lock _ _ | .bwrite _ _ _ | .brelse _ _ | .commit => false

/-- Where three operations log three blocks each, the commit finds its buffers. -/
theorem commit_finds_buffers_nine :
    ∃ s s' : State (Fin 3),
      Lib.ReachVia (step 2) (fun s a => CommitAlone 2 s a ∧ RoomToCommit s a)
        (State.start zeroDisk) s ∧
      s.lh.length = 9 ∧ step 2 s .commit = some s' ∧ s'.panicked = none := by
  obtain ⟨s, hs, hlh, hsome⟩ := Lib.exists_of_run (step 2)
    (fun s a => CommitAlone 2 s a ∧ RoomToCommit s a) (State.start zeroDisk) (threeOps 3)
    (fun s => s.lh.length = 9 ∧ (step 2 s .commit).isSome) (by decide +kernel)
  obtain ⟨s', hstep⟩ := Option.isSome_iff_exists.mp hsome
  exact ⟨s, s', hs, hlh, hstep, commit_finds_buffers (by decide) hs hstep⟩

/-- Three operations that log `MAXOPBLOCKS` blocks each fill the log, and their commit does not find
a buffer for its first log block. -/
theorem commit_without_buffers :
    (∀ p, (threeOps MAXOPBLOCKS).countP (Act.isLogWriteOf p) ≤ MAXOPBLOCKS) ∧
      ∃ s s' : State (Fin 3),
        Lib.run (step 2) (CommitAlone 2) (State.start zeroDisk) (threeOps MAXOPBLOCKS) = some s ∧
        step 2 s .commit = some s' ∧ s'.panicked = some .noBuffers := by
  refine ⟨by decide +kernel, ?_⟩
  have hrun : (Lib.run (step 2) (CommitAlone 2) (State.start zeroDisk)
      (threeOps MAXOPBLOCKS)).any (fun s =>
        (step 2 s .commit).any fun s' => decide (s'.panicked = some .noBuffers)) = true := by
    decide +kernel
  simp only [Option.any_eq_true, decide_eq_true_eq] at hrun
  obtain ⟨s, hs, s', hstep, hpanicked⟩ := hrun
  exact ⟨s, s', hs, hstep, hpanicked⟩

end SustainableXv6.Bio
