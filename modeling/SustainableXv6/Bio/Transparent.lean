import SustainableXv6.Bio.Steps

/-!
# What `bread` returns

A process gets a buffer when `acquiresleep` returns, which is the step in which it becomes the
holder of the buffer's sleep lock. The buffer is then for the block that the process asked for, and
it has the contents that were last written to the block by a section that is complete, whether they
come from the cache, from a block that is logged, or from the disk.
-/

namespace SustainableXv6.Bio

open Function

variable {P : Type} {start : BlockNo} {s s' : State P} {p : P} {i : BufId} {b : BlockNo}

/-! ## Which process gets which buffer -/

/-- The process `p`, which slept for the buffer `i`, gets it in the step from `s` to `s'`. -/
structure Locked (s s' : State P) (p : P) (i : BufId) : Prop where
  mem : p ∈ s.waits i
  clean : s'.dirty i = false
  asked : s'.asked = s.asked
  panicked : s'.panicked = s.panicked
  isFor : ∀ b, (s'.buf i).isFor b = (s.buf i).isFor b

/-- In the step from `s` to `s'` only the processes `who` go to sleep for a buffer or are in
`commit`, only processes that slept for a buffer get it, and the log grows only in an operation. -/
structure Handover (who : P → Prop) (s s' : State P) : Prop where
  waits : ∀ i q, q ∈ s'.waits i → q ∈ s.waits i ∨ who q
  holder : ∀ i q, (s'.buf i).holder = some q → (s.buf i).holder = some q ∨ Locked s s' q i
  commit : ∀ q c, s'.commit = some (q, c) → who q
  lh : s'.lh.length ≤ s.lh.length ∨ s.inside ≠ ∅

namespace Handover

variable {who : P → Prop}

/-- `commit` goes on to another place. -/
theorem goto (h : Handover who s s') (hp : who p) (c : CommitPc) :
    Handover who s (s'.goto p c) := by
  refine ⟨h.waits, fun i q hq => (h.holder i q hq).imp_right fun hl => ?_, fun q d hd => ?_, h.lh⟩
  · exact ⟨hl.mem, hl.clean, hl.asked, hl.panicked, hl.isFor⟩
  · obtain ⟨rfl, rfl⟩ : p = q ∧ c = d := by simpa using hd
    exact hp

variable (hwho : ∀ q c, s.commit = some (q, c) → who q)
include hwho

/-- No process goes to sleep, and buffers are only released. -/
theorem of_holder (hwaits : s'.waits = s.waits)
    (hholder : ∀ i, (s'.buf i).holder = (s.buf i).holder ∨ (s'.buf i).holder = none)
    (hcommit : s'.commit = s.commit) (hlh : s'.lh.length ≤ s.lh.length ∨ s.inside ≠ ∅) :
    Handover who s s' := by
  refine ⟨fun i q hq => .inl (hwaits ▸ hq), fun i q hq => ?_, hcommit ▸ hwho, hlh⟩
  rcases hholder i with h | h
  · exact .inl (h ▸ hq)
  · simp [h] at hq

/-- `brelse`. -/
theorem brelse (i : BufId) : Handover who s (s.brelse i) := by
  refine of_holder hwho rfl (fun j => ?_) rfl (.inl le_rfl)
  by_cases hj : j = i
  · exact .inr (by simp [State.brelse, hj])
  · exact .inl (by simp [State.brelse, hj])

/-- The holder of a buffer writes it. -/
theorem modify_bwrite (i : BufId) (v : Block) : Handover who s ((s.modify i v).bwrite i) := by
  have hholder (j : BufId) : ((s.modify i v).buf j).holder = (s.buf j).holder :=
    holder_update (x := { s.buf i with data := v }) rfl j
  exact of_holder hwho rfl (fun j => .inl (hholder j)) rfl (.inl le_rfl)

/-- `install_trans` writes a home block. -/
theorem copyHome (x y : BufId) : Handover who s (copyHome s x y) := by
  refine of_holder hwho rfl (fun j => .inl ?_) rfl (.inl le_rfl)
  by_cases hj : j = y
  · subst hj
    simp [Bio.copyHome, State.bwrite]
  · simp [Bio.copyHome, State.bwrite, hj]

variable [DecidableEq P]

/-- `log_write` of the holder of a buffer. -/
theorem logWrite (i : BufId) (v : Block) : Handover who s ((s.modify i v).logWrite i) := by
  have hholder (j : BufId) : ((s.modify i v).buf j).holder = (s.buf j).holder :=
    holder_update (x := { s.buf i with data := v }) rfl j
  unfold State.logWrite
  split_ifs with _ hinside
  · exact of_holder hwho rfl (fun j => .inl (hholder j)) rfl (.inl le_rfl)
  · exact of_holder hwho rfl (fun j => .inl (hholder j)) rfl (.inl le_rfl)
  · exact of_holder hwho rfl (fun j => .inl (hholder j)) rfl (.inl le_rfl)
  · exact of_holder hwho rfl (fun j => .inl ((holder_update (by rfl) j).trans (hholder j))) rfl
      (.inr hinside)

/-- `bget`. -/
theorem bget (h : s.bget p b = some (i, s')) (hp : who p) : Handover who s s' := by
  have hgot := State.bget_gotBuffer h
  refine ⟨fun j q hq => ?_, fun j q hq => .inl (hgot.holder j ▸ hq), hgot.commit ▸ hwho,
    .inl (by rw [hgot.lh])⟩
  rw [hgot.waits] at hq
  by_cases hj : j = i
  · subst hj
    rw [update_self] at hq
    rcases Finset.mem_insert.mp hq with rfl | hq
    · exact .inr hp
    · exact .inl hq
  · rw [update_of_ne hj] at hq
    exact .inl hq

/-- `acquiresleep` returns. -/
theorem lock (hp : p ∈ s.waits i) : Handover who s (s.lock p i) := by
  refine ⟨fun j q hq => .inl ?_, fun j q hq => ?_, hwho, .inl le_rfl⟩
  · by_cases hj : j = i
    · subst hj
      simp only [State.lock, update_self] at hq
      exact Finset.mem_of_mem_erase hq
    · simpa [State.lock, hj] using hq
  · by_cases hj : j = i
    · subst hj
      obtain rfl : p = q := by simpa [State.lock] using hq
      exact .inr ⟨hp, by simp [State.lock], rfl, rfl, fun b => by simp [State.lock, Buf.isFor]⟩
    · exact .inl (by simpa [State.lock, hj] using hq)

/-- A step of `commit`. -/
theorem of_commitStep {x : Option Bcache.Section} (hp : who p) (h : CommitStep s p x s') :
    Handover who s s' := by
  cases h with
  | full _ => exact of_holder hwho rfl (fun _ => .inl rfl) rfl (.inl le_rfl)
  | bget hget => exact (bget hwho hget hp).goto hp _
  | lock hi => exact (lock hwho hi).goto hp _
  | bwrite => exact (modify_bwrite hwho _ _).goto hp _
  | copyHome _ => exact (copyHome hwho _ _).goto hp _
  | brelse _ => exact (brelse hwho _).goto hp _
  | @goto l c hle =>
    have hlog : Handover who s { s with lh := l } :=
      of_holder hwho rfl (fun _ => .inl rfl) rfl (.inl hle)
    exact hlog.goto hp c
  | done => exact ⟨fun _ _ => .inl, fun _ _ => .inl, fun q d hd => by simp at hd, .inl le_rfl⟩

end Handover

/-- The processes that ask for a buffer by the action `a`, or that are in `commit`. -/
def Asks (s : State P) (a : Act P) (q : P) : Prop :=
  (∃ b, a = .bget q b) ∨ a = .endOp q ∨ ∃ c, s.commit = some (q, c)

section Step

variable [DecidableEq P]

/-- Every step hands buffers over to processes that slept for them. -/
theorem Inv.handover {a : Act P} (hI : Inv start s) (h : Bio.step start s a = some s') :
    Handover (Asks s a) s s' := by
  have hwho (q : P) (c : CommitPc) (hc : s.commit = some (q, c)) : Asks s a q := .inr (.inr ⟨c, hc⟩)
  unfold Bio.step at h
  split_ifs at h
  cases a with
  | beginOp p =>
    simp only [Option.ite_none_right_eq_some, Option.some.injEq] at h
    exact h.2 ▸ .of_holder hwho rfl (fun _ => .inl rfl) rfl (.inl le_rfl)
  | endOp p =>
    simp only [Option.ite_none_right_eq_some] at h
    have hend : Handover (Asks s (.endOp p)) s { s with inside := s.inside.erase p } :=
      .of_holder hwho rfl (fun _ => .inl rfl) rfl (.inl le_rfl)
    replace h := h.2
    split_ifs at h
    · exact Option.some.inj h ▸ hend.goto (.inr (.inl rfl)) _
    · exact Option.some.inj h ▸ hend.goto (.inr (.inl rfl)) _
    · exact Option.some.inj h ▸ hend
  | bget p b =>
    simp only [Option.ite_none_right_eq_some] at h
    replace h := h.2
    cases hget : s.bget p b with
    | none =>
      rw [hget] at h
      exact Option.some.inj h ▸ .of_holder hwho rfl (fun _ => .inl rfl) rfl (.inl le_rfl)
    | some x =>
      rw [hget] at h
      exact Option.some.inj h ▸ .bget hwho hget (.inl ⟨b, rfl⟩)
  | lock p i =>
    simp only [Option.ite_none_right_eq_some, Option.some.injEq] at h
    exact h.2 ▸ .lock hwho h.1.1
  | logWrite p i v =>
    simp only [Option.ite_none_right_eq_some, Option.some.injEq] at h
    exact h.2 ▸ .logWrite hwho i v
  | bwrite p i v =>
    simp only [Option.ite_none_right_eq_some, Option.some.injEq] at h
    exact h.2 ▸ .modify_bwrite hwho i v
  | brelse p i =>
    simp only [Option.ite_none_right_eq_some, Option.some.injEq] at h
    exact h.2 ▸ .brelse hwho i
  | commit =>
    cases hc : s.commit with
    | none => simp [hc] at h
    | some x =>
      simp only [hc] at h
      exact .of_commitStep hwho (hwho _ _ hc) (commitStep_execCommit (hI.commits _ _ hc).place h)

/-! ## The contents -/

/-- The cache and the log are transparent: whenever a process gets a buffer from `bread`, the buffer
is the one of the block that the process asked for, and it has the contents that a complete section
has last written to the block, or those of the initial disk `d`. -/
theorem bread_returns_written (hstart : start.toNat + LOGBLOCKS < 2 ^ 32) {d : Disk} {a : Act P}
    (hr : Lib.ReachVia (step start) (LogRules start) (State.start d : State P) s)
    (hrules : LogRules start s a) (hstep : step start s a = some s')
    (hnew : (s'.buf i).holder = some p) (hold : (s.buf i).holder ≠ some p) :
    (s'.buf i).isFor (s'.asked p) = true ∧ (s'.buf i).data = s'.written (s'.asked p) := by
  have halive := panicked_of_step hstep
  have hI := inv_of_reachVia hstart hr halive
  obtain ⟨hmem, hclean, hasked, hpanicked, hfor⟩ :=
    ((hI.handover hstep).holder i p hnew).resolve_left hold
  have hI' := hI.step hstart hrules hstep (hpanicked.trans halive)
  have hblock : (s'.buf i).isFor (s'.asked p) = true := by
    rw [hfor, hasked]
    exact hI.core.asked i p hmem
  refine ⟨hblock, ?_⟩
  obtain ⟨hdev, hblockno⟩ := Buf.isFor_iff.mp hblock
  have hok := hI'.core.ok i
  calc (s'.buf i).data
      = s'.current (s'.buf i).blockno := hok.data hdev (hok.held (by simp [hnew]))
    _ = s'.current (s'.asked p) := by rw [hblockno]
    _ = s'.written (s'.asked p) := hI'.core.clean _ fun j hj => by
        rw [hI'.core.unique j i _ hj hblock]
        exact hclean

end Step

/-- The process 0 logs the block 50, and the process 1 asks for it while the block is being
committed. -/
def readsLogged : List (Act ℕ) :=
  [.beginOp 0, .bget 0 50, .lock 0 0, .logWrite 0 0 (fun _ => 7), .brelse 0 0, .endOp 0, .commit,
    .bget 1 50, .commit]

/-- The process 1 reads what is neither on the disk nor in the log. -/
theorem bread_returns_written_logged :
    ∃ s s' : State ℕ, Lib.ReachVia (step 2) (LogRules 2) (State.start zeroDisk) s ∧
      step 2 s (.lock 1 0) = some s' ∧ s'.disk 50 0 = 0 ∧ (s'.buf 0).data 0 = 7 ∧
      (s'.buf 0).data = s'.written 50 := by
  obtain ⟨s, hs, hold, hp⟩ := Lib.exists_of_run (step 2) (LogRules 2) (State.start zeroDisk)
    readsLogged (fun s => (s.buf 0).holder ≠ some 1 ∧ (step 2 s (.lock 1 0)).any fun s' =>
      decide ((s'.buf 0).holder = some 1 ∧ s'.asked 1 = 50 ∧ s'.disk 50 0 = 0 ∧
        (s'.buf 0).data 0 = 7)) (by decide +kernel)
  simp only [decide_eq_true_eq, Option.any_eq_true] at hp
  obtain ⟨s', hstep, hnew, hasked, hdisk, hdata⟩ := hp
  have h := bread_returns_written (a := .lock 1 0) (by decide) hs trivial hstep hnew hold
  rw [hasked] at h
  exact ⟨s, s', hs, hstep, hdisk, hdata, h.2⟩

end SustainableXv6.Bio
