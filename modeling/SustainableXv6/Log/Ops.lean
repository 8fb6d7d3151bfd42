import SustainableXv6.Log.Machine

/-!
# Operations and commits

`log.outstanding` counts the operations between `begin_op` and `end_op`, and a commit starts when
the last of them ends, with `log.committing` set until it is over (`OpInv`). So operations begin,
write, and end only while no commit runs. `LogMove` lists what an action does in the light of this,
and `logStep_move` says that it does nothing else. The invariants of the log are proved from that
list.
-/

namespace SustainableXv6

open Function Lib

variable {O : Type} {s s' : LogState O}

/-- The operations, the counter, and the flag of a commit. -/
structure OpInv (s : LogState O) : Prop where
  outstanding : s.outstanding = s.inside.card
  idle : s.mode = .idle → s.committing = false
  commit : ∀ c, s.mode = .commit c → s.committing = true ∧ s.inside = ∅
  recover : ∀ r, s.mode = .recover r → s.committing = false ∧ s.inside = ∅

/-- No operation runs after booting. -/
theorem opInv_boot (d : Disk) : OpInv (.boot d : LogState O) where
  outstanding := rfl
  idle := fun h => by simp [LogState.boot] at h
  commit := fun c h => by simp [LogState.boot] at h
  recover := fun _ _ => ⟨rfl, rfl⟩

/-- An operation can act only while the log is idle. -/
theorem OpInv.idle_of_mem (hI : OpInv s) (hup : s.up = true) {o : O} (ho : o ∈ s.inside) :
    s.mode = .idle := by
  unfold LogState.up at hup
  cases hm : s.mode with
  | idle => rfl
  | commit c => simp [(hI.commit c hm).2] at ho
  | recover r | panicked m => simp [hm] at hup

/-- An operation can begin only while the log is idle. -/
theorem OpInv.idle_of_not_committing (hI : OpInv s) (hup : s.up = true)
    (hc : ¬ s.committing = true) : s.mode = .idle := by
  unfold LogState.up at hup
  cases hm : s.mode with
  | idle => rfl
  | commit c => exact absurd (hI.commit c hm).1 hc
  | recover r | panicked m => simp [hm] at hup

/-- A state that differs in the places of `commit` only keeps the operations. -/
theorem OpInv.of_commit (hI : OpInv s) {c c' : CommitPc} (hmode : s.mode = .commit c)
    (hout : s'.outstanding = s.outstanding) (hin : s'.inside = s.inside)
    (hc : s'.committing = s.committing) (hmode' : s'.mode = .commit c') : OpInv s' where
  outstanding := by rw [hout, hin]; exact hI.outstanding
  idle := by simp [hmode']
  commit := fun _ _ => by rw [hc, hin]; exact hI.commit c hmode
  recover := by simp [hmode']

/-- A state that differs in the places of the recovery only keeps the operations. -/
theorem OpInv.of_recover (hI : OpInv s) {r r' : RecoverPc} (hmode : s.mode = .recover r)
    (hout : s'.outstanding = s.outstanding) (hin : s'.inside = s.inside)
    (hc : s'.committing = s.committing) (hmode' : s'.mode = .recover r') : OpInv s' where
  outstanding := by rw [hout, hin]; exact hI.outstanding
  idle := by simp [hmode']
  commit := by simp [hmode']
  recover := fun _ _ => by rw [hc, hin]; exact hI.recover r hmode

/-! ## `log_write` -/

/-- The loop of `log_write` ends at the end of the list exactly if the block is not in it. -/
theorem absorbIndex_eq_length {lh : List BlockNo} {b : BlockNo} :
    absorbIndex lh b = lh.length ↔ b ∉ lh := by
  unfold absorbIndex
  rw [List.findIdx_eq_length]
  constructor
  · intro h hb
    simpa using h b hb
  · intro h x hx
    rw [beq_eq_false_iff_ne]
    rintro rfl
    exact h hx

/-- The store to a place that holds the block already does nothing. -/
theorem set_absorbIndex {lh : List BlockNo} {b : BlockNo} (h : b ∈ lh) :
    lh.set (absorbIndex lh b) b = lh := by
  have hlt : absorbIndex lh b < lh.length := List.findIdx_lt_length_of_exists ⟨b, h, by simp⟩
  have hget : lh[absorbIndex lh b] = b := by
    have := List.findIdx_getElem (w := hlt)
    exact eq_of_beq this
  refine List.ext_getElem (by simp) fun i hi hi' => ?_
  rw [List.getElem_set]
  split_ifs with he
  · subst he
    exact hget.symm
  · rfl

/-! ## What an action does -/

variable [DecidableEq O]

/-- The buffer and the history after a `log_write` that does not panic. -/
def LogState.logged (s : LogState O) (o : O) (b : BlockNo) (v : Block) : LogState O :=
  { s with
    cache := update s.cache b (some v)
    wrote := update s.wrote o (insert b (s.wrote o))
    pending := s.pending ++ [(b, v)] }

/-- What the action `a` does. -/
inductive LogMove (start : BlockNo) (s : LogState O) (a : LogAct O) (s' : LogState O) : Prop
  /-- `begin_op` admits an operation. -/
  | beginOp (o : O) (hmode : s.mode = .idle) (ho : o ∉ s.inside)
      (hroom : (s.lh.length : ℤ) + (s.outstanding + 1) * MAXOPBLOCKS ≤ LOGBLOCKS)
      (hs : s' = { s with
        outstanding := s.outstanding + 1
        inside := insert o s.inside
        wrote := update s.wrote o ∅ })
  /-- `log_write` finds the log full. -/
  | tooBig (o : O) (b : BlockNo) (v : Block) (ha : a = .logWrite o b v) (hmode : s.mode = .idle)
      (ho : o ∈ s.inside) (hfull : LOGBLOCKS ≤ s.lh.length)
      (hs : s' = s.setMode (.panicked .tooBig))
  /-- `log_write` finds the block in the log. -/
  | absorb (o : O) (b : BlockNo) (v : Block) (ha : a = .logWrite o b v) (hmode : s.mode = .idle)
      (ho : o ∈ s.inside) (hlen : s.lh.length < LOGBLOCKS) (hb : b ∈ s.lh)
      (hs : s' = s.logged o b v)
  /-- `log_write` adds the block to the log. -/
  | append (o : O) (b : BlockNo) (v : Block) (ha : a = .logWrite o b v) (hmode : s.mode = .idle)
      (ho : o ∈ s.inside) (hlen : s.lh.length < LOGBLOCKS) (hb : b ∉ s.lh)
      (hs : s' = { s.logged o b v with
        lh := s.lh ++ [b], pins := update s.pins b (s.pins b + 1) })
  /-- An operation ends, and others go on. -/
  | endOp (o : O) (hmode : s.mode = .idle) (ho : o ∈ s.inside) (hlast : s.inside.erase o ≠ ∅)
      (hs : s' = { s with outstanding := s.outstanding - 1, inside := s.inside.erase o })
  /-- The last operation ends, and calls `commit`. -/
  | lastEndOp (o : O) (hmode : s.mode = .idle) (ho : o ∈ s.inside) (hlast : s.inside.erase o = ∅)
      (hs : s' = { s with
        outstanding := 0, inside := ∅, committing := true, mode := .commit .start })
  /-- `commit` finds the log empty. -/
  | commitNone (hmode : s.mode = .commit .start) (hlh : s.lh = [])
      (hs : s' = s.setMode (.commit .done))
  /-- `commit` goes on to `write_log`. -/
  | commitSome (hmode : s.mode = .commit .start) (hlh : s.lh ≠ [])
      (hs : s' = s.setMode (.commit (.writeLog 0)))
  /-- `write_log` writes a block to its slot. -/
  | writeLog (tail : ℕ) (b : BlockNo) (hmode : s.mode = .commit (.writeLog tail))
      (hb : s.lh[tail]? = some b)
      (hs : s' = (s.bwrite (logSlot start tail) (s.bread b)).setMode
        (.commit (.writeLog (tail + 1))))
  /-- `write_log` has written all blocks. -/
  | writeLogEnd (tail : ℕ) (hmode : s.mode = .commit (.writeLog tail)) (hb : s.lh[tail]? = none)
      (hs : s' = s.setMode (.commit .writeHead))
  /-- `write_head` commits. -/
  | writeHead (hmode : s.mode = .commit .writeHead)
      (hs : s' = { (s.bwrite start (writeHeader (s.bread start) s.lh)).setMode
          (.commit (.install 0)) with
        committed := s.committed ++ [s.pending], pending := [] })
  /-- `install_trans` copies a block home. -/
  | install (tail : ℕ) (b : BlockNo) (hmode : s.mode = .commit (.install tail))
      (hb : s.lh[tail]? = some b)
      (hs : s' = { (s.bwrite b (s.bread (logSlot start tail))).setMode
          (.commit (.install (tail + 1))) with
        pins := update s.pins b (s.pins b - 1) })
  /-- `install_trans` has copied all blocks. -/
  | installEnd (tail : ℕ) (hmode : s.mode = .commit (.install tail)) (hb : s.lh[tail]? = none)
      (hs : s' = s.setMode (.commit .clear))
  /-- `write_head` erases the transaction. -/
  | clear (hmode : s.mode = .commit .clear)
      (hs : s' = { (s.bwrite start (writeHeader (s.bread start) [])).setMode (.commit .done) with
        lh := [] })
  /-- `end_op` returns from `commit`. -/
  | commitDone (hmode : s.mode = .commit .done)
      (hs : s' = { s with committing := false, mode := .idle })
  /-- The recovery reads the header. -/
  | readHead (hmode : s.mode = .recover .readHead)
      (hs : s' = { s with lh := readHeader (s.bread start), mode := .recover (.install 0) })
  /-- The recovery copies a block home. -/
  | replay (tail : ℕ) (b : BlockNo) (hmode : s.mode = .recover (.install tail))
      (hb : s.lh[tail]? = some b)
      (hs : s' = (s.bwrite b (s.bread (logSlot start tail))).setMode
        (.recover (.install (tail + 1))))
  /-- The recovery has copied all blocks. -/
  | replayEnd (tail : ℕ) (hmode : s.mode = .recover (.install tail)) (hb : s.lh[tail]? = none)
      (hs : s' = s.setMode (.recover .clear))
  /-- The recovery erases the log. -/
  | replayClear (hmode : s.mode = .recover .clear)
      (hs : s' = { (s.bwrite start (writeHeader (s.bread start) [])).setMode .idle with lh := [] })
  /-- A block is cached. -/
  | fetch (b : BlockNo) (hcache : s.cache b = none)
      (hs : s' = { s with cache := update s.cache b (some (s.disk b)) })
  /-- A buffer is recycled. -/
  | evict (b : BlockNo) (hpins : s.pins b = 0)
      (hs : s' = { s with cache := update s.cache b none })
  /-- The system crashes. -/
  | crash (hs : s' = { LogState.boot s.disk with committed := s.committed })

/-- What `log_write` of an operation does. -/
theorem LogMove.execLogWrite {start : BlockNo} (hI : OpInv s) {o : O} (hmode : s.mode = .idle)
    (ho : o ∈ s.inside) (b : BlockNo) (v : Block) :
    LogMove start s (.logWrite o b v) (execLogWrite s o b v) := by
  -- `outstanding` counts the operation itself.
  have hpos : ¬ s.outstanding < 1 := by
    have := Finset.card_pos.mpr ⟨o, ho⟩
    rw [hI.outstanding]
    omega
  unfold SustainableXv6.execLogWrite
  by_cases hfull : LOGBLOCKS ≤ s.lh.length
  · rw [if_pos hfull]
    exact .tooBig o b v rfl hmode ho hfull rfl
  · rw [if_neg hfull, if_neg hpos]
    by_cases hb : b ∈ s.lh
    · refine .absorb o b v rfl hmode ho (by omega) hb ?_
      simp only [absorbIndex_eq_length, hb, not_true_eq_false, if_false, set_absorbIndex hb]
      rfl
    · refine .append o b v rfl hmode ho (by omega) hb ?_
      simp only [absorbIndex_eq_length, hb, not_false_eq_true, if_true]
      rfl

/-- What `end_op` of an operation does. -/
theorem LogMove.execEndOp {start : BlockNo} (hI : OpInv s) {a : LogAct O} {o : O}
    (hmode : s.mode = .idle) (ho : o ∈ s.inside) : LogMove start s a (execEndOp s o) := by
  have hcard : (s.inside.erase o).card = s.outstanding - 1 := by
    rw [hI.outstanding, Finset.card_erase_of_mem ho]
    have := Finset.card_pos.mpr ⟨o, ho⟩
    omega
  unfold SustainableXv6.execEndOp
  dsimp only
  rw [if_neg (by simp [hI.idle hmode])]
  by_cases hlast : s.inside.erase o = ∅
  · have hzero : s.outstanding - 1 = 0 := by rw [← hcard, hlast]; rfl
    rw [if_pos hzero]
    exact .lastEndOp o hmode ho hlast (by rw [hlast, hzero])
  · have hzero : s.outstanding - 1 ≠ 0 := fun h => hlast <| by
      rw [← Finset.card_eq_zero]
      omega
    rw [if_neg hzero]
    exact .endOp o hmode ho hlast rfl

/-- What a step of `commit` does. -/
theorem LogMove.execCommit {start : BlockNo} {a : LogAct O} {c : CommitPc}
    (hmode : s.mode = .commit c) : LogMove start s a (execCommit start s c) := by
  cases c with
  | start =>
    by_cases hlh : s.lh = []
    · exact .commitNone hmode hlh (by simp [SustainableXv6.execCommit, hlh])
    · exact .commitSome hmode hlh (by simp [SustainableXv6.execCommit, hlh])
  | writeLog tail =>
    cases hb : s.lh[tail]? with
    | some b => exact .writeLog tail b hmode hb (by simp only [SustainableXv6.execCommit, hb])
    | none => exact .writeLogEnd tail hmode hb (by simp only [SustainableXv6.execCommit, hb])
  | writeHead => exact .writeHead hmode rfl
  | install tail =>
    cases hb : s.lh[tail]? with
    | some b => exact .install tail b hmode hb (by simp only [SustainableXv6.execCommit, hb])
    | none => exact .installEnd tail hmode hb (by simp only [SustainableXv6.execCommit, hb])
  | clear => exact .clear hmode rfl
  | done => exact .commitDone hmode rfl

/-- What a step of the recovery does. -/
theorem LogMove.execRecover {start : BlockNo} {a : LogAct O} {r : RecoverPc}
    (hmode : s.mode = .recover r) : LogMove start s a (execRecover start s r) := by
  cases r with
  | readHead => exact .readHead hmode rfl
  | install tail =>
    cases hb : s.lh[tail]? with
    | some b => exact .replay tail b hmode hb (by simp only [SustainableXv6.execRecover, hb])
    | none => exact .replayEnd tail hmode hb (by simp only [SustainableXv6.execRecover, hb])
  | clear => exact .replayClear hmode rfl

/-- What an action does. -/
theorem logStep_move {start : BlockNo} (hI : OpInv s) {a : LogAct O}
    (h : logStep start s a = some s') : LogMove start s a s' := by
  cases a with
  | beginOp o =>
    simp only [logStep, Option.ite_none_right_eq_some, Option.some.injEq] at h
    obtain ⟨⟨hup, ho, hc, hroom⟩, rfl⟩ := h
    exact .beginOp o (hI.idle_of_not_committing hup hc) ho hroom rfl
  | logWrite o b v =>
    simp only [logStep, Option.ite_none_right_eq_some, Option.some.injEq] at h
    obtain ⟨⟨hup, ho⟩, rfl⟩ := h
    exact .execLogWrite hI (hI.idle_of_mem hup ho) ho b v
  | endOp o =>
    simp only [logStep, Option.ite_none_right_eq_some, Option.some.injEq] at h
    obtain ⟨⟨hup, ho⟩, rfl⟩ := h
    exact .execEndOp hI (hI.idle_of_mem hup ho) ho
  | commit =>
    simp only [logStep] at h
    cases hm : s.mode with
    | commit c =>
      simp only [hm, Option.some.injEq] at h
      exact h ▸ .execCommit hm
    | idle | recover r | panicked m => simp [hm] at h
  | recover =>
    simp only [logStep] at h
    cases hm : s.mode with
    | recover r =>
      simp only [hm, Option.some.injEq] at h
      exact h ▸ .execRecover hm
    | idle | commit c | panicked m => simp [hm] at h
  | fetch b =>
    simp only [logStep, Option.ite_none_right_eq_some, Option.some.injEq] at h
    exact .fetch b h.1 h.2.symm
  | evict b =>
    simp only [logStep, Option.ite_none_right_eq_some, Option.some.injEq] at h
    exact .evict b h.1 h.2.symm
  | crash =>
    simp only [logStep, Option.some.injEq] at h
    exact .crash h.symm

/-- An action keeps the operations, the counter, and the flag in step. -/
theorem OpInv.step {start : BlockNo} (hI : OpInv s) {a : LogAct O}
    (h : logStep start s a = some s') : OpInv s' := by
  cases logStep_move hI h with
  | beginOp o hmode ho hroom hs =>
    subst hs
    refine ⟨?_, hI.idle, by simp [hmode], by simp [hmode]⟩
    simp only [Finset.card_insert_of_notMem ho, hI.outstanding, Nat.cast_add, Nat.cast_one]
  | tooBig o b v ha hmode ho hfull hs =>
    subst hs
    exact ⟨hI.outstanding, by simp, by simp, by simp⟩
  | absorb o b v ha hmode ho hlen hb hs =>
    subst hs
    exact ⟨hI.outstanding, hI.idle, hI.commit, hI.recover⟩
  | append o b v ha hmode ho hlen hb hs =>
    subst hs
    exact ⟨hI.outstanding, hI.idle, hI.commit, hI.recover⟩
  | endOp o hmode ho hlast hs =>
    subst hs
    refine ⟨?_, hI.idle, by simp [hmode], by simp [hmode]⟩
    have := Finset.card_pos.mpr ⟨o, ho⟩
    simp only [Finset.card_erase_of_mem ho, hI.outstanding]
    omega
  | lastEndOp o hmode ho hlast hs =>
    subst hs
    exact ⟨rfl, by simp, fun _ _ => ⟨rfl, rfl⟩, by simp⟩
  | commitNone hmode hlh hs | commitSome hmode hlh hs | writeLog tail b hmode hb hs
  | writeLogEnd tail hmode hb hs | writeHead hmode hs | install tail b hmode hb hs
  | installEnd tail hmode hb hs | clear hmode hs =>
    subst hs
    exact hI.of_commit hmode rfl rfl rfl rfl
  | commitDone hmode hs =>
    subst hs
    exact ⟨hI.outstanding, fun _ => rfl, by simp, by simp⟩
  | readHead hmode hs | replay tail b hmode hb hs | replayEnd tail hmode hb hs =>
    subst hs
    exact hI.of_recover hmode rfl rfl rfl rfl
  | replayClear hmode hs =>
    subst hs
    exact ⟨hI.outstanding, fun _ => (hI.recover _ hmode).1, by simp, by simp⟩
  | fetch b hcache hs =>
    subst hs
    exact ⟨hI.outstanding, hI.idle, hI.commit, hI.recover⟩
  | evict b hpins hs =>
    subst hs
    exact ⟨hI.outstanding, hI.idle, hI.commit, hI.recover⟩
  | crash hs =>
    subst hs
    exact ⟨rfl, by simp [LogState.boot], by simp [LogState.boot], fun _ _ => ⟨rfl, rfl⟩⟩

/-- The operations, the counter, and the flag are in step in every state reached. -/
theorem opInv_of_reachVia {start : BlockNo} {C : LogState O → LogAct O → Prop} {d : Disk}
    (h : ReachVia (logStep start) C (.boot d) s) : OpInv s :=
  h.invariant (opInv_boot d) fun _ _ _ _ hI _ hs => hI.step hs

end SustainableXv6
