import SustainableXv6.Log.Ops

/-!
# Room in the log

`begin_op` admits an operation only if the log has room for `MAXOPBLOCKS` blocks of each operation
that runs. The invariant behind this counts what the operations have used of their share already:
the blocks in the log and the shares together exceed `LOGBLOCKS` by at most the number of blocks
that the running operations have written (`Reserved.room`). So the log never has more than
`LOGBLOCKS` blocks, and it has room for each block that an operation has still to write. A block
that two operations write is counted twice, but it is in the log once.

`log_write` stops the system if the log is full, before it looks for the block in the log. A log
that is exactly full therefore cannot take the block of an operation that writes it again
(`rewrite_panics`). This is the only way to stop it: if no block is written again to a full log, no
`panic` is reached (`no_panic`).
-/

namespace SustainableXv6

open Function Lib

variable {O : Type} {s s' : LogState O}

/-! ## The operations -/

/-- Each operation writes at most `MAXOPBLOCKS` blocks, any number of times each. -/
def Disciplined (s : LogState O) : LogAct O → Prop
  | .logWrite o b _ => (insert b (s.wrote o)).card ≤ MAXOPBLOCKS
  | .beginOp _ | .endOp _ | .commit | .recover | .fetch _ | .evict _ | .crash => True

instance (s : LogState O) : ∀ a, Decidable (Disciplined s a)
  | .logWrite o b _ => inferInstanceAs (Decidable ((insert b (s.wrote o)).card ≤ MAXOPBLOCKS))
  | .beginOp _ | .endOp _ | .commit | .recover | .fetch _ | .evict _ | .crash => .isTrue trivial

/-- A block that is in the log is written again only while the log is not full. -/
def RewritesWithRoom (s : LogState O) : LogAct O → Prop
  | .logWrite _ b _ => b ∈ s.lh → s.lh.length < LOGBLOCKS
  | .beginOp _ | .endOp _ | .commit | .recover | .fetch _ | .evict _ | .crash => True

instance (s : LogState O) : ∀ a, Decidable (RewritesWithRoom s a)
  | .logWrite _ b _ => inferInstanceAs (Decidable (b ∈ s.lh → s.lh.length < LOGBLOCKS))
  | .beginOp _ | .endOp _ | .commit | .recover | .fetch _ | .evict _ | .crash => .isTrue trivial

/-! ## The shares of the operations -/

/-- How many blocks the running operations have written, where a block counts for each of them. -/
def LogState.used (s : LogState O) : ℕ := ∑ o ∈ s.inside, (s.wrote o).card

/-- The log has room for the shares of the operations. -/
structure Reserved (s : LogState O) : Prop where
  nodup : s.lh.Nodup
  pending : ∀ w ∈ s.pending, w.1 ∈ s.lh
  share : ∀ o ∈ s.inside, (s.wrote o).card ≤ MAXOPBLOCKS
  wrote : ∀ o ∈ s.inside, ∀ b ∈ s.wrote o, b ∈ s.lh
  room : s.lh.length + s.inside.card * MAXOPBLOCKS ≤ LOGBLOCKS + s.used

namespace Reserved

/-- An empty log without operations. -/
theorem of_empty (hlh : s.lh = []) (hpending : s.pending = []) (hin : s.inside = ∅) :
    Reserved s where
  nodup := by rw [hlh]; exact List.nodup_nil
  pending := by simp [hpending]
  share := by simp [hin]
  wrote := by simp [hin]
  room := by simp [hlh, hin]

/-- A state with the same log and the same operations, in which no more is pending. -/
theorem of_same (h : Reserved s) (hlh : s'.lh = s.lh) (hpending : ∀ w ∈ s'.pending, w ∈ s.pending)
    (hin : s'.inside = s.inside) (hwrote : s'.wrote = s.wrote) : Reserved s' where
  nodup := by rw [hlh]; exact h.nodup
  pending := by rw [hlh]; exact fun w hw => h.pending w (hpending w hw)
  share := by rw [hin, hwrote]; exact h.share
  wrote := by rw [hin, hwrote, hlh]; exact h.wrote
  room := by simp only [LogState.used, hlh, hin, hwrote]; exact h.room

/-- The log is never too long. -/
theorem length_le (h : Reserved s) : s.lh.length ≤ LOGBLOCKS := by
  have hused : s.used ≤ s.inside.card * MAXOPBLOCKS := Finset.sum_le_card_nsmul _ _ _ h.share
  have hroom := h.room
  omega

/-- The log has room for a block that an operation has not written yet. -/
theorem length_lt (h : Reserved s) {o : O} (ho : o ∈ s.inside)
    (hshare : (s.wrote o).card < MAXOPBLOCKS) : s.lh.length < LOGBLOCKS := by
  have hused : s.used < s.inside.card * MAXOPBLOCKS := by
    have := Finset.sum_lt_sum h.share ⟨o, ho, hshare⟩
    rw [Finset.sum_const, smul_eq_mul] at this
    exact this
  have hroom := h.room
  omega

variable [DecidableEq O]

/-- `begin_op` gives an operation its share. -/
theorem beginOp (h : Reserved s) (hO : OpInv s) {o : O} (ho : o ∉ s.inside)
    (hroom : (s.lh.length : ℤ) + (s.outstanding + 1) * MAXOPBLOCKS ≤ LOGBLOCKS) :
    Reserved { s with
      outstanding := s.outstanding + 1
      inside := insert o s.inside
      wrote := update s.wrote o ∅ } := by
  have hold {o' : O} (ho' : o' ∈ s.inside) : update s.wrote o ∅ o' = s.wrote o' :=
    update_of_ne (ne_of_mem_of_not_mem ho' ho) _ _
  refine ⟨h.nodup, h.pending, fun o' ho' => ?_, fun o' ho' => ?_, ?_⟩
  · rcases Finset.mem_insert.mp ho' with rfl | ho'
    · simp
    · simp only [hold ho']
      exact h.share o' ho'
  · rcases Finset.mem_insert.mp ho' with rfl | ho'
    · simp
    · simp only [hold ho']
      exact h.wrote o' ho'
  · rw [hO.outstanding] at hroom
    simp only [Finset.card_insert_of_notMem ho]
    have hroom' : s.lh.length + (s.inside.card + 1) * MAXOPBLOCKS ≤ LOGBLOCKS := by
      exact_mod_cast hroom
    exact hroom'.trans (Nat.le_add_right _ _)

/-- What the running operations have written after a `log_write`. -/
theorem used_logged {o : O} (ho : o ∈ s.inside) (b : BlockNo) (v : Block) :
    (s.logged o b v).used + (s.wrote o).card = s.used + (insert b (s.wrote o)).card := by
  have hrest : ∑ o' ∈ s.inside.erase o, ((s.logged o b v).wrote o').card =
      ∑ o' ∈ s.inside.erase o, (s.wrote o').card := by
    refine Finset.sum_congr rfl fun o' ho' => ?_
    simp only [LogState.logged, update_of_ne (Finset.ne_of_mem_erase ho')]
  have hself : (s.logged o b v).wrote o = insert b (s.wrote o) := by simp [LogState.logged]
  calc (s.logged o b v).used + (s.wrote o).card
      = ∑ o' ∈ s.inside.erase o, ((s.logged o b v).wrote o').card +
          ((s.logged o b v).wrote o).card + (s.wrote o).card := by
        rw [Finset.sum_erase_add _ _ ho]
        rfl
    _ = ∑ o' ∈ s.inside.erase o, (s.wrote o').card + (s.wrote o).card +
          (insert b (s.wrote o)).card := by
        rw [hrest, hself]
        omega
    _ = s.used + (insert b (s.wrote o)).card := by
        rw [Finset.sum_erase_add _ _ ho]
        rfl

/-- A `log_write` keeps the shares, if the log has the block afterwards and grows only by a block
that the operation has not written before. -/
theorem logWrite (h : Reserved s) {o : O} (ho : o ∈ s.inside) {b : BlockNo} {v : Block}
    (hshare : (insert b (s.wrote o)).card ≤ MAXOPBLOCKS) {lh : List BlockNo} (hnodup : lh.Nodup)
    (hlh : ∀ b', b' ∈ lh ↔ b' ∈ s.lh ∨ b' = b)
    (hlen : lh.length + (s.wrote o).card ≤ s.lh.length + (insert b (s.wrote o)).card)
    (hs : s'.lh = lh ∧ s'.pending = s.pending ++ [(b, v)] ∧ s'.inside = s.inside ∧
      s'.wrote = (s.logged o b v).wrote) : Reserved s' := by
  obtain ⟨hlh', hpending, hin, hwrote⟩ := hs
  have hw (o' : O) : (s.logged o b v).wrote o' =
      if o' = o then insert b (s.wrote o) else s.wrote o' := by
    by_cases he : o' = o
    · subst he
      simp [LogState.logged]
    · simp [LogState.logged, he]
  refine ⟨by rw [hlh']; exact hnodup, ?_, ?_, ?_, ?_⟩
  · rw [hpending, hlh']
    intro w hmem
    rcases List.mem_append.mp hmem with hmem | hmem
    · exact (hlh _).mpr (.inl (h.pending w hmem))
    · rw [List.mem_singleton.mp hmem]
      exact (hlh _).mpr (.inr rfl)
  · rw [hin, hwrote]
    intro o' ho'
    rw [hw]
    split_ifs with he
    · exact hshare
    · exact h.share o' ho'
  · rw [hin, hwrote, hlh']
    intro o' ho' b' hb'
    rw [hw] at hb'
    rw [hlh]
    split_ifs at hb' with he
    · rcases Finset.mem_insert.mp hb' with rfl | hb'
      · exact .inr rfl
      · exact .inl (h.wrote o ho b' hb')
    · exact .inl (h.wrote o' ho' b' hb')
  · have hroom := h.room
    have hused : s'.used = (s.logged o b v).used := by
      simp only [LogState.used, hin, hwrote]
      rfl
    have hcount := used_logged ho b v
    rw [hlh', hin, hused]
    omega

/-- An operation that ends gives back what it has not used of its share. -/
theorem endOp (h : Reserved s) {o : O} (ho : o ∈ s.inside) (hlh : s'.lh = s.lh)
    (hpending : s'.pending = s.pending) (hin : s'.inside = s.inside.erase o)
    (hwrote : s'.wrote = s.wrote) : Reserved s' := by
  refine ⟨by rw [hlh]; exact h.nodup, by rw [hpending, hlh]; exact h.pending, ?_, ?_, ?_⟩
  · rw [hin, hwrote]
    exact fun o' ho' => h.share o' (Finset.mem_of_mem_erase ho')
  · rw [hin, hwrote, hlh]
    exact fun o' ho' => h.wrote o' (Finset.mem_of_mem_erase ho')
  · have hroom := h.room
    have hshare := h.share o ho
    have hsum : s'.used + (s.wrote o).card = s.used := by
      simp only [LogState.used, hin, hwrote]
      exact Finset.sum_erase_add _ _ ho
    have hcard : s'.inside.card * MAXOPBLOCKS + MAXOPBLOCKS = s.inside.card * MAXOPBLOCKS := by
      rw [hin, ← Nat.succ_mul, Nat.succ_eq_add_one, Finset.card_erase_add_one ho]
    rw [hlh]
    omega

end Reserved

/-! ## The pins -/

/-- The blocks whose buffers are pinned: those in the log, until `install_trans` has copied them. -/
def LogState.pinned (s : LogState O) : LogMode → List BlockNo
  | .idle | .commit .start | .commit (.writeLog _) | .commit .writeHead | .commit .done
  | .panicked _ => s.lh
  | .commit (.install tail) => s.lh.drop tail
  | .commit .clear | .recover _ => []

/-- The last transaction has been committed, and no operation can have begun since. -/
def LogMode.afterHead : LogMode → Bool
  | .commit (.install _) | .commit .clear | .recover _ => true
  | .idle | .commit .start | .commit (.writeLog _) | .commit .writeHead | .commit .done
  | .panicked _ => false

/-- The log has room, and its blocks are pinned once. While the system recovers, `log.lh` is what
the disk had. -/
structure ReservationInv (s : LogState O) : Prop where
  pins : ∀ b, s.pins b = (s.pinned s.mode).count b
  reserved : (∀ r, s.mode ≠ .recover r) → Reserved s
  pending : s.mode.afterHead = true → s.pending = []

/-- No buffer is pinned after booting. -/
theorem reservationInv_boot (d : Disk) : ReservationInv (.boot d : LogState O) where
  pins := fun _ => rfl
  reserved := fun h => absurd rfl (h .readHead)
  pending := fun _ => rfl

/-- Up to the write of the header. -/
theorem ReservationInv.of_reserved (hpins : ∀ b, s.pins b = (s.pinned s.mode).count b)
    (hmode : s.mode.afterHead = false) (h : Reserved s) : ReservationInv s :=
  ⟨hpins, fun _ => h, fun hr => by simp [hmode] at hr⟩

/-- While the system is recovering. -/
theorem ReservationInv.of_recover {r : RecoverPc} (hmode : s.mode = .recover r)
    (hpins : ∀ b, s.pins b = 0) (hpending : s.pending = []) : ReservationInv s where
  pins := fun b => by rw [hmode, hpins b]; rfl
  reserved := fun h => absurd hmode (h r)
  pending := fun _ => hpending

/-- No buffer is pinned while the system is recovering. -/
theorem ReservationInv.pins_recover (hI : ReservationInv s) {r : RecoverPc}
    (hmode : s.mode = .recover r) (b : BlockNo) : s.pins b = 0 := by
  rw [hI.pins b, hmode]
  rfl

/-- The buffer of a block of the pending transaction is pinned once. -/
theorem ReservationInv.pins_pending (hI : ReservationInv s) (hres : Reserved s)
    {w : BlockNo × Block} (hw : w ∈ s.pending) : s.pins w.1 = 1 := by
  have hpinned : s.pinned s.mode = s.lh := by
    cases hm : s.mode with
    | idle | panicked m => rfl
    | recover r => simp [hI.pending (by rw [hm]; rfl)] at hw
    | commit c =>
      cases c with
      | start | writeLog tail | writeHead | done => rfl
      | install tail | clear => simp [hI.pending (by rw [hm]; rfl)] at hw
  rw [hI.pins, hpinned]
  exact List.count_eq_one_of_mem hres.nodup (hres.pending w hw)

section Step

variable [DecidableEq O] {start : BlockNo}

/-- An action keeps the room and the pins. -/
theorem ReservationInv.step (hO : OpInv s) (hI : ReservationInv s) {a : LogAct O}
    (hC : Disciplined s a) (h : logStep start s a = some s') : ReservationInv s' := by
  have hpins := hI.pins
  cases logStep_move hO h with
  | beginOp o hmode ho hroom hs =>
    have hres := hI.reserved (by simp [hmode])
    subst hs
    exact .of_reserved hpins (by simp [hmode, LogMode.afterHead]) (hres.beginOp hO ho hroom)
  | tooBig o b v ha hmode ho hfull hs =>
    have hres := hI.reserved (by simp [hmode])
    rw [hmode] at hpins
    subst hs
    exact .of_reserved hpins rfl (hres.of_same rfl (fun _ h => h) rfl rfl)
  | absorb o b v ha hmode ho hlen hb hs =>
    have hres := hI.reserved (by simp [hmode])
    rw [ha] at hC
    subst hs
    refine .of_reserved hpins (by simp [LogState.logged, hmode, LogMode.afterHead])
      (hres.logWrite ho hC hres.nodup (fun b' => ?_) ?_ ⟨rfl, rfl, rfl, rfl⟩)
    · constructor
      · exact .inl
      · rintro (hb' | rfl)
        · exact hb'
        · exact hb
    · have := Finset.card_le_card (Finset.subset_insert b (s.wrote o))
      omega
  | append o b v ha hmode ho hlen hb hs =>
    have hres := hI.reserved (by simp [hmode])
    rw [ha] at hC
    rw [hmode] at hpins
    have hnew : b ∉ s.wrote o := fun hmem => hb (hres.wrote o ho b hmem)
    have hmode' : s'.mode = .idle := by subst hs; exact hmode
    refine .of_reserved (fun b' => ?_) (by simp [hmode', LogMode.afterHead])
      (hres.logWrite (v := v) ho hC (hres.nodup.concat hb) (fun b' => ?_) ?_ ?_)
    · rw [hmode', hs]
      simp only [LogState.pinned, List.count_append]
      by_cases he : b' = b
      · subst he
        simp [hpins b', LogState.pinned]
      · simp [he, Ne.symm he, hpins b', LogState.pinned]
    · simp
    · rw [Finset.card_insert_of_notMem hnew]
      simp only [List.concat_eq_append, List.length_append, List.length_singleton]
      omega
    · subst hs
      exact ⟨by simp, rfl, rfl, rfl⟩
  | endOp o hmode ho hlast hs =>
    have hres := hI.reserved (by simp [hmode])
    subst hs
    exact .of_reserved hpins (by simp [hmode, LogMode.afterHead]) (hres.endOp ho rfl rfl rfl rfl)
  | lastEndOp o hmode ho hlast hs =>
    have hres := hI.reserved (by simp [hmode])
    rw [hmode] at hpins
    subst hs
    exact .of_reserved hpins rfl (hres.endOp ho rfl rfl hlast.symm rfl)
  | commitNone hmode hlh hs | commitSome hmode hlh hs | writeLogEnd tail hmode hb hs
  | writeLog tail b hmode hb hs | commitDone hmode hs =>
    have hres := hI.reserved (by simp [hmode])
    rw [hmode] at hpins
    subst hs
    exact .of_reserved hpins rfl (hres.of_same rfl (fun _ h => h) rfl rfl)
  | writeHead hmode hs =>
    have hres := hI.reserved (by simp [hmode])
    rw [hmode] at hpins
    subst hs
    exact ⟨hpins, fun _ => hres.of_same rfl (by simp) rfl rfl, fun _ => rfl⟩
  | install tail b hmode hb hs =>
    have hres := hI.reserved (by simp [hmode])
    have hpending := hI.pending (by rw [hmode]; rfl)
    rw [hmode] at hpins
    obtain ⟨hlt, rfl⟩ := List.getElem?_eq_some_iff.mp hb
    subst hs
    refine ⟨fun b' => ?_, fun _ => hres.of_same rfl (fun _ h => h) rfl rfl, fun _ => hpending⟩
    -- `bunpin` gives back the pin of the block that has been copied.
    have hcount (b' : BlockNo) : s.pins b' = (s.lh[tail] :: s.lh.drop (tail + 1)).count b' := by
      rw [hpins b', ← List.drop_eq_getElem_cons hlt]
      rfl
    show update s.pins s.lh[tail] (s.pins s.lh[tail] - 1) b' =
      (s.lh.drop (tail + 1)).count b'
    by_cases he : b' = s.lh[tail]
    · subst he
      rw [update_self, hcount, List.count_cons_self, Nat.add_sub_cancel]
    · rw [update_of_ne he, hcount, List.count_cons_of_ne (Ne.symm he)]
  | installEnd tail hmode hb hs =>
    have hres := hI.reserved (by simp [hmode])
    have hpending := hI.pending (by rw [hmode]; rfl)
    rw [hmode] at hpins
    have hdrop : s.lh.drop tail = [] := List.drop_eq_nil_iff.mpr (List.getElem?_eq_none_iff.mp hb)
    subst hs
    refine ⟨fun b' => ?_, fun _ => hres.of_same rfl (fun _ h => h) rfl rfl, fun _ => hpending⟩
    show s.pins b' = 0
    rw [hpins b']
    simp [LogState.pinned, hdrop]
  | clear hmode hs =>
    have hpending := hI.pending (by rw [hmode]; rfl)
    have hin := (hO.commit _ hmode).2
    rw [hmode] at hpins
    subst hs
    exact .of_reserved hpins rfl (.of_empty rfl hpending hin)
  | readHead hmode hs | replay tail b hmode hb hs | replayEnd tail hmode hb hs =>
    have hzero := hI.pins_recover hmode
    have hpending := hI.pending (by rw [hmode]; rfl)
    subst hs
    exact .of_recover rfl hzero hpending
  | replayClear hmode hs =>
    have hzero := hI.pins_recover hmode
    have hpending := hI.pending (by rw [hmode]; rfl)
    have hin := (hO.recover _ hmode).2
    subst hs
    exact .of_reserved hzero rfl (.of_empty rfl hpending hin)
  | fetch b hcache hs | evict b hpins' hs =>
    subst hs
    exact ⟨hpins, fun h => (hI.reserved h).of_same rfl (fun _ h => h) rfl rfl, hI.pending⟩
  | crash hs =>
    subst hs
    exact .of_recover rfl (fun _ => rfl) rfl

/-- The log has room and the pins are right in every state reached. -/
theorem reservationInv_of_reachVia {C : LogState O → LogAct O → Prop} {d : Disk}
    (hC : ∀ s a, C s a → Disciplined s a) (h : ReachVia (logStep start) C (.boot d) s) :
    ReservationInv s :=
  h.invariant (reservationInv_boot d) fun s a _ hr hI ha hs =>
    hI.step (opInv_of_reachVia hr) (hC s a ha) hs

/-- A `log_write` does not take effect while a commit runs. -/
theorem OpInv.logWrite_commit (hO : OpInv s) {c : CommitPc} (hmode : s.mode = .commit c) (o : O)
    (b : BlockNo) (v : Block) : logStep start s (.logWrite o b v) = none := by
  simp [logStep, (hO.commit c hmode).2]

/-- **The reservation invariant.** The log has at most `LOGBLOCKS` blocks, each once, and among them
every block that has been written since the last commit, whose buffer is pinned once. While a commit
runs, no operation does, and no `log_write` takes effect. -/
theorem log_reservation {d : Disk} (h : ReachVia (logStep start) Disciplined (.boot d) s)
    (hmode : ∀ r, s.mode ≠ .recover r) :
    s.lh.length ≤ LOGBLOCKS ∧ s.lh.Nodup ∧ (∀ w ∈ s.pending, w.1 ∈ s.lh ∧ s.pins w.1 = 1) ∧
      ∀ c, s.mode = .commit c → s.outstanding = 0 ∧ s.inside = ∅ ∧
        ∀ o b v, logStep start s (.logWrite o b v) = none := by
  have hO : OpInv s := opInv_of_reachVia h
  have hI : ReservationInv s := reservationInv_of_reachVia (fun _ _ h => h) h
  have hres : Reserved s := hI.reserved hmode
  refine ⟨hres.length_le, hres.nodup, fun w hw => ⟨hres.pending w hw, hI.pins_pending hres hw⟩,
    fun c hc => ?_⟩
  have hin : s.inside = ∅ := (hO.commit c hc).2
  refine ⟨?_, hin, hO.logWrite_commit hc⟩
  rw [hO.outstanding, hin]
  rfl

end Step

/-- Two operations write the block 40, and one of them the block 41, before they end. -/
def sharedBlock : List (LogAct ℕ) :=
  [.recover, .recover, .recover, .beginOp 0, .beginOp 1, .logWrite 0 40 fun _ => 1,
    .logWrite 1 40 fun _ => 2, .logWrite 1 41 fun _ => 3, .endOp 0, .endOp 1]

/-- The block 40 is in the log once, and the commit begins. -/
theorem log_reservation_sharedBlock :
    ∃ s : LogState ℕ, ReachVia (logStep 2) Disciplined (.boot zeroDisk) s ∧ s.lh = [40, 41] ∧
      s.mode = .commit .start ∧ s.outstanding = 0 ∧ s.inside = ∅ ∧
        ∀ o b v, logStep 2 s (.logWrite o b v) = none := by
  obtain ⟨s, hs, hlh, hmode⟩ := exists_of_run (logStep 2) Disciplined (.boot zeroDisk) sharedBlock
    (fun s => s.lh = [40, 41] ∧ s.mode = .commit .start) (by decide +kernel)
  exact ⟨s, hs, hlh, hmode, (log_reservation hs (by simp [hmode])).2.2.2 _ hmode⟩

/-! ## `panic` -/

/-- If no block is written again to a full log, the log is not full when an operation writes. -/
theorem Reserved.length_lt_of_rewritesWithRoom (hres : Reserved s) {o : O} {b : BlockNo} {v : Block}
    (ho : o ∈ s.inside) (hshare : Disciplined s (.logWrite o b v))
    (hroom : RewritesWithRoom s (.logWrite o b v)) : s.lh.length < LOGBLOCKS := by
  by_cases hb : b ∈ s.lh
  · exact hroom hb
  · have hnew : b ∉ s.wrote o := fun hmem => hb (hres.wrote o ho b hmem)
    have hcard : (insert b (s.wrote o)).card = (s.wrote o).card + 1 :=
      Finset.card_insert_of_notMem hnew
    have hle : (insert b (s.wrote o)).card ≤ MAXOPBLOCKS := hshare
    exact hres.length_lt ho (by omega)

section Panic

variable [DecidableEq O] {start : BlockNo}

/-- Operations that write at most `MAXOPBLOCKS` blocks each, and none again to a full log, do not
stop the system. -/
theorem no_panic {d : Disk}
    (h : ReachVia (logStep start) (fun s a => Disciplined s a ∧ RewritesWithRoom s a) (.boot d) s)
    (m : LogPanic) : s.mode ≠ .panicked m := by
  refine h.invariant (I := fun s => s.mode ≠ .panicked m) (by simp [LogState.boot]) ?_
  intro s a s' hr hne hC hs
  have hI : ReservationInv s := reservationInv_of_reachVia (fun _ _ h => h.1) hr
  cases logStep_move (opInv_of_reachVia hr) hs with
  | tooBig o b v ha hmode ho hfull hs =>
    rw [ha] at hC
    have hlt := (hI.reserved (by simp [hmode])).length_lt_of_rewritesWithRoom ho hC.1 hC.2
    omega
  | beginOp o hmode ho hroom hs | absorb o b v ha hmode ho hlen hb hs
  | append o b v ha hmode ho hlen hb hs | endOp o hmode ho hlast hs | fetch b hmode hs
  | evict b hmode hs =>
    subst hs
    exact hne
  | lastEndOp o hmode ho hlast hs | commitNone hmode hlh hs | commitSome hmode hlh hs
  | writeLog tail b hmode hb hs | writeLogEnd tail hmode hb hs | writeHead hmode hs
  | install tail b hmode hb hs | installEnd tail hmode hb hs | clear hmode hs
  | commitDone hmode hs | readHead hmode hs | replay tail b hmode hb hs
  | replayEnd tail hmode hb hs | replayClear hmode hs | crash hs =>
    subst hs
    simp [LogState.boot]

end Panic

/-- Three operations write ten blocks each. -/
def fillsLog : List (LogAct ℕ) :=
  .recover :: .recover :: .recover :: .beginOp 0 :: .beginOp 1 :: .beginOp 2 ::
    (List.range LOGBLOCKS).map fun i =>
      .logWrite (i / MAXOPBLOCKS) (40 + UInt32.ofNat i) fun _ => 1

/-- A log that is filled once does not stop the system. -/
theorem no_panic_fillsLog :
    ∃ s : LogState ℕ,
      ReachVia (logStep 2) (fun s a => Disciplined s a ∧ RewritesWithRoom s a) (.boot zeroDisk) s ∧
        s.lh.length = LOGBLOCKS ∧ s.mode ≠ .panicked .tooBig := by
  obtain ⟨s, hs, hp⟩ := exists_of_run (logStep 2)
    (fun s a => Disciplined s a ∧ RewritesWithRoom s a) (.boot zeroDisk) fillsLog
    (fun s => s.lh.length = LOGBLOCKS) (by decide +kernel)
  exact ⟨s, hs, hp, no_panic hs _⟩

/-- An operation that writes one of its blocks again then stops it, although the block is in the
log. -/
theorem rewrite_panics :
    ∃ s : LogState ℕ, ReachVia (logStep 2) Disciplined (.boot zeroDisk) s ∧
      s.mode = .panicked .tooBig :=
  exists_of_run (logStep 2) Disciplined (.boot zeroDisk) (fillsLog ++ [.logWrite 0 40 fun _ => 2]) _
    (by decide +kernel)

end SustainableXv6
