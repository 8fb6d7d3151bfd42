import SustainableXv6.Log.Ops

/-!
# Crash atomicity

Whatever the operations write, and wherever the machine crashes, the disk that a recovery leaves has
an empty log, and its blocks outside the log are those that the committed transactions have written,
in order and whole (`crash_atomic`). A transaction counts as committed from the write of its header
on.

The invariant `CrashInv` has two parts. At any time the disk is recoverable to the blocks that the
committed transactions have written: this is the part that survives a crash. What the memory holds
depends on the place of the code. Up to the write of the header the log on the disk is empty and the
cache has the new blocks, pinned (`Prepared`). From then on the header on the disk is the one in
memory, and the buffers agree with the disk but for the blocks that are still to be copied
(`Committed`). The recovery copies the blocks in the same way, and may crash as well.
-/

namespace SustainableXv6

open Function Lib Lib.RedoLog

variable {O : Type} {s s' : LogState O} {L : Layout BlockNo Block} {d₀ : Disk}

/-! ## Transactions -/

/-- The blocks that the committed transactions have written, over those of the disk `d₀`. -/
def LogState.target (s : LogState O) (d₀ : Disk) : Disk := applyAll d₀ s.committed

/-- The blocks after the calls of `log_write` since then. -/
def LogState.next (s : LogState O) (d₀ : Disk) : Disk := Tx.apply (s.target d₀) s.pending

/-- One more transaction. -/
theorem applyAll_concat (d : Disk) (txs : List Tx) (tx : Tx) :
    applyAll d (txs ++ [tx]) = Tx.apply (applyAll d txs) tx := by
  simp [applyAll]

/-- One more write. -/
theorem Tx.apply_concat (d : Disk) (tx : Tx) (b : BlockNo) (v : Block) :
    Tx.apply d (tx ++ [(b, v)]) = update (Tx.apply d tx) b v := by
  simp [Tx.apply]

/-! ## The cache -/

/-- The buffers agree with the disk, but for those of the blocks `l`. -/
def LogState.CleanBut (s : LogState O) (l : List BlockNo) : Prop :=
  ∀ b v, b ∉ l → s.cache b = some v → v = s.disk b

/-- A block whose buffer agrees with the disk is read as it is on the disk. -/
theorem LogState.CleanBut.bread {l : List BlockNo} (h : s.CleanBut l) {b : BlockNo} (hb : b ∉ l) :
    s.bread b = s.disk b := by
  unfold LogState.bread
  cases hc : s.cache b with
  | none => rfl
  | some v => exact h b v hb hc

/-- After a write to the disk the buffer of the block agrees with it. -/
theorem LogState.CleanBut.bwrite {l l' : List BlockNo} (h : s.CleanBut l) (b : BlockNo) (v : Block)
    (hl : ∀ b', b' ≠ b → b' ∉ l' → b' ∉ l) : (s.bwrite b v).CleanBut l' := by
  intro b' w hb' hc
  by_cases he : b' = b
  · subst he
    simp only [LogState.bwrite_cache, LogState.bwrite_disk, update_self,
      Option.some.injEq] at hc ⊢
    exact hc.symm
  · simp only [LogState.bwrite_cache, LogState.bwrite_disk, update_of_ne he] at hc ⊢
    exact h b' w (hl b' he hb') hc

/-! ## Before and after the commit point -/

/-- Before the write of the header: the log on the disk is empty, the cache has the new contents of
the blocks in `log.lh`, and these are all that differ. -/
structure Prepared (L : Layout BlockNo Block) (d₀ : Disk) (s : LogState O) : Prop where
  header : L.header s.disk = []
  length : s.lh.length ≤ L.size
  home : ∀ b ∈ s.lh, L.IsHome b
  cached : ∀ b ∈ s.lh, s.cache b = some (s.next d₀ b)
  pinned : ∀ b ∈ s.lh, s.pins b ≠ 0
  rest : ∀ b, b ∉ s.lh → s.next d₀ b = s.target d₀ b
  clean : s.CleanBut s.lh

/-- After the write of the header: the log on the disk is `log.lh`, and its first `n` blocks have
been copied home. -/
structure Committed (L : Layout BlockNo Block) (d₀ : Disk) (s : LogState O) (n : ℕ) : Prop where
  header : L.header s.disk = s.lh
  pending : s.pending = []
  installed : Installed L s.disk (s.target d₀) n
  clean : s.CleanBut (s.lh.drop n)

/-- What holds at a place of the code. -/
def Phase (L : Layout BlockNo Block) (d₀ : Disk) (s : LogState O) : LogMode → Prop
  | .idle | .commit .start | .commit .done => Prepared L d₀ s
  | .commit (.writeLog tail) => Prepared L d₀ s ∧ Logged L s.disk (s.next d₀) s.lh tail
  | .commit .writeHead => Prepared L d₀ s ∧ Logged L s.disk (s.next d₀) s.lh s.lh.length
  | .commit (.install tail) | .recover (.install tail) => Committed L d₀ s tail
  | .commit .clear | .recover .clear => Committed L d₀ s s.lh.length
  | .recover .readHead => s.pending = [] ∧ s.CleanBut []
  | .panicked _ => True

/-- The disk can be recovered, and the memory fits it. -/
structure CrashInv (L : Layout BlockNo Block) (d₀ : Disk) (s : LogState O) : Prop where
  recoverable : Recoverable L s.disk (s.target d₀)
  phase : Phase L d₀ s s.mode

/-! ## Steps that leave the disk -/

/-- The disk, the cache, the log, and the history are the same. -/
structure SameStore (s s' : LogState O) : Prop where
  disk : s'.disk = s.disk
  cache : s'.cache = s.cache
  lh : s'.lh = s.lh
  committed : s'.committed = s.committed
  pending : s'.pending = s.pending

namespace SameStore

/-- The target stays. -/
theorem target (h : SameStore s s') : s'.target d₀ = s.target d₀ := by
  unfold LogState.target
  rw [h.committed]

/-- The blocks to be committed stay. -/
theorem next (h : SameStore s s') : s'.next d₀ = s.next d₀ := by
  unfold LogState.next
  rw [h.target, h.pending]

/-- The buffers agree with the disk as before. -/
theorem cleanBut (h : SameStore s s') {l : List BlockNo} (hc : s.CleanBut l) : s'.CleanBut l := by
  unfold LogState.CleanBut
  rw [h.cache, h.disk]
  exact hc

end SameStore

/-- Before the write of the header. -/
theorem Prepared.of_same (hp : Prepared L d₀ s) (h : SameStore s s') (hpins : s'.pins = s.pins) :
    Prepared L d₀ s' where
  header := by rw [h.disk]; exact hp.header
  length := by rw [h.lh]; exact hp.length
  home := by rw [h.lh]; exact hp.home
  cached := by rw [h.lh, h.cache, h.next]; exact hp.cached
  pinned := by rw [h.lh, hpins]; exact hp.pinned
  rest := by rw [h.lh, h.next, h.target]; exact hp.rest
  clean := by rw [h.lh]; exact h.cleanBut hp.clean

/-- After the write of the header. -/
theorem Committed.of_same {n : ℕ} (hc : Committed L d₀ s n) (h : SameStore s s') :
    Committed L d₀ s' n where
  header := by rw [h.disk, h.lh]; exact hc.header
  pending := by rw [h.pending]; exact hc.pending
  installed := by rw [h.disk, h.target]; exact hc.installed
  clean := by rw [h.lh]; exact h.cleanBut hc.clean

/-- The cache after a buffer has been filled from the disk or recycled. -/
structure Recycled (s : LogState O) (cache : BlockNo → Option Block) : Prop where
  clean : ∀ b v, cache b = some v → s.cache b = some v ∨ v = s.disk b
  pinned : ∀ b v, s.pins b ≠ 0 → s.cache b = some v → cache b = some v

/-- A block that was not cached is read. -/
theorem recycled_fetch {b : BlockNo} (h : s.cache b = none) :
    Recycled s (update s.cache b (some (s.disk b))) where
  clean := fun b' v hv => by
    by_cases he : b' = b
    · subst he
      rw [update_self, Option.some.injEq] at hv
      exact .inr hv.symm
    · rw [update_of_ne he] at hv
      exact .inl hv
  pinned := fun b' v _ hv => by
    have he : b' ≠ b := by
      rintro rfl
      rw [h] at hv
      exact absurd hv (by simp)
    rw [update_of_ne he]
    exact hv

/-- The buffer of a block that is not pinned is recycled. -/
theorem recycled_evict {b : BlockNo} (h : s.pins b = 0) :
    Recycled s (update s.cache b none) where
  clean := fun b' v hv => by
    have he : b' ≠ b := by
      rintro rfl
      simp at hv
    rw [update_of_ne he] at hv
    exact .inl hv
  pinned := fun b' v hp hv => by
    have he : b' ≠ b := by
      rintro rfl
      exact hp h
    rw [update_of_ne he]
    exact hv

namespace Recycled

variable {cache : BlockNo → Option Block}

/-- The buffers agree with the disk as before. -/
theorem cleanBut (h : Recycled s cache) {l : List BlockNo} (hc : s.CleanBut l) :
    ({ s with cache := cache } : LogState O).CleanBut l := by
  intro b v hb hv
  rcases h.clean b v hv with hv | hv
  · exact hc b v hb hv
  · exact hv

/-- Before the write of the header. The new contents of the blocks in the log stay, since they are
pinned. -/
theorem prepared (h : Recycled s cache) (hp : Prepared L d₀ s) :
    Prepared L d₀ { s with cache := cache } :=
  ⟨hp.header, hp.length, hp.home,
    fun b hb => h.pinned b _ (hp.pinned b hb) (hp.cached b hb), hp.pinned, hp.rest,
    h.cleanBut hp.clean⟩

/-- After the write of the header. -/
theorem committedAt (h : Recycled s cache) {n : ℕ} (hc : Committed L d₀ s n) :
    Committed L d₀ { s with cache := cache } n :=
  ⟨hc.header, hc.pending, hc.installed, h.cleanBut hc.clean⟩

/-- At any place of the code. -/
theorem phase (h : Recycled s cache) {m : LogMode} (hp : Phase L d₀ s m) :
    Phase L d₀ { s with cache := cache } m := by
  cases m with
  | idle => exact h.prepared hp
  | commit c =>
    cases c with
    | start | done => exact h.prepared hp
    | writeLog tail => exact ⟨h.prepared hp.1, hp.2⟩
    | writeHead => exact ⟨h.prepared hp.1, hp.2⟩
    | install tail => exact h.committedAt hp
    | clear => exact h.committedAt hp
  | recover r =>
    cases r with
    | readHead => exact ⟨hp.1, h.cleanBut hp.2⟩
    | install tail => exact h.committedAt hp
    | clear => exact h.committedAt hp
  | panicked m => trivial

end Recycled

/-! ## `log_write` -/

section LogWrite

variable [DecidableEq O]

/-- The blocks to be committed after a `log_write`. -/
theorem LogState.next_logged (s : LogState O) (o : O) (b : BlockNo) (v : Block) :
    (s.logged o b v).next d₀ = update (s.next d₀) b v :=
  Tx.apply_concat _ _ _ _

/-- After a `log_write` the cache has the new contents of the block, and of the blocks before. -/
theorem Prepared.cached_logged (hp : Prepared L d₀ s) (o : O) (b : BlockNo) (v : Block)
    {b' : BlockNo} (hb' : b' ∈ s.lh ∨ b' = b) :
    (s.logged o b v).cache b' = some ((s.logged o b v).next d₀ b') := by
  rw [LogState.next_logged]
  by_cases he : b' = b
  · subst he
    simp [LogState.logged]
  · simp only [LogState.logged, update_of_ne he]
    exact hp.cached b' (hb'.resolve_right he)

/-- A block that is neither in the log nor written now stays. -/
theorem Prepared.rest_logged (hp : Prepared L d₀ s) (o : O) (b : BlockNo) (v : Block) {b' : BlockNo}
    (hb' : b' ∉ s.lh) (he : b' ≠ b) : (s.logged o b v).next d₀ b' = s.target d₀ b' := by
  rw [LogState.next_logged, update_of_ne he]
  exact hp.rest b' hb'

/-- The buffers after a `log_write`. -/
theorem Prepared.clean_logged (hp : Prepared L d₀ s) (o : O) (b : BlockNo) (v : Block)
    {l : List BlockNo} (hb : b ∈ l) (hl : ∀ b' ∈ s.lh, b' ∈ l) : (s.logged o b v).CleanBut l := by
  intro b' w hb' hc
  have he : b' ≠ b := by
    rintro rfl
    exact hb' hb
  simp only [LogState.logged, update_of_ne he] at hc
  exact hp.clean b' w (fun h => hb' (hl b' h)) hc

/-- A `log_write` that finds the block in the log. -/
theorem Prepared.absorb (hp : Prepared L d₀ s) (o : O) {b : BlockNo} (v : Block) (hb : b ∈ s.lh) :
    Prepared L d₀ (s.logged o b v) where
  header := hp.header
  length := hp.length
  home := hp.home
  cached := fun _ hb' => hp.cached_logged o b v (.inl hb')
  pinned := hp.pinned
  rest := fun _ hb' => hp.rest_logged o b v hb' fun he => hb' (he ▸ hb)
  clean := hp.clean_logged o b v hb fun _ h => h

/-- A `log_write` that adds the block to the log. -/
theorem Prepared.append (hp : Prepared L d₀ s) (o : O) {b : BlockNo} (v : Block)
    (hlen : s.lh.length < L.size) (hhome : L.IsHome b) :
    Prepared L d₀ { s.logged o b v with
      lh := s.lh ++ [b], pins := update s.pins b (s.pins b + 1) } := by
  have hmem {b' : BlockNo} : b' ∈ s.lh ++ [b] ↔ b' ∈ s.lh ∨ b' = b := by simp
  refine ⟨hp.header, ?_, fun b' hb' => ?_, fun b' hb' => ?_, fun b' hb' => ?_, fun b' hb' => ?_, ?_⟩
  · simp only [List.length_append, List.length_singleton]
    omega
  · rcases hmem.mp hb' with hb' | rfl
    · exact hp.home b' hb'
    · exact hhome
  · exact hp.cached_logged o b v (hmem.mp hb')
  · by_cases he : b' = b
    · subst he
      simp
    · simp only [update_of_ne he]
      exact hp.pinned b' ((hmem.mp hb').resolve_right he)
  · exact hp.rest_logged o b v (fun h => hb' (hmem.mpr (.inl h))) fun he => hb' (hmem.mpr (.inr he))
  · exact hp.clean_logged o b v (hmem.mpr (.inr rfl)) fun _ h => hmem.mpr (.inl h)

end LogWrite

/-! ## `write_log` and `write_head` -/

/-- A write to a log slot leaves the rest. -/
theorem Prepared.write_slot (hp : Prepared L d₀ s) {i : ℕ} (hi : i < L.size) (v : Block) :
    Prepared L d₀ (s.bwrite (L.slot i) v) where
  header := by rw [LogState.bwrite_disk, Layout.header_update_slot hi]; exact hp.header
  length := hp.length
  home := hp.home
  cached := fun b hb => by
    rw [LogState.bwrite_cache, update_of_ne ((hp.home b hb).2 i hi)]
    exact hp.cached b hb
  pinned := hp.pinned
  rest := hp.rest
  clean := hp.clean.bwrite _ _ fun _ _ h => h

/-- What `write_log` reads is the new contents of a block. -/
theorem Prepared.bread (hp : Prepared L d₀ s) {b : BlockNo} (hb : b ∈ s.lh) :
    s.bread b = s.next d₀ b := by
  unfold LogState.bread
  rw [hp.cached b hb, Option.getD_some]

/-- The write of the header commits the transaction. -/
theorem Prepared.commit (hp : Prepared L d₀ s) (hr : Recoverable L s.disk (s.target d₀))
    (hlog : Logged L s.disk (s.next d₀) s.lh s.lh.length) {v : Block} (hv : L.decode v = s.lh) :
    Recoverable L (update s.disk L.head v) (s.next d₀) :=
  hr.commit hp.header (by rw [hv]; exact hp.length) (by rw [hv]; exact hp.home)
    (by rw [hv]; exact hlog) (by rw [hv]; exact hp.rest)

/-! ## `install_trans` and the second `write_head` -/

/-- The copy of a block home. -/
theorem Committed.install {n : ℕ} {b : BlockNo} (hc : Committed L d₀ s n)
    (hr : Recoverable L s.disk (s.target d₀)) (hb : s.lh[n]? = some b) :
    Recoverable L (s.bwrite b (s.bread (L.slot n))).disk (s.target d₀) ∧
      Committed L d₀ (s.bwrite b (s.bread (L.slot n))) (n + 1) := by
  obtain ⟨hn, rfl⟩ := List.getElem?_eq_some_iff.mp hb
  have hheader := hc.header
  have hn' : n < (L.header s.disk).length := by rw [hheader]; exact hn
  have hhome : L.IsHome s.lh[n] := hr.home _ (by rw [hheader]; exact List.getElem_mem hn)
  -- The slot is read as it is on the disk, since no block of the log is a slot.
  have hread : s.bread (L.slot n) = s.disk (L.slot n) := by
    refine hc.clean.bread fun hmem => ?_
    have hslot : L.IsHome (L.slot n) := hr.home _ (by rw [hheader]; exact List.mem_of_mem_drop hmem)
    exact hslot.2 n (lt_of_lt_of_le hn' hr.length) rfl
  have hdisk : (s.bwrite s.lh[n] (s.bread (L.slot n))).disk =
      update s.disk (L.header s.disk)[n] (s.disk (L.slot n)) := by
    rw [LogState.bwrite_disk, hread]
    simp only [hheader]
  refine ⟨by rw [hdisk]; exact hr.install hn', ?_, hc.pending, ?_, ?_⟩
  · rw [LogState.bwrite_disk, Layout.header_update_home hhome]
    exact hheader
  · rw [hdisk]
    exact Installed.succ hr hn' hc.installed
  · refine hc.clean.bwrite _ _ fun b' hne hb' => ?_
    rw [List.drop_eq_getElem_cons hn, List.mem_cons, not_or]
    exact ⟨hne, hb'⟩

/-- After the last copy. -/
theorem Committed.all {n : ℕ} (hc : Committed L d₀ s n) (hn : s.lh[n]? = none) :
    Committed L d₀ s s.lh.length := by
  have hlen : s.lh.length ≤ n := List.getElem?_eq_none_iff.mp hn
  refine ⟨hc.header, hc.pending, fun i hi hin => hc.installed i hi (by omega), ?_⟩
  have hclean := hc.clean
  rw [List.drop_of_length_le hlen] at hclean
  rw [List.drop_length]
  exact hclean

/-- After the last copy the header is cleared. -/
theorem Committed.clear (hc : Committed L d₀ s s.lh.length)
    (hr : Recoverable L s.disk (s.target d₀)) {v : Block} (hv : L.decode v = []) :
    Recoverable L (s.bwrite L.head v).disk (s.target d₀) ∧
      ∀ {s'}, SameStore { s.bwrite L.head v with lh := [] } s' → Prepared L d₀ s' := by
  have hinstalled := hc.installed
  rw [← hc.header] at hinstalled
  refine ⟨hr.clear hinstalled hv, fun {s'} hs => ?_⟩
  have hlh : s'.lh = [] := hs.lh
  refine ⟨?_, by simp [hlh], by simp [hlh], by simp [hlh], by simp [hlh], fun b _ => ?_, ?_⟩
  · rw [hs.disk]
    exact (Layout.header_update_head v).trans hv
  · have hpending : s'.pending = [] := hs.pending.trans hc.pending
    simp only [LogState.next, hpending]
    rfl
  · rw [hlh]
    refine hs.cleanBut ?_
    have hclean := hc.clean
    rw [List.drop_length] at hclean
    exact hclean.bwrite L.head v fun _ _ h => h

/-! ## Runs -/

/-- A block outside the log area. -/
def OutsideLog (start b : BlockNo) : Prop := b ≠ start ∧ ∀ i, i < LOGBLOCKS → b ≠ logSlot start i

instance (start b : BlockNo) : Decidable (OutsideLog start b) := inferInstanceAs (Decidable (_ ∧ _))

/-- The operations write blocks outside the log area only. -/
def HomeWrites (start : BlockNo) (_ : LogState O) : LogAct O → Prop
  | .logWrite _ b _ => OutsideLog start b
  | .beginOp _ | .endOp _ | .commit | .recover | .fetch _ | .evict _ | .crash => True

instance (start : BlockNo) (s : LogState O) : ∀ a, Decidable (HomeWrites start s a)
  | .logWrite _ b _ => inferInstanceAs (Decidable (OutsideLog start b))
  | .beginOp _ | .endOp _ | .commit | .recover | .fetch _ | .evict _ | .crash => .isTrue trivial

/-- The recovery goes on without a crash. -/
def OnlyRecovers (_ : LogState O) (a : LogAct O) : Prop := a = .recover

section Step

variable {start : BlockNo} (hstart : start.toNat + LOGBLOCKS < 2 ^ 32)

/-- The system boots from a disk with an empty log. -/
theorem crashInv_boot (h₀ : readHeader (d₀ start) = []) :
    CrashInv (logLayout start hstart) d₀ (.boot d₀ : LogState O) where
  recoverable := recoverable_of_header_nil h₀ fun _ _ => rfl
  phase := ⟨rfl, fun b v _ hv => by simp [LogState.boot] at hv⟩

variable [DecidableEq O]

/-- An action keeps the disk recoverable and the memory fit. -/
theorem CrashInv.step (hO : OpInv s) (hI : CrashInv (logLayout start hstart) d₀ s) {a : LogAct O}
    (hC : HomeWrites start s a) (h : logStep start s a = some s') :
    CrashInv (logLayout start hstart) d₀ s' := by
  obtain ⟨hr, hphase⟩ := hI
  cases logStep_move hO h with
  | beginOp o hmode ho hroom hs =>
    rw [hmode] at hphase
    subst hs
    refine ⟨hr, ?_⟩
    show Phase _ _ _ s.mode
    rw [hmode]
    exact Prepared.of_same hphase ⟨rfl, rfl, rfl, rfl, rfl⟩ rfl
  | tooBig o b v ha hmode ho hfull hs =>
    subst hs
    exact ⟨hr, trivial⟩
  | absorb o b v ha hmode ho hlen hb hs =>
    rw [hmode] at hphase
    subst hs
    refine ⟨hr, ?_⟩
    show Phase _ _ _ s.mode
    rw [hmode]
    exact Prepared.absorb hphase o v hb
  | append o b v ha hmode ho hlen hb hs =>
    rw [hmode] at hphase
    rw [ha] at hC
    subst hs
    refine ⟨hr, ?_⟩
    show Phase _ _ _ s.mode
    rw [hmode]
    exact Prepared.append hphase o v hlen hC
  | endOp o hmode ho hlast hs =>
    rw [hmode] at hphase
    subst hs
    refine ⟨hr, ?_⟩
    show Phase _ _ _ s.mode
    rw [hmode]
    exact Prepared.of_same hphase ⟨rfl, rfl, rfl, rfl, rfl⟩ rfl
  | lastEndOp o hmode ho hlast hs =>
    rw [hmode] at hphase
    subst hs
    exact ⟨hr, Prepared.of_same hphase ⟨rfl, rfl, rfl, rfl, rfl⟩ rfl⟩
  | commitNone hmode hlh hs =>
    rw [hmode] at hphase
    subst hs
    exact ⟨hr, Prepared.of_same hphase ⟨rfl, rfl, rfl, rfl, rfl⟩ rfl⟩
  | commitSome hmode hlh hs =>
    rw [hmode] at hphase
    subst hs
    refine ⟨hr, Prepared.of_same hphase ⟨rfl, rfl, rfl, rfl, rfl⟩ rfl, fun i _ hi => ?_⟩
    omega
  | writeLog tail b hmode hb hs =>
    rw [hmode] at hphase
    obtain ⟨hp, hlog⟩ := hphase
    obtain ⟨hlt, rfl⟩ := List.getElem?_eq_some_iff.mp hb
    have hi : tail < LOGBLOCKS := lt_of_lt_of_le hlt hp.length
    rw [hp.bread (List.getElem_mem hlt)] at hs
    subst hs
    refine ⟨hr.write_slot hp.header hi _, ?_, hlog.succ hlt hp.length⟩
    exact (hp.write_slot hi _).of_same ⟨rfl, rfl, rfl, rfl, rfl⟩ rfl
  | writeLogEnd tail hmode hb hs =>
    rw [hmode] at hphase
    have hlen : s.lh.length ≤ tail := List.getElem?_eq_none_iff.mp hb
    subst hs
    refine ⟨hr, hphase.1.of_same ⟨rfl, rfl, rfl, rfl, rfl⟩ rfl, fun i hi _ => ?_⟩
    exact hphase.2 i hi (lt_of_lt_of_le hi hlen)
  | writeHead hmode hs =>
    rw [hmode] at hphase
    obtain ⟨hp, hlog⟩ := hphase
    have hv : readHeader (writeHeader (s.bread start) s.lh) = s.lh :=
      readHeader_writeHeader _ hp.length
    -- The target becomes what the transaction has prepared.
    have htarget : applyAll d₀ (s.committed ++ [s.pending]) = s.next d₀ := applyAll_concat _ _ _
    subst hs
    refine ⟨?_, ?_, rfl, fun i _ hi => ?_, ?_⟩
    · show Recoverable _ _ (applyAll d₀ (s.committed ++ [s.pending]))
      rw [htarget]
      exact hp.commit hr hlog hv
    · exact (Layout.header_update_head _).trans hv
    · omega
    · exact hp.clean.bwrite start _ fun _ _ h => h
  | install tail b hmode hb hs =>
    rw [hmode] at hphase
    obtain ⟨hr', hc'⟩ := hphase.install hr hb
    subst hs
    exact ⟨hr', hc'.of_same ⟨rfl, rfl, rfl, rfl, rfl⟩⟩
  | installEnd tail hmode hb hs =>
    rw [hmode] at hphase
    subst hs
    exact ⟨hr, (hphase.all hb).of_same ⟨rfl, rfl, rfl, rfl, rfl⟩⟩
  | clear hmode hs =>
    rw [hmode] at hphase
    obtain ⟨hr', hp'⟩ := hphase.clear hr (readHeader_writeHeader (s.bread start) (Nat.zero_le _))
    subst hs
    exact ⟨hr', hp' ⟨rfl, rfl, rfl, rfl, rfl⟩⟩
  | commitDone hmode hs =>
    rw [hmode] at hphase
    subst hs
    exact ⟨hr, Prepared.of_same hphase ⟨rfl, rfl, rfl, rfl, rfl⟩ rfl⟩
  | readHead hmode hs =>
    rw [hmode] at hphase
    obtain ⟨hpending, hclean⟩ := hphase
    rw [hclean.bread (by simp)] at hs
    subst hs
    refine ⟨hr, rfl, hpending, fun i _ hi => ?_, fun b v _ hv => hclean b v (by simp) hv⟩
    omega
  | replay tail b hmode hb hs =>
    rw [hmode] at hphase
    obtain ⟨hr', hc'⟩ := hphase.install hr hb
    subst hs
    exact ⟨hr', hc'.of_same ⟨rfl, rfl, rfl, rfl, rfl⟩⟩
  | replayEnd tail hmode hb hs =>
    rw [hmode] at hphase
    subst hs
    exact ⟨hr, (hphase.all hb).of_same ⟨rfl, rfl, rfl, rfl, rfl⟩⟩
  | replayClear hmode hs =>
    rw [hmode] at hphase
    obtain ⟨hr', hp'⟩ := hphase.clear hr (readHeader_writeHeader (s.bread start) (Nat.zero_le _))
    subst hs
    exact ⟨hr', hp' ⟨rfl, rfl, rfl, rfl, rfl⟩⟩
  | fetch b hcache hs =>
    subst hs
    exact ⟨hr, (recycled_fetch hcache).phase hphase⟩
  | evict b hpins hs =>
    subst hs
    exact ⟨hr, (recycled_evict hpins).phase hphase⟩
  | crash hs =>
    subst hs
    exact ⟨hr, rfl, fun b v _ hv => by simp [LogState.boot] at hv⟩

omit hstart

/-- The copies of the recovery come to an end. -/
theorem recover_reaches_install {s₀ : LogState O} {t n : ℕ}
    (hr : ReachVia (logStep start) OnlyRecovers s₀ s) (hmode : s.mode = .recover (.install t))
    (htn : t ≤ n) (hn : n ≤ max t s.lh.length) :
    ∃ s', ReachVia (logStep start) OnlyRecovers s₀ s' ∧ s'.mode = .recover (.install n) ∧
      s'.lh = s.lh ∧ s'.committed = s.committed := by
  induction n, htn using Nat.le_induction with
  | base => exact ⟨s, hr, hmode, rfl, rfl⟩
  | succ n htn ih =>
    obtain ⟨s₁, hr, hm, hlh, hc⟩ := ih (by omega)
    have hlt : n < s₁.lh.length := by
      rw [hlh]
      omega
    have hb : s₁.lh[n]? = some s₁.lh[n] := List.getElem?_eq_getElem hlt
    have hcopy : logStep start s₁ .recover =
        some ((s₁.bwrite s₁.lh[n] (s₁.bread (logSlot start n))).setMode
          (.recover (.install (n + 1)))) := by
      simp only [logStep, hm, execRecover, hb]
    exact ⟨_, hr.tail rfl hcopy, rfl, hlh, hc⟩

/-- A recovery that copies blocks completes. -/
theorem install_completes {s₀ : LogState O} {t : ℕ}
    (hr : ReachVia (logStep start) OnlyRecovers s₀ s) (hmode : s.mode = .recover (.install t)) :
    ∃ s', ReachVia (logStep start) OnlyRecovers s₀ s' ∧ s'.mode = .idle ∧
      s'.committed = s.committed := by
  obtain ⟨s₁, hr, hm, hlh, hc⟩ :=
    recover_reaches_install hr hmode (le_max_left t s.lh.length) le_rfl
  have hb : s₁.lh[max t s.lh.length]? = none := by
    rw [List.getElem?_eq_none_iff, hlh]
    exact le_max_right _ _
  have hclear : logStep start s₁ .recover = some (s₁.setMode (.recover .clear)) := by
    simp only [logStep, hm, execRecover, hb]
  exact ⟨_, (hr.tail rfl hclear).tail rfl (a := .recover) rfl, rfl, hc⟩

/-- A recovery completes unless it crashes, and commits nothing. -/
theorem recovery_completes {r : RecoverPc} (hmode : s.mode = .recover r) :
    ∃ s', ReachVia (logStep start) OnlyRecovers s s' ∧ s'.mode = .idle ∧
      s'.committed = s.committed := by
  cases r with
  | readHead =>
    have hread : logStep start s .recover =
        some { s with lh := readHeader (s.bread start), mode := .recover (.install 0) } := by
      simp only [logStep, hmode, execRecover]
    obtain ⟨s', hr, hidle, hc⟩ := install_completes (ReachVia.refl.tail rfl hread) rfl
    exact ⟨s', hr, hidle, hc⟩
  | install t => exact install_completes .refl hmode
  | clear =>
    have hclear : logStep start s .recover = some (execRecover start s .clear) := by
      simp only [logStep, hmode]
    exact ⟨_, ReachVia.refl.tail rfl hclear, rfl, rfl⟩

end Step

/-- **Crash atomicity.** Wherever the system crashes, a recovery completes unless it crashes as
well. While no commit and no recovery runs, the log on the disk is empty, and the blocks outside it
are those that the committed transactions have written. -/
theorem crash_atomic [DecidableEq O] {start : BlockNo} (hstart : start.toNat + LOGBLOCKS < 2 ^ 32)
    (h₀ : headerN (d₀ start) = 0)
    (h : ReachVia (logStep start) (HomeWrites start) (.boot d₀ : LogState O) s) :
    (∀ r, s.mode = .recover r →
      ∃ s', ReachVia (logStep start) OnlyRecovers s s' ∧ s'.mode = .idle ∧
        s'.committed = s.committed) ∧
    (s.mode = .idle →
      headerN (s.disk start) = 0 ∧
        ∀ b, OutsideLog start b → s.disk b = applyAll d₀ s.committed b) := by
  have h₀' : readHeader (d₀ start) = [] := by simp [readHeader, h₀]
  have hI : CrashInv (logLayout start hstart) d₀ s :=
    h.invariant (crashInv_boot hstart h₀') fun _ _ _ hr hI hC hs =>
      hI.step hstart (opInv_of_reachVia hr) hC hs
  refine ⟨fun r hr => recovery_completes hr, fun hidle => ?_⟩
  have hp : Prepared (logLayout start hstart) d₀ s := by
    have := hI.phase
    rw [hidle] at this
    exact this
  have hheader : readHeader (s.disk start) = [] := hp.header
  refine ⟨?_, fun b hb => hI.recoverable.eq_of_header_nil hp.header hb⟩
  simpa [readHeader] using hheader

/-- An operation writes two blocks and commits. The system crashes after the first block has been
copied home, and again in the recovery. -/
def crashesTwice : List (LogAct Unit) :=
  [.recover, .recover, .recover, .beginOp (), .logWrite () 40 fun _ => 1,
    .logWrite () 41 fun _ => 2, .endOp (), .commit, .commit, .commit, .commit, .commit, .commit,
    .crash, .recover, .recover, .crash, .recover, .recover, .recover, .recover, .recover]

/-- The second block is on the disk after the second recovery. -/
theorem crash_atomic_crashesTwice :
    ∃ s : LogState Unit, ReachVia (logStep 2) (HomeWrites 2) (.boot zeroDisk) s ∧
      s.disk 41 0 = 2 ∧ headerN (s.disk 2) = 0 ∧
        ∀ b, OutsideLog 2 b → s.disk b = applyAll zeroDisk s.committed b := by
  obtain ⟨s, hs, hidle, hdisk⟩ := exists_of_run (logStep 2) (HomeWrites 2) (.boot zeroDisk)
    crashesTwice (fun s => s.mode = .idle ∧ s.disk 41 0 = 2) (by decide +kernel)
  exact ⟨s, hs, hdisk, (crash_atomic (by decide) (by decide) hs).2 hidle⟩

end SustainableXv6
