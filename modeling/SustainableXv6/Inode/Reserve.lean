import SustainableXv6.Inode.Ownership

/-!
# The blocks that `writei` logs

`filewrite` cuts a write into chunks that fit the reservation of one call. The count here does not
need that the blocks have one owner each: it holds for every bitmap, also one that gives out a block
twice. Each round of `writei` logs its data block and, where it allocates it, a block of the bitmap.
The indirect block is counted once, with the block of the bitmap that it may cost (`owed`). The
first block of a write that is not aligned is there already, because the file has no holes.
-/

namespace SustainableXv6.Inode

open Fs Lib

variable {sb : Superblock} {s s' s₁ : State} {e : EntryId} {T T' T₁ : Finset BlockNo} {b : BlockNo}
  {v : Block} {k k' : ℕ}

/-! ## Counting -/

/-- The address of the indirect block of the entry's inode. -/
def State.root (s : State) (e : EntryId) : BlockNo := (s.itable e).dino.addrs (Fin.last NDIRECT)

/-- The blocks of the transaction are in `T`, and so is the indirect block. -/
structure Counted (e : EntryId) (T : Finset BlockNo) (s : State) : Prop where
  log : LogIn T s.lh
  root : s.root e ≠ 0 → s.root e ∈ T
  inside : 1 ≤ s.outstanding

/-- What the indirect block may still cost: itself, and a block of the bitmap. -/
def owed (s : State) (e : EntryId) : ℕ := if s.root e = 0 then 2 else 0

/-- A program logs at most `k` blocks, apart from what the indirect block costs. -/
structure Costs (e : EntryId) (T : Finset BlockNo) (s : State) (k : ℕ) (T' : Finset BlockNo)
    (s' : State) : Prop where
  counted : Counted e T' s'
  card : T'.card + owed s' e ≤ T.card + owed s e + k
  inum : (s'.itable e).inum = (s.itable e).inum

theorem Costs.trans (h : Costs e T s k T₁ s₁) (h' : Costs e T₁ s₁ k' T' s') :
    Costs e T s (k + k') T' s' := by
  have hcard := h.card
  have hcard' := h'.card
  exact ⟨h'.counted, by omega, h'.inum.trans h.inum⟩

theorem Costs.mono (h : Costs e T s k T' s') (hk : k ≤ k') : Costs e T s k' T' s' :=
  ⟨h.counted, h.card.trans (by omega), h.inum⟩

/-- A set may be larger than what it counts. -/
theorem Counted.subset (h : Counted e T s) (hT : T ⊆ T') : Counted e T' s :=
  ⟨⟨h.log.nodup, fun c hc => hT (h.log.mem c hc)⟩, fun hr => hT (h.root hr), h.inside⟩

theorem Costs.insert (h : Costs e T s k T' s') (b : BlockNo) :
    Costs e T s (k + 1) (insert b T') s' := by
  have hcard := h.card
  have hinsert := Finset.card_insert_le b T'
  exact ⟨h.counted.subset (Finset.subset_insert b T'), by omega, h.inum⟩

namespace Counted

variable (h : Counted e T s)
include h

theorem refl : Costs e T s 0 T s := ⟨h, le_rfl, rfl⟩

/-- The entry changes in other fields than the indirect block. -/
theorem of_itable (hlh : s'.lh = s.lh) (hroot : s'.root e = s.root e)
    (houtstanding : s'.outstanding = s.outstanding)
    (hinum : (s'.itable e).inum = (s.itable e).inum) : Costs e T s 0 T s' := by
  refine ⟨⟨by rw [hlh]; exact h.log, by rw [hroot]; exact h.root,
    by rw [houtstanding]; exact h.inside⟩, ?_, hinum⟩
  rw [owed, owed, hroot]
  omega

theorem wp_logWrite (hT : T.card < LOGBLOCKS) :
    wp (logWrite b v) s (fun _ s' => s' = s.logged b v ∧ Costs e T s 1 (insert b T) s')
      fun _ => False := by
  have hlen := h.log.length_le
  have hinside := h.inside
  have hinsert := Finset.card_insert_le b T
  refine Inode.wp_logWrite (fun _ => ⟨rfl, ⟨?_, ?_, h.inside⟩, ?_, rfl⟩) (fun hbig => by omega)
    fun hout => by omega
  · exact (h.subset (Finset.subset_insert b T)).log.addLog (Finset.mem_insert_self b T)
  · exact fun hr => Finset.mem_insert_of_mem (h.root hr)
  · change (insert b T).card + owed s e ≤ _
    omega

/-- `log_write` of a block that is counted. -/
theorem wp_logWrite_of_mem (hb : b ∈ T) (hT : T.card < LOGBLOCKS) :
    wp (logWrite b v) s (fun _ s' => s' = s.logged b v ∧ Costs e T s 0 T s') fun _ => False := by
  have hlen := h.log.length_le
  have hinside := h.inside
  exact Inode.wp_logWrite (fun _ => ⟨rfl, ⟨h.log.addLog hb, h.root, h.inside⟩, le_rfl, rfl⟩)
    (fun hbig => by omega) fun hout => by omega

/-- `balloc` logs a block of the bitmap and the block that it returns. -/
theorem wp_balloc (hT : T.card + 2 ≤ LOGBLOCKS) :
    wp (balloc sb) s (fun a s' => ∃ T', T ⊆ T' ∧ T'.card ≤ T.card + 2 ∧ Costs e T s 2 T' s' ∧
      (a ≠ 0 → a ∈ T')) fun _ => False := by
  simp only [balloc, wp_bind, wp_get]
  cases freeBlock sb s.disk with
  | none => exact ⟨T, subset_rfl, by omega, h.refl.mono (by omega), fun h0 => absurd rfl h0⟩
  | some n =>
    refine wp_call (h.wp_logWrite (by omega)) fun _ s₁ hs₁ => ?_
    obtain ⟨rfl, hc₁⟩ := hs₁
    have hcard₁ := Finset.card_insert_le (bblock sb n) T
    refine wp_call (hc₁.counted.wp_logWrite (by omega)) fun _ s₂ hs₂ => ?_
    obtain ⟨rfl, hc₂⟩ := hs₂
    have hcard₂ := Finset.card_insert_le (UInt32.ofNat n) (insert (bblock sb n) T)
    refine ⟨_, ?_, by omega, hc₁.trans hc₂, fun _ => Finset.mem_insert_self _ _⟩
    exact (Finset.subset_insert _ _).trans (Finset.subset_insert _ _)

/-! ## `bmap` -/

/-- A direct address. -/
theorem wp_addrFor_direct (hT : T.card + 2 ≤ LOGBLOCKS) (l : Fin NDIRECT) :
    wp (addrFor sb e l.castSucc) s (fun a s' => ∃ T', Costs e T s 2 T' s' ∧
      (a ≠ 0 → Costs e T s 2 (insert a T') s')) fun _ => False := by
  simp only [addrFor, wp_bind, wp_get]
  rw [wp_ite]
  refine ⟨fun _ => ?_, fun _ => ⟨T, h.refl.mono (by omega), fun _ => ?_⟩⟩
  · refine wp_call (h.wp_balloc hT) fun a s₁ hs₁ => ?_
    obtain ⟨T', -, -, hc, ha⟩ := hs₁
    rw [wp_ite]
    refine ⟨fun h0 => ⟨T', hc, fun hne => absurd rfl hne⟩, fun hne => ?_⟩
    simp only [wp_bind, wp_modify, wp_pure]
    have hset : Costs e T' s₁ 0 T' (s₁.setDino e (setAddr (s₁.itable e).dino l.castSucc a)) := by
      refine hc.counted.of_itable rfl ?_ rfl (by rw [State.setDino_self])
      rw [State.root, State.setDino_self, State.root, setAddr]
      exact Function.update_of_ne (Fin.castSucc_lt_last l).ne' ..
    refine ⟨T', hc.trans hset, fun _ => ?_⟩
    rw [Finset.insert_eq_of_mem (ha hne)]
    exact hc.trans hset
  · exact (h.refl.insert _).mono (by omega)

/-- The address of the indirect block. -/
theorem wp_addrFor_root (hT : T.card + 2 ≤ LOGBLOCKS) :
    wp (addrFor sb e (Fin.last NDIRECT)) s (fun a s' => ∃ T', T'.card ≤ T.card + owed s e ∧
      (a = 0 ∧ Costs e T s 2 T' s' ∨ a ≠ 0 ∧ s'.root e = a ∧ Costs e T s 0 T' s'))
      fun _ => False := by
  simp only [addrFor, wp_bind, wp_get]
  rw [wp_ite]
  refine ⟨fun hzero => ?_, fun hne => ⟨T, by omega, .inr ⟨hne, rfl, h.refl⟩⟩⟩
  have howed : owed s e = 2 := if_pos hzero
  refine wp_call (h.wp_balloc hT) fun a s₁ hs₁ => ?_
  obtain ⟨T', -, hcard, hc, ha⟩ := hs₁
  rw [wp_ite]
  refine ⟨fun h0 => ⟨T', by omega, .inl ⟨rfl, hc⟩⟩, fun hne => ?_⟩
  simp only [wp_bind, wp_modify, wp_pure]
  have hroot : (s₁.setDino e (setAddr (s₁.itable e).dino (Fin.last NDIRECT) a)).root e = a := by
    simp [State.root, State.setDino_self, setAddr]
  refine ⟨T', by omega, .inr ⟨hne, hroot, ⟨hc.counted.log, fun _ => ?_, hc.counted.inside⟩, ?_, ?_⟩⟩
  · rw [hroot]
    exact ha hne
  · have howed' : owed (s₁.setDino e (setAddr (s₁.itable e).dino (Fin.last NDIRECT) a)) e = 0 :=
      if_neg (by rw [hroot]; exact hne)
    omega
  · rw [State.setDino_self]
    exact hc.inum

/-- An address in the indirect block. -/
theorem wp_indirectFor (hT : T.card + 2 < LOGBLOCKS) (hr : b ∈ T) (j : ℕ) :
    wp (indirectFor sb b j) s (fun a s' => ∃ T', Costs e T s 2 T' s' ∧
      (a ≠ 0 → Costs e T s 2 (insert a T') s')) fun _ => False := by
  simp only [indirectFor, wp_bind, wp_get]
  rw [wp_ite]
  refine ⟨fun _ => ?_, fun _ => ⟨T, h.refl.mono (by omega), fun _ => ?_⟩⟩
  · refine wp_call (h.wp_balloc (by omega)) fun a s₁ hs₁ => ?_
    obtain ⟨T', hsub, hcard, hc, ha⟩ := hs₁
    rw [wp_ite]
    refine ⟨fun h0 => ⟨T', hc, fun hne => absurd rfl hne⟩, fun hne => ?_⟩
    simp only [wp_bind, wp_get]
    refine (hc.counted.wp_logWrite_of_mem (hsub hr) (by omega)).imp fun _ s₂ hs₂ => ?_
    refine ⟨T', hc.trans hs₂.2, fun _ => ?_⟩
    rw [Finset.insert_eq_of_mem (ha hne)]
    exact hc.trans hs₂.2
  · exact (h.refl.insert _).mono (by omega)

/-- `bmap` logs two blocks, one of them the block that it returns. -/
theorem wp_bmap (hT : T.card + owed s e + 2 < LOGBLOCKS) {bn : ℕ} (hbn : bn < MAXFILE) :
    wp (bmap sb e bn) s (fun a s' => ∃ T', Costs e T s 2 T' s' ∧
      (a ≠ 0 → Costs e T s 2 (insert a T') s')) fun _ => False := by
  unfold bmap
  rcases Place.ofIndex_cases hbn with ⟨hlt, l, hl, -⟩ | ⟨hlt, j, hj, -⟩
  · rw [if_pos hlt, ← hl]
    exact h.wp_addrFor_direct (by omega) l
  · have hlt' : bn - NDIRECT < NINDIRECT := by
      rw [← hj]
      exact j.isLt
    rw [if_neg hlt, if_pos hlt']
    refine wp_call (h.wp_addrFor_root (by omega)) fun a s₁ hs₁ => ?_
    obtain ⟨T₁, hcard, ⟨rfl, hc⟩ | ⟨hne, hroot, hc⟩⟩ := hs₁
    · exact ⟨T₁, hc, fun hne => absurd rfl hne⟩
    · rw [if_neg hne]
      have hmem : a ∈ T₁ := by
        have hr := hc.counted.root
        rw [hroot] at hr
        exact hr hne
      refine (hc.counted.wp_indirectFor (by omega) hmem _).imp fun a' s₂ hs₂ => ?_
      obtain ⟨T₂, hc₂, ha⟩ := hs₂
      exact ⟨T₂, (hc.trans hc₂).mono (by omega), fun hne' => (hc.trans (ha hne')).mono (by omega)⟩

/-! ## `writei` -/

omit h in
/-- The copy and `log_write` of a round, after `bmap`. -/
theorem wp_writeRound_of_bmap {src : ℕ → ℕ → Copied} {tot off n : ℕ}
    (hbmap : wp (bmap sb e (off / BSIZE)) s (fun a s' => ∃ T', Costs e T s k T' s' ∧
      (a ≠ 0 → Costs e T s k (insert a T') s')) fun _ => False)
    (hT : T.card + owed s e + k < LOGBLOCKS) :
    wp (writeRound sb e src tot off n) s (fun r s' =>
      (∀ m, r = some m → m = roundSize tot off n) ∧ ∃ T', Costs e T s k T' s') fun _ => False := by
  unfold writeRound
  refine wp_call hbmap fun a s₁ hs₁ => ?_
  obtain ⟨T₁, hc, ha⟩ := hs₁
  rw [wp_ite]
  refine ⟨fun _ => ⟨by simp, T₁, hc⟩, fun hne => ?_⟩
  simp only [wp_bind, wp_get]
  cases src tot (roundSize tot off n) with
  | failed l =>
    exact ⟨by simp, T₁, ⟨hc.counted.log, hc.counted.root, hc.counted.inside⟩, hc.card, hc.inum⟩
  | all l =>
    have hca := ha hne
    have hcard := hca.card
    simp only [wp_bind]
    exact (hca.counted.wp_logWrite_of_mem (Finset.mem_insert_self a T₁) (by omega)).imp
      fun _ s₂ hs₂ => ⟨fun m hm => (Option.some.inj hm).symm, _, hca.trans hs₂.2⟩

/-- A round. -/
theorem wp_writeRound (hT : T.card + owed s e + 2 < LOGBLOCKS) (src : ℕ → ℕ → Copied)
    {tot off n : ℕ} (hbn : off / BSIZE < MAXFILE) :
    wp (writeRound sb e src tot off n) s (fun r s' =>
      (∀ m, r = some m → m = roundSize tot off n) ∧ ∃ T', Costs e T s 2 T' s') fun _ => False :=
  wp_writeRound_of_bmap (h.wp_bmap hT hbn) hT

/-- A round that writes to a block that the file has. -/
theorem wp_writeRound_of_addrOf (hT : T.card + owed s e + 1 < LOGBLOCKS) (src : ℕ → ℕ → Copied)
    {tot off n : ℕ} (hbn : off / BSIZE < MAXFILE)
    (ha : addrOf s.disk (s.itable e).dino (.ofIndex (off / BSIZE)) = some b) :
    wp (writeRound sb e src tot off n) s (fun r s' =>
      (∀ m, r = some m → m = roundSize tot off n) ∧ ∃ T', Costs e T s 1 T' s') fun _ => False := by
  refine wp_writeRound_of_bmap ((wp_bmap_of_addrOf hbn ha).imp fun a' s' hs' => ?_) hT
  obtain ⟨rfl, rfl⟩ := hs'
  exact ⟨T, h.refl.mono (by omega), fun _ => h.refl.insert _⟩

end Counted

/-- The number of blocks that `n` bytes fill. -/
def blocksOf (n : ℕ) : ℕ := (n + BSIZE - 1) / BSIZE

/-- The rounds of `writei` from the beginning of a block on. -/
theorem Counted.wp_writeLoop (src : ℕ → ℕ → Copied) (fuel : ℕ) :
    ∀ (s : State) (T : Finset BlockNo) (tot off n : ℕ), Counted e T s →
      n ≤ tot ∨ off % BSIZE = 0 → off + (n - tot) ≤ MAXFILE * BSIZE →
      T.card + owed s e + 2 * blocksOf (n - tot) < LOGBLOCKS →
      wp (writeLoop sb e src fuel tot off n) s
        (fun _ s' => ∃ T', Costs e T s (2 * blocksOf (n - tot)) T' s') fun _ => False := by
  induction fuel with
  | zero => exact fun s T tot off n h _ _ _ => ⟨T, h.refl.mono (by omega)⟩
  | succ fuel ih =>
    intro s T tot off n h halign hmax hT
    unfold writeLoop
    rw [wp_ite]
    refine ⟨fun htot => ?_, fun _ => ⟨T, h.refl.mono (by omega)⟩⟩
    have hbn : off / BSIZE < MAXFILE := by
      rw [Nat.div_lt_iff_lt_mul (by decide)]
      omega
    have hpos : 1 ≤ blocksOf (n - tot) := by
      simp only [blocksOf, BSIZE]
      omega
    refine wp_call (h.wp_writeRound (by omega) src hbn) fun r s₁ hs₁ => ?_
    obtain ⟨hr, T₁, hc⟩ := hs₁
    cases r with
    | none => exact ⟨T₁, hc.mono (by omega)⟩
    | some m =>
      obtain rfl := hr m rfl
      have hcard := hc.card
      -- The round fills its block, or it is the last one.
      have hnext : (n ≤ tot + roundSize tot off n ∨ (off + roundSize tot off n) % BSIZE = 0) ∧
          off + roundSize tot off n + (n - (tot + roundSize tot off n)) ≤ MAXFILE * BSIZE ∧
          blocksOf (n - (tot + roundSize tot off n)) + 1 ≤ blocksOf (n - tot) := by
        simp only [roundSize, blocksOf, BSIZE] at *
        omega
      refine (ih s₁ T₁ _ _ n hc.counted hnext.1 hnext.2.1 (by omega)).imp fun r s₂ hs₂ => ?_
      obtain ⟨T₂, hc₂⟩ := hs₂
      exact ⟨T₂, (hc.trans hc₂).mono (by omega)⟩

/-- How many blocks `writei` of `n` bytes may log: the data with its blocks of the bitmap, two more
where the range is not aligned, the indirect block, and the inode. -/
def writeiBlocks (n : ℕ) : ℕ := 2 * blocksOf n + 4

/-- The rounds of `writei`. The block of an offset that is not aligned is there already. -/
theorem Counted.wp_writeLoop_of_noHoles (h : Counted e T s) (hno : NoHoles s.disk (s.itable e).dino)
    (src : ℕ → ℕ → Copied) {off n : ℕ} (hoff : off ≤ (s.itable e).dino.size.toNat)
    (hmax : off + n ≤ MAXFILE * BSIZE)
    (hT : T.card + owed s e + 2 * blocksOf n + 1 < LOGBLOCKS) :
    wp (writeLoop sb e src n 0 off n) s
      (fun _ s' => ∃ T', Costs e T s (2 * blocksOf n + 1) T' s') fun _ => False := by
  by_cases halign : off % BSIZE = 0
  · refine (Counted.wp_writeLoop src n s T 0 off n h (.inr halign) (by omega) ?_).imp
      fun r s' hs' => ?_
    · rw [Nat.sub_zero]
      omega
    · obtain ⟨T', hc⟩ := hs'
      rw [Nat.sub_zero] at hc
      exact ⟨T', hc.mono (by omega)⟩
  · cases n with
    | zero => exact ⟨T, h.refl.mono (by omega)⟩
    | succ n =>
      unfold writeLoop
      rw [if_pos (Nat.succ_pos n)]
      have hbn : off / BSIZE < MAXFILE := by
        rw [Nat.div_lt_iff_lt_mul (by decide)]
        omega
      have hlt : off / BSIZE * BSIZE < (s.itable e).dino.size.toNat := by
        simp only [BSIZE] at *
        omega
      obtain ⟨b, hb⟩ := Option.ne_none_iff_exists'.mp (hno.2 _ hlt)
      refine wp_call (h.wp_writeRound_of_addrOf (by omega) src hbn hb) fun r s₁ hs₁ => ?_
      obtain ⟨hr, T₁, hc⟩ := hs₁
      cases r with
      | none => exact ⟨T₁, hc.mono (by omega)⟩
      | some m =>
        obtain rfl := hr m rfl
        have hcard := hc.card
        have hnext : (n + 1 ≤ 0 + roundSize 0 off (n + 1) ∨
            (off + roundSize 0 off (n + 1)) % BSIZE = 0) ∧
            off + roundSize 0 off (n + 1) + (n + 1 - (0 + roundSize 0 off (n + 1))) ≤
              MAXFILE * BSIZE ∧
            blocksOf (n + 1 - (0 + roundSize 0 off (n + 1))) ≤ blocksOf (n + 1) := by
          simp only [roundSize, blocksOf, BSIZE] at *
          omega
        refine (Counted.wp_writeLoop src n s₁ T₁ _ _ (n + 1) hc.counted hnext.1 hnext.2.1
          (by omega)).imp fun r s₂ hs₂ => ?_
        obtain ⟨T₂, hc₂⟩ := hs₂
        exact ⟨T₂, (hc.trans hc₂).mono (by omega)⟩

/-- The blocks of the transaction and the indirect block. -/
theorem exists_counted (hnodup : s.lh.Nodup) (hinside : 1 ≤ s.outstanding) :
    ∃ T, Counted e T s ∧ T.card + owed s e ≤ s.lh.length + 2 := by
  have hlog : LogIn s.lh.toFinset s.lh := ⟨hnodup, fun c hc => List.mem_toFinset.mpr hc⟩
  have hcard := List.toFinset_card_le s.lh
  by_cases hroot : s.root e = 0
  · refine ⟨s.lh.toFinset, ⟨hlog, fun hne => absurd hroot hne, hinside⟩, ?_⟩
    rw [owed, if_pos hroot]
    omega
  · have hinsert := Finset.card_insert_le (s.root e) s.lh.toFinset
    refine ⟨insert (s.root e) s.lh.toFinset, ⟨⟨hnodup, fun c hc => ?_⟩,
      fun _ => Finset.mem_insert_self _ _, hinside⟩, ?_⟩
    · exact Finset.mem_insert_of_mem (hlog.mem c hc)
    · rw [owed, if_neg hroot]
      omega

/-- `writei` in a transaction with enough room returns, and logs at most `writeiBlocks` blocks. -/
theorem wp_writei_reserve (hno : NoHoles s.disk (s.itable e).dino) (hnodup : s.lh.Nodup)
    (hinside : 1 ≤ s.outstanding) (src : ℕ → ℕ → Copied) (off n : UInt32)
    (hroom : s.lh.length + writeiBlocks n.toNat ≤ LOGBLOCKS) :
    wp (writei sb e src off n) s (fun _ s' => s'.lh.Nodup ∧
      s'.lh.length ≤ s.lh.length + writeiBlocks n.toNat) fun _ => False := by
  simp only [writei, wp_bind, wp_get]
  rw [wp_ite]
  refine ⟨fun _ => ⟨hnodup, Nat.le_add_right _ _⟩, fun hle => ?_⟩
  simp only [not_or, UInt32.not_lt] at hle
  rw [toNat_add_of_le hle.2, wp_ite]
  refine ⟨fun _ => ⟨hnodup, Nat.le_add_right _ _⟩, fun hmax => ?_⟩
  unfold writeiBlocks at hroom ⊢
  obtain ⟨T, hcounted, hT⟩ := exists_counted (e := e) hnodup hinside
  refine wp_call (hcounted.wp_writeLoop_of_noHoles hno src (UInt32.le_iff_toNat_le.mp hle.1)
    (by omega) (by omega)) fun r s₁ hs₁ => ?_
  obtain ⟨tot, off'⟩ := r
  obtain ⟨T₁, hc⟩ := hs₁
  change wp (do modify _; iupdate sb e; pure (some tot)) s₁ _ _
  simp only [wp_bind, wp_modify]
  generalize hs₂ : (if (s₁.itable e).dino.size.toNat < off' then
    s₁.setDino e { (s₁.itable e).dino with size := UInt32.ofNat off' } else s₁) = s₂
  have hset : Costs e T₁ s₁ 0 T₁ s₂ := by
    rw [← hs₂]
    split_ifs
    · refine hc.counted.of_itable rfl ?_ rfl ?_
      · rw [State.root, State.setDino_self, State.root]
      · rw [State.setDino_self]
    · exact hc.counted.refl
  have hcard := (hc.trans hset).card
  simp only [iupdate, wp_bind, wp_get]
  refine (hset.counted.wp_logWrite (by omega)).imp fun _ s₃ hs₃ => ?_
  have hcard₃ := ((hc.trans hset).trans hs₃.2).card
  have hlen := hs₃.2.counted.log.length_le
  exact ⟨hs₃.2.counted.log.nodup, by omega⟩

/-! ## A chunk of `filewrite` -/

/-- The largest chunk of `filewrite`. -/
def MAXCHUNK : ℕ := (MAXOPBLOCKS - 1 - 1 - 2) / 2 * BSIZE

/-- The blocks that a program passes to `log_write`, where it returns. They are the blocks of the
transaction if it begins with none. -/
def passed {α : Type} (m : FsM α) (s : State) : Option (Finset BlockNo) :=
  match m { s with lh := [] } with
  | .ok (_, s') => some s'.lh.toFinset
  | .error _ => none

/-- A chunk of `filewrite` logs at most `MAXOPBLOCKS` different blocks. -/
theorem chunk_fits (sb : Superblock) (e : EntryId) (src : ℕ → ℕ → Copied) (off n : UInt32)
    (s : State) (hno : NoHoles s.disk (s.itable e).dino) (hinside : 1 ≤ s.outstanding)
    (hn : n.toNat ≤ MAXCHUNK) :
    ∃ S, passed (writei sb e src off n) s = some S ∧ S.card ≤ MAXOPBLOCKS := by
  have hblocks : writeiBlocks n.toNat ≤ MAXOPBLOCKS := by
    simp only [writeiBlocks, blocksOf, MAXCHUNK, MAXOPBLOCKS, BSIZE] at *
    omega
  have hlog : MAXOPBLOCKS ≤ LOGBLOCKS := by decide
  have hwp : wp (writei sb e src off n) _ _ _ :=
    wp_writei_reserve (s := { s with lh := [] }) hno List.nodup_nil hinside src off n
      (by rw [List.length_nil]; omega)
  obtain ⟨r, s', hrun, -, hlen⟩ := hwp.exists_ok
  refine ⟨s'.lh.toFinset, by rw [passed, hrun], ?_⟩
  have hcard := List.toFinset_card_le s'.lh
  rw [List.length_nil] at hlen
  omega

/-- A chunk of 1500 bytes behind the three bytes of a file. It ends in a second block, which is
allocated, and all of it is written: the blocks are those of the data, of the bitmap, and of the
inode. -/
theorem chunk_fits_afterThree :
    ∃ s S, ReachVia (step tinySb) (Rules tinySb) (State.boot tinyDisk) s ∧
      ((writei tinySb 1 (kernelSrc (.replicate 1500 7)) 3 1500 s).toOption.map Prod.fst =
        some (some 1500)) ∧
      passed (writei tinySb 1 (kernelSrc (.replicate 1500 7)) 3 1500) s = some S ∧
      S = {33, 35, 36, 37} ∧ S.card ≤ MAXOPBLOCKS := by
  obtain ⟨s, hs, hinv, href, hvalid, hinside, hall, hpassed⟩ := exists_tinyDisk
    (makesFile.take 6 ++ [.writei 1 (kernelSrc [1, 2, 3]) 0 3])
    (fun s => 0 < (s.itable 1).ref ∧ (s.itable 1).valid = true ∧ 1 ≤ s.outstanding ∧
      (writei tinySb 1 (kernelSrc (.replicate 1500 7)) 3 1500 s).toOption.map Prod.fst =
        some (some 1500) ∧
      passed (writei tinySb 1 (kernelSrc (.replicate 1500 7)) 3 1500) s = some {33, 35, 36, 37})
    (by decide +kernel)
  have hopen := hinv.begin href hvalid
  have hno := hopen.noHoles _ (hopen.allocated href (hinv.coherent 1 href hvalid (by simp)).2)
  rw [State.view_self] at hno
  obtain ⟨S, hS, hcard⟩ := chunk_fits tinySb 1 (kernelSrc (.replicate 1500 7)) 3 1500 s hno hinside
    (by decide)
  exact ⟨s, S, hs, hall, hS, Option.some.inj (hS.symm.trans hpassed), hcard⟩

end SustainableXv6.Inode
