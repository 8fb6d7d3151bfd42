import SustainableXv6.Lib.Overwrite
import SustainableXv6.Inode.Contents

/-!
# `writei`

`writei` has any number of rounds. `Written sb lim s e f s'` says what they leave: the bytes `f` of
the inode are new, and all other bytes of all inodes are the old ones. A loop that ends early has
found no free block, or the source ended in the middle of a round (`Ended`). Then the bytes of that
round are in the block, behind those that `writei` counts.
-/

namespace SustainableXv6.Inode

open Fs Lib

variable {sb : Superblock} {lim : ℕ} {s s' s₁ : State} {e : EntryId} {a : BlockNo}

/-! ## Bytes that are written -/

/-- The bytes `l` from `off` on. -/
def patch (off : ℕ) (l : List UInt8) : ℕ → Option UInt8 := fun i =>
  if off ≤ i then l[i - off]? else none

theorem patch_nil (off : ℕ) : patch off [] = fun _ => none := by
  funext i
  simp [patch]

/-- Bytes and the bytes behind them. -/
theorem patch_append (off : ℕ) (l l' : List UInt8) :
    (fun i => (patch (off + l.length) l' i).or (patch off l i)) = patch off (l ++ l') := by
  funext i
  unfold patch
  by_cases hi : off + l.length ≤ i
  · rw [if_pos hi, if_pos (by omega), List.getElem?_append_right (by omega),
      List.getElem?_eq_none (l := l) (by omega), if_pos (by omega), Option.or_none, Nat.sub_sub]
  · rw [if_neg hi, Option.none_or]
    split_ifs with hoff
    · rw [List.getElem?_append_left (by omega)]
    · rfl

/-- What the rounds of `writei` leave: the bytes `f` of the inode are new, and all else stays. -/
structure Written (sb : Superblock) (lim : ℕ) (s : State) (e : EntryId) (f : ℕ → Option UInt8)
    (s' : State) : Prop where
  inv : Inv sb lim s' (some e)
  others : ∀ e', e' ≠ e → s'.itable e' = s.itable e'
  entry : s'.itable e = { s.itable e with dino := { (s.itable e).dino with
    size := (s'.itable e).dino.size, addrs := (s'.itable e).dino.addrs } }
  locked : s'.locked = s.locked
  outstanding : s'.outstanding = s.outstanding
  inodes : ∀ j, j < sb.ninodes.toNat → j ≠ (s.itable e).inum →
    dinodeAt sb s'.disk j = dinodeAt sb s.disk j
  mono : ∀ l b, s.locs sb (some e) l = some b → s'.locs sb (some e) l = some b
  new : ∀ i v, f i = some v → s'.byte sb (some e) (s.itable e).inum i = some v
  old : ∀ j i v, i / BSIZE < MAXFILE → (j = (s.itable e).inum → f i = none) →
    s.byte sb (some e) j i = some v → s'.byte sb (some e) j i = some v

namespace Written

variable {f f' : ℕ → Option UInt8}

theorem inum (h : Written sb lim s e f s') : (s'.itable e).inum = (s.itable e).inum := by
  rw [h.entry]

theorem ref (h : Written sb lim s e f s') : (s'.itable e).ref = (s.itable e).ref := by
  rw [h.entry]

theorem valid (h : Written sb lim s e f s') : (s'.itable e).valid = (s.itable e).valid := by
  rw [h.entry]

theorem type (h : Written sb lim s e f s') : (s'.itable e).dino.type = (s.itable e).dino.type := by
  rw [h.entry]

/-- Rounds, and rounds after them. -/
theorem trans (h₁ : Written sb lim s e f s₁) (h₂ : Written sb lim s₁ e f' s')
    (hmax : ∀ i v, f i = some v → i / BSIZE < MAXFILE) :
    Written sb lim s e (fun i => (f' i).or (f i)) s' := by
  refine ⟨h₂.inv, fun e' he => ?_, ?_, ?_, ?_, fun j hj hji => ?_,
    fun l b hl => h₂.mono l b (h₁.mono l b hl), fun i v hi => ?_, fun j i v hi hnot hv => ?_⟩
  · rw [h₂.others e' he, h₁.others e' he]
  · have h := h₂.entry
    rw [h₁.entry] at h
    exact h
  · rw [h₂.locked, h₁.locked]
  · rw [h₂.outstanding, h₁.outstanding]
  · rw [h₂.inodes j hj (by rwa [h₁.inum]), h₁.inodes j hj hji]
  · rw [← h₁.inum]
    cases hf' : f' i with
    | some w =>
      rw [hf', Option.some_or] at hi
      rw [h₂.new i w hf', hi]
    | none =>
      rw [hf', Option.none_or] at hi
      refine h₂.old _ i v (hmax i v hi) (fun _ => hf') ?_
      rw [h₁.inum]
      exact h₁.new i v hi
  · refine h₂.old j i v hi (fun hj => ?_) (h₁.old j i v hi (fun hj => ?_) hv)
    · rw [h₁.inum] at hj
      exact (Option.or_eq_none_iff.mp (hnot hj)).1
    · exact (Option.or_eq_none_iff.mp (hnot hj)).2

/-- What `bmap` leaves. -/
theorem of_mapped (h : Mapped sb lim s e s') : Written sb lim s e (fun _ => none) s' := by
  refine ⟨h.inv, h.others, ?_, h.locked, h.outstanding, fun j hj _ => h.inodes j hj, h.mono,
    fun i v hi => by simp at hi, fun j i v _ _ hv => ?_⟩
  · rw [h.entry]
  · obtain ⟨b, hb, rfl⟩ := Option.map_eq_some_iff.mp hv
    rw [State.byte, h.mono _ b hb, Option.map_some,
      h.data _ b (Place.ofIndex_ne_root _) hb]

end Written

/-- The number of an inode in a directory has 16 bits. -/
theorem entriesBelow_of_le {n : ℕ} (h : 2 ^ 16 ≤ n) (d : Disk) (x : Dinode) : EntriesBelow n d x :=
  fun _ _ _ _ => lt_of_lt_of_le (UInt16.toNat_lt _) h

/-- A round puts bytes into a block of the file. -/
theorem Inv.written_of_stored (h : Inv sb lim s (some e)) (hsb : sb.Ok)
    (hdir : (s.itable e).dino.type = T_DIR → 2 ^ 16 ≤ lim) {off : ℕ} {l : List UInt8}
    (hbn : off / BSIZE < MAXFILE)
    (ha : s.locs sb (some e) ((s.itable e).inum, .ofIndex (off / BSIZE)) = some a)
    (hs : Stored s a (off % BSIZE) l s') (hl : off % BSIZE + l.length ≤ BSIZE) :
    Written sb lim s e (patch off l) s' := by
  have hbyte {j i : ℕ} (hi : i / BSIZE < MAXFILE) :=
    h.byte_write hsb ha hs.disk hs.itable (j := j) hi hbn
  refine ⟨h.write hsb ha hs.disk hs.itable fun hd => entriesBelow_of_le (hdir hd) _ _,
    fun e' _ => by rw [hs.itable], by rw [hs.itable], hs.locked, hs.outstanding, fun j hj _ => ?_,
    fun p b hp => ?_, fun i v hi => ?_, fun j i v hi hnot hv => ?_⟩
  · rw [hs.disk, dinodeAt_update hsb (h.nmeta_le ha) hj]
  · rw [h.locs_write hsb ha hs.disk hs.itable, hp]
  · -- A byte of the round lies in the block.
    unfold patch at hi
    split_ifs at hi with hoff
    have hlt := (List.getElem?_eq_some_iff.mp hi).1
    have hdiv : i / BSIZE = off / BSIZE ∧ off % BSIZE ≤ i % BSIZE ∧
        i % BSIZE - off % BSIZE = i - off := by
      simp only [BSIZE] at *
      omega
    rw [hbyte (hdiv.1 ▸ hbn), if_pos ⟨rfl, hdiv.1⟩,
      byteAt_putBytes _ _ _ (Nat.mod_lt _ (by decide)), if_pos hdiv.2.1, hdiv.2.2,
      List.getD_eq_getElem?_getD, hi]
    rfl
  · rw [hbyte hi]
    split_ifs with hji
    · -- Another byte of the block.
      have hnone := hnot hji.1
      rw [State.byte, hji.1, hji.2, ha, Option.map_some] at hv
      rw [byteAt_putBytes _ _ _ (Nat.mod_lt _ (by decide))]
      split_ifs with hle
      · have hoff : off ≤ i ∧ i % BSIZE - off % BSIZE = i - off := by
          simp only [BSIZE] at *
          omega
        rw [patch, if_pos hoff.1] at hnone
        rw [hoff.2, List.getD_eq_getElem?_getD, hnone, Option.getD_none]
        exact hv
      · exact hv
    · exact hv

/-! ## The loop of `writei` -/

/-- The source has the bytes `l`, and `either_copyin` fails at their end. -/
def Delivers (src : ℕ → ℕ → Copied) (l : List UInt8) (n : ℕ) : Prop :=
  ∀ tot m, tot ≤ l.length → tot + m ≤ n → src tot m =
    if tot + m ≤ l.length then .all ((l.drop tot).take m) else .failed ((l.drop tot).take m)

/-- The places on the way to the blocks of a range. -/
def needed (off n : ℕ) : Finset Place :=
  (Finset.Ico (off / BSIZE) ((off + n + BSIZE - 1) / BSIZE)).biUnion pathTo

theorem pathTo_subset_needed {off n bn : ℕ} (hle : off / BSIZE ≤ bn) (hlt : bn * BSIZE < off + n) :
    pathTo bn ⊆ needed off n := by
  refine Finset.subset_biUnion_of_mem pathTo (Finset.mem_Ico.mpr ⟨hle, ?_⟩)
  simp only [BSIZE] at *
  omega

theorem needed_subset {off off' n n' : ℕ} (hle : off ≤ off') (hend : off' + n' ≤ off + n) :
    needed off' n' ⊆ needed off n := by
  refine Finset.biUnion_subset_biUnion_of_subset_left _ (Finset.Ico_subset_Ico ?_ ?_)
  · exact Nat.div_le_div_right hle
  · exact Nat.div_le_div_right (by omega)

/-- How the loop of `writei` ends that begins with `tot` bytes and the offset `off`: with `k` of the
bytes `l` in the file and the pair `r` of `tot` and `off`. It has written all bytes, or there is no
free block, or the source ends in the middle of a round. -/
def Ended (sb : Superblock) (e : EntryId) (l : List UInt8) (n tot off k : ℕ) (r : ℕ × ℕ)
    (s' : State) : Prop :=
  tot + k ≤ l.length ∧
    (r.1 = n ∧ tot + k = n ∨
      r.1 < n ∧ tot + k = r.1 ∧ Full sb s' e (pathTo (r.2 / BSIZE)) ∨
      l.length < n ∧ tot + k = l.length ∧ r.2 = max off ((off + k) / BSIZE * BSIZE))

/-- What the loop of `writei` leaves. -/
structure Looped (sb : Superblock) (lim : ℕ) (s : State) (e : EntryId) (src : ℕ → ℕ → Copied)
    (n tot off : ℕ) (f : ℕ → Option UInt8) (r : ℕ × ℕ) (s' : State) : Prop where
  written : Written sb lim s e f s'
  size : (s'.itable e).dino.size = (s.itable e).dino.size
  grown : Grown sb s e (needed off (n - tot)) s'
  max : ∀ i v, f i = some v → i / BSIZE < MAXFILE
  total : tot ≤ r.1 ∧ r.1 ≤ n ∧ r.2 = off + (r.1 - tot)
  below : ∀ i, i < r.2 → s'.byte sb (some e) (s.itable e).inum i ≠ none
  ended : ∀ l, Delivers src l n → tot ≤ l.length →
    ∃ k, f = patch off ((l.drop tot).take k) ∧ Ended sb e l n tot off k r s'

/-- The bytes that a file has stay there. -/
theorem Written.below {f : ℕ → Option UInt8} (h : Written sb lim s e f s') {off : ℕ}
    (hoff : off ≤ MAXFILE * BSIZE)
    (hbelow : ∀ i, i < off → s.byte sb (some e) (s.itable e).inum i ≠ none) {i : ℕ} (hi : i < off) :
    s'.byte sb (some e) (s.itable e).inum i ≠ none := by
  cases hf : f i with
  | some v =>
    rw [h.new i v hf]
    simp
  | none =>
    obtain ⟨v, hv⟩ := Option.ne_none_iff_exists'.mp (hbelow i hi)
    have hdiv : i / BSIZE < MAXFILE := by
      rw [Nat.div_lt_iff_lt_mul (by decide)]
      omega
    rw [h.old _ i v hdiv (fun _ => hf) hv]
    simp

/-- A byte of a round lies in the block of its offset. -/
theorem div_eq_of_patch {off i : ℕ} {l : List UInt8} {v : UInt8}
    (hl : off % BSIZE + l.length ≤ BSIZE) (h : patch off l i = some v) :
    i / BSIZE = off / BSIZE := by
  unfold patch at h
  split_ifs at h with hoff
  have hlt := (List.getElem?_eq_some_iff.mp h).1
  simp only [BSIZE] at *
  omega

/-- What a round of `writei` leaves that puts bytes into a block. -/
structure Rounded (sb : Superblock) (lim : ℕ) (s : State) (e : EntryId) (off : ℕ) (l : List UInt8)
    (s' : State) : Prop where
  written : Written sb lim s e (patch off l) s'
  size : (s'.itable e).dino.size = (s.itable e).dino.size
  grown : Grown sb s e (pathTo (off / BSIZE)) s'
  block : s'.locs sb (some e) ((s.itable e).inum, .ofIndex (off / BSIZE)) ≠ none

theorem Inv.rounded (hsb : sb.Ok) (hdir : (s.itable e).dino.type = T_DIR → 2 ^ 16 ≤ lim) {off : ℕ}
    {l : List UInt8} (hbn : off / BSIZE < MAXFILE) (hm : Mapped sb lim s e s₁)
    (hgrown : Grown sb s e (pathTo (off / BSIZE)) s₁)
    (ha : s₁.locs sb (some e) ((s.itable e).inum, .ofIndex (off / BSIZE)) = some a)
    (hs : Stored s₁ a (off % BSIZE) l s') (hl : off % BSIZE + l.length ≤ BSIZE) :
    Rounded sb lim s e off l s' := by
  rw [← hm.inum] at ha
  have hlocs := hm.inv.locs_write hsb ha hs.disk hs.itable
  have hw := (Written.of_mapped hm).trans (hm.inv.written_of_stored hsb (by rwa [hm.type]) hbn ha hs
    hl) (fun i v hi => by simp at hi)
  refine ⟨?_, by rw [hs.itable, hm.size], fun p b hp => ?_, ?_⟩
  · simpa using hw
  · rw [hlocs] at hp
    exact hgrown p b hp
  · rw [hlocs, ← hm.inum, ha]
    simp

/-- What a source delivers in a round. -/
theorem Delivers.all {src : ℕ → ℕ → Copied} {l l' : List UInt8} {n tot m : ℕ}
    (h : Delivers src l n) (htot : tot ≤ l.length) (hle : tot + m ≤ n)
    (hsrc : src tot m = .all l') :
    tot + m ≤ l.length ∧ l' = (l.drop tot).take m := by
  rw [h tot m htot hle] at hsrc
  split_ifs at hsrc with hlen
  exact ⟨hlen, (Copied.all.inj hsrc).symm⟩

theorem Delivers.failed {src : ℕ → ℕ → Copied} {l l' : List UInt8} {n tot m : ℕ}
    (h : Delivers src l n) (htot : tot ≤ l.length) (hle : tot + m ≤ n)
    (hsrc : src tot m = .failed l') :
    l.length < tot + m ∧ l' = (l.drop tot).take m := by
  rw [h tot m htot hle] at hsrc
  split_ifs at hsrc with hlen
  exact ⟨Nat.not_le.mp hlen, (Copied.failed.inj hsrc).symm⟩

/-- The bytes of a round are below the largest size of a file. -/
theorem div_lt_of_patch {n tot off i : ℕ} {l : List UInt8} {v : UInt8}
    (hbn : off / BSIZE < MAXFILE) (h : patch off (l.take (roundSize tot off n)) i = some v) :
    i / BSIZE < MAXFILE := by
  have hround := mod_add_roundSize_le tot off n
  rw [div_eq_of_patch (by rw [List.length_take]; omega) h]
  exact hbn

section Round

variable {src : ℕ → ℕ → Copied} {n tot off : ℕ} {l : List UInt8}
  (h : Rounded sb lim s e off (l.take (roundSize tot off n)) s₁) (hbn : off / BSIZE < MAXFILE)
  (htot : tot < n)

include h htot in
theorem Rounded.grown_needed : Grown sb s e (needed off (n - tot)) s₁ := by
  refine h.grown.subset (pathTo_subset_needed le_rfl ?_)
  have := Nat.div_mul_le_self off BSIZE
  omega

include h in
/-- The bytes up to the end of a round. -/
theorem Rounded.below (hoff : off ≤ MAXFILE * BSIZE)
    (hbelow : ∀ i, i < off → s.byte sb (some e) (s.itable e).inum i ≠ none) (i : ℕ)
    (hi : i < off + roundSize tot off n) : s₁.byte sb (some e) (s₁.itable e).inum i ≠ none := by
  rw [h.written.inum]
  by_cases hlt : i < off
  · exact h.written.below hoff hbelow hlt
  · have hdiv : i / BSIZE = off / BSIZE := by
      have hround := mod_add_roundSize_le tot off n
      simp only [BSIZE] at *
      omega
    rw [State.byte, hdiv]
    simpa using h.block

include h hbn htot

/-- The copy of a round fails. -/
theorem Rounded.failed (hoff : off ≤ MAXFILE * BSIZE)
    (hbelow : ∀ i, i < off → s.byte sb (some e) (s.itable e).inum i ≠ none)
    (hsrc : src tot (roundSize tot off n) = .failed l) :
    Looped sb lim s e src n tot off (patch off (l.take (roundSize tot off n))) (tot, off) s₁ := by
  have hround := mod_add_roundSize_le tot off n
  have hm : roundSize tot off n ≤ n - tot := Nat.min_le_left _ _
  refine ⟨h.written, h.size, h.grown_needed htot, fun i v hi => div_lt_of_patch hbn hi,
    ⟨le_rfl, htot.le, by simp⟩, fun i hi => h.written.below hoff hbelow hi,
    fun l' hdel hlen => ?_⟩
  obtain ⟨hend, rfl⟩ := hdel.failed hlen (by omega) hsrc
  refine ⟨l'.length - tot, ?_, by omega, .inr (.inr ⟨by omega, by omega, ?_⟩)⟩
  · rw [List.take_of_length_le (i := roundSize tot off n) (by simp),
      List.take_of_length_le (by simp; omega), List.take_of_length_le (by simp)]
  · -- The source ends in the block of the round.
    simp only [BSIZE] at *
    omega

/-- A round and the rounds after it. -/
theorem Rounded.looped {f : ℕ → Option UInt8} {r : ℕ × ℕ}
    (hsrc : src tot (roundSize tot off n) = .all l)
    (hloop : Looped sb lim s₁ e src n (tot + roundSize tot off n) (off + roundSize tot off n) f r
      s') :
    Looped sb lim s e src n tot off
      (fun i => (f i).or (patch off (l.take (roundSize tot off n)) i)) r s' := by
  have hm : roundSize tot off n ≤ n - tot := Nat.min_le_left _ _
  refine ⟨h.written.trans hloop.written (fun i v hi => div_lt_of_patch hbn hi),
    hloop.size.trans h.size, ?_, fun i v hi => ?_, ?_, ?_, fun l' hdel hlen => ?_⟩
  · exact (h.grown_needed htot).trans
      (hloop.grown.subset (needed_subset (by omega) (by omega))) h.written.inum
  · cases hf : f i with
    | some w => exact hloop.max i w hf
    | none =>
      rw [hf, Option.none_or] at hi
      exact div_lt_of_patch hbn hi
  · have := hloop.total
    omega
  · rw [← h.written.inum]
    exact hloop.below
  · obtain ⟨hend, rfl⟩ := hdel.all hlen (by omega) hsrc
    obtain ⟨k, rfl, hk, hended⟩ := hloop.ended l' hdel hend
    refine ⟨roundSize tot off n + k, ?_, by omega, ?_⟩
    · have hround : ((l'.drop tot).take (roundSize tot off n)).length = roundSize tot off n := by
        rw [List.length_take, List.length_drop]
        omega
      rw [List.take_of_length_le hround.le, List.take_add, List.drop_drop, ← patch_append, hround]
    · rcases hended with ⟨hn, hall⟩ | ⟨hn, hall, hfull⟩ | ⟨hn, hall, hr⟩
      · exact .inl ⟨hn, by omega⟩
      · exact .inr (.inl ⟨hn, by omega, hfull⟩)
      · -- The round ends at the end of its block.
        refine .inr (.inr ⟨hn, by omega, ?_⟩)
        simp only [roundSize, BSIZE] at *
        omega

end Round

theorem Inv.wp_writeLoop (hsb : sb.Ok) (src : ℕ → ℕ → Copied) (fuel : ℕ) :
    ∀ (s : State) (tot off n : ℕ), Inv sb lim s (some e) → 0 < (s.itable e).ref →
      (s.itable e).dino.type ≠ 0 → ((s.itable e).dino.type = T_DIR → 2 ^ 16 ≤ lim) →
      tot ≤ n → n - tot ≤ fuel → off + (n - tot) ≤ MAXFILE * BSIZE →
      (∀ i, i < off → s.byte sb (some e) (s.itable e).inum i ≠ none) →
      wp (writeLoop sb e src fuel tot off n) s
        (fun r s' => ∃ f, Looped sb lim s e src n tot off f r s') Safe := by
  have hstop {s : State} {tot off n : ℕ} (h : Inv sb lim s (some e)) (htot : tot = n)
      (hbelow : ∀ i, i < off → s.byte sb (some e) (s.itable e).inum i ≠ none) :
      ∃ f, Looped sb lim s e src n tot off f (tot, off) s := by
    refine ⟨_, Written.of_mapped (.refl h), rfl, .refl, fun i v hi => by simp at hi,
      ⟨le_rfl, htot.le, by simp⟩, hbelow, fun l _ hlen => ⟨0, ?_, by omega, .inl ⟨htot, htot⟩⟩⟩
    rw [List.take_zero, patch_nil]
  induction fuel with
  | zero =>
    intro s tot off n h _ _ _ htot hfuel _ hbelow
    exact hstop h (by omega) hbelow
  | succ fuel ih =>
    intro s tot off n h href htype hdir hle hfuel hmax hbelow
    unfold writeLoop
    rw [wp_ite]
    refine ⟨fun htot => ?_, fun htot => hstop h (by omega) hbelow⟩
    have hbn : off / BSIZE < MAXFILE := by
      rw [Nat.div_lt_iff_lt_mul (by decide)]
      omega
    refine wp_call (h.wp_writeRound hsb href htype src hbn) fun r s₂ hs₂ => ?_
    obtain ⟨s₁, hm, hgrown, ⟨rfl, rfl, hfull⟩ | ⟨a, l, ha, hstored, hr⟩⟩ := hs₂
    · -- There is no free block.
      have hw := Written.of_mapped hm
      refine ⟨_, hw, hm.size, hgrown.subset (pathTo_subset_needed le_rfl ?_),
        fun i v hi => by simp at hi, ⟨le_rfl, hle, by simp⟩,
        fun i hi => hw.below (by omega) hbelow hi,
        fun l _ hlen => ⟨0, ?_, by omega, .inr (.inl ⟨htot, rfl, hfull⟩)⟩⟩
      · have := Nat.div_mul_le_self off BSIZE
        omega
      · rw [List.take_zero, patch_nil]
    · have hround := mod_add_roundSize_le tot off n
      have hrounded := Inv.rounded hsb hdir hbn hm hgrown ha hstored
        (by rw [List.length_take]; omega)
      rcases hr with ⟨rfl, hsrc⟩ | ⟨rfl, hsrc⟩
      · exact ⟨_, hrounded.failed hbn htot (by omega) hbelow hsrc⟩
      · have hm : roundSize tot off n ≤ n - tot := Nat.min_le_left _ _
        have hpos : 0 < roundSize tot off n := roundSize_pos htot
        refine (ih s₂ (tot + roundSize tot off n) (off + roundSize tot off n) n
          hrounded.written.inv (by rw [hrounded.written.ref]; exact href)
          (by rw [hrounded.written.type]; exact htype) (by rw [hrounded.written.type]; exact hdir)
          (by omega) (by omega) (by omega) (hrounded.below (by omega) hbelow)).imp
          fun r s₃ hs₃ => ?_
        obtain ⟨f, hloop⟩ := hs₃
        exact ⟨_, hrounded.looped hbn htot hsrc hloop⟩

/-! ## The end of `writei` -/

/-- The state with the size of the entry's inode raised to `off`. -/
def State.grow (s : State) (e : EntryId) (off : ℕ) : State :=
  if (s.itable e).dino.size.toNat < off then
    s.setDino e { (s.itable e).dino with size := UInt32.ofNat off }
  else s

section Grow

variable (s : State) (e : EntryId) (off : ℕ)

theorem State.grow_eq : s.grow e off = s.setDino e { (s.itable e).dino with
    size := UInt32.ofNat (max (s.itable e).dino.size.toNat off) } := by
  unfold State.grow
  split_ifs with hlt
  · rw [Nat.max_eq_right hlt.le]
  · rw [Nat.max_eq_left (Nat.not_lt.mp hlt), UInt32.ofNat_toNat, State.setDino, State.setEntry,
      Function.update_eq_self]

theorem State.grow_self : (s.grow e off).itable e = { s.itable e with
    dino := { (s.itable e).dino with
      size := UInt32.ofNat (max (s.itable e).dino.size.toNat off) } } := by
  rw [State.grow_eq, State.setDino_self]

theorem State.grow_of_ne {e' : EntryId} (h : e' ≠ e) : (s.grow e off).itable e' = s.itable e' := by
  rw [State.grow_eq, State.setDino_of_ne _ h]

theorem State.grow_disk : (s.grow e off).disk = s.disk := by
  rw [State.grow_eq]
  rfl

theorem State.grow_locked : (s.grow e off).locked = s.locked := by
  rw [State.grow_eq]
  rfl

theorem State.grow_outstanding : (s.grow e off).outstanding = s.outstanding := by
  rw [State.grow_eq]
  rfl

theorem State.grow_locs : (s.grow e off).locs sb (some e) = s.locs sb (some e) := by
  rw [State.grow_eq]
  exact State.locs_setDino rfl rfl

end Grow

/-- The size may be raised to an offset below which the file has its blocks. -/
theorem Inv.grow (h : Inv sb lim s (some e)) (href : 0 < (s.itable e).ref)
    (htype : (s.itable e).dino.type ≠ 0) {off : ℕ} (hoff : off ≤ MAXFILE * BSIZE)
    (hblocks : ∀ bn, bn * BSIZE < off →
      s.locs sb (some e) ((s.itable e).inum, .ofIndex bn) ≠ none)
    (hdir : (s.itable e).dino.type = T_DIR → (s.itable e).dino.size.toNat < off →
      EntriesBelow lim s.disk { (s.itable e).dino with size := UInt32.ofNat off }) :
    Inv sb lim (s.grow e off) (some e) := by
  have hi := h.allocated href htype
  unfold State.grow
  split_ifs with hlt
  · have hnum : (UInt32.ofNat off).toNat = off :=
      UInt32.toNat_ofNat_of_lt' (lt_of_le_of_lt hoff (by decide))
    have haddr (pl : Place) : addrOf s.disk
        { (s.itable e).dino with size := UInt32.ofNat off } pl =
          addrOf s.disk (s.itable e).dino pl := by
      cases pl with
      | direct k | root | entry k => rfl
    refine h.setDino rfl rfl ⟨?_, fun bn hbn => ?_⟩ fun hd => hdir hd hlt
    · rw [hnum]
      exact hoff
    · rw [hnum] at hbn
      have hne := hblocks bn hbn
      rw [State.locs, locs_of_allocated hi, State.view_self] at hne
      rwa [haddr]
  · exact h

/-- What the end of `writei` leaves, which raises the size to `off` and calls `iupdate`. -/
structure Finished (sb : Superblock) (lim : ℕ) (s : State) (e : EntryId) (off : ℕ) (s' : State) :
    Prop where
  working : Inv sb lim s' (some e)
  inv : Inv sb lim s' none
  itable : s'.itable = (s.grow e off).itable
  locked : s'.locked = s.locked
  outstanding : s'.outstanding = s.outstanding
  inodes : ∀ j, j < sb.ninodes.toNat → j ≠ (s.itable e).inum →
    dinodeAt sb s'.disk j = dinodeAt sb s.disk j
  used : ∀ b, Used sb s'.disk b ↔ Used sb s.disk b
  locs : s'.locs sb (some e) = s.locs sb (some e)
  byte : ∀ j i, s'.byte sb (some e) j i = s.byte sb (some e) j i

theorem Inv.wp_finishWrite (h : Inv sb lim s (some e)) (hsb : sb.Ok) (href : 0 < (s.itable e).ref)
    (htype : (s.itable e).dino.type ≠ 0) {off : ℕ} (hoff : off ≤ MAXFILE * BSIZE)
    (hblocks : ∀ bn, bn * BSIZE < off →
      s.locs sb (some e) ((s.itable e).inum, .ofIndex bn) ≠ none)
    (hdir : (s.itable e).dino.type = T_DIR → (s.itable e).dino.size.toNat < off →
      EntriesBelow lim s.disk { (s.itable e).dino with size := UInt32.ofNat off }) :
    wp (iupdate sb e) (s.grow e off) (fun _ s' => Finished sb lim s e off s') Safe := by
  have hgrow := h.grow href htype hoff hblocks hdir
  have href' : 0 < ((s.grow e off).itable e).ref := by
    rw [State.grow_self]
    exact href
  have hinum : ((s.grow e off).itable e).inum = (s.itable e).inum := by rw [State.grow_self]
  have hi := (h.inums e href).2
  refine wp_iupdate (fun _ => ?_) (fun _ => ⟨by simp, by simp⟩) fun _ => ⟨by simp, by simp⟩
  obtain ⟨hup, hdino⟩ := hgrow.iupdated hsb href'
  have hlocs := hgrow.locs_iupdated hsb href'
  refine ⟨hup, hup.finish hdino fun _ => ?_, rfl, s.grow_locked e off, s.grow_outstanding e off,
    fun j hj hji => ?_, fun b => ?_, by rw [hlocs, State.grow_locs], fun j i => ?_⟩
  · change ((s.grow e off).itable e).dino.type ≠ 0
    rw [State.grow_self]
    exact htype
  · rw [State.iupdated_disk, hinum, dinodeAt_putDinode_of_ne hsb hi hj hji, State.grow_disk]
  · rw [State.iupdated_disk, hinum, used_putDinode hsb hi, State.grow_disk]
  · rw [State.byte, State.byte, hlocs, State.grow_locs]
    refine Option.map_congr fun b hb => ?_
    rw [hgrow.disk_iupdated hsb href' (by rw [State.grow_locs]; exact hb), State.grow_disk]

/-- What `writei` leaves. -/
structure Saved (sb : Superblock) (lim : ℕ) (s : State) (e : EntryId) (src : ℕ → ℕ → Copied)
    (n off : ℕ) (f : ℕ → Option UInt8) (tot : ℕ) (s' : State) : Prop where
  written : Written sb lim s e f s'
  inv : Inv sb lim s' none
  size : (s'.itable e).dino.size.toNat = max (s.itable e).dino.size.toNat (off + tot)
  grown : Grown sb s e (needed off n) s'
  total : tot ≤ n
  ended : ∀ l, Delivers src l n →
    ∃ k, f = patch off (l.take k) ∧ Ended sb e l n 0 off k (tot, off + tot) s'

theorem Looped.saved {src : ℕ → ℕ → Copied} {n off : ℕ} {f : ℕ → Option UInt8} {r : ℕ × ℕ}
    (h : Looped sb lim s e src n 0 off f r s₁) (hmax : off + n ≤ MAXFILE * BSIZE)
    (hfin : Finished sb lim s₁ e r.2 s') : Saved sb lim s e src n off f r.1 s' := by
  obtain ⟨-, htot, hr⟩ := h.total
  rw [Nat.sub_zero] at hr
  have hw := h.written
  have hself := s₁.grow_self e r.2
  have hinum : (s'.itable e).inum = (s₁.itable e).inum := by rw [hfin.itable, hself]
  refine ⟨⟨hfin.working, fun e' he => ?_, ?_, ?_, ?_, fun j hj hji => ?_, fun l b hl => ?_,
    fun i v hi => ?_, fun j i v hi hnot hv => ?_⟩, hfin.inv, ?_, fun l b hl => ?_, htot,
    fun l hdel => ?_⟩
  · rw [hfin.itable, State.grow_of_ne _ _ _ he, hw.others e' he]
  · rw [hfin.itable, hself, hw.entry]
  · rw [hfin.locked, hw.locked]
  · rw [hfin.outstanding, hw.outstanding]
  · rw [hfin.inodes j hj (by rwa [hw.inum]), hw.inodes j hj hji]
  · rw [hfin.locs, hw.mono l b hl]
  · rw [hfin.byte, hw.new i v hi]
  · rw [hfin.byte, hw.old j i v hi hnot hv]
  · have hlt : MAXFILE * BSIZE < UInt32.size := by decide
    rw [hfin.itable, hself, h.size, ← hr]
    exact UInt32.toNat_ofNat_of_lt' (max_lt (UInt32.toNat_lt _) (by omega))
  · rw [hfin.locs] at hl
    exact h.grown l b hl
  · obtain ⟨k, hk, hend, hcases⟩ := h.ended l hdel (Nat.zero_le _)
    refine ⟨k, hk, hend, ?_⟩
    rw [← hr]
    refine hcases.imp_right (Or.imp_left fun hfull => ⟨hfull.1, hfull.2.1, fun b hb => ?_, ?_⟩)
    · exact (hfin.used b).mpr (hfull.2.2.1 b hb)
    · rw [hfin.locs, hinum]
      exact hfull.2.2.2

/-- A byte below the size. -/
theorem Inv.byte_ne_none (h : Inv sb lim s (some e)) (href : 0 < (s.itable e).ref)
    (htype : (s.itable e).dino.type ≠ 0) {i : ℕ} (hi : i < (s.itable e).dino.size.toNat) :
    s.byte sb (some e) (s.itable e).inum i ≠ none := by
  obtain ⟨-, a, ha⟩ := h.exists_locs href htype hi
  rw [State.byte, ha]
  simp

/-- `writei`. It refuses a range that begins behind the end or that is too large, and a directory is
written as a file where the numbers in its entries are not bounded. -/
theorem Inv.wp_writei (h : Inv sb lim s none) (hsb : sb.Ok) (href : 0 < (s.itable e).ref)
    (hvalid : (s.itable e).valid = true)
    (hdir : (s.itable e).dino.type = T_DIR → 2 ^ 16 ≤ lim) (src : ℕ → ℕ → Copied)
    (off n : UInt32) :
    wp (writei sb e src off n) s (fun r s' =>
      r = none ∧ s' = s ∧ ¬ (off.toNat ≤ (s.itable e).dino.size.toNat ∧
        off.toNat + n.toNat ≤ MAXFILE * BSIZE) ∨
      ∃ tot f, r = some tot ∧ off.toNat ≤ (s.itable e).dino.size.toNat ∧
        off.toNat + n.toNat ≤ MAXFILE * BSIZE ∧
        Saved sb lim s e src n.toNat off.toNat f tot s') Safe := by
  have htype := (h.coherent e href hvalid (by simp)).2
  have hopen := h.begin href hvalid
  have hlt : MAXFILE * BSIZE < 2 ^ 32 := by decide
  simp only [writei, wp_bind, wp_get]
  rw [wp_ite]
  refine ⟨fun hout => .inl ⟨rfl, rfl, fun hin => ?_⟩, fun hle => ?_⟩
  · rcases hout with hsize | hwrap
    · have := UInt32.lt_iff_toNat_lt.mp hsize
      omega
    · have := toNat_add_of_lt hwrap
      omega
  simp only [not_or, UInt32.not_lt] at hle
  have hoff : off.toNat ≤ (s.itable e).dino.size.toNat := UInt32.le_iff_toNat_le.mp hle.1
  rw [toNat_add_of_le hle.2, wp_ite]
  refine ⟨fun hmax => .inl ⟨rfl, rfl, fun hin => by omega⟩, fun hmax => ?_⟩
  refine wp_call (Inv.wp_writeLoop hsb src n.toNat s 0 off.toNat n.toNat hopen href htype hdir
    (Nat.zero_le _) (by omega) (by omega) fun i hi => hopen.byte_ne_none href htype (by omega))
    fun r s₁ hs₁ => ?_
  obtain ⟨tot, off'⟩ := r
  obtain ⟨f, hloop⟩ := hs₁
  obtain ⟨-, htot, hr⟩ := hloop.total
  have hw := hloop.written
  change wp (do modify _; iupdate sb e; pure (some tot)) s₁ _ _
  simp only [wp_bind, wp_modify]
  refine (hw.inv.wp_finishWrite hsb (by rwa [hw.ref]) (by rwa [hw.type]) (by omega)
    (fun bn hbn => ?_) fun hd _ => entriesBelow_of_le (hdir (hw.type.symm.trans hd)) _ _).imp
    fun _ s' hfin => .inr ⟨tot, f, rfl, hoff, by omega, hloop.saved (by omega) hfin⟩
  -- The blocks below the offset reached are there.
  have hne := hloop.below _ hbn
  rw [State.byte, Nat.mul_div_cancel _ (by decide), ← hw.inum] at hne
  exact fun hnone => hne (by rw [hnone]; rfl)

/-- `writei` of data to a file keeps the invariant. -/
theorem Inv.wp_writei_file (h : Inv sb lim s none) (hsb : sb.Ok) (href : 0 < (s.itable e).ref)
    (hvalid : (s.itable e).valid = true) (hfile : (s.itable e).dino.type ≠ T_DIR)
    (src : ℕ → ℕ → Copied) (off n : UInt32) :
    wp (writei sb e src off n) s (fun _ s' => Inv sb lim s' none) Safe := by
  refine (h.wp_writei hsb href hvalid (fun hd => absurd hd hfile) src off n).imp fun r s' hs' => ?_
  rcases hs' with ⟨-, rfl, -⟩ | ⟨tot, f, -, -, -, hsaved⟩
  · exact h
  · exact hsaved.inv

end SustainableXv6.Inode
