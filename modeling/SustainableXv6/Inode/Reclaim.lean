import SustainableXv6.Inode.Ownership

/-!
# `ireclaim`

At boot `ireclaim` goes over the inodes and frees the orphans, which are allocated and have no link.
It frees each of them in a transaction of its own. `log_write` stops the kernel when the transaction
has `LOGBLOCKS` blocks, also if the block is one of them, so that an orphan can be freed only if its
inode and the blocks of the bitmap for its blocks are fewer (`Fits`). An inode that somebody holds
is left alone. The first process has its current directory when it calls `fsinit`, so that the root
is such an inode.
-/

namespace SustainableXv6.Inode

open Fs Lib

variable {sb : Superblock} {lim : ℕ} {s s' s₀ : State} {e : EntryId} {E : Panic → Prop} {d : Disk}
  {i j : ℕ}

/-! ## Orphans -/

/-- An inode that is allocated and has no link. -/
def Orphan (x : Dinode) : Prop := x.type ≠ 0 ∧ x.nlink = 0

instance (x : Dinode) : Decidable (Orphan x) := inferInstanceAs (Decidable (_ ∧ _))

/-- The places of an inode. -/
def places : List Place :=
  (List.finRange NDIRECT).map .direct ++ .root :: (List.finRange NINDIRECT).map .entry

theorem mem_places (pl : Place) : pl ∈ places := by
  cases pl with
  | direct k | root | entry k => simp [places]

/-- The blocks that the transaction needs which frees the inode `i`: its own, and those of the
bitmap for the blocks of the file. -/
def truncBlocks (sb : Superblock) (d : Disk) (i : ℕ) : Finset BlockNo :=
  insert (iblock sb i) (places.filterMap fun pl =>
    (addrOf d (dinodeAt sb d i) pl).map fun b => bblock sb b.toNat).toFinset

theorem mem_truncBlocks {c : BlockNo} : c ∈ truncBlocks sb d i ↔
    c = iblock sb i ∨ ∃ pl b, addrOf d (dinodeAt sb d i) pl = some b ∧ c = bblock sb b.toNat := by
  simp only [truncBlocks, Finset.mem_insert, List.mem_toFinset, List.mem_filterMap, mem_places,
    true_and, Option.map_eq_some_iff]
  refine or_congr_right (exists_congr fun pl => exists_congr fun b => and_congr_right fun _ => ?_)
  exact eq_comm

/-- The transaction that frees the inode `i` has room in the log, where the second `iupdate` wants
room for one more block. -/
def Fits (sb : Superblock) (d : Disk) (i : ℕ) : Prop := (truncBlocks sb d i).card < LOGBLOCKS

instance (sb : Superblock) (d : Disk) (i : ℕ) : Decidable (Fits sb d i) :=
  inferInstanceAs (Decidable (_ < _))

/-- On a disk with at most 28 blocks of the bitmap every file can be freed. -/
theorem fits_of_size (hsize : sb.size.toNat ≤ 28 * BPB)
    (hblocks : ∀ pl b, addrOf d (dinodeAt sb d i) pl = some b → b.toNat < sb.size.toNat) :
    Fits sb d i := by
  have hsub : truncBlocks sb d i ⊆ insert (iblock sb i)
      ((Finset.range 28).image fun g => UInt32.ofNat g + sb.bmapstart) := by
    intro c hc
    rcases mem_truncBlocks.mp hc with rfl | ⟨pl, b, hb, rfl⟩
    · exact Finset.mem_insert_self ..
    · refine Finset.mem_insert_of_mem (Finset.mem_image.mpr ⟨b.toNat / BPB, ?_, rfl⟩)
      have hlt := hblocks pl b hb
      rw [Finset.mem_range, Nat.div_lt_iff_lt_mul (by decide)]
      omega
  have hgroups : ((Finset.range 28).image fun g => UInt32.ofNat g + sb.bmapstart).card ≤ 28 :=
    Finset.card_image_le.trans (Finset.card_range 28).le
  calc (truncBlocks sb d i).card
      ≤ _ := Finset.card_le_card hsub
    _ ≤ _ + 1 := Finset.card_insert_le ..
    _ ≤ 28 + 1 := Nat.add_le_add_right hgroups 1
    _ < LOGBLOCKS := by decide

/-- Somebody has a reference to the inode `i`. -/
def State.Held (s : State) (i : ℕ) : Prop := ∃ e, 0 < (s.itable e).ref ∧ (s.itable e).inum = i

/-- The block at each place of the inodes on the disk. -/
abbrev diskLocs (sb : Superblock) (d : Disk) : ℕ × Place → Option BlockNo :=
  Fs.locs sb.ninodes.toNat d (dinodeAt sb d)

/-! ## What is left when some inodes have been freed -/

/-- The inodes `P` have been freed since the state `s₀`. There is no transaction. -/
structure Swept (sb : Superblock) (lim : ℕ) (s₀ : State) (P : ℕ → Prop) (s : State) : Prop where
  inv : Inv sb lim s none
  lh : s.lh = []
  outstanding : s.outstanding = 0
  ref : ∀ e, (s.itable e).ref = (s₀.itable e).ref
  inum : ∀ e, 0 < (s₀.itable e).ref → (s.itable e).inum = (s₀.itable e).inum
  freed : ∀ j, P j → (dinodeAt sb s.disk j).type = 0
  kept : ∀ j, j < sb.ninodes.toNat → ¬ P j → dinodeAt sb s.disk j = dinodeAt sb s₀.disk j
  bitmap : ∀ b, Used sb s.disk b ↔ Used sb s₀.disk b ∧
    ∀ j, P j → ∀ pl, diskLocs sb s₀.disk (j, pl) ≠ some b
  data : ∀ b : BlockNo, sb.nmeta ≤ b.toNat → s.disk b = s₀.disk b

namespace Swept

variable {P Q : ℕ → Prop}

theorem refl (h : Inv sb lim s none) (hlh : s.lh = []) (hout : s.outstanding = 0)
    (hP : ∀ j, ¬ P j) : Swept sb lim s P s :=
  ⟨h, hlh, hout, fun _ => rfl, fun _ _ => rfl, fun j hj => absurd hj (hP j), fun _ _ _ => rfl,
    fun _ => (and_iff_left fun j hj => absurd hj (hP j)).symm, fun _ _ => rfl⟩

theorem congr (h : Swept sb lim s₀ P s) (hQ : ∀ j, Q j ↔ P j) : Swept sb lim s₀ Q s := by
  obtain rfl : Q = P := funext fun j => propext (hQ j)
  exact h

/-- The references that are held are the same. -/
theorem held_iff (h : Swept sb lim s₀ P s) : s.Held i ↔ s₀.Held i := by
  refine exists_congr fun e => ?_
  rw [h.ref]
  exact and_congr_right fun hr => by rw [h.inum e hr]

/-- An inode that is left has its blocks. -/
theorem addrOf_eq (h : Swept sb lim s₀ P s) (h₀ : Inv sb lim s₀ none)
    (hj : Allocated sb.ninodes.toNat (dinodeAt sb s₀.disk) j) (hP : ¬ P j) (pl : Place) :
    addrOf s.disk (dinodeAt sb s.disk j) pl = addrOf s₀.disk (dinodeAt sb s₀.disk j) pl := by
  rw [h.kept j hj.2.1 hP]
  cases pl with
  | direct k | root => rfl
  | entry k =>
    cases hr : nonzero ((dinodeAt sb s₀.disk j).addrs (Fin.last NDIRECT)) with
    | none => simp only [addrOf, hr, Option.bind_none]
    | some r =>
      have hroot : s₀.locs sb none (j, .root) = some r := (locs_of_allocated hj .root).trans hr
      simp only [addrOf, hr, Option.bind_some, h.data r (h₀.nmeta_le hroot)]

theorem locs_eq (h : Swept sb lim s₀ P s) (h₀ : Inv sb lim s₀ none) (hP : ¬ P j) (pl : Place) :
    diskLocs sb s.disk (j, pl) = diskLocs sb s₀.disk (j, pl) := by
  have hiff : Allocated sb.ninodes.toNat (dinodeAt sb s.disk) j ↔
      Allocated sb.ninodes.toNat (dinodeAt sb s₀.disk) j :=
    and_congr_right fun _ => and_congr_right fun hj => by rw [h.kept j hj hP]
  by_cases hj : Allocated sb.ninodes.toNat (dinodeAt sb s₀.disk) j
  · rw [diskLocs, diskLocs, locs_of_allocated hj, locs_of_allocated (hiff.mpr hj),
      h.addrOf_eq h₀ hj hP]
  · rw [diskLocs, diskLocs, locs_of_not_allocated hj,
      locs_of_not_allocated fun h' => hj (hiff.mp h')]

/-- The transaction that frees an inode that is left. -/
theorem fits_iff (h : Swept sb lim s₀ P s) (h₀ : Inv sb lim s₀ none)
    (hj : Allocated sb.ninodes.toNat (dinodeAt sb s₀.disk) j) (hP : ¬ P j) :
    Fits sb s.disk j ↔ Fits sb s₀.disk j := by
  have heq : truncBlocks sb s.disk j = truncBlocks sb s₀.disk j :=
    Finset.ext fun c => by simp only [mem_truncBlocks, h.addrOf_eq h₀ hj hP]
  rw [Fits, Fits, heq]

/-- More inodes are freed, which were there. -/
theorem trans (h : Swept sb lim s₀ P s) (h₀ : Inv sb lim s₀ none) (h' : Swept sb lim s Q s')
    (hPQ : ∀ j, Q j → ¬ P j) (hlt : ∀ j, P j → j < sb.ninodes.toNat) :
    Swept sb lim s₀ (fun j => P j ∨ Q j) s' := by
  refine ⟨h'.inv, h'.lh, h'.outstanding, fun e => ?_, fun e he => ?_, ?_, fun j hj hn => ?_,
    fun b => ?_, fun b hb => ?_⟩
  · rw [h'.ref, h.ref]
  · rw [h'.inum e (by rwa [h.ref]), h.inum e he]
  · rintro j (hP | hQ)
    · rw [h'.kept j (hlt j hP) fun hQ => hPQ j hQ hP]
      exact h.freed j hP
    · exact h'.freed j hQ
  · obtain ⟨hP, hQ⟩ := not_or.mp hn
    rw [h'.kept j hj hQ, h.kept j hj hP]
  · rw [h'.bitmap, h.bitmap, and_assoc]
    refine and_congr_right fun _ => ⟨?_, fun hall => ⟨fun j hP => hall j (.inl hP), ?_⟩⟩
    · rintro ⟨hallP, hallQ⟩ j (hP | hQ) pl
      · exact hallP j hP pl
      · rw [← h.locs_eq h₀ (hPQ j hQ)]
        exact hallQ j hQ pl
    · intro j hQ pl
      rw [h.locs_eq h₀ (hPQ j hQ)]
      exact hall j (.inr hQ) pl
  · rw [h'.data b hb, h.data b hb]

end Swept

/-! ## The body of the loop -/

/-- The inode `i` has been read into the entry `e`, which has one more reference than in the state
`s`. A transaction has begun. -/
structure Opened (sb : Superblock) (lim : ℕ) (s : State) (i : ℕ) (e : EntryId) (s' : State) :
    Prop where
  inv : Inv sb lim s' none
  disk : s'.disk = s.disk
  lh : s'.lh = s.lh
  outstanding : s'.outstanding = s.outstanding + 1
  others : ∀ e', e' ≠ e → s'.itable e' = s.itable e'
  inum : (s'.itable e).inum = i
  ref : (s'.itable e).ref = (s.itable e).ref + 1
  valid : (s'.itable e).valid = true
  entry : 0 < (s.itable e).ref ∧ (s.itable e).inum = i ∨ (s.itable e).ref = 0 ∧ ¬ s.Held i

/-- `iget`, `begin_op`, `ilock`, and `iunlock`, where the table has an empty entry. -/
theorem wp_opened (h : Inv sb lim s none) (h1 : 1 ≤ i) (hi : i < sb.ninodes.toNat)
    (htype : (dinodeAt sb s.disk i).type ≠ 0) (hempty : ∃ e, (s.itable e).ref = 0)
    {Q : Unit → State → Prop} {f : EntryId → FsM Unit}
    (hf : ∀ e s', Opened sb lim s i e s' → wp (f e) s' Q E) :
    wp (do
      let ip ← iget i
      beginOp
      ilock sb ip
      iunlock ip
      f ip) s Q E := by
  have hfound : s.empty ≠ none := by
    intro hnone
    obtain ⟨e, he⟩ := hempty
    exact List.find?_eq_none.mp hnone e (List.mem_finRange e) (by simp [he])
  refine wp_call (wp_iget fun hnone => absurd hnone hfound) fun e s₁ hgot => ?_
  simp only [beginOp, wp_bind, wp_modify]
  have hinv₁ := h.got hgot h1 hi
  have hinv₂ : Inv sb lim { s₁ with outstanding := s₁.outstanding + 1 } none :=
    inv_of_eq hinv₁ rfl rfl
  refine (wp_ilock_locks hinv₂ (fun hzero => ?_) fun hno => ?_).imp fun _ s₃ hs₃ => ?_
  · change (s₁.itable e).ref = 0 at hzero
    rw [hgot.ref] at hzero
    omega
  · change (dinodeAt sb s₁.disk (s₁.itable e).inum).type = 0 at hno
    rw [hgot.disk, hgot.inode] at hno
    exact absurd hno htype
  · obtain ⟨hpos, hinv₃, hdisk, hlh, hout, hinum, href, hothers, hvalid, hlocked⟩ := hs₃
    simp only [iunlock, wp_bind, wp_get]
    rw [wp_ite]
    refine ⟨fun hbad => ?_, fun _ => hf e _ ?_⟩
    · rcases hbad with hbad | hbad
      · rw [hlocked] at hbad
        exact absurd hbad (by simp)
      · rw [href] at hbad
        omega
    · refine ⟨inv_of_eq hinv₃ rfl rfl, hdisk.trans hgot.disk, hlh.trans hgot.lh, ?_,
        fun e' he => (hothers e' he).trans (hgot.others e' he), hinum.trans hgot.inode,
        href.trans hgot.ref, hvalid, ?_⟩
      · exact hout.trans (congrArg (· + 1) hgot.outstanding)
      · rcases hgot.entry with ⟨hr, hi', -⟩ | ⟨hr, -, hnone⟩
        · exact .inl ⟨hr, hi'⟩
        · refine .inr ⟨hr, ?_⟩
          rintro ⟨e', hr', hi'⟩
          exact hnone e' hr' hi'

/-- The reference is given back, and the transaction ends. -/
theorem Opened.wp_close (ho : Opened sb lim s i e s₀) (hout : s.outstanding = 0)
    (hinv : Inv sb lim s' none) (hout' : s'.outstanding = s₀.outstanding)
    (hothers : ∀ e', e' ≠ e → s'.itable e' = s₀.itable e')
    (hinum : (s'.itable e).inum = i) (href : (s'.itable e).ref = (s₀.itable e).ref)
    {P : ℕ → Prop}
    (hfreed : ∀ j, P j → (dinodeAt sb s'.disk j).type = 0)
    (hkept : ∀ j, j < sb.ninodes.toNat → ¬ P j → dinodeAt sb s'.disk j = dinodeAt sb s.disk j)
    (hbitmap : ∀ b, Used sb s'.disk b ↔ Used sb s.disk b ∧
      ∀ j, P j → ∀ pl, diskLocs sb s.disk (j, pl) ≠ some b)
    (hdata : ∀ b : BlockNo, sb.nmeta ≤ b.toNat → s'.disk b = s.disk b) :
    wp (do
      dropRef e
      endOp) s' (fun _ s'' => Swept sb lim s P s'') E := by
  have hone : s'.outstanding = 1 := by rw [hout', ho.outstanding, hout]
  simp only [dropRef, endOp, wp_bind, wp_modify]
  refine ⟨?_, ?_, ?_, fun e' => ?_, fun e' he' => ?_, hfreed, hkept, hbitmap, hdata⟩
  · exact hinv.setEntry rfl (fun hr => Nat.lt_of_lt_of_le hr (Nat.sub_le _ _)) (fun hv => hv) rfl
  · exact if_pos hone
  · change s'.outstanding - 1 = 0
    rw [hone]
  · by_cases hee : e' = e
    · subst hee
      change ((s'.setEntry e' _).itable e').ref = _
      rw [State.setEntry_self, href, ho.ref]
      exact Nat.add_sub_cancel ..
    · change ((s'.setEntry e _).itable e').ref = _
      rw [State.setEntry_of_ne _ hee, hothers e' hee, ho.others e' hee]
  · by_cases hee : e' = e
    · subst hee
      change ((s'.setEntry e' _).itable e').inum = _
      rw [State.setEntry_self]
      rcases ho.entry with ⟨-, hi⟩ | ⟨hzero, -⟩
      · exact hinum.trans hi.symm
      · omega
    · change ((s'.setEntry e _).itable e').inum = _
      rw [State.setEntry_of_ne _ hee, hothers e' hee, ho.others e' hee]

/-- The inode is held by somebody else, too. -/
theorem Opened.wp_iput_held (ho : Opened sb lim s i e s') (hout : s.outstanding = 0)
    (href : 0 < (s.itable e).ref) {P : ℕ → Prop} (hP : ∀ j, ¬ P j) :
    wp (do
      iput sb e
      endOp) s' (fun _ s'' => Swept sb lim s P s'') E := by
  have hmany : ¬ ((s'.itable e).ref = 1 ∧ (s'.itable e).valid = true ∧
      (s'.itable e).dino.nlink = 0) := by
    rintro ⟨hone, -⟩
    rw [ho.ref] at hone
    omega
  have hclose := ho.wp_close (E := E) (P := P) hout ho.inv rfl (fun _ _ => rfl) ho.inum rfl
    (fun j hj => absurd hj (hP j)) (fun j _ _ => by rw [ho.disk])
    (fun b => by rw [ho.disk]; exact (and_iff_left fun j hj => absurd hj (hP j)).symm)
    fun b _ => by rw [ho.disk]
  simp only [iput, wp_bind, wp_get]
  rw [wp_ite]
  exact ⟨fun hlast => absurd hlast hmany, fun _ => wp_bind.mp hclose⟩

/-- The blocks that `itrunc` writes. -/
theorem Opened.truncBlock_iff (ho : Opened sb lim s i e s') (c : BlockNo) :
    TruncBlock sb s' e c ↔ c ∈ truncBlocks sb s.disk i := by
  have hpos : 0 < (s'.itable e).ref := by rw [ho.ref]; exact Nat.succ_pos _
  obtain ⟨hdino, htype⟩ := ho.inv.coherent e hpos ho.valid (by simp)
  have hopen := ho.inv.begin hpos ho.valid
  have hloc (pl : Place) : s'.locs sb (some e) ((s'.itable e).inum, pl) =
      addrOf s.disk (dinodeAt sb s.disk i) pl := by
    rw [State.locs, locs_of_allocated (hopen.allocated hpos htype), State.view_self, hdino,
      ho.inum, ho.disk]
  rw [mem_truncBlocks, TruncBlock, ho.inum]
  simp only [← ho.inum, hloc]

/-- The inode is an orphan, and nobody else holds it. -/
theorem Opened.wp_iput_free (ho : Opened sb lim s i e s') (hsb : sb.Ok) (hlh : s.lh = [])
    (hout : s.outstanding = 0) (href : (s.itable e).ref = 0)
    (hnlink : (dinodeAt sb s.disk i).nlink = 0) (hE : ¬ Fits sb s.disk i → E .tooBig) :
    wp (do
      iput sb e
      endOp) s' (fun _ s'' => Swept sb lim s (fun j => j = i) s'' ∧ Fits sb s.disk i) E := by
  have hone : (s'.itable e).ref = 1 := by rw [ho.ref, href]
  have hpos : 0 < (s'.itable e).ref := by omega
  obtain ⟨hdino, htype⟩ := ho.inv.coherent e hpos ho.valid (by simp)
  have hopen := ho.inv.begin hpos ho.valid
  have hi := (ho.inv.inums e hpos).2
  rw [ho.inum] at hi
  have hlast : (s'.itable e).ref = 1 ∧ (s'.itable e).valid = true ∧
      (s'.itable e).dino.nlink = 0 := by
    refine ⟨hone, ho.valid, ?_⟩
    rw [hdino, ho.disk, ho.inum, hnlink]
  have hfree := hopen.wp_ifree (L := LogIn (truncBlocks sb s.disk i)) (E := E) hsb hpos htype
    (by rw [ho.lh, hlh]; exact ⟨List.nodup_nil, fun _ hc => absurd hc (List.not_mem_nil)⟩)
    (fun l c hc hl => hl.addLog ((ho.truncBlock_iff c).mp hc))
    (fun l hl hlen => hE (Nat.not_lt.mpr (hlen.trans hl.length_le)))
    fun h0 => by rw [ho.outstanding, hout] at h0; omega
  have hlocs (pl : Place) : s'.locs sb (some e) ((s'.itable e).inum, pl) =
      diskLocs sb s.disk (i, pl) := by
    rw [State.locs, State.view_eq hdino, ho.inum, diskLocs, ← ho.disk]
    rfl
  simp only [iput, wp_bind, wp_get]
  rw [wp_ite]
  refine ⟨fun _ => ?_, fun hnot => absurd hlast hnot⟩
  rw [wp_bind]
  refine hfree.imp fun _ t ht => ?_
  obtain ⟨htr, hcard⟩ := ht
  have hfits : Fits sb s.disk i := hcard _ fun c hc => (ho.truncBlock_iff c).mpr hc
  have hinv : Inv sb lim t none := htr.inv hsb hopen hpos rfl rfl rfl rfl (by simp)
  have hinode : (dinodeAt sb t.disk i).type = 0 := by
    have := htr.inode
    rw [ho.inum] at this
    rw [this]
    rfl
  refine wp_bind.mp ((ho.wp_close hout hinv htr.outstanding htr.others ?_ ?_ ?_ ?_ ?_ ?_).imp
    fun _ s'' hs'' => ⟨hs'', hfits⟩)
  · rw [htr.entry]
    exact ho.inum
  · rw [htr.entry]
    rfl
  · rintro j rfl
    exact hinode
  · intro j hj hji
    rw [htr.inodes j hj (by rwa [ho.inum]), ho.disk]
  · intro b
    rw [htr.bitmap, ho.disk]
    simp only [hlocs, forall_eq]
  · intro b hb
    have hiblock : (iblock sb i).toNat < sb.nmeta :=
      lt_of_lt_of_le (iblock_lt hsb hi) (bmapstart_le hsb)
    rw [htr.disk b (fun c hc => (ne_of_nmeta_le hb (bblock_lt hsb hc).2).symm) ?_, ho.disk]
    rw [ho.inum]
    exact (ne_of_nmeta_le hb hiblock).symm

/-- The body of the loop frees an orphan that nobody holds, and changes no other inode. -/
theorem Inv.wp_reclaim (h : Inv sb lim s none) (hsb : sb.Ok) (hlh : s.lh = [])
    (hout : s.outstanding = 0) (hempty : ∃ e, (s.itable e).ref = 0) (h1 : 1 ≤ i)
    (hi : i < sb.ninodes.toNat)
    (hE : Orphan (dinodeAt sb s.disk i) → ¬ s.Held i → ¬ Fits sb s.disk i → E .tooBig) :
    wp (reclaim sb i) s (fun _ s' =>
      Swept sb lim s (fun j => j = i ∧ Orphan (dinodeAt sb s.disk i) ∧ ¬ s.Held i) s' ∧
        (Orphan (dinodeAt sb s.disk i) → ¬ s.Held i → Fits sb s.disk i)) E := by
  simp only [reclaim]
  rw [wp_bind, wp_get, wp_ite]
  refine ⟨fun horphan => ?_, fun hnot => ?_⟩
  · refine wp_opened h h1 hi horphan.1 hempty fun e s₁ ho => ?_
    rcases ho.entry with ⟨hpos, hinum⟩ | ⟨hzero, hnot⟩
    · have hheld : s.Held i := ⟨e, hpos, hinum⟩
      exact (ho.wp_iput_held hout hpos fun j hj => hj.2.2 hheld).imp fun _ s₂ hs₂ =>
        ⟨hs₂, fun _ hn => absurd hheld hn⟩
    · refine (ho.wp_iput_free hsb hlh hout hzero horphan.2 (hE horphan hnot)).imp fun _ s₂ hs₂ => ?_
      exact ⟨hs₂.1.congr fun j => and_iff_left ⟨horphan, hnot⟩, fun _ _ => hs₂.2⟩
  · exact ⟨Swept.refl h hlh hout fun j hj => hnot hj.2.1, fun ho => absurd ho hnot⟩

/-! ## The loop -/

/-- The inodes that the loop frees in its first `n` rounds. -/
def Reclaims (sb : Superblock) (s : State) (n j : ℕ) : Prop :=
  1 ≤ j ∧ j < n ∧ Orphan (dinodeAt sb s.disk j) ∧ ¬ s.Held j

theorem reclaims_succ {n : ℕ} (hn : 1 ≤ n) : Reclaims sb s (n + 1) j ↔
    Reclaims sb s n j ∨ j = n ∧ Orphan (dinodeAt sb s.disk n) ∧ ¬ s.Held n := by
  constructor
  · rintro ⟨h1, hlt, ho⟩
    rcases Nat.lt_succ_iff_lt_or_eq.mp hlt with hlt | rfl
    · exact .inl ⟨h1, hlt, ho⟩
    · exact .inr ⟨rfl, ho⟩
  · rintro (⟨h1, hlt, ho⟩ | ⟨rfl, ho⟩)
    · exact ⟨h1, Nat.lt_succ_of_lt hlt, ho⟩
    · exact ⟨hn, Nat.lt_succ_self j, ho⟩

/-- `ireclaim` frees all orphans that nobody holds, unless one of them does not fit in the log. -/
theorem Inv.wp_ireclaim (h : Inv sb lim s none) (hsb : sb.Ok) (hlh : s.lh = [])
    (hout : s.outstanding = 0) (hempty : ∃ e, (s.itable e).ref = 0) :
    wp (ireclaim sb) s (fun _ s' =>
      Swept sb lim s (Reclaims sb s sb.ninodes.toNat) s' ∧
        ∀ j, Reclaims sb s sb.ninodes.toNat j → Fits sb s.disk j)
      fun p => p = .tooBig ∧ ∃ j, Reclaims sb s sb.ninodes.toNat j ∧ ¬ Fits sb s.disk j := by
  refine wp_upto (fun n s' => Swept sb lim s (Reclaims sb s n) s' ∧
    ∀ j, Reclaims sb s n j → Fits sb s.disk j) ⟨?_, ?_⟩ fun n s₁ hn hs₁ => ?_
  · exact Swept.refl h hlh hout fun j hj => absurd hj.2.1 (Nat.not_lt_zero j)
  · exact fun j hj => absurd hj.2.1 (Nat.not_lt_zero j)
  · obtain ⟨hswept, hfits⟩ := hs₁
    rw [wp_ite]
    refine ⟨?_, fun h0 => ?_⟩
    · rintro rfl
      have hnone (k : ℕ) (hk : k ≤ 1) (j : ℕ) : ¬ Reclaims sb s k j := fun hj => by
        have := hj.1
        have := hj.2.1
        omega
      exact ⟨hswept.congr fun j => iff_of_false (hnone 1 le_rfl j) (hnone 0 zero_le_one j),
        fun j hj => absurd hj (hnone 1 le_rfl j)⟩
    · have h1 : 1 ≤ n := Nat.one_le_iff_ne_zero.mpr h0
      have hnot : ¬ Reclaims sb s n n := fun hr => absurd hr.2.1 (Nat.lt_irrefl n)
      have hdino := hswept.kept n hn hnot
      have hfit (ho : Orphan (dinodeAt sb s.disk n)) :
          Fits sb s₁.disk n ↔ Fits sb s.disk n := hswept.fits_iff h ⟨h1, hn, ho.1⟩ hnot
      have hempty₁ : ∃ e, (s₁.itable e).ref = 0 := by simpa only [hswept.ref] using hempty
      refine (hswept.inv.wp_reclaim hsb hswept.lh hswept.outstanding hempty₁ h1 hn
        fun ho hh hf => ?_).imp fun _ s₂ hs₂ => ?_
      · rw [hdino] at ho
        rw [hswept.held_iff] at hh
        exact ⟨rfl, n, ⟨h1, hn, ho, hh⟩, fun hf' => hf ((hfit ho).mpr hf')⟩
      · obtain ⟨hs₂, hfits₂⟩ := hs₂
        rw [hdino, hswept.held_iff] at hs₂ hfits₂
        refine ⟨(hswept.trans h hs₂ ?_ fun j hj => lt_trans hj.2.1 hn).congr fun j =>
          reclaims_succ h1, fun j hj => ?_⟩
        · rintro j ⟨rfl, -⟩
          exact hnot
        · rcases (reclaims_succ h1).mp hj with hj | ⟨rfl, ho, hh⟩
          · exact hfits j hj
          · exact (hfit ho).mp (hfits₂ ho hh)

/-! ## At boot -/

/-- The state in which the first process calls `fsinit`: it holds the root directory, which
`userinit` has looked up. -/
def State.fsinit (d : Disk) : State :=
  (State.boot d).setEntry 0 { inum := ROOTINO, ref := 1, valid := false, dino := .zero }

theorem iget_root (d : Disk) : iget ROOTINO (State.boot d) = .ok (0, State.fsinit d) := rfl

theorem held_fsinit : (State.fsinit d).Held i ↔ i = ROOTINO := by
  constructor
  · rintro ⟨e, href, rfl⟩
    by_cases he : e = 0
    · rw [he]
      rfl
    · rw [State.fsinit, State.setEntry_of_ne _ he] at href
      exact absurd href (Nat.lt_irrefl 0)
  · rintro rfl
    exact ⟨0, Nat.zero_lt_one, rfl⟩

/-- The invariant at boot says nothing of the entries of directories. -/
theorem inv_fsinit (hblocks : Blocks sb d (dinodeAt sb d) (Used sb d))
    (hn : 1 < sb.ninodes.toNat) : Inv sb (2 ^ 16) (State.fsinit d) none := by
  have hboot : Inv sb (2 ^ 16) (State.boot d) none :=
    ⟨hblocks.owned, hblocks.noHoles, fun i _ _ k _ b _ => UInt16.toNat_lt _,
      fun e he => absurd he (Nat.lt_irrefl 0), fun e e' he => absurd he (Nat.lt_irrefl 0),
      fun e he => absurd he (Nat.lt_irrefl 0)⟩
  exact hboot.got ((wp_iget (E := fun _ => True) fun _ => trivial).of_ok (iget_root d)) le_rfl hn

/-- The orphans are gone, and nothing else is. -/
structure Reclaimed (sb : Superblock) (d : Disk) (s : State) : Prop where
  none_left : ∀ i, 1 ≤ i → i < sb.ninodes.toNat → ¬ Orphan (dinodeAt sb s.disk i)
  kept : ∀ i, i < sb.ninodes.toNat → (dinodeAt sb d i).nlink ≠ 0 →
    dinodeAt sb s.disk i = dinodeAt sb d i ∧
      ∀ pl b, diskLocs sb d (i, pl) = some b → s.disk b = d b
  bitmap : ∀ b, Used sb s.disk b ↔ Used sb d b ∧
    ∀ i, Orphan (dinodeAt sb d i) → ∀ pl, diskLocs sb d (i, pl) ≠ some b
  refs : ∀ e, (s.itable e).ref = ((State.fsinit d).itable e).ref

/-- Where no orphan is held, `ireclaim` reclaims them. -/
theorem Swept.reclaimed (h : Swept sb lim (State.fsinit d)
      (Reclaims sb (State.fsinit d) sb.ninodes.toNat) s)
    (h₀ : Inv sb lim (State.fsinit d) none)
    (hroot : ∀ i, 1 ≤ i → i < sb.ninodes.toNat → Orphan (dinodeAt sb d i) → i ≠ ROOTINO) :
    Reclaimed sb d s := by
  have hfree {i : ℕ} (h1 : 1 ≤ i) (hi : i < sb.ninodes.toNat) (ho : Orphan (dinodeAt sb d i)) :
      Reclaims sb (State.fsinit d) sb.ninodes.toNat i :=
    ⟨h1, hi, ho, fun hheld => hroot i h1 hi ho (held_fsinit.mp hheld)⟩
  refine ⟨fun i h1 hi ho => ?_, fun i hi hlink => ?_, fun b => ?_, h.ref⟩
  · by_cases hr : Reclaims sb (State.fsinit d) sb.ninodes.toNat i
    · exact ho.1 (h.freed i hr)
    · rw [h.kept i hi hr] at ho
      exact hr (hfree h1 hi ho)
  · refine ⟨h.kept i hi fun hr => hlink hr.2.2.1.2, fun pl b hb => h.data b ?_⟩
    exact h₀.nmeta_le (l := (i, pl)) hb
  · rw [h.bitmap]
    refine and_congr_right fun _ => ⟨fun hall i ho pl hb => ?_, fun hall i hr => hall i hr.2.2.1⟩
    have hi := allocated_of_locs hb
    exact hall i (hfree hi.1 hi.2.1 ho) pl hb

/-- From an image whose blocks have one owner each, `ireclaim` frees exactly the orphans if and only
if the root is not one of them, and each of them fits in the log. -/
theorem ireclaim_iff (hsb : sb.Ok) (hblocks : Blocks sb d (dinodeAt sb d) (Used sb d)) :
    (∃ s', ireclaim sb (State.fsinit d) = .ok ((), s') ∧ Reclaimed sb d s') ↔
      ∀ i, 1 ≤ i → i < sb.ninodes.toNat → Orphan (dinodeAt sb d i) →
        i ≠ ROOTINO ∧ Fits sb d i := by
  by_cases hn : 1 < sb.ninodes.toNat
  · have h₀ := inv_fsinit hblocks hn
    have hwp := h₀.wp_ireclaim hsb rfl rfl ⟨1, rfl⟩
    constructor
    · rintro ⟨s', hok, hrec⟩ i h1 hi ho
      obtain ⟨hswept, hfits⟩ := hwp.of_ok hok
      have hroot : i ≠ ROOTINO := by
        intro hroot
        have hkept := hswept.kept i hi fun hr => hr.2.2.2 (held_fsinit.mpr hroot)
        exact hrec.none_left i h1 hi (by rw [hkept]; exact ho)
      exact ⟨hroot, hfits i ⟨h1, hi, ho, fun hh => hroot (held_fsinit.mp hh)⟩⟩
    · intro hall
      have hwp' : wp (ireclaim sb) (State.fsinit d) (fun _ s' => Swept sb (2 ^ 16) (State.fsinit d)
          (Reclaims sb (State.fsinit d) sb.ninodes.toNat) s') fun _ => False := by
        refine wp_mono hwp (fun _ _ hs => hs.1) fun p hp => ?_
        obtain ⟨-, j, hj, hfit⟩ := hp
        exact hfit (hall j hj.1 hj.2.1 hj.2.2.1).2
      obtain ⟨_, s', hok, hswept⟩ := hwp'.exists_ok
      exact ⟨s', hok, hswept.reclaimed h₀ fun i h1 hi ho => (hall i h1 hi ho).1⟩
  · -- There is no inode but number 0, which the loop does not visit.
    refine ⟨fun _ i h1 hi => by omega, fun _ => ?_⟩
    have hwp : wp (ireclaim sb) (State.fsinit d) (fun _ s' => s' = State.fsinit d)
        fun _ => False := by
      refine wp_upto (fun _ s' => s' = State.fsinit d) rfl fun i s' hi hs' => ?_
      rw [if_pos (by omega)]
      exact hs'
    obtain ⟨_, s', hok, rfl⟩ := hwp.exists_ok
    refine ⟨_, hok, fun i h1 hi => by omega, fun i _ _ => ⟨rfl, fun _ _ _ => rfl⟩, fun b => ?_,
      fun _ => rfl⟩
    refine (and_iff_left fun i _ pl hb => ?_).symm
    have hi := allocated_of_locs hb
    have h1 := hi.1
    have h2 := hi.2.1
    omega

/-- A file is written that has no link. -/
def makesOrphan : List Act :=
  [.beginOp, .ialloc T_FILE, .ilock 0, .writei 0 (fun _ _ => .all [8, 9]) 0 2, .iunlock 0, .endOp]

/-- The file is an orphan with a block, and it is freed. -/
theorem ireclaim_iff_makesOrphan :
    ∃ d, Blocks tinySb d (dinodeAt tinySb d) (Used tinySb d) ∧ Orphan (dinodeAt tinySb d 2) ∧
      (dinodeAt tinySb d 2).addrs 0 = 36 ∧
      ∃ s', ireclaim tinySb (State.fsinit d) = .ok ((), s') ∧ Reclaimed tinySb d s' := by
  obtain ⟨s, hs, hinv, horphan, haddr, hroot⟩ := exists_tinyDisk makesOrphan
    (fun s => Orphan (dinodeAt tinySb s.disk 2) ∧ (dinodeAt tinySb s.disk 2).addrs 0 = 36 ∧
      (dinodeAt tinySb s.disk ROOTINO).nlink = 1) (by decide +kernel)
  have hblocks : Blocks tinySb s.disk (dinodeAt tinySb s.disk) (Used tinySb s.disk) :=
    ⟨hinv.owned, hinv.noHoles⟩
  refine ⟨s.disk, hblocks, horphan, haddr, (ireclaim_iff (by decide) hblocks).mpr ?_⟩
  intro i h1 hi ho
  refine ⟨?_, fits_of_size (by decide) fun pl b hb => ?_⟩
  · rintro rfl
    have hlink := ho.2
    rw [hroot] at hlink
    exact absurd hlink (by decide)
  · have hloc : s.locs tinySb none (i, pl) = some b :=
      (locs_of_allocated ⟨h1, hi, ho.1⟩ pl).trans hb
    exact (hinv.owned.used_of_loc hloc).1

/-! ## A file whose blocks are far apart -/

/-- The superblock of an image with 29 blocks of the bitmap. -/
def wideSb : Superblock where
  magic := FSMAGIC
  size := 237568
  nblocks := 237505
  ninodes := 16
  nlog := 31
  logstart := 2
  inodestart := 33
  bmapstart := 34

/-- The block of the file in the part `g` of the image, whose bits are in one block of the
bitmap. -/
def farBlock (g : ℕ) : BlockNo := UInt32.ofNat (g * BPB + 1000)

/-- A file of 28 blocks that has no link. -/
def farFile : Dinode where
  type := T_FILE
  major := 0
  minor := 0
  nlink := 0
  size := 28672
  addrs := fun k => farBlock k.val

/-- An image with an empty root directory and the file. -/
def wideDisk : Disk := fun b =>
  if b = 33 then
    setDinode (setDinode (fun _ => 0) 1 { Dinode.zero with type := T_DIR, nlink := 1 }) 2 farFile
  else if 34 ≤ b ∧ b < 63 then
    setBit ((List.range (if b = 34 then 63 else 0)).foldl setBit fun _ => 0) 1000
  else if b = farBlock 12 then fun j => if j.val < 16 then farBlock (j.val + 13) else 0
  else fun _ => 0

/-- The part of the image that has the block at a place of the file. -/
def farPart : Place → Option ℕ
  | .direct k => some k.val
  | .root => some 12
  | .entry j => if j.val < 16 then some (j.val + 13) else none

theorem wideDisk_file : dinodeAt wideSb wideDisk 2 = farFile :=
  getDinode_setDinode_self _ (by decide) farFile

theorem wideDisk_inodes : ∀ i, i < 16 → i ≠ 2 →
    (dinodeAt wideSb wideDisk i).addrs = (fun _ => 0) ∧ (dinodeAt wideSb wideDisk i).size = 0 := by
  decide +kernel

theorem farFile_addr (pl : Place) : addrOf wideDisk farFile pl = (farPart pl).map farBlock := by
  cases pl with
  | direct k =>
    revert k
    decide +kernel
  | root => decide +kernel
  | entry j =>
    revert j
    decide +kernel

/-- The blocks of the file. -/
theorem wideDisk_locs {l : ℕ × Place} {b : BlockNo} :
    diskLocs wideSb wideDisk l = some b ↔
      l.1 = 2 ∧ ∃ g, farPart l.2 = some g ∧ farBlock g = b := by
  obtain ⟨i, pl⟩ := l
  have htwo : Allocated wideSb.ninodes.toNat (dinodeAt wideSb wideDisk) 2 := by decide +kernel
  constructor
  · intro hl
    have hi := allocated_of_locs hl
    rw [diskLocs, locs_of_allocated hi] at hl
    by_cases h2 : i = 2
    · subst h2
      rw [wideDisk_file, farFile_addr, Option.map_eq_some_iff] at hl
      exact ⟨rfl, hl⟩
    · have haddrs := (wideDisk_inodes i hi.2.1 h2).1
      cases pl with
      | direct k | root | entry k => simp [addrOf, haddrs] at hl
  · rintro ⟨rfl, hg⟩
    rw [diskLocs, locs_of_allocated htwo, wideDisk_file, farFile_addr, Option.map_eq_some_iff]
    exact hg

/-- The place that has the block in the part `g`. -/
def farPlace (g : ℕ) : Place :=
  if g < 12 then .direct (Fin.ofNat NDIRECT g) else if g = 12 then .root
  else .entry (Fin.ofNat NINDIRECT (g - 13))

theorem farPart_farPlace : ∀ g, g < 29 → farPart (farPlace g) = some g := by
  decide +kernel

theorem farPart_spec (pl : Place) : ∀ g ∈ farPart pl, g < 29 ∧ pl = farPlace g := by
  cases pl with
  | direct k =>
    revert k
    decide +kernel
  | root => decide +kernel
  | entry j =>
    revert j
    decide +kernel

theorem farBlock_toNat {g : ℕ} (h : g < 29) : (farBlock g).toNat = g * 8192 + 1000 := by
  rw [farBlock, UInt32.toNat_ofNat_of_lt']
  · rfl
  · exact lt_of_le_of_lt (Nat.add_le_add_right (Nat.mul_le_mul_right _ h.le) _) (by decide)

/-- The bitmap has the metadata, and the blocks of the file. -/
theorem wideDisk_used (b : BlockNo) : Used wideSb wideDisk b ↔
    b.toNat < 63 ∨ ∃ g, g < 29 ∧ farBlock g = b := by
  have hsize : wideSb.size.toNat = 237568 := rfl
  have hfar (g : ℕ) : (g < 29 ∧ farBlock g = b) ↔ g < 29 ∧ b.toNat = g * 8192 + 1000 := by
    refine and_congr_right fun hg => ?_
    rw [← UInt32.toNat_inj, farBlock_toNat hg, eq_comm]
  simp only [hfar, Used, hsize]
  by_cases hb : b.toNat < 237568
  · have hblock : (bblock wideSb b.toNat).toNat = b.toNat / 8192 + 34 :=
      bblock_toNat (by decide) hb
    have hmod : b.toNat % BPB = b.toNat % 8192 := rfl
    have hbits : wideDisk (bblock wideSb b.toNat) =
        setBit ((List.range (if b.toNat / 8192 = 0 then 63 else 0)).foldl setBit fun _ => 0)
          1000 := by
      generalize bblock wideSb b.toNat = c at hblock
      have h33 : c ≠ 33 := by
        rintro rfl
        rw [show (33 : UInt32).toNat = 33 from rfl] at hblock
        omega
      have h34 : c = 34 ↔ b.toNat / 8192 = 0 := by
        rw [← UInt32.toNat_inj, hblock]
        exact Nat.add_eq_right
      have hin : 34 ≤ c ∧ c < 63 := by
        rw [UInt32.le_iff_toNat_le, UInt32.lt_iff_toNat_lt, hblock]
        change 34 ≤ _ ∧ _ < 63
        omega
      simp only [wideDisk, if_neg h33, if_pos hin, h34]
    rw [hbits, bitAt_setBit _ _ (Nat.mod_lt _ (by decide)),
      bitAt_foldl_setBit _ (Nat.mod_lt _ (by decide)), ← Bool.decide_or, decide_eq_true_iff, hmod]
    constructor
    · rintro ⟨-, h1000 | hlt⟩
      · exact .inr ⟨b.toNat / 8192, by omega, by omega⟩
      · split_ifs at hlt with h0
        · exact .inl (by omega)
        · omega
    · rintro (hlt | ⟨g, hg, hbg⟩)
      · refine ⟨hb, .inr ?_⟩
        rw [if_pos (by omega)]
        omega
      · exact ⟨hb, .inl (by omega)⟩
  · refine iff_of_false (fun h => hb h.1) ?_
    rintro (hlt | ⟨g, hg, hbg⟩)
    · omega
    · omega

theorem wideDisk_blocks : Blocks wideSb wideDisk (dinodeAt wideSb wideDisk)
    (Used wideSb wideDisk) := by
  have hnmeta : wideSb.nmeta = 63 := rfl
  refine ⟨⟨fun l l' b hl hl' => ?_, fun l b hl => ?_, fun b => ?_⟩, fun i hi => ?_⟩
  · obtain ⟨h2, g, hg, rfl⟩ := wideDisk_locs.mp hl
    obtain ⟨h2', g', hg', hgg⟩ := wideDisk_locs.mp hl'
    obtain ⟨hlt, hpl⟩ := farPart_spec _ g hg
    obtain ⟨hlt', hpl'⟩ := farPart_spec _ g' hg'
    have hnum := congrArg UInt32.toNat hgg
    rw [farBlock_toNat hlt, farBlock_toNat hlt'] at hnum
    have heq : g' = g := by omega
    exact Prod.ext (h2.trans h2'.symm) (by rw [hpl, hpl', heq])
  · obtain ⟨-, g, hg, rfl⟩ := wideDisk_locs.mp hl
    rw [Set.mem_ofPred_eq, hnmeta, farBlock_toNat (farPart_spec _ g hg).1]
    omega
  · rw [wideDisk_used, Set.mem_ofPred_eq, hnmeta]
    refine or_congr_right ⟨?_, ?_⟩
    · rintro ⟨g, hg, rfl⟩
      exact ⟨(2, farPlace g), wideDisk_locs.mpr ⟨rfl, g, farPart_farPlace g hg, rfl⟩⟩
    · rintro ⟨l, hl⟩
      obtain ⟨-, g, hg, rfl⟩ := wideDisk_locs.mp hl
      exact ⟨g, (farPart_spec _ g hg).1, rfl⟩
  · by_cases h2 : i = 2
    · subst h2
      rw [wideDisk_file]
      have hsize : farFile.size.toNat = 28672 := rfl
      refine ⟨by rw [hsize]; decide, fun bn hbn => ?_⟩
      rw [farFile_addr, hsize] at *
      have hall : ∀ bn, bn < 28 → (farPart (.ofIndex bn)).map farBlock ≠ none := by
        decide +kernel
      exact hall bn (by simp only [BSIZE] at hbn; omega)
    · have hsize := (wideDisk_inodes i hi.2.1 h2).2
      exact ⟨by simp [hsize], fun bn hbn => by simp [hsize] at hbn⟩

/-- The file has no link, and `ireclaim` stops the kernel. -/
theorem ireclaim_too_big : wideSb.Ok ∧
    Blocks wideSb wideDisk (dinodeAt wideSb wideDisk) (Used wideSb wideDisk) ∧
    Orphan (dinodeAt wideSb wideDisk 2) ∧
    ireclaim wideSb (State.fsinit wideDisk) = .error .tooBig := by
  have hsb : wideSb.Ok := by decide
  have horphan : Orphan (dinodeAt wideSb wideDisk 2) := by
    rw [wideDisk_file]
    decide
  have hfits : ¬ Fits wideSb wideDisk 2 := by decide +kernel
  have hwp := (inv_fsinit wideDisk_blocks (by decide)).wp_ireclaim hsb rfl rfl ⟨1, rfl⟩
  refine ⟨hsb, wideDisk_blocks, horphan, ?_⟩
  cases hrun : ireclaim wideSb (State.fsinit wideDisk) with
  | error p => rw [(hwp.of_error hrun).1]
  | ok r =>
    have hnot : ¬ (State.fsinit wideDisk).Held 2 := fun hh => absurd (held_fsinit.mp hh) (by decide)
    exact absurd ((hwp.of_ok hrun).2 2 ⟨by decide, by decide, horphan, hnot⟩) hfits

end SustainableXv6.Inode
