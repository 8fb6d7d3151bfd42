import SustainableXv6.Mkfs.Append

/-!
# The image that `mkfs` leaves

`Inv` holds between the calls of `iappend` and `ialloc`, as long as there are inodes left. At the
end the size of the root directory is rounded up to a multiple of the block size, which leaves a
hole if it is one already. So the image is one that the kernel accepts if and only if the inodes
suffice and the entries of the root directory do not fill its last block.
-/

namespace SustainableXv6.Mkfs

open Fs Function Lib

variable {s s' : State} {i : ℕ} {E : Fail → Prop}

theorem sb_ok : sb.Ok := by decide

theorem sb_nmeta : sb.nmeta = nmeta := by decide

theorem sb_ninodes : sb.ninodes.toNat = NINODES := by decide

/-- The inodes of the image. -/
def State.dino (s : State) : ℕ → Dinode := dinodeAt sb s.image

/-- The places of the inodes of the image. -/
def State.locs (s : State) : ℕ × Place → Option BlockNo := Fs.locs NINODES s.image s.dino

/-- After an assertion its condition holds. -/
theorem wp_assert {c : Bool} {Q : Unit → State → Prop} (hQ : c = true → Q () s) :
    wp (assert c) s Q fun _ => True := by
  unfold assert
  rw [wp_ite]
  exact ⟨hQ, fun _ => trivial⟩

/-! ## Inodes -/

/-- The inodes are in the image. -/
theorem iblock_lt_size (hi : i < NINODES) : (iblock sb i).toNat < nmeta := by
  rw [← sb_nmeta]
  exact lt_of_lt_of_le (iblock_lt sb_ok (by rwa [sb_ninodes])) (bmapstart_le sb_ok)

/-- The state with another inode `i` in the image. -/
def State.putDinode (s : State) (i : ℕ) (x : Dinode) : State :=
  { s with image := Fs.putDinode sb s.image i x }

/-- `winode` of an inode of the image. -/
theorem wp_winode {x : Dinode} {Q : Unit → State → Prop} (h : s.len = FSSIZE) (hi : i < NINODES)
    (hQ : Q () (s.putDinode i x)) : wp (winode i x) s Q E := by
  have hlt : (iblock sb i).toNat < FSSIZE := lt_trans (iblock_lt_size hi) (by decide)
  have hmax : max s.len ((iblock sb i).toNat + 1) = s.len := by omega
  simp only [winode, rsect, wsect, wp_bind, wp_get]
  rw [wp_ite]
  refine ⟨fun _ => ?_, fun hout => absurd (h ▸ hlt) hout⟩
  simp only [wp_pure, wp_modify, hmax]
  exact hQ

/-- `rinode` of an inode of the image. -/
theorem wp_rinode {Q : Dinode → State → Prop} (h : s.len = FSSIZE) (hi : i < NINODES)
    (hQ : Q (s.dino i) s) : wp (rinode i) s Q E := by
  have hlt : (iblock sb i).toNat < FSSIZE := lt_trans (iblock_lt_size hi) (by decide)
  simp only [rinode, rsect, wp_bind, wp_get]
  rw [wp_ite]
  exact ⟨fun _ => hQ, fun hout => absurd (h ▸ hlt) hout⟩

/-- The inode `x` is written, where `Core` holds with it. -/
theorem Core.putDinode {x : Dinode} (h : Core s (update s.dino i x)) (hi : i < NINODES) :
    (s.putDinode i x).locs = Fs.locs NINODES s.image (update s.dino i x) ∧
      Core (s.putDinode i x) (s.putDinode i x).dino := by
  have hlocs : (s.putDinode i x).locs = Fs.locs NINODES s.image (update s.dino i x) := by
    have hlocs := locs_putDinode (d := s.image) (x := x) sb_ok (i := i) (by rwa [sb_ninodes])
      fun l b hl => ?_
    · rwa [sb_ninodes] at hlocs
    · rw [sb_ninodes] at hl
      rw [sb_nmeta]
      exact (h.loc_range hl).1
  refine ⟨hlocs, h.len, ?_, fun b hb => ?_⟩
  · change Owned _ (s.putDinode i x).locs _
    rw [hlocs]
    exact h.owned
  · have hne : b ≠ iblock sb i := by
      rintro rfl
      have h₁ := iblock_lt_size hi
      have h₂ := h.nmeta_le
      have h₃ : s.freeblock ≤ (iblock sb i).toNat := hb
      omega
    simp only [State.putDinode, Fs.putDinode, update_of_ne hne]
    exact h.fresh b hb

/-- The other inodes stay. -/
theorem State.dino_putDinode {x : Dinode} {j : ℕ} (hi : i < NINODES) (hj : j < NINODES) :
    (s.putDinode i x).dino j = update s.dino i x j :=
  dinodeAt_putDinode sb_ok (by rwa [sb_ninodes]) (by rwa [sb_ninodes])

/-! ## `iappend` -/

/-- What `iappend` leaves. -/
structure AppendedTo (s : State) (i n : ℕ) (s' : State) : Prop where
  core : Core s' s'.dino
  bound : s'.freeblock ≤ FSSIZE
  freeinode : s'.freeinode = s.freeinode
  others : ∀ l, l.1 ≠ i → s'.locs l = s.locs l
  image : ∀ b, b ≠ iblock sb i → (∀ pl, s'.locs (i, pl) ≠ some b) → s'.image b = s.image b
  inodes : ∀ j, j ≠ i → j < NINODES → s'.dino j = s.dino j
  type : (s'.dino i).type = (s.dino i).type
  size : (s'.dino i).size.toNat = (s.dino i).size.toNat + n
  exact : Exact s' s'.dino i

/-- `iappend` appends the bytes `p`, and takes blocks for them. It fails if the file would be too
large, or if the image has not the blocks. -/
theorem wp_iappend {G : Block → Prop} (hzero : G fun _ => 0) (h : Core s s.dino)
    (hb : s.freeblock ≤ FSSIZE) (hi : Allocated NINODES s.dino i) (hex : Exact s s.dino i)
    (hc : Contents G s s.dino i) (p : List UInt8)
    (hG : ∀ k b, k < p.length →
      k = 0 ∨ ((s.dino i).size.toNat + k) % BSIZE = 0 → G b →
        G (putBytes b ((s.dino i).size.toNat + k - ((s.dino i).size.toNat + k) / BSIZE * BSIZE)
          ((p.drop k).take (chunkSize ((s.dino i).size.toNat + k) (p.drop k)))))
    (hE : ∀ f, MAXFILE * BSIZE < (s.dino i).size.toNat + p.length ∨
      FSSIZE + needs (s.dino i).size.toNat <
        s.freeblock + needs ((s.dino i).size.toNat + p.length) → E f) :
    wp (iappend i p) s (fun _ s' => AppendedTo s i p.length s' ∧ Contents G s' s'.dino i ∧
      fileBytes s'.image (s'.dino i) 0 ((s.dino i).size.toNat + p.length) =
        fileBytes s.image (s.dino i) 0 (s.dino i).size.toNat ++ p ∧
      s'.freeblock + needs (s.dino i).size.toNat ≤
        s.freeblock + needs ((s.dino i).size.toNat + p.length)) E := by
  have hself : update s.dino i (s.dino i) = s.dino := update_eq_self i s.dino
  unfold iappend
  refine wp_call (wp_rinode (Q := fun d t => d = s.dino i ∧ t = s) h.len hi.2.1 ⟨rfl, rfl⟩)
    fun din t hdin => ?_
  obtain ⟨rfl, rfl⟩ := hdin
  refine wp_call (wp_appendLoop hzero t.dino i p.length t (t.dino i) (t.dino i)
    (t.dino i).size.toNat p le_rfl (by rwa [hself]) hb (by rwa [hself]) rfl rfl (by rwa [hself])
    (by rwa [hself]) hG hE) fun r s₁ hr => ?_
  obtain ⟨din', off⟩ := r
  obtain ⟨hfields, hoff, hbig, v', hv', hgrown, hex', hc', hbytes, hneeds⟩ := hr
  rw [hself] at hgrown
  simp only at hfields hoff hbig hv' hbytes hneeds
  rw [hoff] at hbytes hneeds
  have hv : { din' with size := UInt32.ofNat off } = v' := by rw [hv', hfields]
  change wp (winode i { din' with size := UInt32.ofNat off }) s₁ _ _
  rw [hv]
  -- The loop has not written to the metadata.
  have hmeta (b : BlockNo) (hlt : b.toNat < nmeta) : s₁.image b = t.image b :=
    hgrown.image b fun pl hl => absurd hlt (Nat.not_lt.mpr (hgrown.core.loc_range hl).1)
  have hdino (j : ℕ) (hj : j < NINODES) : s₁.dino j = t.dino j := by
    simp only [State.dino, dinodeAt, hmeta _ (iblock_lt_size hj)]
  have hview : Fs.locs NINODES s₁.image (update s₁.dino i v') =
      Fs.locs NINODES s₁.image (update t.dino i v') := by
    refine locs_congr fun j _ hj => ?_
    by_cases hji : j = i
    · rw [hji, update_self, update_self]
    · rw [update_of_ne hji, update_of_ne hji, hdino j hj]
  have hcore₁ : Core s₁ (update s₁.dino i v') :=
    ⟨hgrown.core.len, by rw [hview]; exact hgrown.core.owned, hgrown.core.fresh⟩
  obtain ⟨hlocs, hcore⟩ := hcore₁.putDinode hi.2.1
  rw [hview] at hlocs
  have hnum : (UInt32.ofNat off).toNat = off :=
    UInt32.toNat_ofNat_of_lt' (lt_of_le_of_lt hbig (by decide))
  have hi' : (s₁.putDinode i v').dino i = v' := dinodeAt_putDinode_self ..
  have hsize : ((s₁.putDinode i v').dino i).size.toNat = (t.dino i).size.toNat + p.length := by
    rw [hi', hv', ← hoff]
    exact hnum
  refine wp_winode hgrown.core.len hi.2.1 ⟨⟨hcore, hgrown.bound, hgrown.freeinode, fun l hl => ?_,
    fun b hbi hbl => ?_, fun j hji hj => ?_, ?_, hsize, ?_⟩, fun bn b hbn hl => ?_, ?_, hneeds⟩
  · rw [hlocs, hgrown.others l hl]
    rfl
  · simp only [State.putDinode, Fs.putDinode, update_of_ne hbi]
    exact hgrown.image b fun pl hl => hbl pl (by rw [hlocs]; exact hl)
  · rw [State.dino_putDinode hi.2.1 hj, update_of_ne hji, hdino j hj]
  · rw [hi', hv']
  · rw [Exact, hi']
    simpa only [Exact, update_self, ← hlocs, State.locs] using hex'
  · have hl' : (s₁.putDinode i v').locs (i, .ofIndex bn) = some b := hl
    rw [hlocs] at hl'
    have hne : b ≠ iblock sb i := by
      rintro rfl
      exact absurd (iblock_lt_size hi.2.1) (Nat.not_lt.mpr (hgrown.core.loc_range hl').1)
    simp only [State.putDinode, Fs.putDinode, update_of_ne hne]
    exact hc' bn b hbn hl'
  · -- The inode block is no block of the file.
    rw [hi', ← hbytes]
    refine fileBytes_congr (fun pl b hl => ?_) ..
    have hl' : Fs.locs NINODES s₁.image (update t.dino i v') (i, pl) = some b := by
      have hi₁ : Allocated NINODES (update t.dino i v') i := by
        simpa [Allocated, hv'] using hi
      rw [locs_of_allocated hi₁, update_self, hl]
    have hne : b ≠ iblock sb i := by
      rintro rfl
      exact absurd (iblock_lt_size hi.2.1) (Nat.not_lt.mpr (hgrown.core.loc_range hl').1)
    simp only [State.putDinode, Fs.putDinode, update_of_ne hne]

/-! ## Directory entries -/

/-- The entries of a block name inodes below `n`, or none. -/
def DirBlock (n : ℕ) (b : Block) : Prop := ∀ e, e < BSIZE / DIRENTSIZE →
  (direntInum b (DIRENTSIZE * e)).toNat < n

theorem DirBlock.zero {n : ℕ} (hn : 0 < n) : DirBlock n fun _ => 0 := by
  intro e he
  simpa [direntInum, byteAt_zero] using hn

theorem DirBlock.mono {m n : ℕ} {b : Block} (h : DirBlock m b) (hmn : m ≤ n) : DirBlock n b :=
  fun e he => lt_of_lt_of_le (h e he) hmn

/-- An entry is put into a block. -/
theorem DirBlock.putBytes {n inum k : ℕ} {b : Block} (h : DirBlock n b) (hinum : inum < n)
    (name : List UInt8) :
    DirBlock n (putBytes b (DIRENTSIZE * k) (dirent (UInt16.ofNat inum) name)) := by
  intro l hl
  rw [direntInum_putBytes b hl]
  split_ifs
  · rw [UInt16.toNat_ofNat']
    exact lt_of_le_of_lt (Nat.mod_le _ _) hinum
  · exact h l hl

/-! ## The invariant -/

/-- What holds of the image between the calls of `iappend`. -/
structure Inv (s : State) : Prop where
  core : Core s s.dino
  bound : s.freeblock ≤ FSSIZE
  types : ∀ i, 1 ≤ i → i < NINODES → (s.dino i).type =
    if i < s.freeinode then (if i = ROOTINO then T_DIR else T_FILE) else 0
  exact : ∀ i, Allocated NINODES s.dino i → Exact s s.dino i
  entries : Contents (DirBlock s.freeinode) s s.dino ROOTINO
  super : s.image 1 = writeSuper sb

/-- The inodes that have been given out are allocated. -/
theorem Inv.allocated_iff (h : Inv s) (i : ℕ) :
    Allocated NINODES s.dino i ↔ 1 ≤ i ∧ i < NINODES ∧ i < s.freeinode := by
  unfold Allocated
  refine and_congr_right fun h1 => and_congr_right fun h2 => ?_
  rw [h.types i h1 h2]
  by_cases hi : i < s.freeinode
  · simp only [hi, if_true, iff_true]
    split_ifs
    · decide
    · decide
  · simp [hi]

/-- `iappend` keeps the invariant, for the contents `G` of the blocks that it writes. -/
theorem Inv.appendedTo {n : ℕ} (h : Inv s) (hi : Allocated NINODES s.dino i)
    (ha : AppendedTo s i n s')
    (hdir : i = ROOTINO → Contents (DirBlock s.freeinode) s' s'.dino i) : Inv s' := by
  have hallocated (j : ℕ) : Allocated NINODES s'.dino j ↔ Allocated NINODES s.dino j := by
    unfold Allocated
    refine and_congr_right fun _ => and_congr_right fun hj => ?_
    by_cases hji : j = i
    · rw [hji, ha.type]
    · rw [ha.inodes j hji hj]
  refine ⟨ha.core, ha.bound, fun j h1 h2 => ?_, fun j hj => ?_, ?_, ?_⟩
  · rw [ha.freeinode, ← h.types j h1 h2]
    by_cases hji : j = i
    · rw [hji, ha.type]
    · rw [ha.inodes j hji h2]
  · by_cases hji : j = i
    · subst hji
      exact ha.exact
    · have hj' := (hallocated j).mp hj
      obtain ⟨hle, hbn⟩ := h.exact j hj'
      have hother (bn : ℕ) : Fs.locs NINODES s'.image s'.dino (j, .ofIndex bn) =
          Fs.locs NINODES s.image s.dino (j, .ofIndex bn) := ha.others _ hji
      rw [Exact, ha.inodes j hji hj.2.1]
      exact ⟨hle, fun bn hlt => by rw [hother]; exact hbn bn hlt⟩
  · rw [ha.freeinode]
    by_cases hir : i = ROOTINO
    · exact hir ▸ hdir hir
    · intro bn b hbn hl
      have hold : s.locs (ROOTINO, .ofIndex bn) = some b := by
        rw [← ha.others _ (Ne.symm hir)]
        exact hl
      have hrange := (h.core.loc_range hold).1
      rw [ha.image b]
      · exact h.entries bn b hbn hold
      · rintro rfl
        exact absurd (iblock_lt_size hi.2.1) (Nat.not_lt.mpr hrange)
      · intro pl hpl
        have := ha.core.owned.inj _ _ b hpl hl
        exact hir (Prod.mk.inj this).1
  · rw [ha.image 1, h.super]
    · intro h1
      have := congrArg UInt32.toNat h1
      rw [iblock_toNat sb_ok (by rw [sb_ninodes]; exact hi.2.1)] at this
      have hstart : sb.inodestart.toNat = 33 := by decide
      rw [hstart] at this
      simp at this
    · intro pl hpl
      exact absurd (ha.core.loc_range hpl).1 (by decide)

/-- `iappend` of data to a file. -/
theorem Inv.wp_iappend_file (h : Inv s) (hi : Allocated NINODES s.dino i) (hne : i ≠ ROOTINO)
    (p : List UInt8) :
    wp (iappend i p) s (fun _ s' => Inv s' ∧ AppendedTo s i p.length s') fun _ => True := by
  refine (wp_iappend (G := fun _ => True) trivial h.core h.bound hi (h.exact i hi)
    (fun _ _ _ _ => trivial) p (fun _ _ _ _ _ => trivial) fun _ _ => trivial).imp
    fun _ s' hs' => ?_
  exact ⟨h.appendedTo hi hs'.1 fun he => absurd he hne, hs'.1⟩

/-- `iappend` of an entry to the root directory. -/
theorem Inv.wp_iappend_root (h : Inv s) (hi : Allocated NINODES s.dino ROOTINO) {inum n : ℕ}
    (hinum : inum < s.freeinode) (name : List UInt8)
    (hsize : (s.dino ROOTINO).size.toNat = DIRENTSIZE * n) :
    wp (iappend ROOTINO (dirent (UInt16.ofNat inum) name)) s
      (fun _ s' => Inv s' ∧ AppendedTo s ROOTINO DIRENTSIZE s') fun _ => True := by
  have hlen := dirent_length (UInt16.ofNat inum) name
  have hdvd : BSIZE = DIRENTSIZE * (BSIZE / DIRENTSIZE) := by decide
  refine (wp_iappend (G := DirBlock s.freeinode) (.zero (Nat.zero_lt_of_lt hinum)) h.core
    h.bound hi (h.exact _ hi) h.entries (dirent (UInt16.ofNat inum) name) ?_
    fun _ _ => trivial).imp fun _ s' hs' => ?_
  · -- An entry lies in one block, so that there is one round.
    intro k b hk hstart hb
    rw [hsize]
    obtain rfl : k = 0 := by
      rcases hstart with hstart | hstart
      · exact hstart
      · rw [hsize] at hstart
        rw [hlen] at hk
        simp only [DIRENTSIZE, DIRSIZ, BSIZE] at *
        omega
    have hchunk : chunkSize (DIRENTSIZE * n) (dirent (UInt16.ofNat inum) name) = DIRENTSIZE := by
      simp only [chunkSize, hlen, DIRENTSIZE, DIRSIZ, BSIZE]
      omega
    have hoff : DIRENTSIZE * n - DIRENTSIZE * n / BSIZE * BSIZE =
        DIRENTSIZE * (n % (BSIZE / DIRENTSIZE)) := by
      simp only [DIRENTSIZE, DIRSIZ, BSIZE]
      omega
    simp only [Nat.add_zero, List.drop_zero]
    rw [hchunk, ← hlen, List.take_length, hlen, hoff]
    exact hb.putBytes hinum name
  · rw [hlen] at hs'
    exact ⟨h.appendedTo hi hs'.1 fun _ => hs'.2.1, hs'.1⟩

/-! ## `ialloc` -/

/-- What `ialloc` leaves, where `x` is the inode that it writes. -/
structure Allocates (s : State) (x : Dinode) (s' : State) : Prop where
  core : Core s' s'.dino
  freeblock : s'.freeblock = s.freeblock
  freeinode : s'.freeinode = s.freeinode + 1
  self : s'.dino s.freeinode = x
  others : ∀ j, j ≠ s.freeinode → j < NINODES → s'.dino j = s.dino j
  locs : s'.locs = s.locs
  image : ∀ b, b ≠ iblock sb s.freeinode → s'.image b = s.image b

/-- The inode that `ialloc` writes. -/
def newDinode (t : UInt16) : Dinode := { Dinode.zero with type := t, nlink := 1 }

/-- `ialloc` writes an inode without blocks. -/
theorem wp_ialloc (h : Core s s.dino) (hn : s.freeinode < NINODES)
    (hnot : ¬ Allocated NINODES s.dino s.freeinode) (t : UInt16) :
    wp (ialloc t) s (fun inum s' => inum = s.freeinode ∧ Allocates s (newDinode t) s') E := by
  have haddr (p : Place) : addrOf s.image (newDinode t) p = none := by
    cases p with
    | direct k | root | entry k => rfl
  have hview : Fs.locs NINODES s.image (update s.dino s.freeinode (newDinode t)) =
      s.locs := by
    refine locs_update_same fun p => ?_
    rw [haddr, ite_self, Fs.locs, if_neg hnot]
  have hcore : Core { s with freeinode := s.freeinode + 1 }
      (update s.dino s.freeinode (newDinode t)) :=
    ⟨h.len, by rw [hview]; exact h.owned, h.fresh⟩
  obtain ⟨hlocs, hcore'⟩ := hcore.putDinode hn
  unfold ialloc newInode
  simp only [wp_bind, wp_get, wp_set, wp_pure]
  refine wp_winode h.len hn ⟨trivial, hcore', rfl, rfl, dinodeAt_putDinode_self ..,
    fun j hj hjn => ?_, hlocs.trans hview, fun b hb => ?_⟩
  · rw [State.dino_putDinode hn hjn, update_of_ne hj]
    rfl
  · simp only [State.putDinode, Fs.putDinode, update_of_ne hb]

/-- A new inode has no blocks, and the others have those that they had. -/
theorem Allocates.exact {t : UInt16} (h : Allocates s (newDinode t) s')
    (hnot : ¬ Allocated NINODES s.dino s.freeinode)
    (hex : ∀ i, Allocated NINODES s.dino i → Exact s s.dino i) (hi : Allocated NINODES s'.dino i) :
    Exact s' s'.dino i := by
  have hsame (bn : ℕ) : Fs.locs NINODES s'.image s'.dino (i, .ofIndex bn) =
      Fs.locs NINODES s.image s.dino (i, .ofIndex bn) := congrFun h.locs _
  by_cases hin : i = s.freeinode
  · subst hin
    have hnone (bn : ℕ) : Fs.locs NINODES s'.image s'.dino (s.freeinode, .ofIndex bn) = none := by
      rw [hsame, Fs.locs, if_neg hnot]
    have hsize : (newDinode t).size.toNat = 0 := rfl
    rw [Exact, h.self]
    simp [hnone, hsize]
  · have hi' : Allocated NINODES s.dino i := by
      rw [Allocated, ← h.others i hin hi.2.1]
      exact hi
    obtain ⟨hle, hbn⟩ := hex i hi'
    rw [Exact, h.others i hin hi.2.1]
    exact ⟨hle, fun bn hlt => by rw [hsame]; exact hbn bn hlt⟩

/-- `ialloc` of the root directory, and then of files. -/
theorem Inv.wp_ialloc (h : Inv s) (hn : s.freeinode < NINODES) {t : UInt16}
    (ht : t = if s.freeinode = ROOTINO then T_DIR else T_FILE) :
    wp (ialloc t) s (fun inum s' => inum = s.freeinode ∧ Inv s' ∧ s'.freeinode = s.freeinode + 1 ∧
      (s'.dino inum).size = 0 ∧ ∀ j, j ≠ inum → j < NINODES → s'.dino j = s.dino j) E := by
  have hnot : ¬ Allocated NINODES s.dino s.freeinode := by
    rw [h.allocated_iff]
    omega
  refine (Mkfs.wp_ialloc h.core hn hnot t).imp fun inum s' hs' => ?_
  obtain ⟨rfl, ha⟩ := hs'
  refine ⟨rfl, ⟨ha.core, ha.freeblock ▸ h.bound, fun i hi1 hi2 => ?_,
    fun i hi => ha.exact hnot h.exact hi, fun bn b hbn hl => ?_, ?_⟩, ha.freeinode, ?_, ha.others⟩
  · rw [ha.freeinode]
    by_cases hi : i = s.freeinode
    · subst hi
      rw [ha.self, if_pos (Nat.lt_succ_self _), ← ht]
      rfl
    · rw [ha.others i hi hi2, h.types i hi1 hi2]
      have hiff : i < s.freeinode ↔ i < s.freeinode + 1 := by omega
      simp only [hiff]
  · have hold : s.locs (ROOTINO, .ofIndex bn) = some b := by
      rw [← ha.locs]
      exact hl
    have hne : b ≠ iblock sb s.freeinode := by
      rintro rfl
      exact absurd (iblock_lt_size hn) (Nat.not_lt.mpr (h.core.loc_range hold).1)
    rw [ha.image b hne, ha.freeinode]
    exact (h.entries bn b hbn hold).mono (Nat.le_succ _)
  · rw [ha.image 1 fun h1 => ?_, h.super]
    have := congrArg UInt32.toNat h1
    rw [iblock_toNat sb_ok (by rw [sb_ninodes]; exact hn)] at this
    have hstart : sb.inodestart.toNat = 33 := by decide
    rw [hstart] at this
    simp at this
  · rw [ha.self]
    rfl

/-! ## The files -/

/-- The invariant where the root directory has an entry for each inode number given out, and one
more. -/
structure Filled (s : State) (n : ℕ) : Prop where
  inv : Inv s
  freeinode : s.freeinode = n
  two_le : 2 ≤ n
  size : (s.dino ROOTINO).size.toNat = DIRENTSIZE * n

/-- A file is added. -/
theorem Filled.wp_addFile {n : ℕ} (h : Filled s n) (hn : n < NINODES) (arg : Arg) :
    wp (addFile arg) s (fun _ s' => Filled s' (n + 1)) fun _ => True := by
  obtain ⟨hI, hfree, htwo, hsize⟩ := h
  unfold addFile
  simp only [wp_bind]
  refine wp_assert fun _ => ?_
  cases arg.file with
  | none => trivial
  | some chunks =>
    simp only [wp_bind]
    refine wp_assert fun _ => ?_
    have hroot : s.freeinode ≠ ROOTINO := by
      rw [hfree, ROOTINO]
      omega
    refine (hI.wp_ialloc (by omega) (by rw [if_neg hroot])).imp fun inum s₁ hs₁ => ?_
    obtain ⟨rfl, hI₁, hfree₁, hzero₁, hother₁⟩ := hs₁
    have hrootino : ROOTINO < NINODES := by decide
    have hi₁ : Allocated NINODES s₁.dino ROOTINO := by
      rw [hI₁.allocated_iff, hfree₁, ROOTINO]
      exact ⟨le_rfl, by decide, by omega⟩
    refine (hI₁.wp_iappend_root (n := n) hi₁ (by omega) _ ?_).imp fun _ s₂ hs₂ => ?_
    · rw [hother₁ ROOTINO hroot.symm hrootino, hsize]
    · obtain ⟨hI₂, ha⟩ := hs₂
      have hfilled : Inv s₂ ∧ s₂.freeinode = n + 1 ∧
          (s₂.dino ROOTINO).size.toNat = DIRENTSIZE * (n + 1) := by
        refine ⟨hI₂, by rw [ha.freeinode, hfree₁, hfree], ?_⟩
        rw [ha.size, hother₁ ROOTINO hroot.symm hrootino, hsize, Nat.mul_succ]
      refine (wp_forM (fun (_ : List Chunk) t => Inv t ∧ t.freeinode = n + 1 ∧
        (t.dino ROOTINO).size.toNat = DIRENTSIZE * (n + 1)) (fun chunk _ t ht => ?_) hfilled).imp
        fun _ t ht => ⟨ht.1, ht.2.1, by omega, ht.2.2⟩
      obtain ⟨hIt, hft, hst⟩ := ht
      have hit : Allocated NINODES t.dino s.freeinode := by
        rw [hIt.allocated_iff, hft]
        omega
      refine (hIt.wp_iappend_file hit hroot chunk.val).imp fun _ t' ht' => ?_
      exact ⟨ht'.1, ht'.2.freeinode.trans hft,
        by rw [ht'.2.inodes ROOTINO hroot.symm hrootino, hst]⟩

/-- The root directory is made. -/
theorem wp_makeRoot (h : Inv s) (hfree : s.freeinode = 1) :
    wp makeRoot s (fun _ s' => Filled s' 2) fun _ => True := by
  unfold makeRoot
  refine wp_call (h.wp_ialloc (by rw [hfree]; decide) (by rw [hfree]; rfl))
    fun inum s₁ hs₁ => ?_
  obtain ⟨rfl, hI₁, hfree₁, hzero₁, -⟩ := hs₁
  rw [hfree] at hfree₁ hzero₁ ⊢
  simp only [wp_bind]
  refine wp_assert fun _ => ?_
  have hi₁ : Allocated NINODES s₁.dino ROOTINO := by
    rw [hI₁.allocated_iff, hfree₁]
    decide
  have hinum₁ : 1 < s₁.freeinode := by omega
  refine (hI₁.wp_iappend_root (n := 0) hi₁ hinum₁ _ ?_).imp fun _ s₂ hs₂ => ?_
  · rw [ROOTINO, hzero₁]
    rfl
  · obtain ⟨hI₂, ha₂⟩ := hs₂
    have hi₂ : Allocated NINODES s₂.dino ROOTINO := by
      rw [hI₂.allocated_iff, ha₂.freeinode, hfree₁]
      decide
    have hsize₂ : (s₂.dino ROOTINO).size.toNat = DIRENTSIZE * 1 := by
      rw [ha₂.size, ROOTINO, hzero₁]
      rfl
    have hinum₂ : 1 < s₂.freeinode := by rwa [ha₂.freeinode]
    refine (hI₂.wp_iappend_root hi₂ hinum₂ _ hsize₂).imp fun _ s₃ hs₃ => ?_
    obtain ⟨hI₃, ha₃⟩ := hs₃
    refine ⟨hI₃, by rw [ha₃.freeinode, ha₂.freeinode, hfree₁], le_rfl, ?_⟩
    rw [ha₃.size, hsize₂]
    rfl

end SustainableXv6.Mkfs
