import SustainableXv6.Mkfs.WellFormed

/-!
# The end of `mkfs`

The number of inodes that `mkfs` gives out is known for every list of arguments (`Gives`), also
where there are not enough of them. Where there are, the invariant holds before the root directory's
size is rounded up and the bitmap is written, and `Filled.wellFormed_iff` says what becomes of the
image then.
-/

namespace SustainableXv6.Mkfs

open Fs Function Lib

variable {s s' : State} {α β : Type}

/-! ## The number of inodes given out -/

/-- The program gives out `k` inodes. -/
def Gives (k : ℕ) (m : MkfsM α) : Prop :=
  ∀ s, wp m s (fun _ s' => s'.freeinode = s.freeinode + k) fun _ => True

namespace Gives

variable {k l : ℕ} {m m' : MkfsM α}

theorem pure (a : α) : Gives 0 (Pure.pure a : MkfsM α) := fun _ => rfl

theorem throw (e : Fail) : Gives k (throw e : MkfsM α) := fun _ => trivial

theorem bind {f : α → MkfsM β} (hm : Gives k m) (hf : ∀ a, Gives l (f a)) :
    Gives (k + l) (m >>= f) := by
  intro s
  refine wp_call (hm s) fun a s₁ hs₁ => (hf a s₁).imp fun _ s₂ hs₂ => ?_
  rw [hs₂, hs₁, Nat.add_assoc]

/-- A program that gives out no inode, in front of another. -/
theorem seq {f : α → MkfsM β} (hm : Gives 0 m) (hf : ∀ a, Gives l (f a)) : Gives l (m >>= f) := by
  have h := hm.bind hf
  rwa [Nat.zero_add] at h

theorem ite {c : Prop} [Decidable c] (hm : Gives k m) (hm' : Gives k m') :
    Gives k (if c then m else m') := fun s => wp_ite.mpr ⟨fun _ => hm s, fun _ => hm' s⟩

theorem forM {body : β → MkfsM PUnit} (h : ∀ b, Gives k (body b)) (bs : List β) :
    Gives (k * bs.length) (bs.forM body) := by
  induction bs with
  | nil => exact pure _
  | cons b bs ih =>
    have hlen : k * (b :: bs).length = k + k * bs.length := by
      rw [List.length_cons, Nat.mul_succ, Nat.add_comm]
    rw [hlen]
    exact bind (h b) fun _ => ih

theorem assert (c : Bool) : Gives 0 (assert c) := ite (pure _) (throw _)

theorem wsect (sec : BlockNo) (buf : Block) : Gives 0 (wsect sec buf) := fun _ => rfl

theorem rsect (sec : BlockNo) : Gives 0 (rsect sec) := by
  intro s
  unfold Mkfs.rsect
  simp only [wp_bind, wp_get]
  rw [wp_ite]
  exact ⟨fun _ => rfl, fun _ => trivial⟩

theorem newBlock : Gives 0 newBlock := fun _ => rfl

theorem newInode : Gives 1 newInode := fun _ => rfl

theorem winode (inum : ℕ) (din : Dinode) : Gives 0 (winode inum din) :=
  seq (rsect _) fun _ => wsect _ _

theorem rinode (inum : ℕ) : Gives 0 (rinode inum) := seq (rsect _) fun _ => pure _

theorem ialloc (type : UInt16) : Gives 1 (ialloc type) :=
  bind newInode fun _ => seq (winode _ _) fun _ => pure _

theorem indirectFor (din : Dinode) : Gives 0 (indirectFor din) := by
  unfold Mkfs.indirectFor
  exact ite (seq newBlock fun _ => pure _) (pure _)

theorem entryFor (din : Dinode) (j : ℕ) : Gives 0 (entryFor din j) := by
  unfold Mkfs.entryFor
  refine seq (rsect _) fun b => ?_
  exact ite (seq newBlock fun _ => seq (wsect _ _) fun _ => pure _) (pure _)

theorem blockFor (din : Dinode) (fbn : ℕ) : Gives 0 (blockFor din fbn) := by
  unfold Mkfs.blockFor
  refine ite (ite (seq newBlock fun _ => pure _) (pure _)) ?_
  exact seq (indirectFor _) fun din => seq (entryFor _ _) fun _ => pure _

theorem appendRound (din : Dinode) (off : ℕ) (p : List UInt8) :
    Gives 0 (appendRound din off p) := by
  unfold Mkfs.appendRound
  refine seq (assert _) fun _ => seq (blockFor _ _) fun r => ?_
  exact seq (rsect _) fun _ => seq (wsect _ _) fun _ => pure _

theorem appendLoop (n : ℕ) (din : Dinode) (off : ℕ) (p : List UInt8) :
    Gives 0 (appendLoop n din off p) := by
  induction n generalizing din off p with
  | zero => exact pure _
  | succ n ih =>
    unfold Mkfs.appendLoop
    exact ite (pure _) (seq (appendRound _ _ _) fun din => ih din _ _)

theorem iappend (inum : ℕ) (p : List UInt8) : Gives 0 (iappend inum p) := by
  unfold Mkfs.iappend
  exact seq (rinode _) fun din => seq (appendLoop _ _ _ _) fun r => winode _ _

theorem makeRoot : Gives 1 makeRoot := by
  unfold Mkfs.makeRoot
  refine bind (l := 0) (ialloc _) fun _ => seq (assert _) fun _ => ?_
  exact seq (iappend _ _) fun _ => iappend _ _

theorem addFile (arg : Arg) : Gives 1 (addFile arg) := by
  unfold Mkfs.addFile
  refine seq (assert _) fun _ => ?_
  cases arg.file with
  | none => exact throw _
  | some chunks =>
    refine seq (assert _) fun _ => bind (l := 0) (ialloc _) fun inum => ?_
    refine seq (iappend _ _) fun _ => ?_
    have h := forM (fun chunk : Chunk => iappend inum chunk.val) chunks
    rwa [Nat.zero_mul] at h

theorem fixRootSize : Gives 0 fixRootSize := seq (rinode _) fun _ => winode _ _

theorem balloc (used : ℕ) : Gives 0 (balloc used) := seq (assert _) fun _ => wsect _ _

theorem fill (args : List Arg) : Gives (1 + args.length) (fill args) := by
  have hfiles := forM addFile args
  rw [Nat.one_mul] at hfiles
  unfold Mkfs.fill
  refine seq (wsect _ _) fun _ => bind makeRoot fun _ => bind (l := 0) hfiles fun _ => ?_
  exact seq fixRootSize fun _ => seq (fun _ => rfl) fun s => balloc _

end Gives

/-! ## The start -/

/-- The state after the superblock has been written. -/
def State.super : State :=
  { State.zeroed with image := update zeroDisk 1 (writeSuper sb) }

theorem State.super_dino {i : ℕ} (hi : i < NINODES) : State.super.dino i = .zero := by
  have hne : iblock sb i ≠ 1 := by
    intro h1
    have hnum := congrArg UInt32.toNat h1
    have hstart : sb.inodestart.toNat = 33 := by decide
    rw [iblock_toNat sb_ok (by rwa [sb_ninodes]), hstart] at hnum
    simp at hnum
  have hblock : State.super.image (iblock sb i) = fun _ => 0 := update_of_ne hne _ _
  rw [State.dino, dinodeAt, hblock, getDinode_zero]

theorem State.super_inv : Inv State.super := by
  have hnot (i : ℕ) : ¬ Allocated NINODES State.super.dino i := by
    rintro ⟨-, hi, htype⟩
    exact htype (by rw [State.super_dino hi]; rfl)
  have hlocs (l : ℕ × Place) : Fs.locs NINODES State.super.image State.super.dino l = none :=
    if_neg (hnot l.1)
  refine ⟨⟨rfl, ⟨fun l l' b hl => ?_, fun l b hl => ?_, fun b => ?_⟩, fun b hb => ?_⟩, by decide,
    fun i h1 hi => ?_, fun i hi => absurd hi (hnot i), fun bn b _ hl => ?_, ?_⟩
  · simp [hlocs] at hl
  · simp [hlocs] at hl
  · have hfree : State.super.freeblock = nmeta := rfl
    simp [hlocs, hfree]
  · have hne : b ≠ 1 := by
      rintro rfl
      exact absurd hb (by decide)
    exact update_of_ne hne _ _
  · have hlt : ¬ i < State.super.freeinode := Nat.not_lt.mpr h1
    rw [State.super_dino hi, if_neg hlt]
    rfl
  · simp [hlocs] at hl
  · exact update_self (f := zeroDisk) (1 : BlockNo) _

/-- The files are added, as long as there are inodes. -/
theorem wp_addFiles {n : ℕ} (h : Filled s n) (args : List Arg) (hn : n + args.length ≤ NINODES) :
    wp (args.forM addFile) s (fun _ s' => Filled s' (n + args.length)) fun _ => True := by
  induction args generalizing s n with
  | nil => exact h
  | cons arg args ih =>
    rw [List.length_cons] at hn ⊢
    refine wp_call (h.wp_addFile (by omega) arg) fun _ s₁ hs₁ => ?_
    rw [Nat.add_comm args.length 1, ← Nat.add_assoc]
    exact ih hs₁ (by omega)

/-! ## The bitmap -/

/-- The bitmap that `balloc` writes has the blocks before `used`. -/
theorem used_balloc (d : Disk) {used : ℕ} (hused : used ≤ FSSIZE) (b : BlockNo) :
    Used sb (update d sb.bmapstart ((List.range used).foldl setBit fun _ => 0)) b ↔
      b.toNat < used := by
  have hsize : sb.size.toNat = FSSIZE := by decide
  have hbpb : FSSIZE ≤ BPB := by decide
  unfold Used
  rw [hsize]
  by_cases hb : b.toNat < FSSIZE
  · have hdiv : b.toNat / BPB = 0 := Nat.div_eq_of_lt (lt_of_lt_of_le hb hbpb)
    have hblock : bblock sb b.toNat = sb.bmapstart := by
      rw [bblock, hdiv]
      exact UInt32.zero_add _
    rw [hblock, update_self, Nat.mod_eq_of_lt (lt_of_lt_of_le hb hbpb),
      bitAt_foldl_setBit _ (lt_of_lt_of_le hb hbpb)]
    simp [hb]
  · simp only [hb, false_and, false_iff]
    omega

/-! ## The end -/

/-- The root directory's inode with its size rounded up. -/
def roundUp (din : Dinode) : Dinode :=
  { din with size := UInt32.ofNat ((din.size.toNat / BSIZE + 1) * BSIZE) }

/-- The image at the end. -/
def State.finish (s : State) : Disk :=
  update (s.putDinode ROOTINO (roundUp (s.dino ROOTINO))).image sb.bmapstart
    ((List.range s.freeblock).foldl setBit fun _ => 0)

namespace Filled

variable {n : ℕ}

/-- The root directory is an inode of the image. -/
theorem rootino_lt : ROOTINO < NINODES := by decide

/-- The size of the root directory is rounded up, and the places stay. -/
theorem putDinode (h : Filled s n) :
    (s.putDinode ROOTINO (roundUp (s.dino ROOTINO))).locs = s.locs ∧
      Core (s.putDinode ROOTINO (roundUp (s.dino ROOTINO)))
        (s.putDinode ROOTINO (roundUp (s.dino ROOTINO))).dino := by
  have hview : Fs.locs NINODES s.image (update s.dino ROOTINO (roundUp (s.dino ROOTINO))) =
      Fs.locs NINODES s.image s.dino := by
    rw [locs_update_fields (x := roundUp (s.dino ROOTINO)) (y := s.dino ROOTINO) Iff.rfl rfl,
      update_eq_self]
  have hcore : Core s (update s.dino ROOTINO (roundUp (s.dino ROOTINO))) :=
    ⟨h.inv.core.len, by rw [hview]; exact h.inv.core.owned, h.inv.core.fresh⟩
  obtain ⟨hlocs, hcore'⟩ := hcore.putDinode rootino_lt
  exact ⟨hlocs.trans hview, hcore'⟩

/-- The bitmap is not an inode. -/
theorem iblock_ne_bmapstart {i : ℕ} (hi : i < NINODES) : iblock sb i ≠ sb.bmapstart := by
  intro h
  have hlt := iblock_lt sb_ok (i := i) (by rwa [sb_ninodes])
  rw [h] at hlt
  exact lt_irrefl _ hlt

/-- The inodes at the end. -/
theorem finish_dino {i : ℕ} (hi : i < NINODES) :
    dinodeAt sb s.finish i =
      update s.dino ROOTINO (roundUp (s.dino ROOTINO)) i := by
  rw [dinodeAt, State.finish, update_of_ne (iblock_ne_bmapstart hi)]
  exact State.dino_putDinode rootino_lt hi

/-- The places at the end. -/
theorem finish_locs (h : Filled s n) :
    Fs.locs NINODES s.finish (dinodeAt sb s.finish) = s.locs := by
  obtain ⟨hlocs, hcore⟩ := h.putDinode
  have hdino : ∀ i, 1 ≤ i → i < NINODES → dinodeAt sb s.finish i =
      (s.putDinode ROOTINO (roundUp (s.dino ROOTINO))).dino i := by
    intro i _ hi
    rw [finish_dino hi, State.dino_putDinode rootino_lt hi]
  rw [locs_congr hdino, State.finish, locs_update_disk fun i hi => ?_]
  · exact hlocs
  · exact absurd (hcore.loc_range hi).1 (by decide)

/-- A data block at the end. -/
theorem finish_data {b : BlockNo} (hb : nmeta ≤ b.toNat) : s.finish b = s.image b := by
  have hne : b ≠ sb.bmapstart := by
    rintro rfl
    exact absurd hb (by decide)
  have hne' : b ≠ iblock sb ROOTINO := by
    rintro rfl
    exact absurd hb (by decide)
  simp only [State.finish, State.putDinode, Fs.putDinode, update_of_ne hne,
    update_of_ne hne']

/-- The inodes that are allocated at the end. -/
theorem finish_allocated (h : Filled s n) (i : ℕ) :
    Allocated NINODES (dinodeAt sb s.finish) i ↔ 1 ≤ i ∧ i < NINODES ∧ i < n := by
  rw [← h.freeinode, ← h.inv.allocated_iff]
  unfold Allocated
  refine and_congr_right fun _ => and_congr_right fun hi => ?_
  rw [finish_dino hi]
  by_cases hir : i = ROOTINO
  · subst hir
    rw [update_self]
    exact Iff.rfl
  · rw [update_of_ne hir]

/-- Which blocks of the files there are at the end. -/
theorem finish_addrOf (h : Filled s n) {i : ℕ} (hi : Allocated NINODES (dinodeAt sb s.finish) i)
    {bn : ℕ} (hbn : bn < MAXFILE) :
    addrOf s.finish (dinodeAt sb s.finish i) (.ofIndex bn) ≠ none ↔
      bn * BSIZE < (s.dino i).size.toNat := by
  have hi' : Allocated NINODES s.dino i := by
    rw [h.inv.allocated_iff, h.freeinode]
    exact (h.finish_allocated i).mp hi
  rw [← locs_of_allocated hi, h.finish_locs]
  exact (h.inv.exact i hi').2 bn hbn

/-- The size of the root directory at the end. -/
theorem finish_size (h : Filled s n) (hn : n ≤ NINODES) :
    (dinodeAt sb s.finish ROOTINO).size.toNat = (DIRENTSIZE * n / BSIZE + 1) * BSIZE := by
  rw [finish_dino rootino_lt, update_self, roundUp, h.size]
  refine UInt32.toNat_ofNat_of_lt' ?_
  simp only [DIRENTSIZE, DIRSIZ, BSIZE, NINODES, UInt32.size] at *
  omega

/-- The blocks at the end have one owner each. -/
theorem finish_owned (h : Filled s n) :
    Owned {b : BlockNo | b.toNat < sb.nmeta}
      (Fs.locs sb.ninodes.toNat s.finish (dinodeAt sb s.finish)) (Used sb s.finish) := by
  rw [sb_ninodes, sb_nmeta, h.finish_locs]
  exact h.inv.core.owned.congr (fun _ => rfl) fun b => used_balloc _ h.inv.bound b

/-- The root directory has no hole if and only if its entries do not end with a block. -/
theorem finish_noHoles_root (h : Filled s n) (hn : n ≤ NINODES) :
    NoHoles s.finish (dinodeAt sb s.finish ROOTINO) ↔ n % (BSIZE / DIRENTSIZE) ≠ 0 := by
  have hi : Allocated NINODES (dinodeAt sb s.finish) ROOTINO := by
    rw [h.finish_allocated]
    exact ⟨le_rfl, rootino_lt, h.two_le⟩
  have hsize := h.finish_size hn
  have hiff {bn : ℕ} (hbn : bn < MAXFILE) := h.finish_addrOf hi hbn
  rw [h.size] at hiff
  constructor
  · rintro ⟨-, hall⟩ hzero
    -- The block after the last entry is below the size, and it has no address.
    have hbn : DIRENTSIZE * n / BSIZE < MAXFILE := by
      simp only [DIRENTSIZE, DIRSIZ, BSIZE, NINODES, MAXFILE, NDIRECT, NINDIRECT] at *
      omega
    have hlt := (hiff hbn).mp (hall _ (by rw [hsize]; simp only [BSIZE]; omega))
    simp only [DIRENTSIZE, DIRSIZ, BSIZE] at *
    omega
  · intro hmod
    refine ⟨?_, fun bn hbn => (hiff ?_).mpr ?_⟩
    · rw [hsize]
      simp only [DIRENTSIZE, DIRSIZ, BSIZE, NINODES, MAXFILE, NDIRECT, NINDIRECT] at *
      omega
    · rw [hsize] at hbn
      simp only [DIRENTSIZE, DIRSIZ, BSIZE, NINODES, MAXFILE, NDIRECT, NINDIRECT] at *
      omega
    · rw [hsize] at hbn
      simp only [DIRENTSIZE, DIRSIZ, BSIZE] at *
      omega

/-- A file has no hole. -/
theorem finish_noHoles_file (h : Filled s n) {i : ℕ}
    (hi : Allocated NINODES (dinodeAt sb s.finish) i) (hir : i ≠ ROOTINO) :
    NoHoles s.finish (dinodeAt sb s.finish i) := by
  have hi' : Allocated NINODES s.dino i := by
    rw [h.inv.allocated_iff, h.freeinode]
    exact (h.finish_allocated i).mp hi
  have hsame : dinodeAt sb s.finish i = s.dino i := by
    rw [finish_dino hi.2.1, update_of_ne hir]
  have hle := (h.inv.exact i hi').1
  refine ⟨by rwa [hsame], fun bn hbn => (h.finish_addrOf hi ?_).mpr (by rwa [← hsame])⟩
  rw [hsame] at hbn
  exact Nat.lt_of_mul_lt_mul_right (lt_of_lt_of_le hbn hle)

/-- The entries of the root directory name allocated inodes. -/
theorem finish_dirs (h : Filled s n) (hn : n ≤ NINODES) :
    DirsOk NINODES s.finish (dinodeAt sb s.finish) := by
  intro i hi htype e he b hb hne
  have hi' : Allocated NINODES s.dino i := by
    rw [h.inv.allocated_iff, h.freeinode]
    exact (h.finish_allocated i).mp hi
  have hir : i = ROOTINO := by
    by_contra hir
    have hlt := ((h.inv.allocated_iff i).mp hi').2.2
    rw [finish_dino hi.2.1, update_of_ne hir, h.inv.types i hi.1 hi.2.1, if_pos hlt,
      if_neg hir] at htype
    exact absurd htype (by decide)
  subst hir
  have hbn : DIRENTSIZE * e / BSIZE < MAXFILE := by
    rw [h.finish_size hn] at he
    simp only [DIRENTSIZE, DIRSIZ, BSIZE, NINODES, MAXFILE, NDIRECT, NINDIRECT] at *
    omega
  have hl : s.locs (ROOTINO, .ofIndex (DIRENTSIZE * e / BSIZE)) = some b := by
    rw [← h.finish_locs, locs_of_allocated hi]
    exact hb
  have hoff : DIRENTSIZE * e % BSIZE = DIRENTSIZE * (e % (BSIZE / DIRENTSIZE)) := by
    simp only [DIRENTSIZE, DIRSIZ, BSIZE]
    omega
  have hentry := h.inv.entries _ b hbn hl (e % (BSIZE / DIRENTSIZE)) (Nat.mod_lt _ (by decide))
  rw [finish_data (h.inv.core.loc_range hl).1, hoff] at hne ⊢
  rw [h.freeinode] at hentry
  rw [h.finish_allocated]
  refine ⟨?_, by omega, hentry⟩
  by_contra h0
  exact hne (UInt16.toNat_inj.mp (by simpa using h0))

/-- The image at the end is well formed if and only if the entries of the root directory do not end
with a block. -/
theorem wellFormed_iff (h : Filled s n) (hn : n ≤ NINODES) :
    WellFormed sb s.finish (fun i => 1 ≤ i ∧ i < n) ↔ n % (BSIZE / DIRENTSIZE) ≠ 0 := by
  have hroot : Allocated NINODES (dinodeAt sb s.finish) ROOTINO := by
    rw [h.finish_allocated]
    exact ⟨le_rfl, rootino_lt, h.two_le⟩
  constructor
  · intro hwf
    refine (h.finish_noHoles_root hn).mp (hwf.blocks.noHoles ROOTINO ?_)
    rwa [sb_ninodes]
  · intro hmod
    refine ⟨?_, sb_ok, fun i hi => ?_, ⟨h.finish_owned, fun i hi => ?_⟩, ?_⟩
    · have h1 : s.finish 1 = s.image 1 := by
        have hne : (1 : BlockNo) ≠ sb.bmapstart := by decide
        have hne' : (1 : BlockNo) ≠ iblock sb ROOTINO := by decide
        simp only [State.finish, State.putDinode, Fs.putDinode, update_of_ne hne,
          update_of_ne hne']
      rw [h1, h.inv.super, readSuper_writeSuper]
    · rw [sb_ninodes]
      omega
    · rw [sb_ninodes] at hi
      by_cases hir : i = ROOTINO
      · rw [hir]
        exact (h.finish_noHoles_root hn).mpr hmod
      · exact h.finish_noHoles_file hi hir
    · rw [sb_ninodes]
      exact h.finish_dirs hn

end Filled

/-- The image that `mkfs` leaves, where there are enough inodes. -/
theorem wp_fill {args : List Arg} (hn : args.length + 2 ≤ NINODES) :
    wp (fill args) State.zeroed (fun _ s' => ∃ s, Filled s (args.length + 2) ∧ s'.image = s.finish)
      fun _ => True := by
  unfold fill
  refine wp_call (Q := fun _ s => s = State.super) ?_ fun _ s hs => ?_
  · rfl
  · subst hs
    refine wp_call (wp_makeRoot State.super_inv rfl) fun _ s₁ hs₁ => ?_
    refine wp_call (wp_addFiles hs₁ args (by omega)) fun _ s₂ hs₂ => ?_
    refine wp_call (Q := fun _ s₃ => s₃ = s₂.putDinode ROOTINO (roundUp (s₂.dino ROOTINO))) ?_
      fun _ s₃ hs₃ => ?_
    · unfold fixRootSize
      refine wp_call (wp_rinode (Q := fun d t => d = s₂.dino ROOTINO ∧ t = s₂)
        hs₂.inv.core.len Filled.rootino_lt ⟨rfl, rfl⟩) fun din t hdin => ?_
      obtain ⟨rfl, rfl⟩ := hdin
      exact wp_winode hs₂.inv.core.len Filled.rootino_lt rfl
    · subst hs₃
      simp only [wp_bind, wp_get, balloc]
      refine wp_assert fun _ => ?_
      rw [Nat.add_comm]
      exact ⟨s₂, hs₂, rfl⟩

/-- The inodes that `mkfs` gives out. -/
theorem freeinode_of_mkfs {args : List Arg} (h : mkfs args = .ok s) :
    s.freeinode = args.length + 2 := by
  rw [mkfs_eq] at h
  cases hfill : fill args State.zeroed with
  | error e => simp [hfill] at h
  | ok r =>
    rw [hfill] at h
    obtain rfl : r.2 = s := by simpa using h
    rw [(Gives.fill args State.zeroed).of_ok hfill]
    change 1 + (1 + args.length) = args.length + 2
    omega

/-- The image that `mkfs` leaves, where there are enough inodes, is well formed if and only if the
entries of the root directory, with `.` and `..`, do not end with a block. -/
theorem wellFormed_iff_of_inodes {args : List Arg} (h : mkfs args = .ok s)
    (hn : args.length + 2 ≤ NINODES) :
    WellFormed sb s.image (fun i => 1 ≤ i ∧ i < s.freeinode) ↔
      (args.length + 2) % (BSIZE / DIRENTSIZE) ≠ 0 := by
  rw [freeinode_of_mkfs h]
  rw [mkfs_eq] at h
  cases hfill : fill args State.zeroed with
  | error e => simp [hfill] at h
  | ok r =>
    rw [hfill] at h
    obtain rfl : r.2 = s := by simpa using h
    obtain ⟨s₁, hs₁, himage⟩ := (wp_fill hn).of_ok hfill
    rw [himage]
    exact hs₁.wellFormed_iff hn

/-- An image that `mkfs` leaves is well formed if and only if the inodes suffice and the entries of
the root directory, with `.` and `..`, do not end with a block. -/
theorem mkfs_wellFormed_iff (args : List Arg) (s : State) (h : mkfs args = .ok s) :
    WellFormed sb s.image (fun i => 1 ≤ i ∧ i < s.freeinode) ↔
      args.length + 2 ≤ NINODES ∧ (args.length + 2) % (BSIZE / DIRENTSIZE) ≠ 0 := by
  by_cases hn : args.length + 2 ≤ NINODES
  · rw [wellFormed_iff_of_inodes h hn]
    simp [hn]
  · simp only [hn, false_and, iff_false]
    intro hwf
    rw [freeinode_of_mkfs h] at hwf
    have hlast := hwf.inums (args.length + 1) (by omega)
    rw [sb_ninodes] at hlast
    omega

/-- Where `fill` returns, so does `mkfs`. -/
theorem exists_mkfs (args : List Arg) (h : (fill args State.zeroed).isOk = true) :
    ∃ s, mkfs args = .ok s := by
  rw [mkfs_eq]
  cases hfill : fill args State.zeroed with
  | error e => simp [hfill, Except.isOk, Except.toBool] at h
  | ok r => exact ⟨r.2, rfl⟩

/-- A file without contents. -/
def emptyFile : Arg := { path := ['a'.toUInt8], file := some [] }

theorem length_byte (b : UInt8) : 0 < [b].length ∧ [b].length ≤ BSIZE := by
  rw [List.length_singleton]
  decide

/-- A file that `read` returns in two parts. -/
def smallFile : Arg where
  path := userDir ++ ['_'.toUInt8, 's'.toUInt8, 'h'.toUInt8]
  file := some [⟨[1], length_byte 1⟩, ⟨[2], length_byte 2⟩]

/-- An image with a file is well formed. -/
theorem mkfs_wellFormed_smallFile :
    ∃ s, mkfs [smallFile] = .ok s ∧ WellFormed sb s.image fun i => 1 ≤ i ∧ i < s.freeinode := by
  obtain ⟨s, hs⟩ := exists_mkfs [smallFile] (by decide +kernel)
  exact ⟨s, hs, (mkfs_wellFormed_iff [smallFile] s hs).mpr (by decide)⟩

/-- The entries of 62 files fill the first block of the root directory with `.` and `..`. Its size
is then rounded up to two blocks, and the second one has no address. -/
theorem mkfs_full_block :
    ∃ s, mkfs (List.replicate 62 emptyFile) = .ok s ∧
      ¬ WellFormed sb s.image fun i => 1 ≤ i ∧ i < s.freeinode := by
  obtain ⟨s, hs⟩ := exists_mkfs (List.replicate 62 emptyFile) (by decide +kernel)
  exact ⟨s, hs, fun hwf => (wellFormed_iff_of_inodes hs (by decide)).mp hwf (by decide)⟩

end SustainableXv6.Mkfs
