import SustainableXv6.Lib.Ownership
import SustainableXv6.Fs.Format

/-!
# The blocks of an image

The superblock divides the disk into the metadata (the boot block, the superblock, the log, the
inodes, and the bitmap) and the data blocks. A data block in use is named at one place: by a direct
address of an inode, as its indirect block, or by an address in its indirect block. `locs` gives the
block at each of these places, for the inodes `dino`, which are those on the disk or differ from
them in an inode that is being changed. How `locs` changes with an inode or a block is said once
here, for `mkfs` and for the kernel.
-/

namespace SustainableXv6.Fs

open Function

/-! ## The layout -/

/-- The number of metadata blocks. -/
def Superblock.nmeta (sb : Superblock) : ℕ := sb.size.toNat - sb.nblocks.toNat

/-- The layout of a disk: the log, the inodes, and the bitmap follow each other in the metadata. The
kernel counts blocks and inodes with an `int`, and `balloc` goes one bitmap block beyond the end. -/
structure Superblock.Ok (sb : Superblock) : Prop where
  log : 2 ≤ sb.logstart.toNat ∧ LOGBLOCKS < sb.nlog.toNat ∧
    sb.logstart.toNat + sb.nlog.toNat ≤ sb.inodestart.toNat
  inodes : sb.inodestart.toNat + (sb.ninodes.toNat + IPB - 1) / IPB ≤ sb.bmapstart.toNat
  bitmap : sb.bmapstart.toNat + (sb.size.toNat + BPB - 1) / BPB ≤ sb.nmeta
  fits : sb.size.toNat + BPB ≤ 2 ^ 31 ∧ sb.ninodes.toNat < 2 ^ 31

instance (sb : Superblock) : Decidable sb.Ok :=
  decidable_of_iff ((2 ≤ sb.logstart.toNat ∧ LOGBLOCKS < sb.nlog.toNat ∧
      sb.logstart.toNat + sb.nlog.toNat ≤ sb.inodestart.toNat) ∧
    (sb.inodestart.toNat + (sb.ninodes.toNat + IPB - 1) / IPB ≤ sb.bmapstart.toNat) ∧
    (sb.bmapstart.toNat + (sb.size.toNat + BPB - 1) / BPB ≤ sb.nmeta) ∧
    (sb.size.toNat + BPB ≤ 2 ^ 31 ∧ sb.ninodes.toNat < 2 ^ 31))
    ⟨fun ⟨h₁, h₂, h₃, h₄⟩ => ⟨h₁, h₂, h₃, h₄⟩, fun ⟨h₁, h₂, h₃, h₄⟩ => ⟨h₁, h₂, h₃, h₄⟩⟩

/-- `IBLOCK(i, sb)`. -/
def iblock (sb : Superblock) (i : ℕ) : BlockNo := UInt32.ofNat (i / IPB) + sb.inodestart

/-- `BBLOCK(b, sb)`. -/
def bblock (sb : Superblock) (b : ℕ) : BlockNo := UInt32.ofNat (b / BPB) + sb.bmapstart

/-- The inode `i` on the disk. -/
def dinodeAt (sb : Superblock) (d : Disk) (i : ℕ) : Dinode := getDinode (d (iblock sb i)) (i % IPB)

/-- Whether the bitmap has the bit of the block `b`, which is a block of the image. -/
def Used (sb : Superblock) (d : Disk) (b : BlockNo) : Prop :=
  b.toNat < sb.size.toNat ∧ bitAt (d (bblock sb b.toNat)) (b.toNat % BPB) = true

instance (sb : Superblock) (d : Disk) (b : BlockNo) : Decidable (Used sb d b) :=
  inferInstanceAs (Decidable (_ ∧ _))

section Layout

variable {sb : Superblock} (hsb : sb.Ok) {i j : ℕ}
include hsb

theorem iblock_toNat (hi : i < sb.ninodes.toNat) :
    (iblock sb i).toNat = i / IPB + sb.inodestart.toNat := by
  have h₁ := hsb.inodes
  have h₂ := hsb.bitmap
  have h₃ := hsb.fits.1
  have hlt : i / IPB < 2 ^ 32 :=
    lt_of_le_of_lt (Nat.div_le_self _ _) (lt_trans hi sb.ninodes.toNat_lt)
  have hle : i / IPB < (sb.ninodes.toNat + IPB - 1) / IPB := by
    simp only [IPB, BSIZE, DINODEWORDS, NDIRECT]
    omega
  have hmeta : sb.bmapstart.toNat ≤ sb.size.toNat :=
    (Nat.le_add_right _ _).trans (h₂.trans (Nat.sub_le _ _))
  rw [iblock, UInt32.toNat_add, UInt32.toNat_ofNat_of_lt' hlt]
  exact Nat.mod_eq_of_lt (by omega)

/-- The inodes lie before the bitmap. -/
theorem iblock_lt (hi : i < sb.ninodes.toNat) : (iblock sb i).toNat < sb.bmapstart.toNat := by
  have h₁ := hsb.inodes
  rw [iblock_toNat hsb hi]
  simp only [IPB, BSIZE, DINODEWORDS, NDIRECT] at *
  omega

theorem bblock_toNat {b : ℕ} (hb : b < sb.size.toNat) :
    (bblock sb b).toNat = b / BPB + sb.bmapstart.toNat := by
  have h₂ := hsb.bitmap
  have h₃ := hsb.fits.1
  have hlt : b / BPB < 2 ^ 32 := lt_of_le_of_lt (Nat.div_le_self _ _) (lt_trans hb sb.size.toNat_lt)
  have hle : b / BPB < (sb.size.toNat + BPB - 1) / BPB := by
    simp only [BPB, BSIZE]
    omega
  have hmeta : sb.nmeta ≤ sb.size.toNat := Nat.sub_le _ _
  rw [bblock, UInt32.toNat_add, UInt32.toNat_ofNat_of_lt' hlt]
  exact Nat.mod_eq_of_lt (by omega)

/-- The bitmap lies in the metadata. -/
theorem bblock_lt {b : ℕ} (hb : b < sb.size.toNat) :
    sb.bmapstart.toNat ≤ (bblock sb b).toNat ∧ (bblock sb b).toNat < sb.nmeta := by
  have h₂ := hsb.bitmap
  rw [bblock_toNat hsb hb]
  simp only [Superblock.nmeta, BPB, BSIZE] at *
  omega

theorem bmapstart_le : sb.bmapstart.toNat ≤ sb.nmeta := le_trans (Nat.le_add_right _ _) hsb.bitmap

/-- An inode is not in the bitmap. -/
theorem iblock_ne_bblock (hi : i < sb.ninodes.toNat) {b : ℕ} (hb : b < sb.size.toNat) :
    iblock sb i ≠ bblock sb b := by
  intro h
  have h₁ := iblock_lt hsb hi
  have h₂ := (bblock_lt hsb hb).1
  rw [h] at h₁
  omega

omit hsb in
/-- A block number that is not metadata. -/
theorem ne_of_nmeta_le {b c : BlockNo} (hb : sb.nmeta ≤ b.toNat) (hc : c.toNat < sb.nmeta) :
    c ≠ b := by
  rintro rfl
  omega

/-- The metadata is not empty. -/
theorem zero_lt_nmeta : 0 < sb.nmeta := by
  have h₀ := hsb.log
  have h₁ := (Nat.le_add_right _ _).trans hsb.inodes
  have h₂ := bmapstart_le hsb
  omega

end Layout

/-! ## Inodes and the bitmap on the disk -/

section Disk

variable {sb : Superblock} (hsb : sb.Ok) {d : Disk} {i j : ℕ} {x : Dinode}

/-- The disk with another inode `i`. -/
def putDinode (sb : Superblock) (d : Disk) (i : ℕ) (x : Dinode) : Disk :=
  update d (iblock sb i) (setDinode (d (iblock sb i)) (i % IPB) x)

theorem dinodeAt_putDinode_self (sb : Superblock) (d : Disk) (i : ℕ) (x : Dinode) :
    dinodeAt sb (putDinode sb d i x) i = x := by
  rw [dinodeAt, putDinode, update_self]
  exact getDinode_setDinode_self _ (Nat.mod_lt _ (by decide)) x

/-- The other inodes stay, also those in the same block. -/
theorem dinodeAt_putDinode_of_ne (hsb : sb.Ok) (hi : i < sb.ninodes.toNat)
    (hj : j < sb.ninodes.toNat) (h : j ≠ i) :
    dinodeAt sb (putDinode sb d i x) j = dinodeAt sb d j := by
  rw [dinodeAt, putDinode]
  by_cases hblock : iblock sb j = iblock sb i
  · have hdiv : j / IPB = i / IPB := by
      have := congrArg UInt32.toNat hblock
      rw [iblock_toNat hsb hi, iblock_toNat hsb hj] at this
      omega
    have hmod : j % IPB ≠ i % IPB := by
      intro hmod
      exact h (by rw [← Nat.div_add_mod j IPB, ← Nat.div_add_mod i IPB, hdiv, hmod])
    rw [hblock, update_self, getDinode_setDinode_of_ne _ (Nat.mod_lt _ (by decide)) hmod,
      dinodeAt, hblock]
  · rw [update_of_ne hblock]
    rfl

/-- The inodes, with another inode `i`. -/
theorem dinodeAt_putDinode (hsb : sb.Ok) (hi : i < sb.ninodes.toNat) (hj : j < sb.ninodes.toNat) :
    dinodeAt sb (putDinode sb d i x) j = update (dinodeAt sb d) i x j := by
  by_cases h : j = i
  · rw [h, update_self, dinodeAt_putDinode_self]
  · rw [update_of_ne h, dinodeAt_putDinode_of_ne hsb hi hj h]

/-- The bitmap does not change with an inode. -/
theorem used_putDinode (hsb : sb.Ok) (hi : i < sb.ninodes.toNat) (b : BlockNo) :
    Used sb (putDinode sb d i x) b ↔ Used sb d b := by
  unfold Used
  refine and_congr_right fun hb => ?_
  rw [putDinode, update_of_ne (iblock_ne_bblock hsb hi hb).symm]

/-- The inodes do not change with a data block. -/
theorem dinodeAt_update (hsb : sb.Ok) {b : BlockNo} (hb : sb.nmeta ≤ b.toNat)
    (hi : i < sb.ninodes.toNat) (v : Block) :
    dinodeAt sb (update d b v) i = dinodeAt sb d i := by
  have hlt : (iblock sb i).toNat < sb.nmeta :=
    lt_of_lt_of_le (iblock_lt hsb hi) (bmapstart_le hsb)
  rw [dinodeAt, update_of_ne (ne_of_nmeta_le hb hlt)]
  rfl

/-- The bitmap does not change with a data block. -/
theorem used_update (hsb : sb.Ok) {b : BlockNo} (hb : sb.nmeta ≤ b.toNat) (v : Block)
    (c : BlockNo) :
    Used sb (update d b v) c ↔ Used sb d c := by
  unfold Used
  refine and_congr_right fun hc => ?_
  rw [update_of_ne (ne_of_nmeta_le hb (bblock_lt hsb hc).2)]

/-- The disk with the bit of the block `b` set. -/
def markUsed (sb : Superblock) (d : Disk) (b : ℕ) : Disk :=
  update d (bblock sb b) (setBit (d (bblock sb b)) (b % BPB))

/-- The disk with the bit of the block `b` cleared. -/
def markFree (sb : Superblock) (d : Disk) (b : ℕ) : Disk :=
  update d (bblock sb b) (clearBit (d (bblock sb b)) (b % BPB))

/-- Two blocks with the same bit of the bitmap are the same. -/
theorem eq_of_bblock_eq (hsb : sb.Ok) {b c : ℕ} (hb : b < sb.size.toNat) (hc : c < sb.size.toNat)
    (hblock : bblock sb c = bblock sb b) (hmod : c % BPB = b % BPB) : c = b := by
  have := congrArg UInt32.toNat hblock
  rw [bblock_toNat hsb hb, bblock_toNat hsb hc] at this
  rw [← Nat.div_add_mod c BPB, ← Nat.div_add_mod b BPB, hmod]
  congr 2
  omega

theorem used_markUsed (hsb : sb.Ok) {b : BlockNo} (hb : b.toNat < sb.size.toNat) (c : BlockNo) :
    Used sb (markUsed sb d b.toNat) c ↔ c = b ∨ Used sb d c := by
  unfold Used markUsed
  have hlt : c.toNat % BPB < BPB := Nat.mod_lt _ (by decide)
  by_cases hc : c.toNat < sb.size.toNat
  · by_cases hblock : bblock sb c.toNat = bblock sb b.toNat
    · rw [hblock, update_self, bitAt_setBit _ _ hlt]
      have hiff : c.toNat % BPB = b.toNat % BPB ↔ c = b := by
        refine ⟨fun h => UInt32.toNat_inj.mp (eq_of_bblock_eq hsb hb hc hblock h), ?_⟩
        rintro rfl
        rfl
      simp [hc, hiff]
    · rw [update_of_ne hblock]
      have hne : c ≠ b := fun h => hblock (by rw [h])
      simp [hc, hne]
  · have hne : c ≠ b := fun h => hc (by rw [h]; exact hb)
    simp [hc, hne]

theorem used_markFree (hsb : sb.Ok) {b : BlockNo} (hb : b.toNat < sb.size.toNat) (c : BlockNo) :
    Used sb (markFree sb d b.toNat) c ↔ c ≠ b ∧ Used sb d c := by
  unfold Used markFree
  have hlt : c.toNat % BPB < BPB := Nat.mod_lt _ (by decide)
  by_cases hc : c.toNat < sb.size.toNat
  · by_cases hblock : bblock sb c.toNat = bblock sb b.toNat
    · rw [hblock, update_self, bitAt_clearBit _ _ hlt]
      have hiff : c.toNat % BPB = b.toNat % BPB ↔ c = b := by
        refine ⟨fun h => UInt32.toNat_inj.mp (eq_of_bblock_eq hsb hb hc hblock h), ?_⟩
        rintro rfl
        rfl
      simp [hc, hiff]
    · rw [update_of_ne hblock]
      have hne : c ≠ b := fun h => hblock (by rw [h])
      simp [hc, hne]
  · simp [hc]

/-- The inodes do not change with the bitmap. -/
theorem dinodeAt_update_bblock (hsb : sb.Ok) {b : ℕ} (hb : b < sb.size.toNat)
    (hi : i < sb.ninodes.toNat) (v : Block) :
    dinodeAt sb (update d (bblock sb b) v) i = dinodeAt sb d i := by
  rw [dinodeAt, update_of_ne (iblock_ne_bblock hsb hi hb)]
  rfl

end Disk

/-! ## Places -/

/-- A place of an inode that names a block. -/
inductive Place
  /-- A direct address. -/
  | direct (k : Fin NDIRECT)
  /-- The address of the indirect block. -/
  | root
  /-- An address in the indirect block. -/
  | entry (j : Fin NINDIRECT)
  deriving DecidableEq, Repr

instance : NeZero NDIRECT := ⟨by decide⟩

instance : NeZero NINDIRECT := ⟨by decide⟩

/-- The place of the block `bn` of a file. -/
def Place.ofIndex (bn : ℕ) : Place :=
  if bn < NDIRECT then .direct (Fin.ofNat NDIRECT bn)
  else .entry (Fin.ofNat NINDIRECT (bn - NDIRECT))

/-- The block `bn` of a file has a direct address, or one in the indirect block. -/
theorem Place.ofIndex_cases {bn : ℕ} (h : bn < MAXFILE) :
    (bn < NDIRECT ∧ ∃ k : Fin NDIRECT, k = Fin.ofNat NDIRECT bn ∧ ofIndex bn = .direct k) ∨
      (¬ bn < NDIRECT ∧ ∃ j : Fin NINDIRECT, j.val = bn - NDIRECT ∧ ofIndex bn = .entry j) := by
  by_cases hbn : bn < NDIRECT
  · exact .inl ⟨hbn, _, rfl, if_pos hbn⟩
  · refine .inr ⟨hbn, Fin.ofNat NINDIRECT (bn - NDIRECT), Nat.mod_eq_of_lt ?_, if_neg hbn⟩
    simp only [MAXFILE] at h
    omega

/-- A block of a file is not the indirect block. -/
theorem Place.ofIndex_ne_root (bn : ℕ) : ofIndex bn ≠ .root := by
  unfold ofIndex
  split_ifs
  · simp
  · simp

/-- Different blocks of a file have different places. -/
theorem Place.ofIndex_inj {bn bn' : ℕ} (h : bn < MAXFILE) (h' : bn' < MAXFILE)
    (he : ofIndex bn = ofIndex bn') : bn = bn' := by
  rcases ofIndex_cases h with ⟨hlt, k, hk, hpl⟩ | ⟨hlt, j, hj, hpl⟩
  · rcases ofIndex_cases h' with ⟨hlt', k', hk', hpl'⟩ | ⟨-, j', -, hpl'⟩
    · rw [hpl, hpl', Place.direct.injEq, hk, hk', Fin.ext_iff] at he
      simpa [Fin.ofNat, Nat.mod_eq_of_lt hlt, Nat.mod_eq_of_lt hlt'] using he
    · simp [hpl, hpl'] at he
  · rcases ofIndex_cases h' with ⟨-, k', -, hpl'⟩ | ⟨hlt', j', hj', hpl'⟩
    · simp [hpl, hpl'] at he
    · rw [hpl, hpl', Place.entry.injEq, Fin.ext_iff] at he
      omega

/-- A block number, where 0 stands for none. -/
def nonzero (b : BlockNo) : Option BlockNo := if b = 0 then none else some b

@[simp]
theorem nonzero_zero : nonzero 0 = none := rfl

theorem nonzero_of_ne {b : BlockNo} (h : b ≠ 0) : nonzero b = some b := if_neg h

@[simp]
theorem nonzero_eq_some {b c : BlockNo} : nonzero b = some c ↔ b = c ∧ b ≠ 0 := by
  unfold nonzero
  split_ifs with h
  · simp [h]
  · simp [h]

/-- The block at a place of an inode. -/
def addrOf (d : Disk) (x : Dinode) : Place → Option BlockNo
  | .direct k => nonzero (x.addrs k.castSucc)
  | .root => nonzero (x.addrs (Fin.last NDIRECT))
  | .entry j => (nonzero (x.addrs (Fin.last NDIRECT))).bind fun r => nonzero (wordAt (d r) j.val)

/-- The block at a place is not block 0, which stands for none. -/
theorem ne_zero_of_addrOf {d : Disk} {x : Dinode} {p : Place} {b : BlockNo}
    (h : addrOf d x p = some b) : b ≠ 0 := by
  cases p with
  | direct k | root =>
    obtain ⟨rfl, hne⟩ := nonzero_eq_some.mp h
    exact hne
  | entry j =>
    obtain ⟨r, -, hword⟩ := Option.bind_eq_some_iff.mp h
    obtain ⟨rfl, hne⟩ := nonzero_eq_some.mp hword
    exact hne

/-- The inode `i` is one of `n` inodes, and it is allocated. -/
def Allocated (n : ℕ) (dino : ℕ → Dinode) (i : ℕ) : Prop := 1 ≤ i ∧ i < n ∧ (dino i).type ≠ 0

instance (n : ℕ) (dino : ℕ → Dinode) (i : ℕ) : Decidable (Allocated n dino i) :=
  inferInstanceAs (Decidable (_ ∧ _))

/-- The block at each place of the allocated inodes. -/
def locs (n : ℕ) (d : Disk) (dino : ℕ → Dinode) (l : ℕ × Place) : Option BlockNo :=
  if Allocated n dino l.1 then addrOf d (dino l.1) l.2 else none

section Locs

variable {n : ℕ} {d : Disk} {dino dino' : ℕ → Dinode} {i : ℕ}

theorem locs_of_allocated (h : Allocated n dino i) (p : Place) :
    locs n d dino (i, p) = addrOf d (dino i) p := if_pos h

theorem locs_of_not_allocated (h : ¬ Allocated n dino i) (p : Place) :
    locs n d dino (i, p) = none := if_neg h

/-- An inode that names a block is allocated. -/
theorem allocated_of_locs {p : Place} {b : BlockNo} (h : locs n d dino (i, p) = some b) :
    Allocated n dino i := by
  by_contra hi
  rw [locs, if_neg hi] at h
  simp at h

theorem ne_zero_of_locs {l : ℕ × Place} {b : BlockNo} (h : locs n d dino l = some b) : b ≠ 0 := by
  obtain ⟨i, p⟩ := l
  rw [locs_of_allocated (allocated_of_locs h)] at h
  exact ne_zero_of_addrOf h

/-- The places of an inode depend on this inode only. -/
theorem locs_inode (h : dino' i = dino i) (p : Place) :
    locs n d dino' (i, p) = locs n d dino (i, p) := by
  have hiff : Allocated n dino' i ↔ Allocated n dino i := by simp only [Allocated, h]
  by_cases hi : Allocated n dino i
  · rw [locs_of_allocated hi, locs_of_allocated (hiff.mpr hi), h]
  · simp [locs, hi, hiff]

/-- The places depend on the inodes that there are. -/
theorem locs_congr (h : ∀ i, 1 ≤ i → i < n → dino' i = dino i) :
    locs n d dino' = locs n d dino := by
  funext ⟨i, p⟩
  by_cases hi : 1 ≤ i ∧ i < n
  · exact locs_inode (h i hi.1 hi.2) p
  · have hnot (f : ℕ → Dinode) : ¬ Allocated n f i := fun hf => hi ⟨hf.1, hf.2.1⟩
    simp [locs, hnot]

/-- A block that is no indirect block may change. -/
theorem locs_update_disk {b : BlockNo} (hb : ∀ i, locs n d dino (i, .root) ≠ some b) (v : Block) :
    locs n (update d b v) dino = locs n d dino := by
  funext ⟨i, p⟩
  by_cases hi : Allocated n dino i
  · rw [locs_of_allocated hi, locs_of_allocated hi]
    cases p with
    | direct k => rfl
    | root => rfl
    | entry j =>
      have hroot := hb i
      rw [locs_of_allocated hi] at hroot
      simp only [addrOf] at hroot ⊢
      cases hr : nonzero ((dino i).addrs (Fin.last NDIRECT)) with
      | none => rfl
      | some r =>
        have hne : r ≠ b := fun h => hroot (by rw [hr, h])
        simp [update_of_ne hne]
  · simp [locs, hi]

/-- An inode changes so that its places name the same blocks. -/
theorem locs_update_same {x : Dinode} (hx : ∀ p, (if Allocated n (update dino i x) i then
      addrOf d x p else none) = locs n d dino (i, p)) :
    locs n d (update dino i x) = locs n d dino := by
  funext ⟨j, p⟩
  by_cases hj : j = i
  · subst hj
    rw [← hx p, locs, update_self]
  · exact locs_inode (update_of_ne hj _ _) p

/-- The places of an inode do not depend on its size and its links. -/
theorem locs_update_fields {x y : Dinode} (htype : x.type = 0 ↔ y.type = 0)
    (haddrs : x.addrs = y.addrs) :
    locs n d (update dino i x) = locs n d (update dino i y) := by
  funext ⟨j, p⟩
  by_cases hj : j = i
  · subst hj
    have haddr : addrOf d x p = addrOf d y p := by
      cases p with
      | direct k | root | entry k => simp only [addrOf, haddrs]
    have hiff : Allocated n (update dino j x) j ↔
        Allocated n (update dino j y) j := by
      simp [Allocated, htype]
    by_cases hx : Allocated n (update dino j x) j
    · rw [locs_of_allocated hx, locs_of_allocated (hiff.mp hx), update_self,
        update_self, haddr]
    · simp only [locs, hx, hiff.not.mp hx, if_false]
  · exact locs_inode (by rw [update_of_ne hj, update_of_ne hj]) p

/-- An allocated inode gets another direct address. -/
theorem locs_update_direct (hi : Allocated n dino i) (k : Fin NDIRECT) (a : BlockNo) :
    locs n d (update dino i
      { dino i with addrs := update (dino i).addrs k.castSucc a }) =
      update (locs n d dino) (i, .direct k) (nonzero a) := by
  have hlast : Fin.last NDIRECT ≠ k.castSucc := (Fin.castSucc_lt_last k).ne'
  funext ⟨j, p⟩
  by_cases hj : j = i
  · subst hj
    have hi' : Allocated n (update dino j
        { dino j with addrs := update (dino j).addrs k.castSucc a }) j := by
      simpa [Allocated] using hi
    rw [locs_of_allocated hi', update_self]
    cases p with
    | direct l =>
      by_cases hl : l = k
      · subst hl
        simp [addrOf]
      · have hne : (j, Place.direct l) ≠ (j, Place.direct k) := by simpa using hl
        rw [update_of_ne hne, locs_of_allocated hi]
        simp only [addrOf]
        rw [update_of_ne fun h => hl (Fin.castSucc_injective _ h)]
    | root | entry l =>
      rw [update_of_ne (by simp), locs_of_allocated hi]
      simp only [addrOf, update_of_ne hlast]
  · have hne : (j, p) ≠ (i, Place.direct k) := by simp [hj]
    rw [update_of_ne hne]
    exact locs_inode (update_of_ne hj _ _) p

/-- An allocated inode without an indirect block gets one of zeros. -/
theorem locs_update_root (hi : Allocated n dino i) (hroot : (dino i).addrs (Fin.last NDIRECT) = 0)
    {r : BlockNo} (hr : d r = fun _ => 0) :
    locs n d (update dino i
      { dino i with addrs := update (dino i).addrs (Fin.last NDIRECT) r }) =
      update (locs n d dino) (i, .root) (nonzero r) := by
  funext ⟨j, p⟩
  by_cases hj : j = i
  · subst hj
    have hi' : Allocated n (update dino j
        { dino j with addrs := update (dino j).addrs (Fin.last NDIRECT) r }) j := by
      simpa [Allocated] using hi
    rw [locs_of_allocated hi', update_self]
    cases p with
    | direct l =>
      rw [update_of_ne (by simp), locs_of_allocated hi]
      simp only [addrOf]
      rw [update_of_ne (Fin.castSucc_lt_last l).ne]
    | root => simp [addrOf]
    | entry l =>
      rw [update_of_ne (by simp), locs_of_allocated hi]
      simp only [addrOf, update_self, hroot, nonzero_zero, Option.bind_none]
      cases hnz : nonzero r with
      | none => rfl
      | some r' =>
        obtain ⟨rfl, -⟩ := nonzero_eq_some.mp hnz
        simp [hr, wordAt_zero]
  · have hne : (j, p) ≠ (i, Place.root) := by simp [hj]
    rw [update_of_ne hne]
    exact locs_inode (update_of_ne hj _ _) p

/-- The indirect block `r` of an inode gets another address. -/
theorem locs_update_entry {r : BlockNo} (hr : locs n d dino (i, .root) = some r)
    (hinj : ∀ j, locs n d dino (j, .root) = some r → j = i) (k : Fin NINDIRECT) (a : BlockNo) :
    locs n (update d r (setWord (d r) k.val a)) dino =
      update (locs n d dino) (i, .entry k) (nonzero a) := by
  have hi := allocated_of_locs hr
  funext ⟨j, p⟩
  by_cases hj : Allocated n dino j
  · rw [locs_of_allocated hj]
    cases p with
    | direct l | root =>
      rw [update_of_ne (by simp), locs_of_allocated hj]
      rfl
    | entry l =>
      by_cases hji : j = i
      · subst hji
        rw [locs_of_allocated hj] at hr
        simp only [addrOf] at hr ⊢
        rw [hr]
        simp only [Option.bind_some, update_self]
        by_cases hl : l = k
        · subst hl
          rw [wordAt_setWord_self _ l.isLt, update_self]
        · have hne : (j, Place.entry l) ≠ (j, Place.entry k) := by simpa using hl
          rw [wordAt_setWord_of_ne _ (fun h => hl (Fin.ext h)), update_of_ne hne,
            locs_of_allocated hj]
          simp [addrOf, hr]
      · have hne : (j, Place.entry l) ≠ (i, Place.entry k) := by simp [hji]
        rw [update_of_ne hne, locs_of_allocated hj]
        simp only [addrOf]
        cases hq : nonzero ((dino j).addrs (Fin.last NDIRECT)) with
        | none => rfl
        | some q =>
          have hqr : q ≠ r := by
            rintro rfl
            exact hji (hinj j (by rw [locs_of_allocated hj]; exact hq))
          simp [update_of_ne hqr]
  · have hne : (j, p) ≠ (i, Place.entry k) := by
      intro h
      exact hj ((Prod.mk.inj h).1 ▸ hi)
    rw [update_of_ne hne]
    simp [locs, hj]

/-- The inode `i` is written to the disk, where the places name data blocks only. -/
theorem locs_putDinode {sb : Superblock} (hsb : sb.Ok) {x : Dinode} (hi : i < sb.ninodes.toNat)
    (hdata : ∀ l b, locs sb.ninodes.toNat d (update (dinodeAt sb d) i x) l = some b →
      sb.nmeta ≤ b.toNat) :
    locs sb.ninodes.toNat (putDinode sb d i x) (dinodeAt sb (putDinode sb d i x)) =
      locs sb.ninodes.toNat d (update (dinodeAt sb d) i x) := by
  have hlt : (iblock sb i).toNat < sb.nmeta :=
    lt_of_lt_of_le (iblock_lt hsb hi) (bmapstart_le hsb)
  rw [locs_congr fun j _ hj => dinodeAt_putDinode hsb hi hj]
  exact locs_update_disk (fun j hj => absurd (hdata _ _ hj) (Nat.not_le.mpr hlt)) _

end Locs

/-! ## The ownership of the blocks -/

/-- A file of a size that its blocks can hold, whose blocks all have an address. -/
def NoHoles (d : Disk) (x : Dinode) : Prop :=
  x.size.toNat ≤ MAXFILE * BSIZE ∧ ∀ bn, bn * BSIZE < x.size.toNat →
    addrOf d x (.ofIndex bn) ≠ none

/-- The block of an offset below the size. -/
theorem NoHoles.exists_addrOf {d : Disk} {x : Dinode} (h : NoHoles d x) {off : ℕ}
    (hoff : off < x.size.toNat) :
    off / BSIZE < MAXFILE ∧ ∃ a, addrOf d x (.ofIndex (off / BSIZE)) = some a := by
  refine ⟨?_, Option.ne_none_iff_exists'.mp
    (h.2 _ (lt_of_le_of_lt (Nat.div_mul_le_self _ _) hoff))⟩
  rw [Nat.div_lt_iff_lt_mul (by decide)]
  exact lt_of_lt_of_le hoff h.1

/-- The byte `k` of the file `x`, where it has a block for it. -/
def fileByte (d : Disk) (x : Dinode) (k : ℕ) : UInt8 :=
  ((addrOf d x (.ofIndex (k / BSIZE))).map fun a => byteAt (d a) (k % BSIZE)).getD 0

/-- The `m` bytes of the file `x` from `off` on. -/
def fileBytes (d : Disk) (x : Dinode) (off m : ℕ) : List UInt8 :=
  (List.range m).map fun k => fileByte d x (off + k)

theorem fileBytes_add (d : Disk) (x : Dinode) (off m k : ℕ) :
    fileBytes d x off (m + k) = fileBytes d x off m ++ fileBytes d x (off + m) k := by
  simp only [fileBytes, List.range_add, List.map_append, List.map_map, Nat.add_assoc]
  rfl

/-- A part of the bytes of a file. -/
theorem take_drop_fileBytes (d : Disk) (x : Dinode) (size off n : ℕ) :
    ((fileBytes d x 0 size).drop off).take n = fileBytes d x off (min n (size - off)) := by
  refine List.ext_getElem? fun i => ?_
  simp only [fileBytes, List.getElem?_take, List.getElem?_drop, List.getElem?_map, Nat.zero_add]
  split_ifs with hi
  · by_cases hlt : off + i < size
    · rw [List.getElem?_range hlt, List.getElem?_range (by omega)]
      simp
    · rw [List.getElem?_eq_none (by simpa using hlt), List.getElem?_eq_none (by simp; omega)]
      rfl
  · rw [List.getElem?_eq_none (by simp; omega)]
    rfl

/-- The bytes of a file in one block. -/
theorem fileBytes_block {d : Disk} {x : Dinode} {off m : ℕ} {a : BlockNo}
    (ha : addrOf d x (.ofIndex (off / BSIZE)) = some a) (hm : off % BSIZE + m ≤ BSIZE) :
    fileBytes d x off m = (List.range m).map fun i => byteAt (d a) (off % BSIZE + i) := by
  refine List.map_congr_left fun i hi => ?_
  have hlt := List.mem_range.mp hi
  have hdiv : (off + i) / BSIZE = off / BSIZE := by
    simp only [BSIZE] at *
    omega
  have hmod : (off + i) % BSIZE = off % BSIZE + i := by
    simp only [BSIZE] at *
    omega
  rw [fileByte, hdiv, hmod, ha]
  rfl

/-- The addresses of a file depend on its own blocks only. -/
theorem addrOf_congr {d d' : Disk} {x : Dinode} (h : ∀ p b, addrOf d x p = some b → d' b = d b)
    (p : Place) : addrOf d' x p = addrOf d x p := by
  cases p with
  | direct k => rfl
  | root => rfl
  | entry j =>
    simp only [addrOf]
    cases hr : nonzero (x.addrs (Fin.last NDIRECT)) with
    | none => rfl
    | some r => rw [Option.bind_some, Option.bind_some, h .root r hr]

/-- The bytes of a file depend on its own blocks only. -/
theorem fileByte_congr {d d' : Disk} {x : Dinode} (h : ∀ p b, addrOf d x p = some b → d' b = d b)
    (k : ℕ) : fileByte d' x k = fileByte d x k := by
  rw [fileByte, fileByte, addrOf_congr h]
  cases ha : addrOf d x (.ofIndex (k / BSIZE)) with
  | none => rfl
  | some b => rw [Option.map_some, Option.map_some, h _ b ha]

theorem fileBytes_congr {d d' : Disk} {x : Dinode} (h : ∀ p b, addrOf d x p = some b → d' b = d b)
    (off m : ℕ) : fileBytes d' x off m = fileBytes d x off m :=
  List.map_congr_left fun k _ => fileByte_congr h (off + k)

/-- The blocks of the image: each block in use is metadata or has one owner among the places of the
inodes `dino`, and the files have no holes. -/
structure Blocks (sb : Superblock) (d : Disk) (dino : ℕ → Dinode) (used : BlockNo → Prop) :
    Prop where
  owned : Lib.Owned {b : BlockNo | b.toNat < sb.nmeta} (locs sb.ninodes.toNat d dino) used
  noHoles : ∀ i, Allocated sb.ninodes.toNat dino i → NoHoles d (dino i)

/-- Every entry of a directory that is not empty names an allocated inode. -/
def DirsOk (n : ℕ) (d : Disk) (dino : ℕ → Dinode) : Prop :=
  ∀ i, Allocated n dino i → (dino i).type = T_DIR → ∀ e, DIRENTSIZE * e < (dino i).size.toNat →
    ∀ b, addrOf d (dino i) (.ofIndex (DIRENTSIZE * e / BSIZE)) = some b →
      direntInum (d b) (DIRENTSIZE * e % BSIZE) ≠ 0 →
        Allocated n dino (direntInum (d b) (DIRENTSIZE * e % BSIZE)).toNat

/-- An image that the kernel accepts, in which the inode numbers `inums` have been given out. -/
structure WellFormed (sb : Superblock) (d : Disk) (inums : ℕ → Prop) : Prop where
  super : readSuper (d 1) = sb
  layout : sb.Ok
  inums : ∀ i, inums i → i < sb.ninodes.toNat
  blocks : Blocks sb d (dinodeAt sb d) (Used sb d)
  dirs : DirsOk sb.ninodes.toNat d (dinodeAt sb d)

end SustainableXv6.Fs
