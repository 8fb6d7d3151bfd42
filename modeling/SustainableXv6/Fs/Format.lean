import SustainableXv6.Log.Disk

/-!
# The format of the file system on the disk

`kernel/fs.h` gives the format that `mkfs/mkfs.c` writes and `kernel/fs.c` reads and changes. A
block is read in three ways: by words, as the superblock, the inodes, and the addresses in an
indirect block; by bytes, as the contents of files and the bitmap; and by bits of the bitmap. For
each of them there is a lemma that what is put into a block is taken out of it, and one that the
rest of the block stays. Numbers are little-endian, as on the machine.
-/

namespace SustainableXv6.Fs

/-! ## Constants (`kernel/fs.h`, `kernel/stat.h`) -/

/-- The number of the root directory's inode. -/
def ROOTINO : ℕ := 1

/-- The number of block addresses in an inode. -/
def NDIRECT : ℕ := 12

/-- The number of block addresses in an indirect block. -/
def NINDIRECT : ℕ := BSIZE / 4

/-- The maximum number of blocks of a file. -/
def MAXFILE : ℕ := NDIRECT + NINDIRECT

/-- The number of words of a `struct dinode`. -/
def DINODEWORDS : ℕ := 3 + (NDIRECT + 1)

/-- The number of inodes in a block. -/
def IPB : ℕ := BSIZE / (4 * DINODEWORDS)

/-- The number of bits in a block. -/
def BPB : ℕ := BSIZE * 8

/-- The maximum length of a name. -/
def DIRSIZ : ℕ := 14

/-- The size of a `struct dirent`. -/
def DIRENTSIZE : ℕ := 2 + DIRSIZ

/-- The number that tells a file system. -/
def FSMAGIC : UInt32 := 0x10203040

/-- A directory. -/
def T_DIR : UInt16 := 1

/-- A file. -/
def T_FILE : UInt16 := 2

/-- A device. -/
def T_DEVICE : UInt16 := 3

/-! ## Words -/

/-- The word `i` of a block. -/
def wordAt (b : Block) (i : ℕ) : UInt32 := if h : i < BSIZE / 4 then b ⟨i, h⟩ else 0

/-- The block `b` with another word `i`. -/
def setWord (b : Block) (i : ℕ) (w : UInt32) : Block := fun j => if j.val = i then w else b j

theorem wordAt_setWord_self (b : Block) {i : ℕ} (hi : i < NINDIRECT) (w : UInt32) :
    wordAt (setWord b i w) i = w := by
  rw [wordAt, dif_pos (show i < BSIZE / 4 from hi)]
  simp [setWord]

theorem wordAt_setWord_of_ne (b : Block) {i j : ℕ} (h : j ≠ i) (w : UInt32) :
    wordAt (setWord b i w) j = wordAt b j := by
  simp [wordAt, setWord, h]

/-- The block of zeros has zeros only. -/
theorem wordAt_zero (i : ℕ) : wordAt (fun _ => 0) i = 0 := by
  unfold wordAt
  split_ifs
  · rfl
  · rfl

/-! ## Shorts -/

/-- A word of two shorts. -/
def packShorts (lo hi : UInt16) : UInt32 := UInt32.ofNat (lo.toNat + 2 ^ 16 * hi.toNat)

/-- The short at the lower address. -/
def loShort (w : UInt32) : UInt16 := UInt16.ofNat w.toNat

/-- The short at the higher address. -/
def hiShort (w : UInt32) : UInt16 := UInt16.ofNat (w.toNat / 2 ^ 16)

theorem packShorts_toNat (lo hi : UInt16) :
    (packShorts lo hi).toNat = lo.toNat + 2 ^ 16 * hi.toNat := by
  have hlo := lo.toNat_lt
  have hhi := hi.toNat_lt
  exact UInt32.toNat_ofNat_of_lt' (by simp only [UInt32.size]; omega)

@[simp]
theorem loShort_packShorts (lo hi : UInt16) : loShort (packShorts lo hi) = lo := by
  have hlo := lo.toNat_lt
  refine UInt16.toNat_inj.mp ?_
  rw [loShort, packShorts_toNat, UInt16.toNat_ofNat']
  omega

@[simp]
theorem hiShort_packShorts (lo hi : UInt16) : hiShort (packShorts lo hi) = hi := by
  have hlo := lo.toNat_lt
  have hhi := hi.toNat_lt
  refine UInt16.toNat_inj.mp ?_
  rw [hiShort, packShorts_toNat, UInt16.toNat_ofNat']
  omega

/-! ## The superblock -/

/-- `struct superblock`. -/
structure Superblock where
  magic : UInt32
  /-- The size of the image in blocks. -/
  size : UInt32
  /-- The number of data blocks. -/
  nblocks : UInt32
  /-- The number of inodes. -/
  ninodes : UInt32
  /-- The number of log blocks. -/
  nlog : UInt32
  /-- The first log block. -/
  logstart : UInt32
  /-- The first inode block. -/
  inodestart : UInt32
  /-- The first block of the bitmap. -/
  bmapstart : UInt32
  deriving DecidableEq, Repr

/-- The superblock in a block: `readsb`. -/
def readSuper (b : Block) : Superblock :=
  ⟨wordAt b 0, wordAt b 1, wordAt b 2, wordAt b 3, wordAt b 4, wordAt b 5, wordAt b 6, wordAt b 7⟩

/-- The words of a superblock. -/
def Superblock.words (sb : Superblock) : List UInt32 :=
  [sb.magic, sb.size, sb.nblocks, sb.ninodes, sb.nlog, sb.logstart, sb.inodestart, sb.bmapstart]

/-- A block of zeros with a superblock at its start. -/
def writeSuper (sb : Superblock) : Block := fun j => sb.words.getD j.val 0

theorem readSuper_writeSuper (sb : Superblock) : readSuper (writeSuper sb) = sb := rfl

/-! ## Inodes -/

/-- `struct dinode`. -/
@[ext]
structure Dinode where
  type : UInt16
  major : UInt16
  minor : UInt16
  /-- The number of links to the inode. -/
  nlink : UInt16
  /-- The size of the file in bytes. -/
  size : UInt32
  addrs : Fin (NDIRECT + 1) → BlockNo
  deriving DecidableEq

/-- An inode of zeros. -/
def Dinode.zero : Dinode := ⟨0, 0, 0, 0, 0, fun _ => 0⟩

/-- The words of an inode. -/
def Dinode.word (x : Dinode) : ℕ → UInt32
  | 0 => packShorts x.type x.major
  | 1 => packShorts x.minor x.nlink
  | 2 => x.size
  | j + 3 => x.addrs (Fin.ofNat (NDIRECT + 1) j)

/-- The inode `k` of a block. -/
def getDinode (b : Block) (k : ℕ) : Dinode where
  type := loShort (wordAt b (DINODEWORDS * k))
  major := hiShort (wordAt b (DINODEWORDS * k))
  minor := loShort (wordAt b (DINODEWORDS * k + 1))
  nlink := hiShort (wordAt b (DINODEWORDS * k + 1))
  size := wordAt b (DINODEWORDS * k + 2)
  addrs := fun j => wordAt b (DINODEWORDS * k + 3 + j.val)

/-- The block `b` with another inode `k`. -/
def setDinode (b : Block) (k : ℕ) (x : Dinode) : Block := fun j =>
  if j.val / DINODEWORDS = k then x.word (j.val % DINODEWORDS) else b j

/-- A word of an inode that has been put into a block. -/
theorem wordAt_setDinode (b : Block) {k l i : ℕ} (hl : l < IPB) (hi : i < DINODEWORDS)
    (x : Dinode) :
    wordAt (setDinode b k x) (DINODEWORDS * l + i) =
      if l = k then x.word i else wordAt b (DINODEWORDS * l + i) := by
  have hpos : 0 < DINODEWORDS := by decide
  have hlt : DINODEWORDS * l + i < BSIZE / 4 := by
    simp only [IPB, BSIZE, DINODEWORDS, NDIRECT] at *
    omega
  have hdiv : (DINODEWORDS * l + i) / DINODEWORDS = l := by
    rw [Nat.mul_add_div hpos, Nat.div_eq_of_lt hi, Nat.add_zero]
  have hmod : (DINODEWORDS * l + i) % DINODEWORDS = i := by
    rw [Nat.mul_add_mod, Nat.mod_eq_of_lt hi]
  simp only [wordAt, dif_pos hlt, setDinode, hdiv, hmod]

theorem getDinode_setDinode_self (b : Block) {k : ℕ} (hk : k < IPB) (x : Dinode) :
    getDinode (setDinode b k x) k = x := by
  have hword {i : ℕ} (hi : i < DINODEWORDS) :
      wordAt (setDinode b k x) (DINODEWORDS * k + i) = x.word i := by
    rw [wordAt_setDinode b hk hi, if_pos rfl]
  have h0 := hword (i := 0) (by decide)
  have h1 := hword (i := 1) (by decide)
  have h2 := hword (i := 2) (by decide)
  refine Dinode.ext ?_ ?_ ?_ ?_ ?_ (funext fun j => ?_)
  · exact (congrArg loShort h0).trans (loShort_packShorts _ _)
  · exact (congrArg hiShort h0).trans (hiShort_packShorts _ _)
  · exact (congrArg loShort h1).trans (loShort_packShorts _ _)
  · exact (congrArg hiShort h1).trans (hiShort_packShorts _ _)
  · exact h2
  · have hj : j.val + 3 < DINODEWORDS := by
      have := j.isLt
      simp only [DINODEWORDS]
      omega
    have h := hword hj
    rw [Nat.add_comm j.val 3, ← Nat.add_assoc] at h
    refine h.trans ?_
    rw [Nat.add_comm 3 j.val]
    exact congrArg x.addrs (Fin.ext (Nat.mod_eq_of_lt j.isLt))

theorem getDinode_setDinode_of_ne (b : Block) {k l : ℕ} (hl : l < IPB) (h : l ≠ k) (x : Dinode) :
    getDinode (setDinode b k x) l = getDinode b l := by
  have hword {i : ℕ} (hi : i < DINODEWORDS) :
      wordAt (setDinode b k x) (DINODEWORDS * l + i) = wordAt b (DINODEWORDS * l + i) := by
    rw [wordAt_setDinode b hl hi, if_neg h]
  have h0 := hword (i := 0) (by decide)
  have h1 := hword (i := 1) (by decide)
  have h2 := hword (i := 2) (by decide)
  refine Dinode.ext (congrArg loShort h0) (congrArg hiShort h0) (congrArg loShort h1)
    (congrArg hiShort h1) h2 (funext fun j => ?_)
  have hj : 3 + j.val < DINODEWORDS := by
    have := j.isLt
    simp only [DINODEWORDS]
    omega
  have h := hword hj
  rwa [← Nat.add_assoc] at h

theorem getDinode_zero (k : ℕ) : getDinode (fun _ => 0) k = .zero := by
  simp only [getDinode, wordAt_zero]
  rfl

/-! ## Bytes -/

/-- The byte `i` of a block. -/
def byteAt (b : Block) (i : ℕ) : UInt8 := UInt8.ofNat ((wordAt b (i / 4)).toNat / 256 ^ (i % 4))

/-- The block with the bytes `f`. -/
def ofBytes (f : ℕ → UInt8) : Block := fun j =>
  UInt32.ofNat ((f (4 * j.val)).toNat + 256 * (f (4 * j.val + 1)).toNat +
    256 ^ 2 * (f (4 * j.val + 2)).toNat + 256 ^ 3 * (f (4 * j.val + 3)).toNat)

/-- The block `b` with the bytes `l` from the byte `off` on. -/
def putBytes (b : Block) (off : ℕ) (l : List UInt8) : Block :=
  ofBytes fun i => if off ≤ i then l.getD (i - off) (byteAt b i) else byteAt b i

theorem byteAt_zero (i : ℕ) : byteAt (fun _ => 0) i = 0 := by
  rw [byteAt, wordAt_zero]
  simp

theorem byteAt_ofBytes (f : ℕ → UInt8) {i : ℕ} (hi : i < BSIZE) : byteAt (ofBytes f) i = f i := by
  have hq : i / 4 < BSIZE / 4 := by
    simp only [BSIZE] at *
    omega
  have h0 := (f (4 * (i / 4))).toNat_lt
  have h1 := (f (4 * (i / 4) + 1)).toNat_lt
  have h2 := (f (4 * (i / 4) + 2)).toNat_lt
  have h3 := (f (4 * (i / 4) + 3)).toNat_lt
  have hword : (wordAt (ofBytes f) (i / 4)).toNat = (f (4 * (i / 4))).toNat +
      256 * (f (4 * (i / 4) + 1)).toNat + 256 ^ 2 * (f (4 * (i / 4) + 2)).toNat +
      256 ^ 3 * (f (4 * (i / 4) + 3)).toNat := by
    rw [wordAt, dif_pos hq]
    exact UInt32.toNat_ofNat_of_lt' (by simp only [UInt32.size]; omega)
  refine UInt8.toNat_inj.mp ?_
  rw [byteAt, hword, UInt8.toNat_ofNat']
  -- The four bytes of the word.
  have hr : i % 4 = 0 ∨ i % 4 = 1 ∨ i % 4 = 2 ∨ i % 4 = 3 := by omega
  rcases hr with hr | hr | hr | hr
  · rw [hr]
    conv_rhs => rw [show i = 4 * (i / 4) by omega]
    omega
  · rw [hr]
    conv_rhs => rw [show i = 4 * (i / 4) + 1 by omega]
    omega
  · rw [hr]
    conv_rhs => rw [show i = 4 * (i / 4) + 2 by omega]
    omega
  · rw [hr]
    conv_rhs => rw [show i = 4 * (i / 4) + 3 by omega]
    omega

theorem byteAt_putBytes (b : Block) (off : ℕ) (l : List UInt8) {i : ℕ} (hi : i < BSIZE) :
    byteAt (putBytes b off l) i =
      if off ≤ i then l.getD (i - off) (byteAt b i) else byteAt b i :=
  byteAt_ofBytes _ hi

/-! ## Bits -/

/-- `1 << (bi % 8)`. -/
def bitMask (bi : ℕ) : UInt8 := 1 <<< UInt8.ofNat (bi % 8)

/-- Whether the bit `bi` of a block is set. -/
def bitAt (b : Block) (bi : ℕ) : Bool := byteAt b (bi / 8) &&& bitMask bi ≠ 0

/-- The block `b` with the bit `bi` set. -/
def setBit (b : Block) (bi : ℕ) : Block :=
  putBytes b (bi / 8) [byteAt b (bi / 8) ||| bitMask bi]

/-- The block `b` with the bit `bi` cleared. -/
def clearBit (b : Block) (bi : ℕ) : Block :=
  putBytes b (bi / 8) [byteAt b (bi / 8) &&& ~~~ bitMask bi]

theorem bitMask_toBitVec (bi : ℕ) : (bitMask bi).toBitVec = BitVec.twoPow 8 (bi % 8) := by
  have hlt : bi % 8 < 8 := Nat.mod_lt _ (by decide)
  have hall : ∀ k : Fin 8,
      ((1 : UInt8) <<< UInt8.ofNat k.val).toBitVec = BitVec.twoPow 8 k.val := by
    decide
  exact hall ⟨bi % 8, hlt⟩

/-- A bit of a byte. -/
theorem and_bitMask_ne_zero (v : UInt8) (bi : ℕ) :
    v &&& bitMask bi ≠ 0 ↔ v.toBitVec.getLsbD (bi % 8) = true := by
  have hlt : bi % 8 < 8 := Nat.mod_lt _ (by decide)
  have htwo : BitVec.twoPow 8 (bi % 8) ≠ 0#8 := by
    have hall : ∀ k : Fin 8, BitVec.twoPow 8 k.val ≠ 0#8 := by decide
    exact hall ⟨bi % 8, hlt⟩
  rw [ne_eq, ← UInt8.toBitVec_inj, UInt8.toBitVec_and, bitMask_toBitVec, BitVec.and_twoPow]
  by_cases h : v.toBitVec.getLsbD (bi % 8) = true
  · simpa [h] using htwo
  · simp [h]

theorem bitAt_eq (b : Block) (bi : ℕ) :
    bitAt b bi = (byteAt b (bi / 8)).toBitVec.getLsbD (bi % 8) := by
  rw [Bool.eq_iff_iff, bitAt, decide_eq_true_eq]
  exact and_bitMask_ne_zero _ _

/-- The bits of a block with another byte `bi / 8`. -/
theorem bitAt_putByte (b : Block) (bi : ℕ) (v : UInt8) {c : ℕ} (hc : c < BPB) :
    bitAt (putBytes b (bi / 8) [v]) c =
      if c / 8 = bi / 8 then v.toBitVec.getLsbD (c % 8) else bitAt b c := by
  have hlt : c / 8 < BSIZE := by
    simp only [BPB] at hc
    omega
  rw [bitAt_eq, bitAt_eq, byteAt_putBytes _ _ _ hlt]
  by_cases h : c / 8 = bi / 8
  · simp [h]
  · by_cases hle : bi / 8 ≤ c / 8
    · have hsub : c / 8 - bi / 8 ≠ 0 := by omega
      obtain ⟨n, hn⟩ := Nat.exists_eq_succ_of_ne_zero hsub
      simp [h, hle, hn]
    · simp [h, hle]

theorem bitAt_setBit (b : Block) (bi : ℕ) {c : ℕ} (hc : c < BPB) :
    bitAt (setBit b bi) c = (decide (c = bi) || bitAt b c) := by
  rw [setBit, bitAt_putByte _ _ _ hc]
  by_cases h : c / 8 = bi / 8
  · rw [if_pos h, UInt8.toBitVec_or, BitVec.getLsbD_or, bitMask_toBitVec, BitVec.getLsbD_twoPow,
      ← h, ← bitAt_eq, Bool.or_comm]
    congr 1
    have hlt : bi % 8 < 8 := Nat.mod_lt _ (by decide)
    have hiff : bi % 8 = c % 8 ↔ c = bi := by omega
    simp [hlt, hiff]
  · have hne : c ≠ bi := fun he => h (by rw [he])
    simp [h, hne]

theorem bitAt_clearBit (b : Block) (bi : ℕ) {c : ℕ} (hc : c < BPB) :
    bitAt (clearBit b bi) c = (decide (c ≠ bi) && bitAt b c) := by
  rw [clearBit, bitAt_putByte _ _ _ hc]
  by_cases h : c / 8 = bi / 8
  · have hlt : bi % 8 < 8 := Nat.mod_lt _ (by decide)
    have hlt' : c % 8 < 8 := Nat.mod_lt _ (by decide)
    have hiff : bi % 8 = c % 8 ↔ c = bi := by omega
    rw [if_pos h, UInt8.toBitVec_and, BitVec.getLsbD_and, UInt8.toBitVec_not, BitVec.getLsbD_not,
      bitMask_toBitVec, BitVec.getLsbD_twoPow, ← h, ← bitAt_eq, Bool.and_comm]
    simp [hlt, hlt', hiff]
  · have hne : c ≠ bi := fun he => h (by rw [he])
    simp [h, hne]

/-- The bits of a block of zeros after the first `used` have been set. -/
theorem bitAt_foldl_setBit (used : ℕ) {c : ℕ} (hc : c < BPB) :
    bitAt ((List.range used).foldl setBit fun _ => 0) c = decide (c < used) := by
  induction used with
  | zero =>
    have hbyte : byteAt (fun _ => 0) (c / 8) = 0 := by
      rw [byteAt, wordAt_zero]
      simp
    simp [bitAt, hbyte]
  | succ n ih =>
    rw [List.range_succ, List.foldl_append, List.foldl_cons, List.foldl_nil, bitAt_setBit _ _ hc,
      ih, ← Bool.decide_or]
    exact decide_eq_decide.mpr (by omega)

/-! ## Directory entries -/

/-- `de.inum` of the entry at the byte `off` of a block. -/
def direntInum (b : Block) (off : ℕ) : UInt16 :=
  UInt16.ofNat ((byteAt b off).toNat + 256 * (byteAt b (off + 1)).toNat)

/-- The bytes of `de.name` of the entry at the byte `off` of a block. -/
def direntName (b : Block) (off : ℕ) : List UInt8 :=
  (List.range DIRSIZ).map fun i => byteAt b (off + 2 + i)

/-- The bytes of an entry. `strncpy` fills the name with zeros. -/
def dirent (inum : UInt16) (name : List UInt8) : List UInt8 :=
  UInt8.ofNat inum.toNat :: UInt8.ofNat (inum.toNat / 256) ::
    (List.range DIRSIZ).map fun i => name.getD i 0

theorem dirent_length (inum : UInt16) (name : List UInt8) :
    (dirent inum name).length = DIRENTSIZE := rfl

/-- The entries of a block after the entry `k` has been put into it. -/
theorem direntInum_putBytes (b : Block) {k l : ℕ} (hl : l < BSIZE / DIRENTSIZE) (inum : UInt16)
    (name : List UInt8) :
    direntInum (putBytes b (DIRENTSIZE * k) (dirent inum name)) (DIRENTSIZE * l) =
      if l = k then inum else direntInum b (DIRENTSIZE * l) := by
  have hlen := dirent_length inum name
  have hlt (j : ℕ) (hj : j < 2) : DIRENTSIZE * l + j < BSIZE := by
    simp only [DIRENTSIZE, DIRSIZ, BSIZE] at *
    omega
  have h0 := byteAt_putBytes b (DIRENTSIZE * k) (dirent inum name) (hlt 0 (by omega))
  have h1 := byteAt_putBytes b (DIRENTSIZE * k) (dirent inum name) (hlt 1 (by omega))
  rw [Nat.add_zero] at h0
  unfold direntInum
  rw [h0, h1]
  by_cases hlk : l = k
  · subst hlk
    have hinum := inum.toNat_lt
    refine UInt16.toNat_inj.mp ?_
    simp only [le_refl, if_true, Nat.sub_self, Nat.le_add_right, Nat.add_sub_cancel_left, dirent,
      List.getD_cons_zero, List.getD_cons_succ, UInt8.toNat_ofNat', UInt16.toNat_ofNat']
    omega
  · -- The two bytes of the entry `l` are outside of the bytes put.
    have hget {j : ℕ} (hj : j < 2) (c : UInt8) :
        (if DIRENTSIZE * k ≤ DIRENTSIZE * l + j then
          (dirent inum name).getD (DIRENTSIZE * l + j - DIRENTSIZE * k) c else c) = c := by
      split_ifs with hle
      · refine List.getD_eq_default _ _ ?_
        rw [hlen]
        simp only [DIRENTSIZE, DIRSIZ] at *
        omega
      · rfl
    have hget0 := hget (j := 0) (by omega)
    rw [Nat.add_zero] at hget0
    rw [hget0, hget (by omega), if_neg hlk]

end SustainableXv6.Fs
