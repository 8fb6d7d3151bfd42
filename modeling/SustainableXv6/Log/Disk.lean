import SustainableXv6.Lib.RedoLog

/-!
# The log on the disk

The disk is a function from block numbers to blocks. A block is an array of `BSIZE / 4` words, since
the log reads a block as a `struct logheader`, an array of `int`, and copies the others as a whole.
The log of `kernel/log.c` lies in the blocks from `log.start` on: the header, and `LOGBLOCKS` slots.
`read_head` and `write_head` take the block numbers of the header from a block and put them into one
(`readHeader`, `writeHeader`), and what is put in is what is taken out (`readHeader_writeHeader`).
`logLayout` is the log as a redo log.
-/

namespace SustainableXv6

/-! ## Constants (`kernel/param.h`, `kernel/fs.h`) -/

/-- The maximum number of blocks that a file system operation writes. -/
def MAXOPBLOCKS : ℕ := 10

/-- The maximum number of data blocks in the log. -/
def LOGBLOCKS : ℕ := MAXOPBLOCKS * 3

/-- The size of a block in bytes. -/
def BSIZE : ℕ := 1024

/-! ## Blocks -/

/-- A block number. -/
abbrev BlockNo : Type := UInt32

/-- The contents of a block, by words of four bytes. -/
abbrev Block : Type := Fin (BSIZE / 4) → UInt32

/-- The disk. -/
abbrev Disk : Type := BlockNo → Block

/-- A disk of zeros. -/
def zeroDisk : Disk := fun _ _ => 0

instance : NeZero (BSIZE / 4) := ⟨by decide⟩

/-! ## The header -/

/-- `lh->n`, or 0 where it is negative: the number of rounds of `for (i = 0; i < lh->n; i++)`. -/
def headerN (b : Block) : ℕ := (b 0).toBitVec.toInt.toNat

/-- `lh->block[i]`. -/
def headerBlock (b : Block) (i : ℕ) : BlockNo := if h : i + 1 < BSIZE / 4 then b ⟨i + 1, h⟩ else 0

/-- `read_head`: the block numbers in a header. -/
def readHeader (b : Block) : List BlockNo := (List.range (headerN b)).map (headerBlock b)

/-- `write_head`: the header block `b` with `log.lh`. The words after the last block number stay. -/
def writeHeader (b : Block) (lh : List BlockNo) : Block := fun i =>
  if i = 0 then UInt32.ofNat lh.length else lh.getD (i.val - 1) (b i)

/-- The count of a header that has been written. -/
theorem headerN_writeHeader (b : Block) {lh : List BlockNo} (h : lh.length ≤ LOGBLOCKS) :
    headerN (writeHeader b lh) = lh.length := by
  have hlt : lh.length < 2 ^ 31 := lt_of_le_of_lt h (by decide)
  have hword : (UInt32.ofNat lh.length).toBitVec.toNat = lh.length :=
    UInt32.toNat_ofNat_of_lt' (lt_trans hlt (by decide))
  simp only [headerN, writeHeader, if_true]
  rw [BitVec.toInt_eq_toNat_of_lt (by omega), hword, Int.toNat_natCast]

/-- What has been written to a header is read from it. -/
theorem readHeader_writeHeader (b : Block) {lh : List BlockNo} (h : lh.length ≤ LOGBLOCKS) :
    readHeader (writeHeader b lh) = lh := by
  unfold readHeader
  rw [headerN_writeHeader b h]
  refine List.ext_getElem (by simp) fun i hi hi' => ?_
  have hlt : i + 1 < BSIZE / 4 :=
    lt_of_le_of_lt (Nat.add_le_add_right (hi'.le.trans h) 1) (by decide)
  rw [List.getElem_map, List.getElem_range, headerBlock, dif_pos hlt]
  simp only [writeHeader]
  rw [if_neg (by simp [Fin.ext_iff])]
  simp [hi']

/-! ## The layout -/

/-- The block of the log slot `tail`: `log.start+tail+1`. -/
def logSlot (start : BlockNo) (tail : ℕ) : BlockNo := start + UInt32.ofNat tail + 1

/-- The number of the block of a log slot, where the log fits on the disk. -/
theorem logSlot_toNat {start : BlockNo} (h : start.toNat + LOGBLOCKS < 2 ^ 32) {tail : ℕ}
    (ht : tail < LOGBLOCKS) : (logSlot start tail).toNat = start.toNat + tail + 1 := by
  have hlt : tail < 2 ^ 32 := by omega
  rw [logSlot, UInt32.toNat_add, UInt32.toNat_add, UInt32.toNat_ofNat_of_lt' hlt, UInt32.toNat_one]
  omega

/-- A log slot is not the header. -/
theorem logSlot_ne_start {start : BlockNo} (h : start.toNat + LOGBLOCKS < 2 ^ 32) (tail : ℕ)
    (ht : tail < LOGBLOCKS) : logSlot start tail ≠ start := by
  intro he
  have := congrArg UInt32.toNat he
  rw [logSlot_toNat h ht] at this
  omega

/-- The log slots are different blocks. -/
theorem logSlot_inj {start : BlockNo} (h : start.toNat + LOGBLOCKS < 2 ^ 32) (i j : ℕ)
    (hi : i < LOGBLOCKS) (hj : j < LOGBLOCKS) (he : logSlot start i = logSlot start j) : i = j := by
  have := congrArg UInt32.toNat he
  rw [logSlot_toNat h hi, logSlot_toNat h hj] at this
  omega

/-- The log of `kernel/log.c` as a redo log, where it fits on the disk. -/
def logLayout (start : BlockNo) (h : start.toNat + LOGBLOCKS < 2 ^ 32) :
    Lib.RedoLog.Layout BlockNo Block where
  head := start
  slot := logSlot start
  size := LOGBLOCKS
  decode := readHeader
  slot_ne_head := logSlot_ne_start h
  slot_inj := logSlot_inj h

end SustainableXv6
