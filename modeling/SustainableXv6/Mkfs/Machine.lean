import SustainableXv6.Lib.Wp
import SustainableXv6.Fs.Image

/-!
# `mkfs`

`mkfs/mkfs.c` writes an image that has the root directory and a file for each argument. It reads and
writes the image by blocks, and it takes inodes and blocks from the counters `freeinode` and
`freeblock`. A read behind the end of the image ends the program, and so does an assertion that does
not hold.

An argument is given by its name and by what `open` and the calls of `read` return for it, since
`read` may return fewer bytes than `mkfs` asks for.
-/

namespace SustainableXv6.Mkfs

open Fs Function

/-! ## The layout -/

/-- The size of the image in blocks. -/
def FSSIZE : ℕ := 2000

/-- The number of inodes. -/
def NINODES : ℕ := 200

/-- The number of bitmap blocks. -/
def nbitmap : ℕ := FSSIZE / BPB + 1

/-- The number of inode blocks. -/
def ninodeblocks : ℕ := NINODES / IPB + 1

/-- The number of log blocks: the header, and `LOGBLOCKS` data blocks. -/
def nlog : ℕ := LOGBLOCKS + 1

/-- The number of metadata blocks. -/
def nmeta : ℕ := 2 + nlog + ninodeblocks + nbitmap

/-- The number of data blocks. -/
def nblocks : ℕ := FSSIZE - nmeta

/-- The superblock that `mkfs` writes. -/
def sb : Superblock where
  magic := FSMAGIC
  size := UInt32.ofNat FSSIZE
  nblocks := UInt32.ofNat nblocks
  ninodes := UInt32.ofNat NINODES
  nlog := UInt32.ofNat nlog
  logstart := 2
  inodestart := UInt32.ofNat (2 + nlog)
  bmapstart := UInt32.ofNat (2 + nlog + ninodeblocks)

/-! ## The state -/

/-- Why `mkfs` ends before its end. -/
inductive Fail
  /-- An assertion does not hold. -/
  | assertion
  /-- `die`. -/
  | die
  deriving DecidableEq, Repr

/-- The image and the counters. -/
structure State where
  image : Disk
  /-- The length of the image in blocks. -/
  len : ℕ
  freeinode : ℕ
  freeblock : ℕ

/-- The image is empty, and the counters have their first values. -/
def State.start : State := { image := zeroDisk, len := 0, freeinode := 1, freeblock := nmeta }

/-- The programs of `mkfs`. -/
abbrev MkfsM : Type → Type := Lib.Prog State Fail

/-- `assert`. -/
def assert (c : Bool) : MkfsM Unit := if c then pure () else throw .assertion

/-- `wsect`. -/
def wsect (sec : BlockNo) (buf : Block) : MkfsM Unit :=
  modify fun s =>
    { s with image := update s.image sec buf, len := max s.len (sec.toNat + 1) }

/-- `rsect`. -/
def rsect (sec : BlockNo) : MkfsM Block := do
  let s ← get
  if sec.toNat < s.len then pure (s.image sec) else throw .die

/-! ## Inodes -/

/-- `winode`. -/
def winode (inum : ℕ) (din : Dinode) : MkfsM Unit := do
  let bn := iblock sb inum
  let buf ← rsect bn
  wsect bn (setDinode buf (inum % IPB) din)

/-- `rinode`. -/
def rinode (inum : ℕ) : MkfsM Dinode := do
  let buf ← rsect (iblock sb inum)
  pure (getDinode buf (inum % IPB))

/-- `freeblock++`. -/
def newBlock : MkfsM BlockNo := do
  let s ← get
  set { s with freeblock := s.freeblock + 1 }
  pure (UInt32.ofNat s.freeblock)

/-- `freeinode++`. -/
def newInode : MkfsM ℕ := do
  let s ← get
  set { s with freeinode := s.freeinode + 1 }
  pure s.freeinode

/-- `ialloc`. -/
def ialloc (type : UInt16) : MkfsM ℕ := do
  let inum ← newInode
  winode inum { Dinode.zero with type := type, nlink := 1 }
  pure inum

/-! ## `iappend` -/

/-- The inode `din` with another address `k`. -/
def setAddr (din : Dinode) (k : Fin (NDIRECT + 1)) (a : BlockNo) : Dinode :=
  { din with addrs := update din.addrs k a }

/-- The inode in which there is an indirect block. -/
def indirectFor (din : Dinode) : MkfsM Dinode :=
  if din.addrs (Fin.last NDIRECT) = 0 then do
    let a ← newBlock
    pure (setAddr din (Fin.last NDIRECT) a)
  else pure din

/-- The address `j` in the indirect block, after there is one. -/
def entryFor (din : Dinode) (j : ℕ) : MkfsM BlockNo := do
  let indirect ← rsect (din.addrs (Fin.last NDIRECT))
  if wordAt indirect j = 0 then
    let a ← newBlock
    wsect (din.addrs (Fin.last NDIRECT)) (setWord indirect j a)
    pure a
  else pure (wordAt indirect j)

/-- The first half of the loop of `iappend`: the inode in which the block `fbn` has an address, and
this address. -/
def blockFor (din : Dinode) (fbn : ℕ) : MkfsM (Dinode × BlockNo) :=
  if fbn < NDIRECT then
    let k := (Fin.ofNat NDIRECT fbn).castSucc
    if din.addrs k = 0 then do
      let a ← newBlock
      pure (setAddr din k a, a)
    else pure (din, din.addrs k)
  else do
    let din ← indirectFor din
    let x ← entryFor din (fbn - NDIRECT)
    pure (din, x)

/-- The number of bytes of `p` that go into the block at the offset `off`. -/
def chunkSize (off : ℕ) (p : List UInt8) : ℕ := min p.length ((off / BSIZE + 1) * BSIZE - off)

/-- A round of the loop of `iappend`, at the offset `off` and with the bytes `p` left. -/
def appendRound (din : Dinode) (off : ℕ) (p : List UInt8) : MkfsM Dinode := do
  let fbn := off / BSIZE
  assert (fbn < MAXFILE)
  let (din, x) ← blockFor din fbn
  let buf ← rsect x
  wsect x (putBytes buf (off - fbn * BSIZE) (p.take (chunkSize off p)))
  pure din

/-- The loop of `iappend`. It returns the inode and the offset at its end. Each round appends a byte
at least, so that it has as many rounds as there are bytes at most. -/
def appendLoop : ℕ → Dinode → ℕ → List UInt8 → MkfsM (Dinode × ℕ)
  | 0, din, off, _ => pure (din, off)
  | fuel + 1, din, off, p => do
    if p = [] then pure (din, off)
    else
      let din ← appendRound din off p
      appendLoop fuel din (off + chunkSize off p) (p.drop (chunkSize off p))

/-- `iappend`. -/
def iappend (inum : ℕ) (p : List UInt8) : MkfsM Unit := do
  let din ← rinode inum
  let (din, off) ← appendLoop p.length din din.size.toNat p
  winode inum { din with size := UInt32.ofNat off }

/-- `balloc`: the bitmap in which the first `used` blocks are in use. -/
def balloc (used : ℕ) : MkfsM Unit := do
  assert (used < BPB)
  wsect sb.bmapstart ((List.range used).foldl setBit fun _ => 0)

/-! ## `main` -/

/-- What a call of `read` returns. -/
abbrev Chunk : Type := { l : List UInt8 // 0 < l.length ∧ l.length ≤ BSIZE }

/-- An argument of `mkfs`. -/
structure Arg where
  path : List UInt8
  /-- What `read` returns until the end of the file, or nothing where `open` fails. -/
  file : Option (List Chunk)

/-- The characters of `user/`. -/
def userDir : List UInt8 := ['u', 's', 'e', 'r', '/'].map Char.toUInt8

/-- The name without `user/`. -/
def stripUser (path : List UInt8) : List UInt8 :=
  if path.take 5 = userDir then path.drop 5 else path

/-- The name without a leading `_`. -/
def stripUnderscore (name : List UInt8) : List UInt8 :=
  if name.head? = some '_'.toUInt8 then name.drop 1 else name

/-- The body of the loop of `main` over the arguments. -/
def addFile (arg : Arg) : MkfsM Unit := do
  let shortname := stripUser arg.path
  assert (!shortname.contains '/'.toUInt8)
  match arg.file with
  | none => throw .die
  | some chunks =>
    let shortname := stripUnderscore shortname
    assert (shortname.length ≤ DIRSIZ)
    let inum ← ialloc T_FILE
    iappend ROOTINO (dirent (UInt16.ofNat inum) shortname)
    chunks.forM fun chunk => iappend inum chunk.val

/-- The root directory: `.` and `..`. -/
def makeRoot : MkfsM Unit := do
  let rootino ← ialloc T_DIR
  assert (rootino = ROOTINO)
  iappend rootino (dirent (UInt16.ofNat rootino) ['.'.toUInt8])
  iappend rootino (dirent (UInt16.ofNat rootino) ['.'.toUInt8, '.'.toUInt8])

/-- The size of the root directory is rounded up. -/
def fixRootSize : MkfsM Unit := do
  let din ← rinode ROOTINO
  let off := din.size.toNat
  winode ROOTINO { din with size := UInt32.ofNat ((off / BSIZE + 1) * BSIZE) }

/-- The rest of `main`, after the image has been filled with zeros. -/
def fill (args : List Arg) : MkfsM Unit := do
  wsect 1 (writeSuper sb)
  makeRoot
  args.forM addFile
  fixRootSize
  let s ← get
  balloc s.freeblock

/-- `main`, after the image has been opened. -/
def main (args : List Arg) : MkfsM Unit := do
  Lib.upto FSSIZE fun i => wsect (UInt32.ofNat i) fun _ => 0
  fill args

/-- The image that `mkfs` leaves, if it comes to its end. -/
def mkfs (args : List Arg) : Except Fail State := (·.2) <$> main args State.start

/-! ## The image of zeros -/

/-- The state after the image has been filled with zeros. -/
def State.zeroed : State := { State.start with len := FSSIZE }

theorem upto_wsect_zero (n : ℕ) (hn : n ≤ FSSIZE) :
    Lib.upto n (fun i => wsect (UInt32.ofNat i) fun _ => 0) State.start =
      .ok ((), { State.start with len := n }) := by
  induction n with
  | zero =>
    rw [Lib.upto_zero]
    rfl
  | succ n ih =>
    have hlt : n < UInt32.size := lt_of_lt_of_le hn (by decide)
    have hzero (b : BlockNo) : update zeroDisk b (fun _ => 0) = zeroDisk :=
      update_eq_self (f := zeroDisk) b
    rw [Lib.upto_succ, Lib.bind_of_ok (ih (Nat.le_of_succ_le hn))]
    simp [wsect, modify, modifyGet, MonadStateOf.modifyGet, StateT.modifyGet, State.start, hzero,
      UInt32.toNat_ofNat_of_lt' hlt, pure, Except.pure]

/-- The first loop leaves an image of zeros. -/
theorem mkfs_eq (args : List Arg) : mkfs args = (·.2) <$> fill args State.zeroed := by
  unfold mkfs main
  rw [Lib.bind_of_ok (upto_wsect_zero FSSIZE le_rfl), State.zeroed]

end SustainableXv6.Mkfs
