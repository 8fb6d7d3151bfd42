import SustainableXv6.Lib.Wp
import SustainableXv6.Fs.Image

/-!
# The inode layer of `kernel/fs.c`

The functions from `balloc` to `dirlink` and `ireclaim`, as programs on the blocks of the disk, the
inode table, and the transaction. They run one at a time. `bread` returns the current contents of a
block, whether they are on the disk, in the cache, or in the log. What a system call passes to these
functions is left open: the bytes that `either_copyin` delivers, and where it or `either_copyout`
fails.
-/

namespace SustainableXv6.Inode

open Fs Function Lib

/-! ## The state -/

/-- The number of entries of the inode table. -/
def NINODE : ℕ := 50

/-- `struct inode`, without the lock. There is one device. -/
structure Entry where
  inum : ℕ
  ref : ℕ
  valid : Bool
  /-- The copy of the inode on the disk. -/
  dino : Dinode

instance : NeZero NINODE := ⟨by decide⟩

/-- The number of an entry of the inode table. -/
abbrev EntryId : Type := Fin NINODE

/-- Why the kernel stops. -/
inductive Panic
  /-- `too big a transaction`. -/
  | tooBig
  /-- `log_write outside of trans`. -/
  | outsideTrans
  /-- `freeing free block`. -/
  | freeingFree
  /-- `bmap: out of range`. -/
  | outOfRange
  /-- `iget: no inodes`. -/
  | noInodes
  /-- `ilock`. -/
  | ilock
  /-- `ilock: no type`. -/
  | noType
  /-- `iunlock`. -/
  | iunlock
  /-- `dirlookup not DIR`. -/
  | notDir
  /-- `dirlookup read`. -/
  | dirlookupRead
  /-- `dirlink read`. -/
  | dirlinkRead
  deriving DecidableEq, Repr

/-- The blocks, the inode table, and the transaction. -/
structure State where
  disk : Disk
  itable : EntryId → Entry
  /-- Whether the sleep lock of an entry is held. -/
  locked : EntryId → Bool
  /-- The blocks of the transaction: `log.lh`. -/
  lh : List BlockNo
  /-- The number of calls in the transaction: `log.outstanding`. -/
  outstanding : ℕ

/-- The programs of the inode layer. -/
abbrev FsM : Type → Type := Prog State Panic

/-- The state with another entry `e`. -/
def State.setEntry (s : State) (e : EntryId) (x : Entry) : State :=
  { s with itable := update s.itable e x }

/-- The state with another copy of the inode in the entry `e`. -/
def State.setDino (s : State) (e : EntryId) (x : Dinode) : State :=
  s.setEntry e { s.itable e with dino := x }

theorem State.setEntry_self (s : State) (e : EntryId) (x : Entry) :
    (s.setEntry e x).itable e = x := update_self ..

theorem State.setEntry_of_ne (s : State) {e e' : EntryId} (h : e' ≠ e) (x : Entry) :
    (s.setEntry e x).itable e' = s.itable e' := update_of_ne h ..

theorem State.setDino_self (s : State) (e : EntryId) (x : Dinode) :
    (s.setDino e x).itable e = { s.itable e with dino := x } := update_self ..

theorem State.setDino_of_ne (s : State) {e e' : EntryId} (h : e' ≠ e) (x : Dinode) :
    (s.setDino e x).itable e' = s.itable e' := update_of_ne h ..

/-! ## The transaction -/

/-- `begin_op`. -/
def beginOp : FsM Unit := modify fun s => { s with outstanding := s.outstanding + 1 }

/-- `end_op`. The last one commits. -/
def endOp : FsM Unit :=
  modify fun s => { s with
    outstanding := s.outstanding - 1
    lh := if s.outstanding = 1 then [] else s.lh }

/-- The block `b` gets the contents `v`, and `log_write`. -/
def logWrite (b : BlockNo) (v : Block) : FsM Unit := do
  let s ← get
  if LOGBLOCKS ≤ s.lh.length then throw .tooBig
  else if s.outstanding < 1 then throw .outsideTrans
  else set { s with
    disk := update s.disk b v
    lh := if s.lh.contains b then s.lh else s.lh ++ [b] }

/-! ## Blocks -/

/-- `bzero`. -/
def bzero (b : BlockNo) : FsM Unit := logWrite b fun _ => 0

/-- The loops of `balloc`: the first block of the image whose bit is clear. -/
def freeBlock (sb : Superblock) (d : Disk) : Option ℕ :=
  (List.range ((sb.size.toNat + BPB - 1) / BPB)).findSome? fun k =>
    ((List.range BPB).find? fun bi =>
      k * BPB + bi < sb.size.toNat && !bitAt (d (bblock sb (k * BPB))) bi).map (k * BPB + ·)

/-- `balloc`. It returns 0 if there is no free block. -/
def balloc (sb : Superblock) : FsM BlockNo := do
  let s ← get
  match freeBlock sb s.disk with
  | none => pure 0
  | some b => do
    logWrite (bblock sb b) (setBit (s.disk (bblock sb b)) (b % BPB))
    bzero (UInt32.ofNat b)
    pure (UInt32.ofNat b)

/-- `bfree`. -/
def bfree (sb : Superblock) (b : BlockNo) : FsM Unit := do
  let s ← get
  if bitAt (s.disk (bblock sb b.toNat)) (b.toNat % BPB) = false then throw .freeingFree
  else
    logWrite (bblock sb b.toNat) (clearBit (s.disk (bblock sb b.toNat)) (b.toNat % BPB))

/-! ## Inodes -/

/-- `iupdate`. -/
def iupdate (sb : Superblock) (e : EntryId) : FsM Unit := do
  let s ← get
  let ip := s.itable e
  logWrite (iblock sb ip.inum)
    (setDinode (s.disk (iblock sb ip.inum)) (ip.inum % IPB) ip.dino)

/-- The entry of the inode `inum` that is in use. -/
def State.find (s : State) (inum : ℕ) : Option EntryId :=
  (List.finRange NINODE).find? fun e => 0 < (s.itable e).ref && (s.itable e).inum == inum

/-- The first entry that is not in use. -/
def State.empty (s : State) : Option EntryId :=
  (List.finRange NINODE).find? fun e => (s.itable e).ref == 0

/-- `iget`. -/
def iget (inum : ℕ) : FsM EntryId := do
  let s ← get
  match s.find inum with
  | some e => do
    set (s.setEntry e { s.itable e with ref := (s.itable e).ref + 1 })
    pure e
  | none =>
    match s.empty with
    | none => throw .noInodes
    | some e => do
      set (s.setEntry e { s.itable e with inum := inum, ref := 1, valid := false })
      pure e

/-- The loop of `ialloc`: the first inode that is free. -/
def freeInode (sb : Superblock) (d : Disk) : Option ℕ :=
  (List.range sb.ninodes.toNat).find? fun i => 1 ≤ i && (dinodeAt sb d i).type == 0

/-- `ialloc`. It returns nothing if there is no free inode. -/
def ialloc (sb : Superblock) (type : UInt16) : FsM (Option EntryId) := do
  let s ← get
  match freeInode sb s.disk with
  | none => pure none
  | some inum => do
    logWrite (iblock sb inum)
      (setDinode (s.disk (iblock sb inum)) (inum % IPB) { Dinode.zero with type := type })
    some <$> iget inum

/-- `idup`. -/
def idup (e : EntryId) : FsM Unit :=
  modify fun s => s.setEntry e { s.itable e with ref := (s.itable e).ref + 1 }

/-- `ilock`, where the lock is free. -/
def ilock (sb : Superblock) (e : EntryId) : FsM Unit := do
  let s ← get
  let ip := s.itable e
  if ip.ref < 1 then throw .ilock
  else if ip.valid then set { s with locked := update s.locked e true }
  else if (dinodeAt sb s.disk ip.inum).type = 0 then throw .noType
  else set { s.setEntry e { ip with dino := dinodeAt sb s.disk ip.inum, valid := true } with
    locked := update s.locked e true }

/-- `iunlock`. -/
def iunlock (e : EntryId) : FsM Unit := do
  let s ← get
  if s.locked e = false ∨ (s.itable e).ref < 1 then throw .iunlock
  else set { s with locked := update s.locked e false }

/-! ## The contents of an inode -/

/-- The inode with another address `k`. -/
def setAddr (x : Dinode) (k : Fin (NDIRECT + 1)) (a : BlockNo) : Dinode :=
  { x with addrs := update x.addrs k a }

/-- The address `k` of an inode, which is allocated if there is none. It returns 0 if there is no
free block. -/
def addrFor (sb : Superblock) (e : EntryId) (k : Fin (NDIRECT + 1)) : FsM BlockNo := do
  let s ← get
  if (s.itable e).dino.addrs k = 0 then do
    let addr ← balloc sb
    if addr = 0 then pure 0
    else do
      modify fun s => s.setDino e (setAddr (s.itable e).dino k addr)
      pure addr
  else pure ((s.itable e).dino.addrs k)

/-- The address `j` in the indirect block `r`, which is allocated if there is none. -/
def indirectFor (sb : Superblock) (r : BlockNo) (j : ℕ) : FsM BlockNo := do
  let s ← get
  if wordAt (s.disk r) j = 0 then do
    let addr ← balloc sb
    if addr = 0 then pure 0
    else do
      let s ← get
      logWrite r (setWord (s.disk r) j addr)
      pure addr
  else pure (wordAt (s.disk r) j)

/-- `bmap`. -/
def bmap (sb : Superblock) (e : EntryId) (bn : ℕ) : FsM BlockNo :=
  if bn < NDIRECT then addrFor sb e (Fin.ofNat NDIRECT bn).castSucc
  else if bn - NDIRECT < NINDIRECT then do
    let addr ← addrFor sb e (Fin.last NDIRECT)
    if addr = 0 then pure 0 else indirectFor sb addr (bn - NDIRECT)
  else throw .outOfRange

/-- A round of the first loop of `itrunc`. -/
def truncDirect (sb : Superblock) (e : EntryId) (k : ℕ) : FsM Unit := do
  let s ← get
  let l := (Fin.ofNat NDIRECT k).castSucc
  if (s.itable e).dino.addrs l = 0 then pure ()
  else do
    bfree sb ((s.itable e).dino.addrs l)
    modify fun s => s.setDino e (setAddr (s.itable e).dino l 0)

/-- The second half of `itrunc`: the indirect block, and the blocks that it names. The buffer of the
indirect block is held in the loop. -/
def truncIndirect (sb : Superblock) (e : EntryId) : FsM Unit := do
  let s ← get
  let r := (s.itable e).dino.addrs (Fin.last NDIRECT)
  if r = 0 then pure ()
  else do
    upto NINDIRECT fun j =>
      if wordAt (s.disk r) j = 0 then pure () else bfree sb (wordAt (s.disk r) j)
    bfree sb r
    modify fun s => s.setDino e (setAddr (s.itable e).dino (Fin.last NDIRECT) 0)

/-- `itrunc`. -/
def itrunc (sb : Superblock) (e : EntryId) : FsM Unit := do
  upto NDIRECT (truncDirect sb e)
  truncIndirect sb e
  modify fun s => s.setDino e { (s.itable e).dino with size := 0 }
  iupdate sb e

/-- The part of `iput` between the two critical sections of the table. -/
def ifree (sb : Superblock) (e : EntryId) : FsM Unit := do
  itrunc sb e
  modify fun s => s.setDino e { (s.itable e).dino with type := 0 }
  iupdate sb e
  modify fun s => s.setEntry e { s.itable e with valid := false }

/-- `ip->ref--`. -/
def dropRef (e : EntryId) : FsM Unit :=
  modify fun s => s.setEntry e { s.itable e with ref := (s.itable e).ref - 1 }

/-- `iput`. -/
def iput (sb : Superblock) (e : EntryId) : FsM Unit := do
  let s ← get
  let ip := s.itable e
  if ip.ref = 1 ∧ ip.valid = true ∧ ip.dino.nlink = 0 then do
    ifree sb e
    dropRef e
  else dropRef e

/-! ## `readi` and `writei` -/

/-- The bytes of a block from `off` on. -/
def bytesAt (b : Block) (off m : ℕ) : List UInt8 := (List.range m).map fun i => byteAt b (off + i)

/-- The number of bytes that a round moves. -/
def roundSize (tot off n : ℕ) : ℕ := min (n - tot) (BSIZE - off % BSIZE)

/-- The loop of `readi`, with the bytes that it has copied, or nothing where `either_copyout` fails.
Each round copies a byte at least. -/
def readLoop (sb : Superblock) (e : EntryId) (dst : ℕ → ℕ → Bool) :
    ℕ → ℕ → ℕ → ℕ → FsM (Option (List UInt8))
  | 0, _, _, _ => pure (some [])
  | fuel + 1, tot, off, n =>
    if tot < n then do
      let addr ← bmap sb e (off / BSIZE)
      if addr = 0 then pure (some [])
      else do
        let s ← get
        let m := roundSize tot off n
        if dst tot m then do
          let rest ← readLoop sb e dst fuel (tot + m) (off + m) n
          pure (rest.map (bytesAt (s.disk addr) (off % BSIZE) m ++ ·))
        else pure none
    else pure (some [])

/-- `readi`, where `dst tot m` says whether the copy of `m` bytes after the first `tot` succeeds. -/
def readi (sb : Superblock) (e : EntryId) (dst : ℕ → ℕ → Bool) (off n : UInt32) :
    FsM (Option (List UInt8)) := do
  let s ← get
  let size := (s.itable e).dino.size
  if size < off ∨ off + n < off then pure (some [])
  else
    let n := if size < off + n then size - off else n
    readLoop sb e dst n.toNat 0 off.toNat n.toNat

/-- What `either_copyin` does: it copies all the bytes, or it fails after some of them. -/
inductive Copied
  | all (l : List UInt8)
  | failed (l : List UInt8)

/-- A round of `writei`, with the number of bytes that it has written, or nothing where the loop
ends. -/
def writeRound (sb : Superblock) (e : EntryId) (src : ℕ → ℕ → Copied) (tot off n : ℕ) :
    FsM (Option ℕ) := do
  let addr ← bmap sb e (off / BSIZE)
  if addr = 0 then pure none
  else do
    let s ← get
    let m := roundSize tot off n
    match src tot m with
    | .failed l => do
      -- The bytes are in the buffer, which is released without `log_write`.
      set { s with
        disk := update s.disk addr (putBytes (s.disk addr) (off % BSIZE) (l.take m)) }
      pure none
    | .all l => do
      logWrite addr (putBytes (s.disk addr) (off % BSIZE) (l.take m))
      pure (some m)

/-- The loop of `writei`, with `tot` and `off` at its end. -/
def writeLoop (sb : Superblock) (e : EntryId) (src : ℕ → ℕ → Copied) :
    ℕ → ℕ → ℕ → ℕ → FsM (ℕ × ℕ)
  | 0, tot, off, _ => pure (tot, off)
  | fuel + 1, tot, off, n =>
    if tot < n then do
      match ← writeRound sb e src tot off n with
      | none => pure (tot, off)
      | some m => writeLoop sb e src fuel (tot + m) (off + m) n
    else pure (tot, off)

/-- `writei`, with the number of bytes written, or nothing where it returns -1. -/
def writei (sb : Superblock) (e : EntryId) (src : ℕ → ℕ → Copied) (off n : UInt32) :
    FsM (Option ℕ) := do
  let s ← get
  if (s.itable e).dino.size < off ∨ off + n < off then pure none
  else if MAXFILE * BSIZE < (off + n).toNat then pure none
  else do
    let (tot, off) ← writeLoop sb e src n.toNat 0 off.toNat n.toNat
    modify fun s =>
      if (s.itable e).dino.size.toNat < off then
        s.setDino e { (s.itable e).dino with size := UInt32.ofNat off }
      else s
    iupdate sb e
    pure (some tot)

/-! ## Directories -/

/-- A name as `strncmp` compares it. -/
def cname (l : List UInt8) : List UInt8 := (l.take DIRSIZ).takeWhile (· ≠ 0)

/-- A copy inside the kernel does not fail. -/
def kernelDst : ℕ → ℕ → Bool := fun _ _ => true

/-- The bytes `l`, copied inside the kernel. -/
def kernelSrc (l : List UInt8) : ℕ → ℕ → Copied := fun tot m => .all ((l.drop tot).take m)

/-- `de.inum` of the bytes of an entry. -/
def bytesInum (l : List UInt8) : ℕ := (l.getD 0 0).toNat + 256 * (l.getD 1 0).toNat

/-- The entry at `off` of a directory, or the panic `p` where it cannot be read. -/
def readEntry (sb : Superblock) (e : EntryId) (p : Panic) (off : ℕ) : FsM (List UInt8) := do
  match ← readi sb e kernelDst (UInt32.ofNat off) (UInt32.ofNat DIRENTSIZE) with
  | none => throw p
  | some l => if l.length = DIRENTSIZE then pure l else throw p

/-- The offsets of the entries of a directory. -/
def entryOffs (size : ℕ) : List ℕ :=
  (List.range ((size + DIRENTSIZE - 1) / DIRENTSIZE)).map (DIRENTSIZE * ·)

/-- The body of the loop of `dirlookup`. -/
def lookupEntry (sb : Superblock) (e : EntryId) (name : List UInt8) (off : ℕ) :
    FsM (Option (EntryId × ℕ)) := do
  let l ← readEntry sb e .dirlookupRead off
  if bytesInum l = 0 then pure none
  else if cname name = cname (l.drop 2) then do
    let ip ← iget (bytesInum l)
    pure (some (ip, off))
  else pure none

/-- `dirlookup`, with the entry of the inode table and `*poff`. -/
def dirlookup (sb : Superblock) (e : EntryId) (name : List UInt8) :
    FsM (Option (EntryId × ℕ)) := do
  let s ← get
  if (s.itable e).dino.type ≠ T_DIR then throw .notDir
  else firstM (lookupEntry sb e name) (entryOffs (s.itable e).dino.size.toNat)

/-- The body of the loop of `dirlink` that looks for an empty entry. -/
def emptyEntry (sb : Superblock) (e : EntryId) (off : ℕ) : FsM (Option ℕ) := do
  let l ← readEntry sb e .dirlinkRead off
  pure (if bytesInum l = 0 then some off else none)

/-- The second half of `dirlink`, with the result of the loop. -/
def putEntry (sb : Superblock) (e : EntryId) (name : List UInt8) (inum : ℕ) (off : ℕ) :
    FsM Bool := do
  let r ← writei sb e (kernelSrc (dirent (UInt16.ofNat inum) name)) (UInt32.ofNat off)
    (UInt32.ofNat DIRENTSIZE)
  pure (r == some DIRENTSIZE)

/-- `dirlink`: whether it returns 0. -/
def dirlink (sb : Superblock) (e : EntryId) (name : List UInt8) (inum : ℕ) : FsM Bool := do
  match ← dirlookup sb e name with
  | some (ip, _) => do
    iput sb ip
    pure false
  | none => do
    let s ← get
    let size := (s.itable e).dino.size.toNat
    let off ← firstM (emptyEntry sb e) (entryOffs size)
    -- Without an empty entry the loop ends with the first offset behind the end.
    putEntry sb e name inum (off.getD (DIRENTSIZE * ((size + DIRENTSIZE - 1) / DIRENTSIZE)))

/-- `sys_unlink` clears an entry of a directory. -/
def clearEntry (sb : Superblock) (e : EntryId) (off : ℕ) : FsM Bool :=
  putEntry sb e [] 0 off

/-! ## `ireclaim` -/

/-- The body of the loop of `ireclaim`. -/
def reclaim (sb : Superblock) (inum : ℕ) : FsM Unit := do
  let s ← get
  let dip := dinodeAt sb s.disk inum
  if dip.type ≠ 0 ∧ dip.nlink = 0 then do
    let ip ← iget inum
    beginOp
    ilock sb ip
    iunlock ip
    iput sb ip
    endOp
  else pure ()

/-- `ireclaim`. -/
def ireclaim (sb : Superblock) : FsM Unit :=
  upto sb.ninodes.toNat fun inum => if inum = 0 then pure () else reclaim sb inum

end SustainableXv6.Inode
