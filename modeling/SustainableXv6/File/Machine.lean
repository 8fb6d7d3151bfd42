import SustainableXv6.File.UserMemory
import SustainableXv6.Inode.Reserve
import SustainableXv6.Console.Machine
import SustainableXv6.Pipe.Model

/-!
# `fileread` and `filewrite`

The functions of `kernel/file.c` that `sys_read` and `sys_write` call, with the loops that move the
data: the rounds of `readi`, the `for` loop of `piperead`, and the sections of `consoleread` between
two sleeps. `int n` is passed to `readi` as a `uint`. What a pipe or the console has at each round
is given with the call, since other processes use them too. `consoleread` returns nothing while it
sleeps.
-/

namespace SustainableXv6.File

open Fs Inode Lib

/-! ## Files -/

/-- `f->type`. -/
inductive FdType
  | none
  | pipe
  | inode
  | device
  deriving DecidableEq, Repr

/-- `struct file`, without the count of references and the pipe. -/
structure OpenFile where
  type : FdType
  readable : Bool
  writable : Bool
  ip : EntryId
  off : UInt32
  major : ℤ

/-- `NDEV`. -/
def NDEV : ℤ := 10

/-- The number of the console in `devsw`, which has no other device. -/
def CONSOLE : ℤ := 1

/-- What a call of `fileread` does: the value it returns, the stores to the memory of the process,
and the offset of the file. -/
structure Read where
  /-- Nothing while the call sleeps. -/
  value : Option ℤ
  stores : Stores
  off : UInt32

/-! ## `readi` -/

/-- The loop of `readi`, with the final `tot` or nothing for `-1`, and the stores. -/
def readiLoop (sb : Superblock) (e : EntryId) (pages : ℕ → Bool) (dst : ℕ) :
    ℕ → ℕ → ℕ → ℕ → FsM (Option ℕ × Stores)
  | 0, tot, _, _ => pure (some tot, [])
  | fuel + 1, tot, off, n =>
    if tot < n then do
      let addr ← bmap sb e (off / BSIZE)
      if addr = 0 then pure (some tot, [])
      else do
        let s ← get
        let m := roundSize tot off n
        let (ok, stores) := copyout pages (dst + tot) (bytesAt (s.disk addr) (off % BSIZE) m)
        if ok then do
          let (r, rest) ← readiLoop sb e pages dst fuel (tot + m) (off + m) n
          pure (r, stores ++ rest)
        else pure (none, stores)
    else pure (some tot, [])

/-- `readi` to the memory of the process: `Inode.readi`, with the stores. -/
def readiUser (sb : Superblock) (e : EntryId) (pages : ℕ → Bool) (dst : ℕ) (off n : UInt32) :
    FsM (Option ℕ × Stores) := do
  let s ← get
  let size := (s.itable e).dino.size
  if size < off ∨ off + n < off then pure (some 0, [])
  else
    let n := if size < off + n then size - off else n
    readiLoop sb e pages dst n.toNat 0 off.toNat n.toNat

/-! ## `piperead` -/

/-- The `for` loop of `piperead`, where `pi i` is the pipe at the round `i`. -/
def pipereadLoop (pages : ℕ → Bool) (addr : ℕ) (pi : ℕ → Pipe) (n : ℤ) : ℕ → ℕ → ℤ × Stores
  | 0, i => (i, [])
  | fuel + 1, i =>
    let ok := pages ((addr + i) / PGSIZE)
    let round := pipereadRound (pi i) (if ok then some 0 else none) i n
    match round.pc with
    | .readCopy i' _ =>
      let (r, rest) := pipereadLoop pages addr pi n fuel i'
      (r, storesAt (addr + i) round.delivered ++ rest)
    | .readWake r => (r, [])
    -- A round ends in one of the two places.
    | _ => (0, [])

/-- `piperead`. Its first loop ends with `-1` where the process has been killed. -/
def piperead (pages : ℕ → Bool) (addr : ℕ) (killed : Bool) (pi : ℕ → Pipe) (n : Int32) :
    ℤ × Stores :=
  if killed then (-1, []) else pipereadLoop pages addr pi n.toInt (n.toInt.toNat + 1) 0

/-! ## `consoleread` -/

/-- The sections of `consoleread` between two sleeps, with `n` bytes to read of `target`. Each one
gets what `killed` says and the buffer of the console. -/
def consoleLoop (pages : ℕ → Bool) (addr target : ℕ) :
    List (Bool × Console.Cons) → ℕ → Option ℤ × Stores
  | [], _ => (none, [])
  | (killed, cons) :: rest, n =>
    let t := Console.readLoop killed (fun k => pages ((addr + (target - (k + 1))) / PGSIZE)) target
      n cons
    let stores := storesAt (addr + (target - n)) t.bytes
    match t.leaves with
    | .sleeps =>
      let (r, more) := consoleLoop pages addr target rest t.n
      (r, stores ++ more)
    | .killed => (some (-1), stores)
    | .returns => (some ((target : ℤ) - t.n), stores)

/-- `consoleread`. For a negative `n` the loop is not entered, and the difference of the two `uint`
is 0. -/
def consoleread (pages : ℕ → Bool) (addr : ℕ) (input : List (Bool × Console.Cons)) (n : Int32) :
    Option ℤ × Stores :=
  consoleLoop pages addr n.toInt.toNat input n.toInt.toNat

/-! ## `fileread` -/

/-- What the call meets: which pages of the process `copyout` may store to, the pipe, and the
console. -/
structure Env where
  pages : ℕ → Bool
  pipeKilled : Bool
  pipe : ℕ → Pipe
  console : List (Bool × Console.Cons)

/-- `fileread` of the file `f`, or nothing where it panics. -/
def fileread (sb : Superblock) (env : Env) (f : OpenFile) (addr : ℕ) (n : Int32) :
    FsM (Option Read) :=
  if f.readable = false then pure (some ⟨some (-1), [], f.off⟩)
  else match f.type with
    | .pipe =>
      let (r, stores) := piperead env.pages addr env.pipeKilled env.pipe n
      pure (some ⟨some r, stores, f.off⟩)
    | .device =>
      if f.major < 0 ∨ NDEV ≤ f.major ∨ f.major ≠ CONSOLE then pure (some ⟨some (-1), [], f.off⟩)
      else
        let (r, stores) := consoleread env.pages addr env.console n
        pure (some ⟨r, stores, f.off⟩)
    | .inode => do
      ilock sb f.ip
      let (r, stores) ← readiUser sb f.ip env.pages addr f.off n.toUInt32
      iunlock f.ip
      match r with
      | none => pure (some ⟨some (-1), stores, f.off⟩)
      -- `if((r = readi(..)) > 0) f->off += r`
      | some r => pure (some ⟨some r, stores, f.off + UInt32.ofNat r⟩)
    | .none => pure none

/-! ## `filewrite` -/

/-- The loop of `filewrite` for an inode, with `i` and the offset of the file at its end. Each round
writes a byte at least. -/
def chunkLoop (sb : Superblock) (ip : EntryId) (src : ℕ → ℕ → Copied) :
    ℕ → ℕ → UInt32 → ℕ → FsM (ℕ × UInt32)
  | 0, i, off, _ => pure (i, off)
  | fuel + 1, i, off, n =>
    if i < n then do
      let n1 := min (n - i) MAXCHUNK
      beginOp
      ilock sb ip
      let r ← writei sb ip (fun tot m => src (i + tot) m) off (UInt32.ofNat n1)
      iunlock ip
      endOp
      let off := off + UInt32.ofNat (r.getD 0)
      if r = some n1 then chunkLoop sb ip src fuel (i + n1) off n else pure (i, off)
    else pure (i, off)

/-- `filewrite` of the file `f`, with the value and the offset of the file, or nothing where it
panics. `other` is what `pipewrite` or `consolewrite` returns. -/
def filewrite (sb : Superblock) (f : OpenFile) (src : ℕ → ℕ → Copied) (other : ℤ) (n : Int32) :
    FsM (Option (ℤ × UInt32)) :=
  if f.writable = false then pure (some (-1, f.off))
  else match f.type with
    | .pipe => pure (some (other, f.off))
    | .device =>
      if f.major < 0 ∨ NDEV ≤ f.major ∨ f.major ≠ CONSOLE then pure (some (-1, f.off))
      else pure (some (other, f.off))
    | .inode => do
      let (i, off) ← chunkLoop sb f.ip src n.toInt.toNat 0 f.off n.toInt.toNat
      pure (some (if (i : ℤ) = n.toInt then n.toInt else -1, off))
    | .none => pure none

end SustainableXv6.File
