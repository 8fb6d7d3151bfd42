import SustainableXv6.Lib.Transition
import SustainableXv6.Log.Disk

/-!
# The buffer cache under the log

`kernel/bio.c` keeps `NBUF` buffers in a list by how recently they were used. Processes `P` call
`bread` for blocks of the root device, modify a buffer while they hold its sleep lock, and hand it
to `log_write` of `kernel/log.c` (or to `bwrite`) before `brelse`. The process whose `end_op` is the
last one executes `commit`, which reads and writes buffers in the same way.

Whatever runs under `bcache.lock` or `log.lock` is one step, and `bread` is two: `bget` up to
`acquiresleep`, and the return of `acquiresleep` with the read of a buffer that is not valid. So
other processes come in between any two buffer locks, also in `write_log` and `install_trans`, which
hold two buffers at a time.

The fields `current`, `written`, `dirty`, and `asked` are history: no step reads them.
-/

namespace SustainableXv6.Bio

open Function

/-! ## Buffers -/

/-- The number of buffers. -/
def NBUF : ℕ := MAXOPBLOCKS * 3

instance : NeZero NBUF := ⟨by decide⟩

/-- The device number of the root disk. -/
def ROOTDEV : UInt32 := 1

/-- The index of a buffer in `bcache.buf`. -/
abbrev BufId : Type := Fin NBUF

/-- `struct buf`. -/
structure Buf (P : Type) where
  valid : Bool
  dev : UInt32
  blockno : BlockNo
  /-- The process that holds `b->lock`. -/
  holder : Option P
  refcnt : ℕ
  data : Block

/-- A buffer before its first use. -/
def Buf.zero {P : Type} : Buf P :=
  { valid := false, dev := 0, blockno := 0, holder := none, refcnt := 0, data := fun _ => 0 }

/-- Whether the buffer is for the block `b` of the root device. -/
def Buf.isFor {P : Type} (x : Buf P) (b : BlockNo) : Bool := x.dev = ROOTDEV && x.blockno = b

/-! ## States -/

/-- Where a loop that copies one block to another is, in `write_log` and in `install_trans`. The
first `bread` is of the log block, and its buffer is `x`. -/
inductive CopyPc
  /-- At the first `bread`. -/
  | getLog
  /-- In `acquiresleep` of it. -/
  | lockLog (x : BufId)
  /-- At the second `bread`. -/
  | getHome (x : BufId)
  /-- In `acquiresleep` of it. -/
  | lockHome (x y : BufId)
  /-- At `memmove` and `bwrite`. -/
  | copy (x y : BufId)
  /-- At the first `brelse`. -/
  | relse (x y : BufId)
  /-- At the second `brelse`. -/
  | relseLast (x : BufId)
  deriving DecidableEq, Repr

/-- Where `write_head` is. -/
inductive HeadPc
  /-- At `bread`. -/
  | get
  /-- In `acquiresleep`. -/
  | lock (x : BufId)
  /-- At the stores to the header and `bwrite`. -/
  | write (x : BufId)
  /-- At `brelse`. -/
  | relse (x : BufId)
  deriving DecidableEq, Repr

/-- Where `commit` is. -/
inductive CommitPc
  /-- `write_log`, at the block `tail`. -/
  | writeLog (tail : ℕ) (c : CopyPc)
  /-- The first `write_head`. -/
  | writeHead (h : HeadPc)
  /-- `install_trans(0)`, at the block `tail`. -/
  | install (tail : ℕ) (c : CopyPc)
  /-- The second `write_head`, after `log.lh.n = 0`. -/
  | clear (h : HeadPc)
  /-- Back in `end_op`. -/
  | done
  deriving DecidableEq, Repr

/-- The calls of `panic`. -/
inductive Panic
  /-- "bget: no buffers". -/
  | noBuffers
  /-- "too big a transaction". -/
  | tooBig
  /-- "log_write outside of trans". -/
  | outsideOfTrans
  deriving DecidableEq, Repr

/-- The state of the cache, the log, and the disk. -/
structure State (P : Type) where
  disk : Disk
  buf : BufId → Buf P
  /-- The list of the buffers from `bcache.head.next` on, the most recently used one first. -/
  lru : List BufId
  /-- The processes in `acquiresleep` of a buffer, after `bget` has counted them. -/
  waits : BufId → Finset P
  /-- `log.lh.block[0..n)`. -/
  lh : List BlockNo
  /-- The processes between `begin_op` and `end_op`, whose number is `log.outstanding`. -/
  inside : Finset P
  /-- The process in `commit`, and where it is. `log.committing` says whether there is one. -/
  commit : Option (P × CommitPc)
  panicked : Option Panic
  /-- The contents of the blocks with the modifications made so far. -/
  current : Disk
  /-- The contents of the blocks that completed sections have written. -/
  written : Disk
  /-- Whether the process that holds the buffer has modified it. -/
  dirty : BufId → Bool
  /-- The block of the last `bread` of a process. -/
  asked : P → BlockNo

variable {P : Type}

/-- The state after `binit` and `initlog` with a disk whose log is empty. -/
def State.start (d : Disk) : State P where
  disk := d
  buf := fun _ => .zero
  -- `binit` puts each buffer before those that are in the list.
  lru := (List.finRange NBUF).reverse
  waits := fun _ => ∅
  lh := []
  inside := ∅
  commit := none
  panicked := none
  current := d
  written := d
  dirty := fun _ => false
  asked := fun _ => 0

/-! ## Operations on buffers -/

namespace State

/-- The first loop of `bget`: the buffer that has the block `b`. -/
def cached (s : State P) (b : BlockNo) : Option BufId := s.lru.find? fun i => (s.buf i).isFor b

/-- The second loop of `bget`: the least recently used buffer that is not in use. -/
def unused (s : State P) : Option BufId := s.lru.reverse.find? fun i => (s.buf i).refcnt = 0

/-- A buffer is changed. -/
@[simps -fullyApplied]
def setBuf (s : State P) (i : BufId) (x : Buf P) : State P :=
  { s with buf := update s.buf i x }

/-- The system stops. -/
@[simps -fullyApplied]
def panic (s : State P) (m : Panic) : State P := { s with panicked := some m }

variable [DecidableEq P]

/-- The process `p` goes to sleep in `acquiresleep` of the buffer `i`, for the block `b`. -/
@[simps -fullyApplied]
def wait (s : State P) (p : P) (i : BufId) (b : BlockNo) : State P :=
  { s with
    waits := update s.waits i (insert p (s.waits i))
    asked := update s.asked p b }

/-- `bget(ROOTDEV, b)` of the process `p`, up to `acquiresleep`. -/
def bget (s : State P) (p : P) (b : BlockNo) : Option (BufId × State P) :=
  match s.cached b with
  | some i => some (i, (s.setBuf i { s.buf i with refcnt := (s.buf i).refcnt + 1 }).wait p i b)
  | none =>
    match s.unused with
    | some i =>
      let x := { s.buf i with dev := ROOTDEV, blockno := b, valid := false, refcnt := 1 }
      some (i, (s.setBuf i x).wait p i b)
    | none => none

/-- The rest of `bread`: `acquiresleep` returns, and a buffer that is not valid is read. -/
def lock (s : State P) (p : P) (i : BufId) : State P :=
  let x := s.buf i
  { s with
    buf := update s.buf i { x with
      holder := some p, valid := true, data := if x.valid then x.data else s.disk x.blockno }
    waits := update s.waits i ((s.waits i).erase p)
    dirty := update s.dirty i false }

/-- The process that holds the buffer `i` gives it the contents `v`. -/
def modify (s : State P) (i : BufId) (v : Block) : State P :=
  { s with
    buf := update s.buf i { s.buf i with data := v }
    current := update s.current (s.buf i).blockno v
    dirty := update s.dirty i true }

/-- `bwrite`. -/
def bwrite (s : State P) (i : BufId) : State P :=
  { s with disk := update s.disk (s.buf i).blockno (s.buf i).data }

/-- `brelse`. -/
def brelse (s : State P) (i : BufId) : State P :=
  let x := s.buf i
  { s with
    buf := update s.buf i { x with holder := none, refcnt := x.refcnt - 1 }
    lru := if x.refcnt - 1 = 0 then i :: s.lru.erase i else s.lru
    written := if s.dirty i then update s.written x.blockno x.data else s.written
    dirty := update s.dirty i false }

/-- `log_write`, of a buffer that has been modified. -/
def logWrite (s : State P) (i : BufId) : State P :=
  if LOGBLOCKS ≤ s.lh.length then s.panic .tooBig
  else if s.inside = ∅ then s.panic .outsideOfTrans
  else if s.lh.contains (s.buf i).blockno then s
  else { s.setBuf i { s.buf i with refcnt := (s.buf i).refcnt + 1 } with
    lh := s.lh ++ [(s.buf i).blockno] }

end State

/-! ## `commit` -/

section Commit

variable [DecidableEq P]

/-- The process `p` goes on to another place of `commit`. -/
@[simps -fullyApplied]
def State.goto (s : State P) (p : P) (c : CommitPc) : State P := { s with commit := some (p, c) }

/-- A step of a copying loop at the log block `slot` and the home block `home`. `copy` is what it
does with the two buffers, `logFirst` tells whether the buffer of the log block is released first,
and `place` and `next` are the places of the loop and of its next round. -/
def execCopy (s : State P) (p : P) (slot home : BlockNo) (copy : State P → BufId → BufId → State P)
    (logFirst : Bool) (place : CopyPc → CommitPc) (next : CommitPc) : CopyPc → Option (State P)
  | .getLog =>
    match s.bget p slot with
    | some (x, s') => some (s'.goto p (place (.lockLog x)))
    | none => some (s.panic .noBuffers)
  | .lockLog x =>
    if (s.buf x).holder = none then some ((s.lock p x).goto p (place (.getHome x))) else none
  | .getHome x =>
    match s.bget p home with
    | some (y, s') => some (s'.goto p (place (.lockHome x y)))
    | none => some (s.panic .noBuffers)
  | .lockHome x y =>
    if (s.buf y).holder = none then some ((s.lock p y).goto p (place (.copy x y))) else none
  | .copy x y => some ((copy s x y).goto p (place (.relse x y)))
  | .relse x y =>
    if logFirst then some ((s.brelse x).goto p (place (.relseLast y)))
    else some ((s.brelse y).goto p (place (.relseLast x)))
  | .relseLast z => some ((s.brelse z).goto p next)

/-- A step of `write_head`, which ends at the place `next`. -/
def execHead (s : State P) (p : P) (start : BlockNo) (place : HeadPc → CommitPc)
    (next : CommitPc) : HeadPc → Option (State P)
  | .get =>
    match s.bget p start with
    | some (x, s') => some (s'.goto p (place (.lock x)))
    | none => some (s.panic .noBuffers)
  | .lock x =>
    if (s.buf x).holder = none then some ((s.lock p x).goto p (place (.write x))) else none
  | .write x =>
    some (((s.modify x (writeHeader (s.buf x).data s.lh)).bwrite x).goto p (place (.relse x)))
  | .relse x => some ((s.brelse x).goto p next)

/-- `memmove(to->data, from->data, BSIZE)` and `bwrite(to)` of `write_log`. -/
def copyToLog (s : State P) (x y : BufId) : State P := (s.modify x (s.buf y).data).bwrite x

/-- `memmove(dbuf->data, lbuf->data, BSIZE)`, `bwrite(dbuf)`, and `bunpin(dbuf)` of
`install_trans`. The block gets contents that it has been given before: this is no modification. -/
def copyHome (s : State P) (x y : BufId) : State P :=
  let s := (s.setBuf y { s.buf y with data := (s.buf x).data }).bwrite y
  s.setBuf y { s.buf y with refcnt := (s.buf y).refcnt - 1 }

/-- A step of `commit` of the process `p`, and the rest of `end_op` after it. -/
def execCommit (start : BlockNo) (s : State P) (p : P) : CommitPc → Option (State P)
  | .writeLog tail c =>
    match s.lh[tail]? with
    | some b =>
      execCopy s p (logSlot start tail) b copyToLog false (.writeLog tail)
        (.writeLog (tail + 1) .getLog) c
    | none => some (s.goto p (.writeHead .get))
  | .writeHead h => execHead s p start .writeHead (.install 0 .getLog) h
  | .install tail c =>
    match s.lh[tail]? with
    | some b =>
      execCopy s p (logSlot start tail) b copyHome true (.install tail)
        (.install (tail + 1) .getLog) c
    | none => some ({ s with lh := [] }.goto p (.clear .get))
  | .clear h => execHead s p start .clear .done h
  | .done => some { s with commit := none }

end Commit

/-! ## Steps -/

/-- The actions of the processes. -/
inductive Act (P : Type)
  /-- `begin_op`. -/
  | beginOp (p : P)
  /-- `end_op`, up to the call of `commit`. -/
  | endOp (p : P)
  /-- `bread`, up to `acquiresleep`. -/
  | bget (p : P) (b : BlockNo)
  /-- `bread` returns. -/
  | lock (p : P) (i : BufId)
  /-- A buffer gets new contents, and is handed to `log_write`. -/
  | logWrite (p : P) (i : BufId) (v : Block)
  /-- A buffer gets new contents, and is handed to `bwrite`. -/
  | bwrite (p : P) (i : BufId) (v : Block)
  /-- `brelse`. -/
  | brelse (p : P) (i : BufId)
  /-- The next step of `commit`. -/
  | commit

/-- The process `p` can act: it sleeps for no buffer, and it is not in `commit`. -/
def State.ready [DecidableEq P] (s : State P) (p : P) : Bool :=
  (∀ j, p ∉ s.waits j) && !s.commit.any (·.1 = p)

/-- The state after an action, or `none` where it is not enabled. -/
def step [DecidableEq P] (start : BlockNo) (s : State P) (a : Act P) : Option (State P) :=
  if s.panicked ≠ none then none
  else
    match a with
    -- `begin_op` sleeps while a commit runs, and while there may not be room for the operation.
    | .beginOp p =>
      if s.ready p ∧ p ∉ s.inside ∧ s.commit = none ∧
          s.lh.length + (s.inside.card + 1) * MAXOPBLOCKS ≤ LOGBLOCKS then
        some { s with inside := insert p s.inside }
      else none
    | .endOp p =>
      if s.ready p ∧ p ∈ s.inside then
        let s := { s with inside := s.inside.erase p }
        if s.inside = ∅ then
          some (s.goto p (if s.lh = [] then .done else .writeLog 0 .getLog))
        else some s
      else none
    | .bget p b =>
      if s.ready p then
        match s.bget p b with
        | some (_, s') => some s'
        | none => some (s.panic .noBuffers)
      else none
    | .lock p i =>
      if p ∈ s.waits i ∧ (s.buf i).holder = none ∧ ¬ s.commit.any (·.1 = p) then
        some (s.lock p i)
      else none
    | .logWrite p i v =>
      if s.ready p ∧ (s.buf i).holder = some p then some ((s.modify i v).logWrite i) else none
    | .bwrite p i v =>
      if s.ready p ∧ (s.buf i).holder = some p then some ((s.modify i v).bwrite i) else none
    | .brelse p i =>
      if s.ready p ∧ (s.buf i).holder = some p then some (s.brelse i) else none
    | .commit =>
      match s.commit with
      | some (p, c) => execCommit start s p c
      | none => none

end SustainableXv6.Bio
