import SustainableXv6.Lib.Transition
import SustainableXv6.Log.Disk

/-!
# The log as a step function

File system operations call `begin_op`, `log_write`, and `end_op` of `kernel/log.c` in any
interleaving, the last one to end commits, and the machine may crash at any point, after which
`recover_from_log` runs. The bodies of `begin_op`, `log_write`, and `end_op` run under `log.lock`,
so each of them is one step. `commit` and `recover_from_log` run without it, and a step of theirs
makes one write to the disk.

A buffer of the cache holds what `bread` returns for its block. A block that is read may be cached
(`fetch`), and the buffer of a block that nobody has pinned may be recycled (`evict`); a write to
the disk is made from a buffer (`bwrite`). The number of buffers is left out: the `panic` of `bget`
ends a run as a crash does.

The fields `wrote`, `committed`, and `pending` are history: no step reads them.
-/

namespace SustainableXv6

open Function

/-! ## States -/

/-- Where `commit` is. -/
inductive CommitPc
  /-- At the test of `log.lh.n`. -/
  | start
  /-- `write_log`, at the block `tail`. -/
  | writeLog (tail : ℕ)
  /-- At the first `write_head`. -/
  | writeHead
  /-- `install_trans(0)`, at the block `tail`. -/
  | install (tail : ℕ)
  /-- At `log.lh.n = 0` and the second `write_head`. -/
  | clear
  /-- Back in `end_op`. -/
  | done
  deriving DecidableEq, Repr

/-- Where `recover_from_log` is. -/
inductive RecoverPc
  /-- At `read_head`. -/
  | readHead
  /-- `install_trans(1)`, at the block `tail`. -/
  | install (tail : ℕ)
  /-- At `log.lh.n = 0` and `write_head`. -/
  | clear
  deriving DecidableEq, Repr

/-- The messages of the calls of `panic` in `kernel/log.c`. -/
inductive LogPanic
  /-- "too big a transaction". -/
  | tooBig
  /-- "log_write outside of trans". -/
  | outsideOfTrans
  /-- "log.committing". -/
  | committing
  deriving DecidableEq, Repr

/-- What the log is doing. -/
inductive LogMode
  /-- No process is in `commit`. -/
  | idle
  /-- A process is in `commit`. -/
  | commit (c : CommitPc)
  /-- The system has booted, and the first process is in `recover_from_log`. -/
  | recover (r : RecoverPc)
  /-- The system has stopped in `panic`. -/
  | panicked (m : LogPanic)
  deriving DecidableEq, Repr

/-- The calls of `log_write` of a transaction, in order, each with the new contents of the block. -/
abbrev Tx : Type := List (BlockNo × Block)

/-- The disk after the writes of a transaction. -/
def Tx.apply (d : Disk) (tx : Tx) : Disk := tx.foldl (fun d w => update d w.1 w.2) d

/-- The disk after a sequence of transactions. -/
def applyAll (d : Disk) (txs : List Tx) : Disk := txs.foldl Tx.apply d

/-- The state of the log, of the buffer cache, and of the disk. The operations are named by `O`. -/
structure LogState (O : Type) where
  disk : Disk
  /-- The buffers that hold a block. -/
  cache : BlockNo → Option Block
  /-- The references to a buffer that `bpin` has taken and `bunpin` has not given back. -/
  pins : BlockNo → ℕ
  /-- `log.lh.block[0..n)`, so that `log.lh.n` is its length. -/
  lh : List BlockNo
  outstanding : ℤ
  committing : Bool
  mode : LogMode
  /-- The operations between `begin_op` and `end_op`. -/
  inside : Finset O
  /-- The blocks that an operation has passed to `log_write` since its `begin_op`. -/
  wrote : O → Finset BlockNo
  /-- The transactions whose header has been written to the disk. -/
  committed : List Tx
  /-- The calls of `log_write` since the last one of these. -/
  pending : Tx

variable {O : Type}

/-- The system boots from a disk: `initlog` calls `recover_from_log`. -/
def LogState.boot (d : Disk) : LogState O where
  disk := d
  cache := fun _ => none
  pins := fun _ => 0
  lh := []
  outstanding := 0
  committing := false
  mode := .recover .readHead
  inside := ∅
  wrote := fun _ => ∅
  committed := []
  pending := []

namespace LogState

/-- The contents of the block `b` that `bread` returns. -/
def bread (s : LogState O) (b : BlockNo) : Block := (s.cache b).getD (s.disk b)

/-- The buffer of the block `b` gets the contents `v`, and `bwrite` writes it to the disk. -/
@[simps -fullyApplied]
def bwrite (s : LogState O) (b : BlockNo) (v : Block) : LogState O :=
  { s with disk := update s.disk b v, cache := update s.cache b (some v) }

/-- The log goes on to another place. -/
@[simps -fullyApplied]
def setMode (s : LogState O) (m : LogMode) : LogState O := { s with mode := m }

/-- The file system can be used: the system neither recovers nor has it stopped. -/
def up (s : LogState O) : Bool :=
  match s.mode with
  | .idle | .commit _ => true
  | .recover _ | .panicked _ => false

end LogState

/-! ## Actions -/

/-- The actions of the system. -/
inductive LogAct (O : Type)
  /-- `begin_op`. -/
  | beginOp (o : O)
  /-- An operation gives the block `b` the contents `v` and calls `log_write`. -/
  | logWrite (o : O) (b : BlockNo) (v : Block)
  /-- `end_op`, up to the call of `commit`. -/
  | endOp (o : O)
  /-- The next step of `commit`. -/
  | commit
  /-- The next step of `recover_from_log`. -/
  | recover
  /-- A block is read into the cache. -/
  | fetch (b : BlockNo)
  /-- A buffer is recycled. -/
  | evict (b : BlockNo)
  /-- The machine loses its memory and boots again. -/
  | crash

/-- The index `i` at which the loop of `log_write` ends. -/
def absorbIndex (lh : List BlockNo) (b : BlockNo) : ℕ := lh.findIdx (· == b)

section Step

variable [DecidableEq O]

/-- `log_write(b)` of an operation that has given the block `b` the contents `v`. -/
def execLogWrite (s : LogState O) (o : O) (b : BlockNo) (v : Block) : LogState O :=
  if LOGBLOCKS ≤ s.lh.length then s.setMode (.panicked .tooBig)
  else if s.outstanding < 1 then s.setMode (.panicked .outsideOfTrans)
  else
    let s := { s with
      cache := update s.cache b (some v)
      wrote := update s.wrote o (insert b (s.wrote o))
      pending := s.pending ++ [(b, v)] }
    if absorbIndex s.lh b = s.lh.length then
      { s with lh := s.lh ++ [b], pins := update s.pins b (s.pins b + 1) }
    else { s with lh := s.lh.set (absorbIndex s.lh b) b }

/-- `end_op`, up to the call of `commit`. -/
def execEndOp (s : LogState O) (o : O) : LogState O :=
  let s := { s with outstanding := s.outstanding - 1, inside := s.inside.erase o }
  if s.committing then s.setMode (.panicked .committing)
  else if s.outstanding = 0 then { s with committing := true, mode := .commit .start }
  else s

/-- A step of `commit`, and the rest of `end_op` after it. -/
def execCommit (start : BlockNo) (s : LogState O) : CommitPc → LogState O
  | .start => s.setMode (.commit (if s.lh = [] then .done else .writeLog 0))
  | .writeLog tail =>
    match s.lh[tail]? with
    | some b => (s.bwrite (logSlot start tail) (s.bread b)).setMode (.commit (.writeLog (tail + 1)))
    | none => s.setMode (.commit .writeHead)
  -- "This is the true point at which the current transaction commits."
  | .writeHead =>
    { (s.bwrite start (writeHeader (s.bread start) s.lh)).setMode (.commit (.install 0)) with
      committed := s.committed ++ [s.pending]
      pending := [] }
  | .install tail =>
    match s.lh[tail]? with
    | some b =>
      { (s.bwrite b (s.bread (logSlot start tail))).setMode (.commit (.install (tail + 1))) with
        pins := update s.pins b (s.pins b - 1) }
    | none => s.setMode (.commit .clear)
  | .clear =>
    { (s.bwrite start (writeHeader (s.bread start) [])).setMode (.commit .done) with lh := [] }
  | .done => { s with committing := false, mode := .idle }

/-- A step of `recover_from_log`. -/
def execRecover (start : BlockNo) (s : LogState O) : RecoverPc → LogState O
  | .readHead => { s with lh := readHeader (s.bread start), mode := .recover (.install 0) }
  | .install tail =>
    match s.lh[tail]? with
    | some b =>
      (s.bwrite b (s.bread (logSlot start tail))).setMode (.recover (.install (tail + 1)))
    | none => s.setMode (.recover .clear)
  | .clear => { (s.bwrite start (writeHeader (s.bread start) [])).setMode .idle with lh := [] }

/-- The state after an action, or `none` where it is not enabled. -/
def logStep (start : BlockNo) (s : LogState O) : LogAct O → Option (LogState O)
  -- `begin_op` sleeps while a commit runs, and while there may not be room for the operation.
  | .beginOp o =>
    if s.up ∧ o ∉ s.inside ∧ ¬ s.committing ∧
        (s.lh.length : ℤ) + (s.outstanding + 1) * MAXOPBLOCKS ≤ LOGBLOCKS then
      some { s with
        outstanding := s.outstanding + 1
        inside := insert o s.inside
        wrote := update s.wrote o ∅ }
    else none
  | .logWrite o b v => if s.up ∧ o ∈ s.inside then some (execLogWrite s o b v) else none
  | .endOp o => if s.up ∧ o ∈ s.inside then some (execEndOp s o) else none
  | .commit =>
    match s.mode with
    | .commit c => some (execCommit start s c)
    | .idle | .recover _ | .panicked _ => none
  | .recover =>
    match s.mode with
    | .recover r => some (execRecover start s r)
    | .idle | .commit _ | .panicked _ => none
  | .fetch b =>
    if s.cache b = none then some { s with cache := update s.cache b (some (s.disk b)) }
    else none
  | .evict b =>
    if s.pins b = 0 then some { s with cache := update s.cache b none } else none
  | .crash => some { LogState.boot s.disk with committed := s.committed }

end Step

end SustainableXv6
