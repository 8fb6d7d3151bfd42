import SustainableXv6.Lib.Transition
import SustainableXv6.Pipe.Model

/-!
# A pipe is a bounded FIFO

The code between `peterson_acquire` and `peterson_release` is run by one process at a time here
(`owner`), and a process that has slept goes on at `peterson_acquire` at any later time. Any number
of processes run `pipewrite`, `piperead`, and `pipeclose` in any order, and `copyin` and `copyout`
fail at any byte. The bytes that have been stored and delivered are recorded as they are.

The bytes delivered are a prefix of those stored, and the ring holds the rest (`FifoInv`). A round
of a loop keeps this by the rules of the ring (`FifoInv.bodyStep`), also where a counter wraps, and
`pipe_fifo` is the result for every run.
-/

namespace SustainableXv6

open Function Lib

variable {P : Type}

/-- A pipe in use. -/
structure FifoState (P : Type) where
  pipe : Pipe
  pc : P → PipePc
  /-- The process that is between `peterson_acquire` and `peterson_release`. -/
  owner : Option P
  /-- The bytes stored so far. -/
  stored : List UInt8
  /-- The bytes delivered so far. -/
  delivered : List UInt8

/-- The state before the first call on a pipe. -/
def fifoInit (pi : Pipe) : FifoState P where
  pipe := pi
  pc := fun _ => .out 0
  owner := none
  stored := []
  delivered := []

/-- The actions. -/
inductive FifoAct (P : Type)
  /-- A process calls. -/
  | call (p : P) (c : PipeSyscall)
  /-- `peterson_acquire` returns. -/
  | enter (p : P)
  /-- A process takes a step under the lock. -/
  | body (p : P) (killed : Bool) (mem : Option UInt8)
  /-- `peterson_release`. -/
  | leave (p : P)

/-- Where a process goes on after `peterson_release`. -/
def After.resume : After → PipePc
  | .ret result => .out result
  | .sleep _ k => .setFlag k
  | .free => .out 0

/-- The state after an action, or `none` where it is not enabled. -/
def fifoStep [DecidableEq P] (s : FifoState P) : FifoAct P → Option (FifoState P)
  | .call p c =>
    match s.pc p with
    | .out _ => some { s with pc := update s.pc p (.setFlag c.entry) }
    | _ => none
  | .enter p =>
    match s.owner, s.pc p with
    | none, .setFlag k => some { s with pc := update s.pc p k.body, owner := some p }
    | _, _ => none
  | .body p killed mem =>
    if s.owner = some p then
      (bodyStep s.pipe killed mem (s.pc p)).map fun b =>
        { s with
          pipe := b.pipe
          pc := update s.pc p b.pc
          stored := s.stored ++ b.stored
          delivered := s.delivered ++ b.delivered }
    else none
  | .leave p =>
    match s.pc p with
    | .release _ a =>
      if s.owner = some p then
        some { s with pc := update s.pc p a.resume, owner := none }
      else none
    | _ => none

/-! ## The invariant -/

/-- The ring holds the bytes that have been stored and not delivered. -/
def FifoInv (r : Ring UInt8 PIPESIZE 32) (stored delivered : List UInt8) : Prop :=
  ∃ q, stored = delivered ++ q ∧ r.Holds q

/-- A step under the lock keeps the ring and the bytes in step. -/
theorem FifoInv.bodyStep {pi : Pipe} {killed : Bool} {mem : Option UInt8} {c : PipePc}
    {b : BodyStep} {stored delivered : List UInt8} (hI : FifoInv pi.toRing stored delivered)
    (h : bodyStep pi killed mem c = some b) :
    FifoInv b.pipe.toRing (stored ++ b.stored) (delivered ++ b.delivered) := by
  obtain ⟨q, rfl, hq⟩ := hI
  rcases bodyStep_ring h with ⟨hr, hs, hd⟩ | ⟨ch, hfull, hr, hs, hd⟩ | ⟨hne, hr, hs, hd⟩
  · exact ⟨q, by simp [hs, hd], hr ▸ hq⟩
  · -- The queue is not full, so that the byte goes to a free cell.
    have hlt : q.length < PIPESIZE :=
      lt_of_le_of_ne hq.le fun he => hfull ((hq.full_iff PIPESIZE_lt).mpr he)
    exact ⟨q ++ [ch], by simp [hs, hd], hr ▸ hq.push PIPESIZE_dvd hlt ch⟩
  · -- The queue is not empty, so that the byte delivered is its first.
    cases q with
    | nil => exact absurd ((hq.nread_eq_nwrite_iff PIPESIZE_lt).mpr rfl) hne
    | cons x q =>
      obtain ⟨hx, hq⟩ := hq.pop
      exact ⟨q, by simp [hs, hd, hx], hr ▸ hq⟩

variable [DecidableEq P] {s s' : FifoState P}

/-- Every action keeps the invariant. -/
theorem FifoInv.step (hI : FifoInv s.pipe.toRing s.stored s.delivered) {a : FifoAct P}
    (h : fifoStep s a = some s') : FifoInv s'.pipe.toRing s'.stored s'.delivered := by
  cases a with
  | call p c =>
    simp only [fifoStep] at h
    split at h
    · cases h; exact hI
    · cases h
  | enter p =>
    simp only [fifoStep] at h
    split at h
    · cases h; exact hI
    · cases h
  | body p killed mem =>
    simp only [fifoStep, Option.ite_none_right_eq_some, Option.map_eq_some_iff] at h
    obtain ⟨-, b, hb, rfl⟩ := h
    exact hI.bodyStep hb
  | leave p =>
    simp only [fifoStep] at h
    split at h
    · simp only [Option.ite_none_right_eq_some, Option.some.injEq] at h
      obtain ⟨-, rfl⟩ := h
      exact hI
    · cases h

/-- A pipe with equal counters holds nothing. -/
theorem fifoInv_init {pi : Pipe} (hpi : pi.nread = pi.nwrite) : FifoInv pi.toRing [] [] :=
  ⟨[], rfl, ⟨by simp, by simp [hpi], by simp⟩⟩

/-- **A pipe is a bounded FIFO.** From an empty pipe, such as a new one, wherever its counters
stand: in every state reached, the bytes delivered are a prefix of the bytes stored, and the number
of bytes stored and not delivered is `nwrite - nread` modulo `2^32` and is at most `PIPESIZE`. -/
theorem pipe_fifo (pi : Pipe) (hpi : pi.nread = pi.nwrite) (h : Reach fifoStep (fifoInit pi) s) :
    s.delivered <+: s.stored ∧
      s.stored.length - s.delivered.length = (s.pipe.nwrite - s.pipe.nread).toNat ∧
      (s.pipe.nwrite - s.pipe.nread).toNat ≤ PIPESIZE := by
  have hI : FifoInv s.pipe.toRing s.stored s.delivered :=
    h.invariant (I := fun s => FifoInv s.pipe.toRing s.stored s.delivered) (fifoInv_init hpi)
      fun _ _ _ _ hI _ hs => hI.step hs
  obtain ⟨q, hstored, hq⟩ := hI
  have hlen := hq.length_eq PIPESIZE_lt
  refine ⟨⟨q, hstored.symm⟩, ?_, hlen ▸ hq.le⟩
  rw [hlen, hstored, List.length_append]
  omega

/-- A pipe whose counters are about to wrap. -/
def wrappingPipe : Pipe := { pipealloc fun _ => 5 with nread := -1, nwrite := -1 }

/-- A process writes two bytes across the wrap, another one reads one of them, and its second
`copyout` fails. -/
theorem pipe_fifo_wrappingPipe : ∃ s : FifoState Bool, Reach fifoStep (fifoInit wrappingPipe) s ∧
    s.pipe.nwrite = 1 ∧ s.stored = [7, 8] ∧ s.delivered = [7] ∧
    (s.pipe.nwrite - s.pipe.nread).toNat = 1 := by
  obtain ⟨s, hs, hw, hst, hdel⟩ := exists_of_run fifoStep (fun _ _ => True) (fifoInit wrappingPipe)
    [.call true (.write 2), .enter true, .body true false (some 7), .body true false (some 8),
      .body true false none, .body true false none, .leave true, .call false (.read 9),
      .enter false, .body false false none, .body false false (some 0), .body false false none]
    (fun s => s.pipe.nwrite = 1 ∧ s.stored = [7, 8] ∧ s.delivered = [7]) (by decide +kernel)
  refine ⟨s, hs, hw, hst, hdel, ?_⟩
  rw [← (pipe_fifo wrappingPipe rfl hs).2.1, hst, hdel]
  rfl

end SustainableXv6
