import SustainableXv6.Pipe.Machine

/-!
# Blocking on a pipe

A reader of an empty pipe and a writer of a full one release the lock and call `sleep(chan, 0)`.
`sleep` releases the spinlock 0, so a process that once goes to sleep on a pipe ends in `panic`
(`read_panics`). A process sleeps, or is on its way to sleep, exactly from the step on in which it
finds the pipe empty or full (`pipeStep_sleeps_iff`), and nothing takes it back from there. A reader
and a writer that never find the pipe so (`NeverBlocks`) neither reach `panic` nor lose a wakeup
(`blocking_safe`).
-/

namespace SustainableXv6

open Lib

/-- The process goes to sleep, sleeps, or has come to the release of its spinlock in `sleep`. -/
def PipePc.Sleeps : PipePc → Prop
  | .writeWake (.sleep _ _) | .release _ (.sleep _ _) => True
  | .sleepAcquire _ _ | .sleepRelease _ _ | .sleepSet _ _ | .asleep _ _ | .woken _ => True
  | .panicked => True
  | _ => False

/-- The process is about to find the pipe full in `pipewrite`, or empty in `piperead`, and has to
wait. -/
def PipePc.Blocks (pi : Pipe) (killed : Bool) : PipePc → Prop
  | .write i n =>
    (i : ℤ) < n ∧ pi.readopen = true ∧ killed = false ∧
      pi.nwrite = pi.nread + BitVec.ofNat 32 PIPESIZE
  | .read _ => pi.nread = pi.nwrite ∧ pi.writeopen = true ∧ killed = false
  | _ => False

instance (pi : Pipe) (killed : Bool) : ∀ c : PipePc, Decidable (c.Blocks pi killed)
  | .write _ _ | .read _ => inferInstanceAs (Decidable (_ ∧ _))
  | .out _ | .setFlag _ | .setTurn _ | .testFlag _ | .testTurn _ | .writeWake _ | .readCopy _ _
  | .readWake _ | .close _ | .closeWake _ | .closeTest _ | .release _ _ | .sleepAcquire _ _
  | .sleepRelease _ _ | .sleepSet _ _ | .asleep _ _ | .woken _ | .panicked => .isFalse id

/-! ## Who sleeps -/

/-- A `wakeup` takes no process out of `sleep`. -/
theorem PipePc.sleeps_wake (chan : PipeChan) (c : PipePc) : (c.wake chan).Sleeps ↔ c.Sleeps := by
  cases c <;> simp only [PipePc.wake]
  split_ifs <;> rfl

/-- A `kill` takes no process out of `sleep`. -/
theorem PipePc.sleeps_kill (c : PipePc) : c.kill.Sleeps ↔ c.Sleeps := by
  cases c <;> rfl

/-- A call does not start in `sleep`. -/
theorem PipeCall.not_sleeps_body (k : PipeCall) : ¬k.body.Sleeps := by
  cases k <;> exact not_false

/-- Under the lock, the way to `sleep` is through a pipe that is full or empty. -/
theorem bodyStep_sleeps_iff {pi : Pipe} {killed : Bool} {mem : Option UInt8} {c : PipePc}
    {b : BodyStep} (h : bodyStep pi killed mem c = some b) :
    b.pc.Sleeps ↔ c.Sleeps ∨ c.Blocks pi killed := by
  cases c with
  | write i n =>
    obtain rfl : pipewriteRound pi killed mem i n = b := by simpa [bodyStep] using h
    unfold pipewriteRound
    split_ifs with hi hclosed hfull
    -- The tests of the round come in the order in which `Blocks` has them.
    · rcases hclosed with hclosed | hkilled <;> simp_all [PipePc.Sleeps, PipePc.Blocks]
    · simp_all [PipePc.Sleeps, PipePc.Blocks]
    · cases mem <;> simp [PipePc.Sleeps, PipePc.Blocks, hfull]
    · simp [PipePc.Sleeps, PipePc.Blocks, hi]
  | read n =>
    obtain rfl : pipereadWait pi killed n = b := by simpa [bodyStep] using h
    unfold pipereadWait
    split_ifs with hempty hkilled
    · simp [PipePc.Sleeps, PipePc.Blocks, hkilled]
    · simp [PipePc.Sleeps, PipePc.Blocks, hempty, hkilled]
    · simp only [PipePc.Sleeps, PipePc.Blocks, false_or, false_iff]
      exact fun hblocks => hempty ⟨hblocks.1, hblocks.2.1⟩
  | readCopy i n =>
    obtain rfl : pipereadRound pi mem i n = b := by simpa [bodyStep] using h
    unfold pipereadRound
    split
    · cases mem <;> simp [PipePc.Sleeps, PipePc.Blocks]
    · simp [PipePc.Sleeps, PipePc.Blocks]
  | writeWake a =>
    simp only [bodyStep, Option.some.injEq] at h
    subst h
    cases a <;> simp [PipePc.Sleeps, PipePc.Blocks]
  | close writable | closeWake writable =>
    cases writable <;>
      (simp only [bodyStep, Option.some.injEq] at h; subst h; simp [PipePc.Sleeps, PipePc.Blocks])
  | closeTest writable =>
    simp only [bodyStep, Option.some.injEq] at h
    subst h
    dsimp only
    split_ifs <;> simp [PipePc.Sleeps, PipePc.Blocks]
  | readWake i =>
    simp only [bodyStep, Option.some.injEq] at h
    subst h
    simp [PipePc.Sleeps, PipePc.Blocks]
  | _ => simp [bodyStep] at h

variable {P : Type} {s s' : PipeState P} {p : P}

/-- A process that is not under the lock does not block. -/
theorem not_blocks_of_none {a : PipeAct P} {mem : Option UInt8} (ha : a = .exec p mem)
    (hb : bodyStep s.pipe (s.killed p) mem (s.pc p) = none) {q : P} :
    ¬((∃ mem, a = .exec q mem) ∧ (s.pc q).Blocks s.pipe (s.killed q)) := by
  rintro ⟨⟨mem', rfl⟩, hblocks⟩
  cases ha
  cases hpc : s.pc p <;> simp [hpc, bodyStep, PipePc.Blocks] at hb hblocks

variable [DecidableEq P]

/-- Only the process that moves comes into or out of `sleep`. -/
theorem sleeps_setPc_iff {c : PipePc} (hc : c.Sleeps ↔ (s.pc p).Sleeps) (q : P) :
    ((s.setPc p c).pc q).Sleeps ↔ (s.pc q).Sleeps := by
  by_cases hq : q = p
  · subst hq; simpa using hc
  · simp [hq]

/-- `peterson_acquire` does not come to `sleep`, and `peterson_release` does so as decided before.
-/
theorem petersonStep_sleeps_iff (h : s.petersonStep p = some s') (q : P) :
    (s'.pc q).Sleeps ↔ (s.pc q).Sleeps := by
  unfold PipeState.petersonStep at h
  cases hpc : s.pc p <;> simp only [hpc, reduceCtorEq, Option.some.injEq] at h
  all_goals subst h; refine sleeps_setPc_iff ?_ q; rw [hpc]
  case setFlag k | setTurn k => rfl
  case testFlag k | testTurn k =>
    split_ifs
    · rfl
    · exact iff_of_false k.not_sleeps_body id
  case release id a => cases a <;> rfl

/-- A process in `sleep` goes on in `sleep`, or to `panic`. -/
theorem sleepStep_sleeps_iff (h : s.sleepStep p = some s') (q : P) :
    (s'.pc q).Sleeps ↔ (s.pc q).Sleeps := by
  unfold PipeState.sleepStep at h
  cases hpc : s.pc p <;> simp only [hpc, sleepLk, reduceCtorEq, Option.some.injEq] at h
  all_goals
    subst h
    refine sleeps_setPc_iff ?_ q
    rw [hpc]
    rfl

variable [Fintype P]

/-- A `wakeup` takes no process out of `sleep`. -/
theorem wakeup_sleeps_iff {wake : Option PipeChan} (h : s.wakeup p wake = some s') (q : P) :
    (s'.pc q).Sleeps ↔ (s.pc q).Sleeps := by
  rcases (PipeState.wakeup_pc h).2 q with hq | ⟨chan, hq⟩
  · rw [hq]
  · rw [hq, PipePc.sleeps_wake]

/-- **A process is in `sleep` from the step on in which it blocks**, and never leaves it. -/
theorem pipeStep_sleeps_iff {a : PipeAct P} (h : pipeStep s a = some s') (q : P) :
    (s'.pc q).Sleeps ↔
      (s.pc q).Sleeps ∨ (∃ mem, a = .exec q mem) ∧ (s.pc q).Blocks s.pipe (s.killed q) := by
  -- An action that is no step of a process, or a step elsewhere than under the lock, blocks nobody.
  have hother : ((s'.pc q).Sleeps ↔ (s.pc q).Sleeps) →
      ¬((∃ mem, a = .exec q mem) ∧ (s.pc q).Blocks s.pipe (s.killed q)) →
      ((s'.pc q).Sleeps ↔
        (s.pc q).Sleeps ∨ (∃ mem, a = .exec q mem) ∧ (s.pc q).Blocks s.pipe (s.killed q)) :=
    fun hsame hnot => by rw [hsame, or_iff_left hnot]
  cases pipeStep_move h with
  | stay ha hpipe hpc =>
    exact hother (by rw [hpc]) fun ⟨⟨mem, hact⟩, _⟩ => ha q mem hact
  | call ha p r c hout hc hpipe hpc =>
    refine hother ?_ fun ⟨⟨mem, hact⟩, _⟩ => ha q mem hact
    rw [hpc]
    refine sleeps_setPc_iff ?_ q
    rw [hout]
    rcases hc with rfl | ⟨k, rfl⟩ <;> rfl
  | kill ha p hpipe hpc =>
    refine hother ?_ fun ⟨⟨mem, hact⟩, _⟩ => ha q mem hact
    rw [hpc]
    exact sleeps_setPc_iff (PipePc.sleeps_kill _) q
  | body p mem b ha hb hwake =>
    rw [wakeup_sleeps_iff hwake q]
    by_cases hq : q = p
    · subst hq
      subst ha
      simpa using bodyStep_sleeps_iff hb
    · have hact : ¬∃ mem, a = .exec q mem := by
        rintro ⟨mem', rfl⟩
        cases ha
        exact hq rfl
      simp [hq, hact]
  | peterson p mem ha hb h =>
    exact hother (petersonStep_sleeps_iff h q) (not_blocks_of_none ha hb)
  | sleep p mem ha hb h =>
    exact hother (sleepStep_sleeps_iff h q) (not_blocks_of_none ha hb)

/-! ## A reader and a writer -/

/-- No process comes to a pipe for which it has to wait. -/
def NeverBlocks (s : PipeState P) : PipeAct P → Prop
  | .exec p _ => ¬(s.pc p).Blocks s.pipe (s.killed p)
  | _ => True

instance (s : PipeState P) : ∀ a, Decidable (NeverBlocks s a)
  | .exec _ _ => inferInstanceAs (Decidable (¬_))
  | .fork _ _ | .dup _ _ | .call _ _ | .kill _ => .isTrue trivial

/-- A pipe with a writer, the process 0, and a reader, the process 1. -/
def writerAndReader (data : Fin PIPESIZE → UInt8) : PipeState (Fin 2) where
  pipe := pipealloc data
  pc := fun _ => .out 0
  killed := fun _ => false
  fd := fun p e => if p = e then 1 else 0
  ref := fun _ => 1

/-- The reader sleeps on `&pi->nread` for something that the writer has done, and the writer is not
there to wake it. -/
def ReaderLost (s : PipeState (Fin 2)) : Prop :=
  (∃ k, s.pc 1 = .asleep .nread k) ∧
    (s.pipe.nread ≠ s.pipe.nwrite ∨ s.pipe.writeopen = false) ∧ ∃ r, s.pc 0 = .out r

/-- The writer sleeps on `&pi->nwrite` for something that the reader has done, and the reader is not
there to wake it. -/
def WriterLost (s : PipeState (Fin 2)) : Prop :=
  (∃ k, s.pc 0 = .asleep .nwrite k) ∧
    (s.pipe.nwrite ≠ s.pipe.nread + BitVec.ofNat 32 PIPESIZE ∨ s.pipe.readopen = false) ∧
    ∃ r, s.pc 1 = .out r

/-- **Blocking is safe** for a reader and a writer that do not block: in every state reached, no
process has come to `panic`, and no wakeup is lost. -/
theorem blocking_safe (data : Fin PIPESIZE → UInt8) {s : PipeState (Fin 2)}
    (h : ReachVia pipeStep NeverBlocks (writerAndReader data) s) :
    (∀ p, s.pc p ≠ .panicked) ∧ ¬ReaderLost s ∧ ¬WriterLost s := by
  have hawake : ∀ p, ¬(s.pc p).Sleeps := by
    refine h.invariant (I := fun s => ∀ p, ¬(s.pc p).Sleeps) (fun _ => not_false) ?_
    intro s a s' _ hawake ha hs p
    rw [pipeStep_sleeps_iff hs p]
    rintro (hsleeps | ⟨⟨mem, rfl⟩, hblocks⟩)
    · exact hawake p hsleeps
    · exact ha hblocks
  refine ⟨fun p hp => hawake p ?_, ?_, ?_⟩
  · rw [hp]; trivial
  · rintro ⟨⟨k, hk⟩, -⟩
    exact hawake 1 (by rw [hk]; trivial)
  · rintro ⟨⟨k, hk⟩, -⟩
    exact hawake 0 (by rw [hk]; trivial)

/-- A byte is written, and read. -/
theorem blocking_safe_byte : ∃ s : PipeState (Fin 2),
    ReachVia pipeStep NeverBlocks (writerAndReader fun _ => 0) s ∧ s.pc 0 = .out 1 ∧
    s.pc 1 = .out 1 ∧ s.pipe.nread = 1 ∧
    (∀ p, s.pc p ≠ .panicked) ∧ ¬ReaderLost s ∧ ¬WriterLost s := by
  obtain ⟨s, hs, hwriter, hreader, hnread⟩ := exists_of_run pipeStep NeverBlocks
    (writerAndReader fun _ => 0)
    (List.flatten [[.call 0 (.write 1)], List.replicate 7 (.exec 0 (some 7)),
      [.call 1 (.read 1)], List.replicate 8 (.exec 1 (some 0))])
    (fun s => s.pc 0 = .out 1 ∧ s.pc 1 = .out 1 ∧ s.pipe.nread = 1) (by decide +kernel)
  exact ⟨s, hs, hwriter, hreader, hnread, blocking_safe _ hs⟩

/-- **A reader of a new pipe panics**: it finds the pipe empty, and `sleep` releases the spinlock 0.
-/
theorem read_panics : ∃ s : PipeState (Fin 2),
    Reach pipeStep (writerAndReader fun _ => 0) s ∧ s.pc 1 = .panicked :=
  exists_of_run pipeStep (fun _ _ => True) (writerAndReader fun _ => 0)
    (.call 1 (.read 1) :: List.replicate 7 (.exec 1 none)) _ (by decide +kernel)

end SustainableXv6
