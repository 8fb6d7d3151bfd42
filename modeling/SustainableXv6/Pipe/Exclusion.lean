import SustainableXv6.Pipe.Machine

/-!
# The lock of a pipe

`peterson_acquire` is Peterson's algorithm for two parties, which are told apart by the end of the
pipe that they use. The machine of the pipe follows the algorithm (`petersonStep_view`), with as
many processes for each end as share it. Two processes that write to one pipe both find the flag of
the readers clear and enter together (`two_writers_locked`). If a process starts `peterson_acquire`
only while no other one plays the same id (`EntersAlone`), the lock is a lock
(`pipeLock_exclusive`).
-/

namespace SustainableXv6

open Lib

/-- The id that a process plays, and its phase. -/
def PipePc.phase : PipePc → Option (Fin 2 × Peterson.Phase)
  | .setTurn k => some (k.id, .setTurn)
  | .testFlag k => some (k.id, .testFlag)
  | .testTurn k => some (k.id, .testTurn)
  | .write _ _ | .writeWake _ => some (0, .critical)
  | .read _ | .readCopy _ _ | .readWake _ => some (1, .critical)
  | .close writable | .closeWake writable | .closeTest writable =>
    some (PipeCall.id (.close writable), .critical)
  | .release id _ => some (id, .critical)
  | _ => none

/-- The process is between the return of `peterson_acquire` and its next `peterson_release`. -/
def PipePc.Locked (c : PipePc) : Prop := c.phase.map Prod.snd = some .critical

instance (c : PipePc) : Decidable c.Locked := inferInstanceAs (Decidable (_ = _))

/-- A call goes on under the lock. -/
theorem PipeCall.body_phase (k : PipeCall) : k.body.phase = some (k.id, .critical) := by
  cases k <;> rfl

/-- After `peterson_release` a process is outside of the algorithm. -/
theorem After.next_phase (a : After) : a.next.phase = none := by
  cases a <;> rfl

/-- A process that is woken stays where it is in the algorithm. -/
theorem PipePc.phase_wake (chan : PipeChan) (c : PipePc) : (c.wake chan).phase = c.phase := by
  cases c <;> simp only [PipePc.wake]
  split_ifs <;> rfl

/-- A process that is killed stays where it is in the algorithm. -/
theorem PipePc.phase_kill (c : PipePc) : c.kill.phase = c.phase := by
  cases c <;> rfl

/-- A step under the lock stays under the lock, and leaves its variables alone. -/
theorem bodyStep_phase {pi : Pipe} {killed : Bool} {mem : Option UInt8} {c : PipePc} {b : BodyStep}
    (h : bodyStep pi killed mem c = some b) :
    b.pc.phase = c.phase ∧ b.pipe.flag = pi.flag ∧ b.pipe.turn = pi.turn := by
  cases c with
  | write i n =>
    obtain rfl : pipewriteRound pi killed mem i n = b := by simpa [bodyStep] using h
    unfold pipewriteRound
    split_ifs
    · exact ⟨rfl, rfl, rfl⟩
    · exact ⟨rfl, rfl, rfl⟩
    · cases mem <;> exact ⟨rfl, rfl, rfl⟩
    · exact ⟨rfl, rfl, rfl⟩
  | read n =>
    obtain rfl : pipereadWait pi killed n = b := by simpa [bodyStep] using h
    unfold pipereadWait
    split_ifs <;> exact ⟨rfl, rfl, rfl⟩
  | readCopy i n =>
    obtain rfl : pipereadRound pi mem i n = b := by simpa [bodyStep] using h
    unfold pipereadRound
    split
    · cases mem <;> exact ⟨rfl, rfl, rfl⟩
    · exact ⟨rfl, rfl, rfl⟩
  | close writable | closeWake writable =>
    cases writable <;>
      (simp only [bodyStep, Option.some.injEq] at h; subst h; exact ⟨rfl, rfl, rfl⟩)
  | writeWake a | readWake i | closeTest writable =>
    simp only [bodyStep, Option.some.injEq] at h
    subst h
    exact ⟨rfl, rfl, rfl⟩
  | _ => simp [bodyStep] at h

/-! ## The machine follows the algorithm -/

variable {P : Type} {s s' : PipeState P}

/-- What the algorithm sees of a pipe and its processes. -/
def PipeState.view (s : PipeState P) : Peterson.View P where
  flag := s.pipe.flag
  turn := s.pipe.turn
  phase p := (s.pc p).phase

/-- A step that the algorithm does not see. -/
def Unseen (s s' : PipeState P) : Prop :=
  s'.pipe.flag = s.pipe.flag ∧ s'.pipe.turn = s.pipe.turn ∧ ∀ p, (s'.pc p).phase = (s.pc p).phase

/-- Two such steps in a row. -/
theorem Unseen.trans {s'' : PipeState P} (h : Unseen s s') (h' : Unseen s' s'') : Unseen s s'' :=
  ⟨h'.1.trans h.1, h'.2.1.trans h.2.1, fun p => (h'.2.2 p).trans (h.2.2 p)⟩

/-- What the algorithm does not see leaves its view the same. -/
theorem Unseen.view_eq (h : Unseen s s') : s'.view = s.view := by
  obtain ⟨hflag, hturn, hphase⟩ := h
  unfold PipeState.view
  rw [hflag, hturn, funext hphase]

variable [DecidableEq P]

/-- A process that goes to a place of the same phase is not seen. -/
theorem unseen_setPc {p : P} {c : PipePc} (hc : c.phase = (s.pc p).phase) :
    Unseen s (s.setPc p c) := by
  refine ⟨rfl, rfl, fun q => ?_⟩
  by_cases hq : q = p
  · subst hq; simp [hc]
  · simp [hq]

/-- The phase of the process that moves, and of the others. -/
theorem movesTo_setPc {p : P} {c : PipePc} {x : Option (Fin 2 × Peterson.Phase)} (hc : c.phase = x)
    {t : PipeState P} (ht : t.pc = (s.setPc p c).pc) : Peterson.MovesTo s.view t.view p x := by
  refine ⟨?_, fun q hq => ?_⟩
  · simp [PipeState.view, ht, hc]
  · simp [PipeState.view, ht, hq]

/-- The steps of `peterson_acquire` and `peterson_release` are those of the algorithm. -/
theorem petersonStep_view {p : P} (h : s.petersonStep p = some s') :
    Peterson.Step s.view s'.view := by
  unfold PipeState.petersonStep at h
  cases hpc : s.pc p <;> simp only [hpc, reduceCtorEq, Option.some.injEq] at h
  case setFlag k =>
    subst h
    exact .start p k.id (by simp [PipeState.view, hpc, PipePc.phase]) rfl rfl
      (movesTo_setPc rfl rfl)
  case setTurn k =>
    subst h
    exact .setTurn p k.id (by simp [PipeState.view, hpc, PipePc.phase]) rfl rfl
      (movesTo_setPc rfl rfl)
  case testFlag k =>
    subst h
    have hp : s.view.phase p = some (k.id, .testFlag) := by simp [PipeState.view, hpc, PipePc.phase]
    split_ifs with hflag
    · exact .flagSet p k.id hp rfl rfl (movesTo_setPc rfl rfl)
    · exact .flagClear p k.id hp (by simpa [PipeState.view] using hflag) rfl rfl
        (movesTo_setPc k.body_phase rfl)
  case testTurn k =>
    subst h
    have hp : s.view.phase p = some (k.id, .testTurn) := by simp [PipeState.view, hpc, PipePc.phase]
    split_ifs with hturn
    · exact .turnOther p k.id hp rfl rfl (movesTo_setPc rfl rfl)
    · refine .turnMine p k.id hp ?_ rfl rfl (movesTo_setPc k.body_phase rfl)
      rw [← other_other k.id]
      exact eq_other_of_ne hturn
  case release id a =>
    subst h
    exact .release p id (by simp [PipeState.view, hpc, PipePc.phase]) rfl rfl
      (movesTo_setPc a.next_phase rfl)

/-- The steps of `sleep` are not seen. -/
theorem sleepStep_unseen {p : P} (h : s.sleepStep p = some s') : Unseen s s' := by
  unfold PipeState.sleepStep at h
  cases hpc : s.pc p <;> simp only [hpc, sleepLk, reduceCtorEq, Option.some.injEq] at h
  all_goals
    subst h
    exact unseen_setPc (by rw [hpc]; rfl)

/-- The call of a process that is about to start `peterson_acquire`. -/
def PipePc.entering : PipePc → Option PipeCall
  | .setFlag k => some k
  | _ => none

/-- A process starts `peterson_acquire` only while no process plays its id. -/
def EntersAlone (s : PipeState P) : PipeAct P → Prop
  | .exec p _ => ∀ k ∈ (s.pc p).entering, ∀ q, (s.pc q).phase.map Prod.fst ≠ some k.id
  | _ => True

/-- Under this condition the algorithm is started alone. -/
theorem startsAlone_of_petersonStep {p : P} {mem : Option UInt8} (ha : EntersAlone s (.exec p mem))
    (h : s.petersonStep p = some s') : Peterson.StartsAlone s.view s'.view := by
  intro q i hq hq' r a hr
  unfold PipeState.petersonStep at h
  by_cases hqp : q = p
  · subst hqp
    cases hpc : s.pc q <;> simp only [hpc, reduceCtorEq, Option.some.injEq] at h
    case setFlag k =>
      subst h
      obtain rfl : k.id = i := by simpa [PipeState.view, PipePc.phase] using hq'
      simp only [PipeState.view] at hr
      exact ha k (by rw [hpc]; rfl) r (by rw [hr]; rfl)
    all_goals simp [PipeState.view, hpc, PipePc.phase] at hq
  · -- Only the process that acts moves.
    have hstay : s'.view.phase q = s.view.phase q := by
      cases hpc : s.pc p <;> simp only [hpc, reduceCtorEq, Option.some.injEq] at h <;> subst h <;>
        simp [PipeState.view, hqp]
    rw [hstay, hq] at hq'
    cases hq'

variable [Fintype P]

/-- A `wakeup` is not seen. -/
theorem wakeup_unseen {p : P} {wake : Option PipeChan} (h : s.wakeup p wake = some s') :
    Unseen s s' := by
  obtain ⟨hpipe, hpc⟩ := PipeState.wakeup_pc h
  refine ⟨by rw [hpipe], by rw [hpipe], fun q => ?_⟩
  rcases hpc q with hq | ⟨chan, hq⟩
  · rw [hq]
  · rw [hq, PipePc.phase_wake]

/-- Every action is a step of the lock, or is not seen by the algorithm. -/
theorem pipeStep_view {a : PipeAct P} (h : pipeStep s a = some s') :
    Unseen s s' ∨ ∃ p mem, a = .exec p mem ∧ s.petersonStep p = some s' := by
  cases pipeStep_move h with
  | stay ha hpipe hpc => exact .inl ⟨by rw [hpipe], by rw [hpipe], by simp [hpc]⟩
  | call ha p r c hout hc hpipe hpc =>
    have hphase : c.phase = (s.pc p).phase := by
      rw [hout]
      rcases hc with rfl | ⟨k, rfl⟩ <;> rfl
    exact .inl ⟨by rw [hpipe], by rw [hpipe], by rw [hpc]; exact (unseen_setPc hphase).2.2⟩
  | kill ha p hpipe hpc =>
    refine .inl ⟨by rw [hpipe], by rw [hpipe], ?_⟩
    rw [hpc]
    exact (unseen_setPc (PipePc.phase_kill _)).2.2
  | body p mem b ha hb hwake =>
    obtain ⟨hphase, hflag, hturn⟩ := bodyStep_phase hb
    have hmove : Unseen s { s.setPc p b.pc with pipe := b.pipe } :=
      ⟨hflag, hturn, (unseen_setPc hphase).2.2⟩
    exact .inl (hmove.trans (wakeup_unseen hwake))
  | peterson p mem ha hb h => exact .inr ⟨p, mem, ha, h⟩
  | sleep p mem ha hb h => exact .inl (sleepStep_unseen h)

/-! ## Mutual exclusion -/

/-- **The lock of a pipe is a lock** while no two processes play one id: in every state reached, at
most one process is between the return of `peterson_acquire` and its next `peterson_release`. -/
theorem pipeLock_exclusive (data : Fin PIPESIZE → UInt8) (p₀ : P)
    (h : ReachVia pipeStep EntersAlone (pipeInit data p₀) s) (p q : P) (hp : (s.pc p).Locked)
    (hq : (s.pc q).Locked) : p = q := by
  -- What the algorithm sees keeps its invariant through every action.
  have hI : Peterson.Inv s.view := by
    refine h.invariant (I := fun s => Peterson.Inv s.view) (.of_none fun _ => rfl) ?_
    intro s a s' _ hI ha hs
    rcases pipeStep_view hs with hun | ⟨p, mem, rfl, hp⟩
    · rw [hun.view_eq]; exact hI
    · exact hI.step (petersonStep_view hp) (startsAlone_of_petersonStep ha hp)
  have hcrit : ∀ {r}, (s.pc r).Locked → ∃ i, s.view.phase r = some (i, .critical) := by
    intro r hr
    obtain ⟨⟨i, a⟩, hphase, rfl⟩ := Option.map_eq_some_iff.mp hr
    exact ⟨i, hphase⟩
  obtain ⟨i, hi⟩ := hcrit hp
  obtain ⟨j, hj⟩ := hcrit hq
  exact hI.exclusive hi hj

instance (s : PipeState P) : ∀ a, Decidable (EntersAlone s a)
  | .exec _ _ => inferInstanceAs (Decidable (∀ _ ∈ _, ∀ _, _))
  | .fork _ _ | .dup _ _ | .call _ _ | .kill _ => .isTrue trivial

/-- A writer and a reader, of which the writer has the lock. -/
theorem pipeLock_exclusive_writer : ∃ s : PipeState Bool,
    ReachVia pipeStep EntersAlone (pipeInit (fun _ => 5) false) s ∧ (s.pc false).Locked ∧
    s.pc true = .testTurn (.read 1) ∧ ∀ q, (s.pc q).Locked → q = false := by
  obtain ⟨s, hs, hlocked, htest⟩ := exists_of_run pipeStep EntersAlone (pipeInit (fun _ => 5) false)
    [.fork false true, .call false (.write 1), .call true (.read 1), .exec false none,
      .exec false none, .exec false none, .exec true none, .exec true none, .exec true none]
    (fun s => (s.pc false).Locked ∧ s.pc true = .testTurn (.read 1)) (by decide +kernel)
  exact ⟨s, hs, hlocked, htest, fun q hq => pipeLock_exclusive _ _ hs q false hq hlocked⟩

/-- **Two writers have the lock of a pipe at a time**, after one process has created the pipe and
forked the other, and both have called `pipewrite`. -/
theorem two_writers_locked : ∃ s : PipeState Bool, Reach pipeStep (pipeInit (fun _ => 5) false) s ∧
    (s.pc false).Locked ∧ (s.pc true).Locked :=
  exists_of_run pipeStep (fun _ _ => True) (pipeInit (fun _ => 5) false)
    [.fork false true, .call false (.write 1), .call true (.write 1), .exec false none,
      .exec false none, .exec false none, .exec true none, .exec true none, .exec true none] _
    (by decide +kernel)

end SustainableXv6
