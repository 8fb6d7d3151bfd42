import SustainableXv6.Smp.Scheduler

/-!
# The control flow of a processor

`PcStep` lists the edges along which a processor goes from one place of the code to the next, with
the operation on a process lock that each of them makes. `cpuStep_move` says that an action moves
one processor along an edge, or leaves all places and locks as they are, and `cpuStep_cases` what
else it does.
-/

namespace SustainableXv6

open Function

variable {C K : Type} {s s' : Cpus C K}

/-! ## Edges -/

/-- The operation of a step on the process locks. -/
inductive LockOp
  | keep
  | acquire (p : Slot)
  | release (p : Slot)

/-- The edges of the control flow. -/
inductive PcStep : CpuPc → LockOp → CpuPc → Prop
  | top : PcStep (.sched .top) .keep (.sched (.scan .high slots none))
  | passEnd (w : Pass) (chosen : Option Slot) :
      PcStep (.sched (.scan w [] chosen)) .keep (.sched (w.end chosen))
  | skip (p : Slot) (rest : List Slot) :
      PcStep (.sched (.scan .count (p :: rest) (some p))) .keep
        (.sched (.scan .count rest (some p)))
  | acquire {w : Pass} {p : Slot} (rest : List Slot) {chosen : Option Slot}
      (h : ¬ (w = .count ∧ chosen = some p)) :
      PcStep (.sched (.scan w (p :: rest) chosen)) (.acquire p) (.sched (.test w p rest chosen))
  | reject (w : Pass) (p : Slot) (rest : List Slot) (chosen : Option Slot) :
      PcStep (.sched (.test w p rest chosen)) .keep (.sched (.drop w p rest chosen))
  | choose {w : Pass} (h : w = .high ∨ w = .low) (p : Slot) (rest : List Slot) :
      PcStep (.sched (.test w p rest none)) .keep (.sched (.scan w rest (some p)))
  | first (p : Slot) (rest : List Slot) (chosen : Option Slot) :
      PcStep (.sched (.test .first p rest chosen)) .keep (.sched (.scan .first [] (some p)))
  | better {w : Pass} (h : w = .high ∨ w = .low) (p : Slot) (rest : List Slot) (q : Slot) :
      PcStep (.sched (.test w p rest (some q))) .keep (.sched (.swap w p rest q))
  | swap (w : Pass) (p : Slot) (rest : List Slot) (q : Slot) :
      PcStep (.sched (.swap w p rest q)) (.release q) (.sched (.scan w rest (some p)))
  | drop (w : Pass) (p : Slot) (rest : List Slot) (chosen : Option Slot) :
      PcStep (.sched (.drop w p rest chosen)) (.release p) (.sched (.scan w rest chosen))
  | busyFast (q : Slot) : PcStep (.sched (.busyTest q)) .keep (.sched (.switch q))
  | busySlow (q : Slot) : PcStep (.sched (.busyTest q)) .keep (.sched (.busyStore q))
  | busyStore (q : Slot) : PcStep (.sched (.busyStore q)) .keep (.sched (.busyArm q))
  | busyArm (q : Slot) : PcStep (.sched (.busyArm q)) .keep (.sched (.switch q))
  | switch (q : Slot) : PcStep (.sched (.switch q)) .keep (.proc q (some q))
  | back (q : Slot) : PcStep (.sched (.back q)) .keep (.sched (.unlock q))
  | unlock (q : Slot) : PcStep (.sched (.unlock q)) (.release q) (.sched .top)
  | idleFast : PcStep (.sched .idleTest) .keep (.sched .idleStore)
  | idleSlow : PcStep (.sched .idleTest) .keep (.sched .wfi)
  | idleStore : PcStep (.sched .idleStore) .keep (.sched .idleArm)
  | idleArm : PcStep (.sched .idleArm) .keep (.sched .wfi)
  | wfi : PcStep (.sched .wfi) .keep (.sched .top)
  | procLock (p q : Slot) : PcStep (.proc p none) (.acquire q) (.proc p (some q))
  | procUnlock (p q : Slot) : PcStep (.proc p (some q)) (.release q) (.proc p none)
  | leave (p : Slot) : PcStep (.proc p (some p)) .keep (.sched (.back p))

/-! ## Moves -/

variable [DecidableEq C]

/-- The locks after an operation of the processor `c`. -/
def LockOp.apply (plock : Slot → Option C) (c : C) : LockOp → Slot → Option C
  | .keep => plock
  | .acquire p => update plock p (some c)
  | .release p => update plock p none

/-- The processor `c` goes along an edge. A lock that it acquires is free. -/
structure CpuMove (s : Cpus C K) (c : C) (s' : Cpus C K) (op : LockOp) (x : CpuPc) : Prop where
  edge : PcStep (s.pc c) op x
  pc : s'.pc = update s.pc c x
  plock : s'.plock = op.apply s.plock c
  free : ∀ p, op = .acquire p → s.plock p = none

/-- The body of a pass makes no operation on a lock. -/
theorem execTest_move {c : C} {w : Pass} {p : Slot} {rest : List Slot} {chosen : Option Slot}
    (h : s.pc c = .sched (.test w p rest chosen)) :
    ∃ x, CpuMove s c (execTest s c w p rest chosen) .keep x := by
  have hmove {x : CpuPc} {t : Cpus C K} (hx : PcStep (.sched (.test w p rest chosen)) .keep x)
      (hpc : t.pc = update s.pc c x) (hlock : t.plock = s.plock) :
      ∃ x, CpuMove s c t .keep x :=
    ⟨x, h ▸ hx, hpc, hlock, by simp⟩
  unfold execTest
  split_ifs with htest
  · cases w with
    | count => exact hmove (.reject _ _ _ _) rfl rfl
    | first => exact hmove (.first _ _ _) rfl rfl
    | high | low =>
      cases chosen with
      | none => exact hmove (.choose (by simp) _ _) rfl rfl
      | some q =>
        by_cases hpid : (s.proc p).pid < (s.proc q).pid
        · exact hmove (.better (by simp) p rest q) (by simp [hpid]) rfl
        · exact hmove (.reject _ p rest (some q)) (by simp [hpid]) rfl
  · exact hmove (.reject _ _ _ _) rfl rfl

/-- The body of a pass leaves `c->proc` and the timer. -/
theorem execTest_frame (s : Cpus C K) (c : C) (w : Pass) (p : Slot) (rest : List Slot)
    (chosen : Option Slot) :
    (execTest s c w p rest chosen).cpuproc = s.cpuproc ∧
      (execTest s c w p rest chosen).timer_interval = s.timer_interval := by
  unfold execTest
  split_ifs
  · cases w <;> cases chosen <;> exact ⟨rfl, rfl⟩
  · exact ⟨rfl, rfl⟩

/-- A step of `scheduler` goes along an edge. -/
theorem execSched_move {c : C} {l : SchedPc} (hl : s.pc c = .sched l)
    (h : execSched s c l = some s') : ∃ op x, CpuMove s c s' op x := by
  have hmove {x : CpuPc} {op : LockOp} (hx : PcStep (.sched l) op x)
      (hpc : s'.pc = update s.pc c x) (hlock : s'.plock = op.apply s.plock c)
      (hfree : ∀ p, op = .acquire p → s.plock p = none) : ∃ op x, CpuMove s c s' op x :=
    ⟨op, x, hl ▸ hx, hpc, hlock, hfree⟩
  cases l with
  | scan w rest chosen =>
    cases rest with
    | nil =>
      obtain rfl := Option.some.inj h
      exact hmove (.passEnd w chosen) rfl rfl (by simp)
    | cons p rest =>
      simp only [execSched] at h
      split_ifs at h with hskip hfree
      · obtain ⟨rfl, rfl⟩ := hskip
        obtain rfl := Option.some.inj h
        exact hmove (.skip p rest) rfl rfl (by simp)
      · obtain rfl := Option.some.inj h
        exact hmove (.acquire rest hskip) rfl rfl (by simpa using hfree)
  | test w p rest chosen =>
    obtain rfl := Option.some.inj h
    exact ⟨.keep, execTest_move hl⟩
  | busyTest q =>
    obtain rfl := Option.some.inj h
    by_cases hfast : s.timer_interval = FAST_INTERVAL
    · exact hmove (.busyFast q) (by simp [hfast]) rfl (by simp)
    · exact hmove (.busySlow q) (by simp [hfast]) rfl (by simp)
  | idleTest =>
    obtain rfl := Option.some.inj h
    by_cases hfast : s.timer_interval = FAST_INTERVAL
    · exact hmove .idleFast (by simp [hfast]) rfl (by simp)
    · exact hmove .idleSlow (by simp [hfast]) rfl (by simp)
  | top =>
    obtain rfl := Option.some.inj h
    exact hmove .top rfl rfl (by simp)
  | swap w p rest q =>
    obtain rfl := Option.some.inj h
    exact hmove (.swap w p rest q) rfl rfl (by simp)
  | drop w p rest chosen =>
    obtain rfl := Option.some.inj h
    exact hmove (.drop w p rest chosen) rfl rfl (by simp)
  | busyStore q =>
    obtain rfl := Option.some.inj h
    exact hmove (.busyStore q) rfl rfl (by simp)
  | busyArm q =>
    obtain rfl := Option.some.inj h
    exact hmove (.busyArm q) rfl rfl (by simp)
  | switch q =>
    obtain rfl := Option.some.inj h
    exact hmove (.switch q) rfl rfl (by simp)
  | back q =>
    obtain rfl := Option.some.inj h
    exact hmove (.back q) rfl rfl (by simp)
  | unlock q =>
    obtain rfl := Option.some.inj h
    exact hmove (.unlock q) rfl rfl (by simp)
  | idleStore =>
    obtain rfl := Option.some.inj h
    exact hmove .idleStore rfl rfl (by simp)
  | idleArm =>
    obtain rfl := Option.some.inj h
    exact hmove .idleArm rfl rfl (by simp)
  | wfi =>
    obtain rfl := Option.some.inj h
    exact hmove .wfi rfl rfl (by simp)

/-- What the action `a` does. -/
inductive CpuCase (s : Cpus C K) (a : CpuAct C K) (s' : Cpus C K) : Prop
  /-- A step of `scheduler`. -/
  | sched (c : C) (l : SchedPc) (ha : a = .sched c) (hl : s.pc c = .sched l)
      (hs : execSched s c l = some s')
  /-- A process acquires a process lock. -/
  | lock (c : C) (p q : Slot) (hl : s.pc c = .proc p none) (hfree : s.plock q = none)
      (hs : s' = (s.acquire c q).setPc c (.proc p (some q)))
  /-- A process releases its process lock. -/
  | unlock (c : C) (p q : Slot) (hl : s.pc c = .proc p (some q))
      (hs : s' = (s.release q).setPc c (.proc p none))
  /-- A process writes to the table. -/
  | write (t : Table K) (hs : s' = { s with proc := t })
  /-- A process calls `sched`. -/
  | leave (c : C) (p : Slot) (hl : s.pc c = .proc p (some p))
      (hs : s' = s.setPc c (.sched (.back p)))
  /-- A timer interrupt. -/
  | timer (c : C) (ha : a = .timer c) (hs : s' = s.arm c)
  /-- The time passes. -/
  | time (cycles : UInt64) (hs : s' = { s with time := s.time + cycles })

/-- An action does one of these. -/
theorem cpuStep_cases {a : CpuAct C K} (h : cpuStep s a = some s') : CpuCase s a s' := by
  cases a with
  | sched c =>
    simp only [cpuStep] at h
    cases hl : s.pc c with
    | sched l =>
      rw [hl] at h
      exact .sched c l rfl hl h
    | proc p held => simp [hl] at h
  | lock c q =>
    simp only [cpuStep] at h
    cases hl : s.pc c with
    | sched l => simp [hl] at h
    | proc p held =>
      cases held with
      | some r => simp [hl] at h
      | none =>
        simp only [hl, Option.ite_none_right_eq_some, Option.some.injEq] at h
        exact .lock c p q hl h.1 h.2.symm
  | unlock c =>
    simp only [cpuStep] at h
    cases hl : s.pc c with
    | sched l => simp [hl] at h
    | proc p held =>
      cases held with
      | none => simp [hl] at h
      | some q =>
        simp only [hl, Option.some.injEq] at h
        exact .unlock c p q hl h.symm
  | write c t =>
    simp only [cpuStep] at h
    cases hl : s.pc c with
    | sched l => simp [hl] at h
    | proc p held =>
      simp only [hl, Option.some.injEq] at h
      exact .write t h.symm
  | leave c =>
    simp only [cpuStep] at h
    cases hl : s.pc c with
    | sched l => simp [hl] at h
    | proc p held =>
      cases held with
      | none => simp [hl] at h
      | some q =>
        simp only [hl, Option.ite_none_right_eq_some, Option.some.injEq] at h
        obtain ⟨rfl, hs⟩ := h
        exact .leave c q hl hs.symm
  | timer c =>
    simp only [cpuStep, Option.ite_none_right_eq_some, Option.some.injEq] at h
    exact .timer c rfl h.2.symm
  | time cycles =>
    simp only [cpuStep, Option.some.injEq] at h
    exact .time cycles h.symm

/-- An action moves one processor along an edge, or none. -/
theorem cpuStep_move {a : CpuAct C K} (h : cpuStep s a = some s') :
    (∃ c op x, CpuMove s c s' op x) ∨ s'.pc = s.pc ∧ s'.plock = s.plock := by
  cases cpuStep_cases h with
  | sched c l ha hl hs => exact .inl ⟨c, execSched_move hl hs⟩
  | lock c p q hl hfree hs =>
    subst hs
    exact .inl ⟨c, .acquire q, _, hl ▸ .procLock p q, rfl, rfl, by simpa using hfree⟩
  | unlock c p q hl hs =>
    subst hs
    exact .inl ⟨c, .release q, _, hl ▸ .procUnlock p q, rfl, rfl, by simp⟩
  | leave c p hl hs =>
    subst hs
    exact .inl ⟨c, .keep, _, hl ▸ .leave p, rfl, rfl, by simp⟩
  | write t hs | timer c ha hs | time cycles hs =>
    subst hs
    exact .inr ⟨rfl, rfl⟩

end SustainableXv6
