import SustainableXv6.Smp.Flow

/-!
# Adaptive ticking

All processors share `timer_interval`. A processor that is about to run a process sets it to
1000000, and one that finds no process to run sets it to 10000000; the timer interrupt of either
then programs the next deadline with the value that it finds. So a processor that goes idle slows
down the others, which run processes (`idle_slows_busy`). If a processor goes idle only while no
other one runs a process or is about to, the deadline of a processor that runs a process is at most
1000000 cycles away (`busy_deadline`).
-/

namespace SustainableXv6

open Function Lib

variable {C K : Type} {s s' : Cpus C K}

/-! ## Busy processors -/

/-- A processor runs a process, or has found or set the fast interval and is about to run one. -/
def CpuPc.busy : CpuPc → Bool
  | .sched (.busyArm _) | .sched (.switch _) | .sched (.back _) | .proc _ _ => true
  | .sched _ => false

/-- The interval is the fast one while a processor is busy, and `c->proc` is set only then. -/
structure TickInv (s : Cpus C K) : Prop where
  fast : ∀ c, (s.pc c).busy = true → s.timer_interval = FAST_INTERVAL
  current : ∀ c, s.cpuproc c ≠ none → (s.pc c).busy = true

/-- No processor is busy at the start. -/
theorem tickInv_start (t : Table K) : TickInv (.start t : Cpus C K) where
  fast := fun _ _ => rfl
  current := fun _ h => absurd rfl h

variable [DecidableEq C]

/-- A processor sets the slow interval only while no processor is busy. -/
def IdlesAlone (s : Cpus C K) : CpuAct C K → Prop
  | .sched c => s.pc c = .sched .idleStore → ∀ c', (s.pc c').busy = false
  | .lock _ _ | .unlock _ | .write _ _ | .leave _ | .timer _ | .time _ => True

instance [Fintype C] (s : Cpus C K) : ∀ a, Decidable (IdlesAlone s a)
  | .sched c =>
    inferInstanceAs (Decidable (s.pc c = .sched .idleStore → ∀ c', (s.pc c').busy = false))
  | .lock _ _ | .unlock _ | .write _ _ | .leave _ | .timer _ | .time _ => .isTrue trivial

/-- The processor `c` goes to a place that is not more busy than it is now. -/
theorem TickInv.of_move (hI : TickInv s) {c : C} {x : CpuPc}
    (hpc : s'.pc = update s.pc c x) (hproc : s'.cpuproc = s.cpuproc)
    (hint : s'.timer_interval = s.timer_interval) (hx : x.busy = (s.pc c).busy) : TickInv s' := by
  have hbusy : ∀ c', (s'.pc c').busy = (s.pc c').busy := by
    rw [hpc]
    exact (forall_update_iff s.pc fun c' x => x.busy = (s.pc c').busy).mpr
      ⟨hx, fun _ _ => rfl⟩
  refine ⟨fun c' h => ?_, fun c' h => ?_⟩
  · rw [hint]
    exact hI.fast c' (hbusy c' ▸ h)
  · rw [hbusy]
    exact hI.current c' (hproc ▸ h)

/-- The processor `c` becomes busy, with the fast interval. -/
theorem TickInv.of_busy (hI : TickInv s) {c : C} {x : CpuPc}
    (hpc : s'.pc = update s.pc c x)
    (hproc : ∀ c', c' ≠ c → s'.cpuproc c' = s.cpuproc c')
    (hint : s'.timer_interval = FAST_INTERVAL) (hx : x.busy = true) : TickInv s' := by
  refine ⟨fun _ _ => hint, fun c' h => ?_⟩
  rw [hpc]
  by_cases hc : c' = c
  · subst hc
    rw [update_self]
    exact hx
  · rw [update_of_ne hc]
    exact hI.current c' (hproc c' hc ▸ h)

/-- The processor `c` has switched back from its process. -/
theorem TickInv.back (hI : TickInv s) {c : C} {x : CpuPc} (hpc : s'.pc = update s.pc c x)
    (hproc : s'.cpuproc = update s.cpuproc c none)
    (hint : s'.timer_interval = s.timer_interval) (hc : (s.pc c).busy = true) : TickInv s' := by
  have hfast : s'.timer_interval = FAST_INTERVAL := hint.trans (hI.fast c hc)
  refine ⟨fun _ _ => hfast, fun c' h => ?_⟩
  rw [hproc] at h
  have hne : c' ≠ c := by
    rintro rfl
    simp at h
  rw [update_of_ne hne] at h
  rw [hpc, update_of_ne hne]
  exact hI.current c' h

/-- The interval becomes slow while no processor is busy. -/
theorem TickInv.slow (hI : TickInv s) {c : C} {x : CpuPc} (hpc : s'.pc = update s.pc c x)
    (hproc : s'.cpuproc = s.cpuproc) (hx : x.busy = false) (hidle : ∀ c', (s.pc c').busy = false) :
    TickInv s' := by
  have hidle' : ∀ c', (s'.pc c').busy = false := by
    rw [hpc]
    exact (forall_update_iff s.pc fun _ x => x.busy = false).mpr ⟨hx, fun c' _ => hidle c'⟩
  refine ⟨fun c' h => ?_, fun c' h => ?_⟩
  · simp [hidle' c'] at h
  · rw [hproc] at h
    have := hI.current c' h
    simp [hidle c'] at this

/-- A step of `scheduler` keeps the interval in step with the busy processors. -/
theorem TickInv.execSched (hI : TickInv s) {c : C} {l : SchedPc} (hl : s.pc c = .sched l)
    (hC : IdlesAlone s (.sched c)) (h : execSched s c l = some s') : TickInv s' := by
  cases l with
  | top | swap w p rest q | drop w p rest chosen | unlock q | busyArm q | idleArm | wfi =>
    obtain rfl := Option.some.inj h
    exact hI.of_move rfl rfl rfl (by rw [hl]; rfl)
  | scan w rest chosen =>
    cases rest with
    | nil =>
      obtain rfl := Option.some.inj h
      refine hI.of_move rfl rfl rfl ?_
      rw [hl]
      cases w <;> cases chosen <;> rfl
    | cons p rest =>
      simp only [SustainableXv6.execSched] at h
      split_ifs at h with hskip hfree
      all_goals
        obtain rfl := Option.some.inj h
        exact hI.of_move rfl rfl rfl (by rw [hl]; rfl)
  | test w p rest chosen =>
    obtain rfl := Option.some.inj h
    obtain ⟨x, hmove⟩ := execTest_move hl
    obtain ⟨hproc, hint⟩ := execTest_frame s c w p rest chosen
    refine hI.of_move hmove.pc hproc hint ?_
    have hedge := hmove.edge
    rw [hl] at hedge ⊢
    cases hedge <;> rfl
  | busyTest q =>
    obtain rfl := Option.some.inj h
    split_ifs with hfast
    · exact hI.of_busy rfl (fun _ _ => rfl) hfast rfl
    · exact hI.of_move rfl rfl rfl (by rw [hl]; rfl)
  | busyStore q =>
    obtain rfl := Option.some.inj h
    exact hI.of_busy rfl (fun _ _ => rfl) rfl rfl
  | switch q =>
    obtain rfl := Option.some.inj h
    have hfast : s.timer_interval = FAST_INTERVAL := hI.fast c (by rw [hl]; rfl)
    exact hI.of_busy rfl (fun c' hc => update_of_ne hc _ _) hfast rfl
  | back q =>
    obtain rfl := Option.some.inj h
    exact hI.back rfl rfl rfl (by rw [hl]; rfl)
  | idleTest =>
    obtain rfl := Option.some.inj h
    refine hI.of_move rfl rfl rfl ?_
    rw [hl]
    split_ifs <;> rfl
  | idleStore =>
    obtain rfl := Option.some.inj h
    exact hI.slow rfl rfl rfl (hC hl)

/-- An action keeps the interval in step with the busy processors. -/
theorem TickInv.step (hI : TickInv s) {a : CpuAct C K} (hC : IdlesAlone s a)
    (h : cpuStep s a = some s') : TickInv s' := by
  cases cpuStep_cases h with
  | sched c l ha hl hs =>
    subst ha
    exact hI.execSched hl hC hs
  | lock c p q hl hfree hs | unlock c p q hl hs | leave c p hl hs =>
    subst hs
    exact hI.of_move rfl rfl rfl (by rw [hl]; rfl)
  | write t hs | timer c ha hs | time cycles hs =>
    subst hs
    exact ⟨hI.fast, hI.current⟩

/-! ## Deadlines -/

/-- The next step of `scheduler` is `w_stimecmp(r_time() + timer_interval)`. -/
def CpuPc.arms : CpuPc → Bool
  | .sched (.busyArm _) | .sched .idleArm => true
  | .sched _ | .proc _ _ => false

/-- The action programs the timer of the processor `c`. -/
def Programs (s : Cpus C K) (c : C) : CpuAct C K → Prop
  | .timer c' => c' = c
  | .sched c' => c' = c ∧ (s.pc c).arms = true
  | .lock _ _ | .unlock _ | .write _ _ | .leave _ | .time _ => False

/-- The deadline that is programmed. -/
theorem Programs.deadline {c : C} {a : CpuAct C K} (ha : Programs s c a)
    (h : cpuStep s a = some s') : s'.stimecmp c - s'.time = s.timer_interval := by
  have harm {t : Cpus C K} (hcmp : t.stimecmp c = s.time + s.timer_interval)
      (htime : t.time = s.time) : t.stimecmp c - t.time = s.timer_interval := by
    rw [hcmp, htime, UInt64.add_comm, UInt64.add_sub_cancel]
  cases a with
  | timer c' =>
    obtain rfl : c' = c := ha
    simp only [cpuStep, Option.ite_none_right_eq_some, Option.some.injEq] at h
    obtain ⟨-, rfl⟩ := h
    exact harm (update_self ..) rfl
  | sched c' =>
    obtain ⟨rfl, harms⟩ := ha
    simp only [cpuStep] at h
    cases hl : s.pc c' with
    | proc p held => simp [hl] at h
    | sched l =>
      rw [hl] at h harms
      cases l with
      | busyArm q | idleArm =>
        obtain rfl := Option.some.inj h
        exact harm (update_self ..) rfl
      | top | scan | test | swap | drop | busyTest | busyStore | switch | back | unlock | idleTest
      | idleStore | wfi => simp [CpuPc.arms] at harms
  | lock | unlock | write | leave | time => exact ha.elim

/-- If processors go idle alone, a processor that runs a process programs deadlines that are at most
1000000 cycles away. -/
theorem busy_deadline {t : Table K} (h : ReachVia cpuStep IdlesAlone (.start t) s)
    {a : CpuAct C K} (hs : cpuStep s a = some s') {c : C} (hc : s.cpuproc c ≠ none)
    (ha : Programs s c a) : s'.stimecmp c - s'.time ≤ FAST_INTERVAL := by
  have hI : TickInv s := h.invariant (tickInv_start t) fun _ _ _ _ hI hC hs => hI.step hC hs
  rw [ha.deadline hs, hI.fast c (hI.current c hc)]
  exact UInt64.le_refl _

/-- The first process is the only one. -/
def onlyInit : Table Unit := fun p =>
  match p.val with
  | 0 => .sample .runnable 1 none "init" 900
  | _ => .zero

/-- Processor 0 switches to the first process, which releases its lock. -/
def runsInit : List (CpuAct (Fin 2) Unit) :=
  List.flatten [List.replicate 583 (.sched 0), [.unlock 0]]

/-- Processor 1 finds no process to run, and sets the slow interval. -/
def goesIdle : List (CpuAct (Fin 2) Unit) := List.replicate 582 (.sched 1)

/-- The timer interrupts processor 0 before processor 1 goes idle. -/
theorem busy_deadline_runsInit :
    ∃ s s' : Cpus (Fin 2) Unit, ReachVia cpuStep IdlesAlone (.start onlyInit) s ∧
      cpuStep s (.timer 0) = some s' ∧ s.cpuproc 0 = some 0 ∧
        s'.stimecmp 0 - s'.time ≤ FAST_INTERVAL := by
  obtain ⟨s, hs, hpc, hproc⟩ := exists_of_run cpuStep IdlesAlone (.start onlyInit) runsInit
    (fun s : Cpus (Fin 2) Unit => s.pc 0 = .proc 0 none ∧ s.cpuproc 0 = some 0) (by decide +kernel)
  have htimer : cpuStep s (.timer 0) = some (s.arm 0) := by simp [cpuStep, hpc, CpuPc.locks]
  exact ⟨s, _, hs, htimer, hproc, busy_deadline hs htimer (by simp [hproc]) rfl⟩

/-- The timer interrupts processor 0 after that: its next deadline is 10000000 cycles away. -/
theorem idle_slows_busy :
    ∃ s s' : Cpus (Fin 2) Unit, Reach cpuStep (.start onlyInit) s ∧
      cpuStep s (.timer 0) = some s' ∧ s.cpuproc 0 = some 0 ∧
        FAST_INTERVAL < s'.stimecmp 0 - s'.time := by
  obtain ⟨s, hs, hpc, hproc, hslow⟩ := exists_of_run cpuStep (fun _ _ => True) (.start onlyInit)
    (List.flatten [runsInit, goesIdle])
    (fun s : Cpus (Fin 2) Unit => s.pc 0 = .proc 0 none ∧ s.cpuproc 0 = some 0 ∧
      s.timer_interval = SLOW_INTERVAL) (by decide +kernel)
  have htimer : cpuStep s (.timer 0) = some (s.arm 0) := by simp [cpuStep, hpc, CpuPc.locks]
  refine ⟨s, _, hs, htimer, hproc, ?_⟩
  rw [Programs.deadline (a := .timer 0) rfl htimer, hslow]
  decide

end SustainableXv6
