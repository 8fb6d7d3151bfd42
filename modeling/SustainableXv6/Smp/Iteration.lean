import SustainableXv6.Smp.Scheduler

/-!
# An iteration of `scheduler` that nothing disturbs

If the process locks are free and no other processor takes a step, an iteration of `scheduler` on
the processor `c` runs to its end, chooses the process of `chooseProc`, and leaves the table of
`switchTo` (`scheduler_iteration`). So the choice and the switch, which the other machines make in
one step, are what the loop of `scheduler` computes lock by lock. `scheduler_chooses` says what that
is in terms of the table alone.

A part of the loop is a stretch `Stretch c l t l' t'`: from the place `l` with the table `t`, the
processor gets to the place `l'` with the table `t'`. At every place it holds the locks
`SchedPc.locks` and no others are held. There is a stretch for each round of a pass, and by
induction on the slots that are left one for each pass.
-/

namespace SustainableXv6

open Function Lib

variable {C K : Type} {s : Cpus C K} {c : C} {t t' t'' : Table K} {l l' l'' : SchedPc}

/-! ## Stretches -/

/-- The processor `c` is at the place `l` of `scheduler`, the table is `t`, and the process locks
that are held are those of the place. -/
structure Placed (c : C) (l : SchedPc) (t : Table K) (s : Cpus C K) : Prop where
  pc : s.pc c = .sched l
  proc : s.proc = t
  held : ∀ q ∈ l.locks, s.plock q = some c
  free : ∀ q, q ∉ l.locks → s.plock q = none

/-- A change that keeps the locks. -/
theorem Placed.of_plock_eq {s' : Cpus C K} (h : Placed c l t s) (hlocks : l'.locks = l.locks)
    (hpc : s'.pc c = .sched l') (hproc : s'.proc = t') (hplock : s'.plock = s.plock) :
    Placed c l' t' s' where
  pc := hpc
  proc := hproc
  held := by simpa only [hlocks, hplock] using h.held
  free := by simpa only [hlocks, hplock] using h.free

variable [DecidableEq C]

/-- The states that `scheduler` on the processor `c` reaches alone, in one iteration: `wfi` is its
last place. -/
def ReachAlone (c : C) (s s' : Cpus C K) : Prop :=
  ReachVia cpuStep (fun s a => a = .sched c ∧ s.pc c ≠ .sched .wfi) s s'

/-- A step of `scheduler`. -/
theorem ReachAlone.step {s₀ s s' : Cpus C K} (h : ReachAlone c s₀ s) (hw : l ≠ .wfi)
    (hl : s.pc c = .sched l) (hs : execSched s c l = some s') : ReachAlone c s₀ s' :=
  ReachVia.tail h ⟨rfl, by simpa [hl] using hw⟩ (by simpa only [cpuStep, hl] using hs)

/-- From the place `l` with the table `t`, the processor `c` gets to the place `l'` with the table
`t'`. -/
def Stretch (c : C) (l : SchedPc) (t : Table K) (l' : SchedPc) (t' : Table K) : Prop :=
  ∀ s₀ s : Cpus C K, ReachAlone c s₀ s → Placed c l t s →
    ∃ s', ReachAlone c s₀ s' ∧ Placed c l' t' s'

theorem Stretch.refl : Stretch c l t l t := fun _ s hr hs => ⟨s, hr, hs⟩

theorem Stretch.trans (h : Stretch c l t l' t') (h' : Stretch c l' t' l'' t'') :
    Stretch c l t l'' t'' := by
  intro s₀ s hr hs
  obtain ⟨s', hr', hs'⟩ := h s₀ s hr hs
  exact h' s₀ s' hr' hs'

/-- A step that writes to the table and keeps the locks. -/
theorem Stretch.of_write (hw : l ≠ .wfi) (hlocks : l'.locks = l.locks)
    (h : ∀ s : Cpus C K, s.proc = t →
      execSched s c l = some { s.setPc c (.sched l') with proc := t' }) : Stretch c l t l' t' := by
  intro s₀ s hr hs
  exact ⟨_, hr.step hw hs.pc (h s hs.proc), hs.of_plock_eq hlocks (by simp) rfl rfl⟩

/-- A step that goes to another place only. -/
theorem Stretch.of_keep (hw : l ≠ .wfi) (hlocks : l'.locks = l.locks)
    (h : ∀ s : Cpus C K, s.proc = t → execSched s c l = some (s.setPc c (.sched l'))) :
    Stretch c l t l' t := by
  refine .of_write hw hlocks fun s hs => ?_
  rw [h s hs, ← hs]
  rfl

/-- A step that acquires a process lock. -/
theorem Stretch.of_acquire {p : Slot} (hw : l ≠ .wfi) (hlocks : l'.locks = p :: l.locks)
    (hp : p ∉ l.locks)
    (h : ∀ s : Cpus C K, s.plock p = none →
      execSched s c l = some ((s.acquire c p).setPc c (.sched l'))) : Stretch c l t l' t := by
  intro s₀ s hr hs
  refine ⟨_, hr.step hw hs.pc (h s (hs.free p hp)), ⟨by simp, hs.proc, ?_, ?_⟩⟩
  · intro q hq
    by_cases hqp : q = p
    · simp [hqp]
    · have hq' : q ∈ l.locks := by simpa [hlocks, hqp] using hq
      simp [hqp, hs.held q hq']
  · intro q hq
    obtain ⟨hqp, hq'⟩ : q ≠ p ∧ q ∉ l.locks := by simpa [hlocks] using hq
    simp [hqp, hs.free q hq']

/-- A step that releases a process lock. -/
theorem Stretch.of_release {p : Slot} (hw : l ≠ .wfi) (hp : p ∉ l'.locks)
    (hlocks : ∀ q, q ∈ l.locks ↔ q = p ∨ q ∈ l'.locks)
    (h : ∀ s : Cpus C K, execSched s c l = some ((s.release p).setPc c (.sched l'))) :
    Stretch c l t l' t := by
  intro s₀ s hr hs
  refine ⟨_, hr.step hw hs.pc (h s), ⟨by simp, hs.proc, ?_, ?_⟩⟩
  · intro q hq
    have hqp : q ≠ p := fun heq => hp (heq ▸ hq)
    simp [hqp, hs.held q ((hlocks q).mpr (.inr hq))]
  · intro q hq
    by_cases hqp : q = p
    · simp [hqp]
    · have hq' : q ∉ l.locks := by simp [hlocks, hqp, hq]
      simp [hqp, hs.free q hq']

/-! ## The first two passes -/

section Rounds

variable {w : Pass} {p q : Slot} {rest : List Slot} {chosen : Option Slot}

/-- `acquire(&p->lock)` at the head of a pass. -/
theorem Stretch.acquire (hp : p ∉ chosen) :
    Stretch c (.scan w (p :: rest) chosen) t (.test w p rest chosen) t := by
  have hp' : p ∉ chosen.toList := by simpa using hp
  refine .of_acquire (by simp) rfl hp' fun s hfree => ?_
  have hskip : ¬ (w = .count ∧ chosen = some p) := fun h => hp h.2
  simp [execSched, hskip, hfree]

/-- `release(&p->lock)` at the end of the body of a pass. -/
theorem Stretch.drop (hp : p ∉ chosen) :
    Stretch c (.drop w p rest chosen) t (.scan w rest chosen) t := by
  refine .of_release (p := p) (by simp) ?_ ?_ fun s => rfl
  · simpa [SchedPc.locks] using hp
  · simp [SchedPc.locks]

/-- A round of a pass whose test fails. -/
theorem Stretch.reject (hp : p ∉ chosen) (htest : w.test t p = false) :
    Stretch c (.scan w (p :: rest) chosen) t (.scan w rest chosen) t := by
  have hreject : Stretch c (.test w p rest chosen) t (.drop w p rest chosen) t :=
    .of_keep (by simp) rfl fun s hs => by simp [execSched, execTest, hs, htest]
  exact ((Stretch.acquire hp).trans hreject).trans (.drop hp)

/-- A round of one of the first two passes. -/
theorem Stretch.round (hw : w = .high ∨ w = .low) (hp : p ∉ chosen) :
    Stretch c (.scan w (p :: rest) chosen) t
      (.scan w rest (selectRound t (w.test t) chosen p)) t := by
  unfold selectRound
  split_ifs with htest
  · cases chosen with
    | none =>
      refine (Stretch.acquire hp).trans (.of_keep (by simp) rfl fun s hs => ?_)
      rcases hw with rfl | rfl <;> simp [execSched, execTest, hs, htest]
    | some q =>
      dsimp only
      split_ifs with hpid
      · -- The lock of the process chosen before is released.
        have hqp : q ≠ p := by simpa [eq_comm] using hp
        have hbetter : Stretch c (.test w p rest (some q)) t (.swap w p rest q) t := by
          refine .of_keep (by simp) rfl fun s hs => ?_
          rcases hw with rfl | rfl <;> simp [execSched, execTest, hs, htest, hpid]
        have hswap : Stretch c (.swap w p rest q) t (.scan w rest (some p)) t := by
          refine .of_release (p := q) (by simp) ?_ ?_ fun s => rfl
          · simpa [SchedPc.locks] using hqp
          · simp [SchedPc.locks, or_comm]
        exact ((Stretch.acquire hp).trans hbetter).trans hswap
      · have hworse : Stretch c (.test w p rest (some q)) t (.drop w p rest (some q)) t := by
          refine .of_keep (by simp) rfl fun s hs => ?_
          rcases hw with rfl | rfl <;> simp [execSched, execTest, hs, htest, hpid]
        exact ((Stretch.acquire hp).trans hworse).trans (.drop hp)
  · exact .reject hp (by simpa using htest)

/-- A round chooses the process of the round or keeps the choice. -/
theorem mem_selectRound {f : Slot → Bool} (hq : q ∈ selectRound t f chosen p) :
    q = p ∨ q ∈ chosen := by
  unfold selectRound at hq
  split_ifs at hq
  · cases chosen with
    | none => exact .inl (by simpa [eq_comm] using hq)
    | some r =>
      dsimp only at hq
      split_ifs at hq
      · exact .inl (by simpa [eq_comm] using hq)
      · exact .inr hq
  · exact .inr hq

/-- One of the first two passes. The process chosen so far is not among the slots that are left. -/
theorem Stretch.select (hw : w = .high ∨ w = .low) (ps : List Slot) (hnodup : ps.Nodup)
    (hchosen : ∀ q ∈ chosen, q ∉ ps) :
    Stretch c (.scan w ps chosen) t
      (.scan w [] (ps.foldl (selectRound t (w.test t)) chosen)) t := by
  induction ps generalizing chosen with
  | nil => exact .refl
  | cons p ps ih =>
    obtain ⟨hp, hnodup⟩ := List.nodup_cons.mp hnodup
    have hround : ∀ q ∈ selectRound t (w.test t) chosen p, q ∉ ps := by
      intro q hq
      rcases mem_selectRound hq with rfl | hq'
      · exact hp
      · exact fun hmem => hchosen q hq' (List.mem_cons_of_mem p hmem)
    exact (Stretch.round hw fun h => hchosen p h List.mem_cons_self).trans (ih hnodup hround)

/-- The pass that stops at the first runnable process. -/
theorem Stretch.find (ps : List Slot) :
    Stretch c (.scan .first ps none) t (.scan .first [] (ps.find? (Pass.first.test t ·))) t := by
  induction ps with
  | nil => exact .refl
  | cons p ps ih =>
    cases htest : Pass.first.test t p with
    | false =>
      rw [List.find?_cons_of_neg (by simp [htest])]
      exact (Stretch.reject (by simp) htest).trans ih
    | true =>
      rw [List.find?_cons_of_pos (by simpa using htest)]
      refine (Stretch.acquire (by simp)).trans (.of_keep (by simp) rfl fun s hs => ?_)
      simp [execSched, execTest, hs, htest]

/-- The end of a pass. -/
theorem Stretch.passEnd (hw : (w.end chosen).locks = chosen.toList) :
    Stretch c (.scan w [] chosen) t (w.end chosen) t :=
  .of_keep (by simp) hw fun _ _ => rfl

end Rounds

/-! ## The choice -/

/-- Where `scheduler` goes with the choice it has made. -/
def SchedPc.ofChoice : Option Slot → SchedPc
  | some p => .scan .count slots (some p)
  | none => .idleTest

/-- The passes choose the process of `chooseProc`. -/
theorem Stretch.choose : Stretch c .top t (.ofChoice (chooseProc t)) t := by
  have hnodup : slots.Nodup := List.nodup_finRange NPROC
  have htop : Stretch c .top t (.scan .high slots none) t := .of_keep (by simp) rfl fun _ _ => rfl
  have hhigh : Stretch c .top t (.scan .high [] (lowestPid t (highTest t))) t :=
    htop.trans (.select (.inl rfl) slots hnodup (by simp))
  unfold chooseProc
  cases hh : lowestPid t (highTest t) with
  | some p =>
    rw [hh] at hhigh
    exact hhigh.trans (.passEnd rfl)
  | none =>
    rw [hh] at hhigh
    have hlow : Stretch c .top t (.scan .low [] (lowestPid t (childTest t))) t :=
      (hhigh.trans (.passEnd rfl)).trans (.select (.inr rfl) slots hnodup (by simp))
    cases hc : lowestPid t (childTest t) with
    | some p =>
      rw [hc] at hlow
      exact hlow.trans (.passEnd rfl)
    | none =>
      rw [hc] at hlow
      have hfirst := (hlow.trans (.passEnd rfl)).trans (.find slots)
      refine hfirst.trans ?_
      change Stretch c (.scan .first [] (findSlot fun q => (t q).state = .runnable)) t
        (.ofChoice (findSlot fun q => (t q).state = .runnable)) t
      cases findSlot fun q => (t q).state = .runnable with
      | none => exact .passEnd rfl
      | some p => exact .passEnd rfl

/-! ## The counts -/

/-- The table while the slots `rest` are still to be visited by the pass that counts the waits. -/
def countWaits (t : Table K) (chosen : Slot) (rest : List Slot) : Table K := fun q =>
  if q = chosen ∨ rest.contains q then t q
  else if childTest t q then { t q with waiting_tick := (t q).waiting_tick + 1 }
  else t q

/-- The counts do not change what the pass tests. -/
theorem childTest_countWaits (t : Table K) (chosen : Slot) (rest : List Slot) (q : Slot) :
    childTest (countWaits t chosen rest) q = childTest t q := by
  have hsame (r : Slot) : (countWaits t chosen rest r).state = (t r).state ∧
      (countWaits t chosen rest r).parent = (t r).parent ∧
      (countWaits t chosen rest r).name = (t r).name := by
    unfold countWaits
    split_ifs <;> exact ⟨rfl, rfl, rfl⟩
  simp only [childTest, schedtestChild, (hsame q).1, (hsame q).2.1]
  cases (t q).parent with
  | none => rfl
  | some r => simp only [(hsame r).2.2]

/-- A round of the pass that counts the waits. -/
theorem Stretch.count {p chosen : Slot} {rest : List Slot} (hp : p ∉ rest) :
    Stretch c (.scan .count (p :: rest) (some chosen)) (countWaits t chosen (p :: rest))
      (.scan .count rest (some chosen)) (countWaits t chosen rest) := by
  by_cases hpc : p = chosen
  · -- The chosen process is skipped.
    have htable : countWaits t chosen (p :: rest) = countWaits t chosen rest := by
      funext q
      by_cases hq : q = chosen <;> simp [countWaits, hq, hpc]
    rw [htable]
    exact .of_keep (by simp) rfl fun s _ => by simp [execSched, hpc]
  · have hmem : p ∉ some chosen := by simpa [eq_comm] using hpc
    have hold : countWaits t chosen (p :: rest) p = t p := by simp [countWaits]
    have htest := childTest_countWaits t chosen (p :: rest) p
    cases hchild : childTest t p with
    | false =>
      have htable : countWaits t chosen (p :: rest) = countWaits t chosen rest := by
        funext q
        by_cases hq : q = p
        · simp [countWaits, hq, hchild]
        · simp [countWaits, hq]
      rw [← htable]
      exact .reject hmem (htest.trans hchild)
    | true =>
      have htable : countWaits t chosen rest = update (countWaits t chosen (p :: rest)) p
          { t p with waiting_tick := (t p).waiting_tick + 1 } := by
        funext q
        by_cases hq : q = p
        · subst hq
          simp [countWaits, hpc, hp, hchild]
        · simp [countWaits, hq]
      have hwrite : Stretch c (.test .count p rest (some chosen)) (countWaits t chosen (p :: rest))
          (.drop .count p rest (some chosen)) (countWaits t chosen rest) := by
        refine .of_write (by simp) rfl fun s hs => ?_
        simp [execSched, execTest, Pass.test, hs, htest, hchild, hold, htable]
      exact ((Stretch.acquire hmem).trans hwrite).trans (.drop hmem)

/-- The pass that counts the waits. -/
theorem Stretch.countAll {chosen : Slot} (ps : List Slot) (hnodup : ps.Nodup) :
    Stretch c (.scan .count ps (some chosen)) (countWaits t chosen ps)
      (.scan .count [] (some chosen)) (countWaits t chosen []) := by
  induction ps with
  | nil => exact .refl
  | cons p ps ih =>
    obtain ⟨hp, hnodup⟩ := List.nodup_cons.mp hnodup
    exact (Stretch.count hp).trans (ih hnodup)

/-- From the choice to the timer, with the waits counted. -/
theorem Stretch.ofChoice {p : Slot} :
    Stretch c (.ofChoice (some p)) t (.busyTest p) (countWaits t p []) := by
  have hstart : countWaits t p slots = t := by
    funext q
    simp [countWaits, slots]
  have hcount : Stretch c (.scan .count slots (some p)) (countWaits t p slots)
      (.scan .count [] (some p)) (countWaits t p []) := .countAll slots (List.nodup_finRange NPROC)
  rw [hstart] at hcount
  exact hcount.trans (.passEnd rfl)

/-- The switch to the chosen process completes `switchTo`. -/
theorem switchTo_eq_update (t : Table K) (p : Slot) :
    switchTo t p = update (countWaits t p []) p
      { countWaits t p [] p with state := .running, last_scheduled_tick := 0 } := by
  funext q
  by_cases hq : q = p
  · subst hq
    simp [switchTo, countWaits]
  · simp [switchTo, countWaits, childTest, hq]

/-! ## The iteration -/

/-- What an iteration of `scheduler` on the processor `c` has done from the state `s`, in which the
table was `t`: it has switched to the chosen process, whose lock it holds, with the fast timer, or
it waits for an interrupt with the slow one. -/
def Iterated (c : C) (t : Table K) (s : Cpus C K) : Option Slot → Prop
  | some p => s.pc c = .proc p (some p) ∧ s.cpuproc c = some p ∧ s.proc = switchTo t p ∧
      s.timer_interval = FAST_INTERVAL ∧ ∀ q, s.plock q = if q = p then some c else none
  | none => s.pc c = .sched .wfi ∧ s.proc = t ∧ s.timer_interval ≠ FAST_INTERVAL ∧
      ∀ q, s.plock q = none

/-- Before the switch, the timer is made fast. -/
theorem Placed.busy {s₀ : Cpus C K} {p : Slot} (hr : ReachAlone c s₀ s)
    (hs : Placed c (.busyTest p) t s) :
    ∃ s', ReachAlone c s₀ s' ∧ Placed c (.switch p) t s' ∧ s'.timer_interval = FAST_INTERVAL := by
  by_cases hfast : s.timer_interval = FAST_INTERVAL
  · have hnext := hr.step (by simp) hs.pc rfl
    exact ⟨_, hnext, hs.of_plock_eq rfl (by simp [hfast]) hs.proc rfl, hfast⟩
  · have hstore := hr.step (by simp) hs.pc rfl
    have harm := hstore.step (l := .busyStore p) (by simp) (by simp [hfast]) rfl
    have hswitch := harm.step (l := .busyArm p) (by simp) (by simp) rfl
    exact ⟨_, hswitch, hs.of_plock_eq rfl (by simp) hs.proc rfl, rfl⟩

/-- With no process to run, the timer is made slow. -/
theorem Placed.idle {s₀ : Cpus C K} (hr : ReachAlone c s₀ s) (hs : Placed c .idleTest t s) :
    ∃ s', ReachAlone c s₀ s' ∧ Placed c .wfi t s' ∧ s'.timer_interval ≠ FAST_INTERVAL := by
  by_cases hfast : s.timer_interval = FAST_INTERVAL
  · have hstore := hr.step (by simp) hs.pc rfl
    have harm := hstore.step (l := .idleStore) (by simp) (by simp [hfast]) rfl
    have hwfi := harm.step (l := .idleArm) (by simp) (by simp) rfl
    have hslow : SLOW_INTERVAL ≠ FAST_INTERVAL := by decide
    exact ⟨_, hwfi, hs.of_plock_eq rfl (by simp) hs.proc rfl, hslow⟩
  · have hwfi := hr.step (by simp) hs.pc rfl
    exact ⟨_, hwfi, hs.of_plock_eq rfl (by simp [hfast]) hs.proc rfl, hfast⟩

/-- From `chosen->state = RUNNING` on. -/
theorem Placed.switch {s₀ : Cpus C K} {p : Slot} (hr : ReachAlone c s₀ s)
    (hs : Placed c (.switch p) (countWaits t p []) s) (htimer : s.timer_interval = FAST_INTERVAL) :
    ∃ s', ReachAlone c s₀ s' ∧ Iterated c t s' (some p) := by
  refine ⟨_, hr.step (by simp) hs.pc rfl, by simp, by simp, ?_, htimer, fun q => ?_⟩
  · simp [switchTo_eq_update, hs.proc]
  · split_ifs with hq
    · exact hs.held q (by simp [SchedPc.locks, hq])
    · exact hs.free q (by simp [SchedPc.locks, hq])

/-- **An iteration of `scheduler` that nothing disturbs switches to the process of `chooseProc`**,
and waits for an interrupt if there is none. -/
theorem scheduler_iteration (s : Cpus C K) (c : C) (htop : s.pc c = .sched .top)
    (hfree : ∀ q, s.plock q = none) :
    ∃ s', ReachAlone c s s' ∧ Iterated c s.proc s' (chooseProc s.proc) := by
  have hplaced : Placed c .top s.proc s := ⟨htop, rfl, by simp [SchedPc.locks], fun q _ => hfree q⟩
  obtain ⟨s₁, hr, hs⟩ := Stretch.choose s s .refl hplaced
  cases hchoice : chooseProc s.proc with
  | some p =>
    rw [hchoice] at hs
    obtain ⟨s₂, hr, hs⟩ := Stretch.ofChoice s s₁ hr hs
    obtain ⟨s₃, hr, hs, hfast⟩ := hs.busy hr
    exact hs.switch hr hfast
  | none =>
    rw [hchoice] at hs
    obtain ⟨s₂, hr, hs, hslow⟩ := hs.idle hr
    exact ⟨s₂, hr, hs.pc, hs.proc, hslow, fun q => hs.free q (by simp [SchedPc.locks])⟩

/-! ## What the iteration does to the table -/

/-- A runnable child of `schedtest`. -/
def IsChild (t : Table K) (p : Slot) : Prop :=
  (t p).state = .runnable ∧ schedtestChild t p = true

instance (t : Table K) (p : Slot) : Decidable (IsChild t p) := inferInstanceAs (Decidable (_ ∧ _))

/-- A runnable child of `schedtest` with good energy. -/
def IsHigh (t : Table K) (p : Slot) : Prop :=
  IsChild t p ∧ LOW_ENERGY_THRESHOLD < (t p).energy_budget

instance (t : Table K) (p : Slot) : Decidable (IsHigh t p) := inferInstanceAs (Decidable (_ ∧ _))

/-- The process `p` has the lowest pid of those in `A`. -/
def HasLowestPid (t : Table K) (A : Slot → Prop) (p : Slot) : Prop :=
  A p ∧ ∀ q, q ≠ p → A q → (t p).pid < (t q).pid

/-- The process that the passes are meant to choose. -/
def IsChoice (t : Table K) (p : Slot) : Prop :=
  HasLowestPid t (IsHigh t) p ∨
    (∀ q, ¬ IsHigh t q) ∧ HasLowestPid t (IsChild t) p ∨
    (∀ q, ¬ IsChild t q) ∧ (t p).state = .runnable ∧ ∀ q, (t q).state = .runnable → p ≤ q

/-- The table at the switch to `p`: every other runnable child of `schedtest` has waited once more.
-/
def Switched (t t' : Table K) (p : Slot) : Prop :=
  t' p = { t p with state := .running, last_scheduled_tick := 0 } ∧
    ∀ q, q ≠ p → t' q =
      if IsChild t q then { t q with waiting_tick := (t q).waiting_tick + 1 } else t q

theorem switched_switchTo (t : Table K) (p : Slot) : Switched t (switchTo t p) p := by
  refine ⟨by simp [switchTo], fun q hq => ?_⟩
  simp only [switchTo, hq, if_false]
  by_cases hchild : IsChild t q
  · rw [if_pos hchild]
    exact if_pos hchild
  · rw [if_neg hchild]
    exact if_neg hchild

/-- A pass finds the process with the lowest pid, where no two processes in use have the same pid.
-/
theorem hasLowestPid_of_lowestPid {f : Slot → Bool} {A : Slot → Prop} {p : Slot}
    (hinj : ∀ p q, (t p).state ≠ .unused → (t q).state ≠ .unused → (t p).pid = (t q).pid → p = q)
    (hf : ∀ q, f q = true ↔ A q) (hA : ∀ q, A q → (t q).state = .runnable)
    (h : lowestPid t f = some p) : HasLowestPid t A p := by
  obtain ⟨hp, hmin⟩ := lowestPid_some h
  have hused (q : Slot) (hq : A q) : (t q).state ≠ .unused := by simp [hA q hq]
  refine ⟨(hf p).mp hp, fun q hne hq => lt_of_le_of_ne (hmin q ((hf q).mpr hq)) fun heq => ?_⟩
  exact hne (hinj q p (hused q hq) (hused p ((hf p).mp hp)) heq.symm)

/-- The choice of the passes, where no two processes in use have the same pid. -/
theorem isChoice_of_chooseProc {p : Slot}
    (hinj : ∀ p q, (t p).state ≠ .unused → (t q).state ≠ .unused → (t p).pid = (t q).pid → p = q)
    (h : chooseProc t = some p) : IsChoice t p := by
  have hhigh (q : Slot) : highTest t q = true ↔ IsHigh t q := highTest_eq_true
  have hchild (q : Slot) : childTest t q = true ↔ IsChild t q := childTest_eq_true
  rcases chooseProc_cases h with hp | ⟨hno, hp⟩ | ⟨hno, hp⟩
  · exact .inl (hasLowestPid_of_lowestPid hinj hhigh (fun q hq => hq.1.1) hp)
  · refine .inr (.inl ⟨fun q hq => ?_, hasLowestPid_of_lowestPid hinj hchild (fun q hq => hq.1) hp⟩)
    have := (hhigh q).mpr hq
    simp [hno q] at this
  · refine .inr (.inr ⟨fun q hq => ?_, ?_, fun q hq => findSlot_le hp (by simpa using hq)⟩)
    · have := (hchild q).mpr hq
      simp [hno q] at this
    · simpa using findSlot_some hp

/-- The passes find nothing only if no process is runnable. -/
theorem not_runnable_of_chooseProc (h : chooseProc t = none) (q : Slot) :
    (t q).state ≠ .runnable := by
  intro hq
  obtain ⟨p, hp⟩ := findSlot_isSome (f := fun q => (t q).state = .runnable) (p := q)
    (by simpa using hq)
  unfold chooseProc at h
  split at h
  · cases h
  · split at h
    · cases h
    · rw [hp] at h
      cases h

/-- **What an iteration of `scheduler` does.** It switches to the process that the passes are meant
to choose, whose lock is then the only one that is held, and it counts a wait for the other runnable
children of `schedtest`. It finds nothing exactly when no process is runnable. -/
theorem scheduler_chooses (s : Cpus C K) (c : C) (htop : s.pc c = .sched .top)
    (hfree : ∀ q, s.plock q = none)
    (hinj : ∀ p q, (s.proc p).state ≠ .unused → (s.proc q).state ≠ .unused →
      (s.proc p).pid = (s.proc q).pid → p = q) :
    ∃ s', ReachAlone c s s' ∧
      ((∃ p, IsChoice s.proc p ∧ s'.pc c = .proc p (some p) ∧ s'.cpuproc c = some p ∧
          (∀ q, s'.plock q = if q = p then some c else none) ∧ Switched s.proc s'.proc p) ∨
        (∀ q, (s.proc q).state ≠ .runnable) ∧ s'.pc c = .sched .wfi ∧ s'.proc = s.proc ∧
          ∀ q, s'.plock q = none) := by
  obtain ⟨s', hr, hs⟩ := scheduler_iteration s c htop hfree
  refine ⟨s', hr, ?_⟩
  cases hchoice : chooseProc s.proc with
  | some p =>
    rw [hchoice] at hs
    obtain ⟨hpc, hcpu, hproc, -, hlocks⟩ := hs
    exact .inl ⟨p, isChoice_of_chooseProc hinj hchoice, hpc, hcpu, hlocks,
      hproc ▸ switched_switchTo s.proc p⟩
  | none =>
    rw [hchoice] at hs
    obtain ⟨hpc, hproc, -, hlocks⟩ := hs
    exact .inr ⟨not_runnable_of_chooseProc hchoice, hpc, hproc, hlocks⟩

/-- The only child of `schedtest` has low energy, and is chosen. -/
theorem scheduler_chooses_mixedTable :
    ∃ s' : Cpus Unit Unit, ReachAlone () (Cpus.start mixedTable) s' ∧ s'.cpuproc () = some 3 := by
  have hinj : ∀ p q, (mixedTable p).state ≠ .unused → (mixedTable q).state ≠ .unused →
      (mixedTable p).pid = (mixedTable q).pid → p = q := by decide +kernel
  have hhigh : ∀ q, ¬ IsHigh mixedTable q := by decide +kernel
  have hchild : ∀ q, IsChild mixedTable q ↔ q = 3 := by decide +kernel
  obtain ⟨s', hr, ⟨p, hp, -, hcpu, -⟩ | ⟨hnone, -⟩⟩ :=
    scheduler_chooses (Cpus.start mixedTable) () rfl (fun _ => rfl) hinj
  · refine ⟨s', hr, hcpu.trans ?_⟩
    rcases hp with hp | ⟨-, hp⟩ | ⟨hno, -⟩
    · exact absurd hp.1 (hhigh p)
    · rw [(hchild p).mp hp.1]
    · exact absurd ((hchild 3).mpr rfl) (hno 3)
  · exact absurd rfl (hnone 3)

end SustainableXv6
