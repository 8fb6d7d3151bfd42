import SustainableXv6.Lib.Held
import SustainableXv6.Smp.Flow

/-!
# Deadlocks on the process locks

`scheduler` keeps the lock of the process that it has chosen while it acquires the locks of the
others. In the first two passes these are later in the table, so two processors that are both in
such a pass cannot wait for each other. But the pass that counts the waits starts at slot 0 again,
with the lock of the chosen process held: a processor in that pass and a processor that has chosen
an earlier slot can wait for each other for ever (`crossedChildren_lockCycle`). If a processor
starts to count only while no other one has chosen a process, and chooses only while no other one
counts, this does not happen (`no_lockCycle`).

Which locks are held where (`PlockInv`) and the order of the slots (`SchedPc.Wf`) are read off from
the edges of the control flow.
-/

namespace SustainableXv6

open Function Lib

variable {C K : Type} {s s' : Cpus C K}

/-! ## The order of the slots -/

/-- The slots still to be visited are in order, and in the passes that choose a process, they are
behind the process chosen so far. -/
def SchedPc.Wf : SchedPc → Prop
  | .scan w rest chosen =>
    rest.Pairwise (· < ·) ∧ (w ≠ .count → ∀ q ∈ chosen, ∀ r ∈ rest, q < r) ∧
      (w = .first → rest ≠ [] → chosen = none)
  | .test w p rest chosen | .drop w p rest chosen =>
    (p :: rest).Pairwise (· < ·) ∧ (w ≠ .count → ∀ q ∈ chosen, ∀ r ∈ p :: rest, q < r) ∧
      (w = .first → chosen = none) ∧ chosen ≠ some p
  | .swap w p rest q =>
    (p :: rest).Pairwise (· < ·) ∧ (w = .high ∨ w = .low) ∧ ∀ r ∈ p :: rest, q < r
  | _ => True

/-- The place of a processor is well formed. -/
def CpuPc.Wf : CpuPc → Prop
  | .sched l => l.Wf
  | .proc _ _ => True

/-- The slots of the table are in order. -/
theorem slots_pairwise : slots.Pairwise (· < ·) := List.pairwise_lt_finRange NPROC

/-- The end of a pass is well formed. -/
theorem Pass.end_wf (w : Pass) (chosen : Option Slot) : (w.end chosen).Wf := by
  cases w <;> cases chosen <;> simp [Pass.end, SchedPc.Wf, slots_pairwise]

/-- The edges keep the places well formed. -/
theorem PcStep.wf {x x' : CpuPc} {op : LockOp} (h : PcStep x op x') (hx : x.Wf) : x'.Wf := by
  cases h with
  | top => exact ⟨slots_pairwise, by simp, by simp⟩
  | passEnd w chosen => exact w.end_wf chosen
  | skip p rest => exact ⟨hx.1.of_cons, by simp, by simp⟩
  | @acquire w p rest chosen hne =>
    obtain ⟨hsorted, hbehind, hfirst⟩ := hx
    refine ⟨hsorted, hbehind, fun hw => hfirst hw (by simp), fun hc => ?_⟩
    by_cases hw : w = .count
    · exact hne ⟨hw, hc⟩
    · exact absurd (hbehind hw p (by simp [hc]) p (by simp)) (lt_irrefl p)
  | reject w p rest chosen => exact hx
  | choose hw p rest =>
    obtain ⟨hsorted, -, -, -⟩ := hx
    refine ⟨hsorted.of_cons, fun _ q hq r hr => ?_, by rcases hw with rfl | rfl <;> simp⟩
    obtain rfl : p = q := by simpa using hq
    exact List.rel_of_pairwise_cons hsorted hr
  | first p rest chosen => exact ⟨.nil, by simp, by simp⟩
  | better hw p rest q =>
    obtain ⟨hsorted, hbehind, -, -⟩ := hx
    exact ⟨hsorted, hw, hbehind (by rcases hw with rfl | rfl <;> simp) q (by simp)⟩
  | swap w p rest q =>
    obtain ⟨hsorted, hw, -⟩ := hx
    refine ⟨hsorted.of_cons, fun _ q' hq r hr => ?_, by rcases hw with rfl | rfl <;> simp⟩
    obtain rfl : p = q' := by simpa using hq
    exact List.rel_of_pairwise_cons hsorted hr
  | drop w p rest chosen =>
    obtain ⟨hsorted, hbehind, hfirst, -⟩ := hx
    exact ⟨hsorted.of_cons, fun hw q hq r hr => hbehind hw q hq r (by simp [hr]),
      fun hw _ => hfirst hw⟩
  | busyFast | busySlow | busyStore | busyArm | switch | back | unlock | idleFast | idleSlow
  | idleStore | idleArm | wfi | procLock | procUnlock | leave => trivial

/-! ## The locks -/

/-- A process lock is held by a processor exactly where its place says so. -/
structure PlockInv (s : Cpus C K) : Prop where
  wf : ∀ c, (s.pc c).Wf
  locks : ∀ c q, s.plock q = some c ↔ q ∈ (s.pc c).locks

/-- What an operation makes of the locks that a processor holds. -/
def LockOp.Effect (ls ls' : List Slot) : LockOp → Prop
  | .keep => ∀ q, q ∈ ls' ↔ q ∈ ls
  | .acquire p => ∀ q, q ∈ ls' ↔ q = p ∨ q ∈ ls
  | .release p => p ∈ ls ∧ ∀ q, q ∈ ls' ↔ q ≠ p ∧ q ∈ ls

/-- The end of a pass keeps the lock of the chosen process. -/
theorem Pass.end_locks (w : Pass) (chosen : Option Slot) :
    (w.end chosen).locks = chosen.toList := by
  cases w <;> cases chosen <;> rfl

/-- The edges make the operations that the places call for. -/
theorem PcStep.effect {x x' : CpuPc} {op : LockOp} (h : PcStep x op x') (hx : x.Wf) :
    op.Effect x.locks x'.locks := by
  cases h with
  | passEnd w chosen =>
    intro q
    show q ∈ (w.end chosen).locks ↔ q ∈ chosen.toList
    rw [w.end_locks]
  | acquire rest hne =>
    intro q
    simp [CpuPc.locks, SchedPc.locks]
  | choose hw p rest =>
    intro q
    simp [CpuPc.locks, SchedPc.locks]
  | first p rest chosen =>
    obtain rfl : chosen = none := hx.2.2.1 rfl
    intro q
    simp [CpuPc.locks, SchedPc.locks]
  | better hw p rest q =>
    intro r
    simp [CpuPc.locks, SchedPc.locks]
  | swap w p rest q =>
    have hlt : q < p := hx.2.2 p (by simp)
    refine ⟨by simp [CpuPc.locks, SchedPc.locks], fun r => ?_⟩
    simp only [CpuPc.locks, SchedPc.locks, Option.toList_some, List.mem_cons, List.not_mem_nil,
      or_false]
    constructor
    · rintro rfl
      exact ⟨hlt.ne', .inl rfl⟩
    · rintro ⟨hne, hr | hr⟩
      · exact hr
      · exact absurd hr hne
  | drop w p rest chosen =>
    have hne : chosen ≠ some p := hx.2.2.2
    refine ⟨by simp [CpuPc.locks, SchedPc.locks], fun q => ?_⟩
    simp only [CpuPc.locks, SchedPc.locks, Option.mem_toList, List.mem_cons]
    constructor
    · intro hq
      exact ⟨fun he => hne (he ▸ hq), .inr hq⟩
    · rintro ⟨hqp, hq | hq⟩
      · exact absurd hq hqp
      · exact hq
  | unlock q | procUnlock p q =>
    refine ⟨by simp [CpuPc.locks, SchedPc.locks], fun r => ?_⟩
    simp [CpuPc.locks, SchedPc.locks]
  | procLock p q =>
    intro r
    simp [CpuPc.locks]
  | top | skip | reject | busyFast | busySlow | busyStore | busyArm | switch | back | idleFast
  | idleSlow | idleStore | idleArm | wfi | leave =>
    exact fun _ => Iff.rfl

/-- No lock is held at the start. -/
theorem plockInv_start (t : Table K) : PlockInv (.start t : Cpus C K) where
  wf := fun _ => trivial
  locks := fun c q => by simp [Cpus.start, CpuPc.locks, SchedPc.locks]

section Step

variable [DecidableEq C]

/-- What an operation on a process lock makes of the holders. -/
theorem held_apply {plock : Slot → Option C} {locks : C → List Slot} {ls : List Slot} {c : C}
    {op : LockOp} (h : Held plock locks) (hop : op.Effect (locks c) ls)
    (hfree : ∀ p, op = .acquire p → plock p = none) :
    Held (op.apply plock c) (update locks c ls) := by
  cases op with
  | keep => exact h.keep hop
  | acquire p => exact h.acquire (hfree p rfl) hop
  | release p => exact h.release hop.1 hop.2

/-- A processor that goes along an edge keeps the locks in step. -/
theorem PlockInv.move (hI : PlockInv s) {c : C} {op : LockOp} {x : CpuPc}
    (h : CpuMove s c s' op x) : PlockInv s' := by
  have hwf : ∀ c', (update s.pc c x c').Wf :=
    (forall_update_iff s.pc fun _ x => x.Wf).mpr
      ⟨h.edge.wf (hI.wf c), fun c' _ => hI.wf c'⟩
  have hheld : Held s.plock fun c => (s.pc c).locks := ⟨fun q c => hI.locks c q⟩
  have hheld' := held_apply hheld (h.edge.effect (hI.wf c)) h.free
  refine ⟨h.pc ▸ hwf, fun c' q => ?_⟩
  rw [h.pc, h.plock, hheld'.held_iff]
  by_cases hc : c' = c
  · rw [hc, update_self, update_self]
  · rw [update_of_ne hc, update_of_ne hc]

/-- The locks are where the places say in every state reached. -/
theorem plockInv_of_reachVia {A : Cpus C K → CpuAct C K → Prop} {t : Table K}
    (h : ReachVia cpuStep A (.start t) s) : PlockInv s := by
  refine h.invariant (plockInv_start t) fun s a s' _ hI _ hs => ?_
  rcases cpuStep_move hs with ⟨c, op, x, hmove⟩ | ⟨hpc, hlock⟩
  · exact hI.move hmove
  · exact ⟨by rw [hpc]; exact hI.wf, by rw [hpc, hlock]; exact hI.locks⟩

end Step

/-! ## Choosing alone -/

/-- The process that a processor has chosen and not switched to yet. -/
def CpuPc.chosen : CpuPc → Option Slot
  | .sched (.scan _ _ chosen) | .sched (.test _ _ _ chosen) | .sched (.drop _ _ _ chosen) => chosen
  | .sched (.swap _ _ _ chosen) | .sched (.busyTest chosen) | .sched (.busyStore chosen)
  | .sched (.busyArm chosen) | .sched (.switch chosen) => some chosen
  | .sched _ | .proc _ _ => none

/-- A processor counts the waits, or has done so and not switched yet. -/
def CpuPc.counting : CpuPc → Bool
  | .sched (.scan w _ _) | .sched (.test w _ _ _) | .sched (.drop w _ _ _) => w = .count
  | .sched (.busyTest _) | .sched (.busyStore _) | .sched (.busyArm _) | .sched (.switch _) => true
  | .sched _ | .proc _ _ => false

section Alone

variable [DecidableEq C]

/-- A processor chooses a process only while no other one counts, and starts to count only while no
other one has chosen a process. -/
def ChoosesAlone (s : Cpus C K) (a : CpuAct C K) : Prop :=
  ∀ s' ∈ cpuStep s a, ∀ c c', c' ≠ c →
    ((s.pc c).chosen = none → (s'.pc c).chosen ≠ none → (s.pc c').counting = false) ∧
    ((s.pc c).counting = false → (s'.pc c).counting = true → (s.pc c').chosen = none)

instance [Fintype C] (s : Cpus C K) (a : CpuAct C K) : Decidable (ChoosesAlone s a) :=
  inferInstanceAs (Decidable (∀ s' ∈ cpuStep s a, _))

/-- While a processor counts, no other one has chosen a process. -/
def CountsAlone (s : Cpus C K) : Prop :=
  ∀ c c', c' ≠ c → (s.pc c).counting = true → (s.pc c').chosen = none

/-- A step under the condition keeps this. -/
theorem CountsAlone.step (hI : CountsAlone s) {a : CpuAct C K} (ha : ChoosesAlone s a)
    (h : cpuStep s a = some s') : CountsAlone s' := by
  rcases cpuStep_move h with ⟨c, op, x, hmove⟩ | ⟨hpc, -⟩
  · intro c₁ c₂ hne hcount
    have hpc {c' : C} (hc : c' ≠ c) : s'.pc c' = s.pc c' := by
      rw [hmove.pc, update_of_ne hc]
    by_cases h₁ : c₁ = c
    · -- The processor that counts moves: it counted before, or it starts to.
      subst h₁
      rw [hpc hne]
      cases hold : (s.pc c₁).counting with
      | true => exact hI c₁ c₂ hne hold
      | false => exact (ha s' h c₁ c₂ hne).2 hold hcount
    · rw [hpc h₁] at hcount
      by_cases h₂ : c₂ = c
      · -- Another one moves: it had not chosen before, so it may not choose now.
        subst h₂
        by_contra hchosen
        have := (ha s' h c₂ c₁ h₁).1 (hI c₁ c₂ hne hcount) hchosen
        simp [hcount] at this
      · rw [hpc h₂]
        exact hI c₁ c₂ hne hcount
  · intro c₁ c₂ hne hcount
    rw [hpc] at hcount ⊢
    exact hI c₁ c₂ hne hcount

end Alone

/-! ## Deadlocks -/

/-- A processor may be in `acquire(&q->lock)`. Where the code of a process is, is left open. -/
def CpuPc.spinsFor (q : Slot) : CpuPc → Bool
  | .sched (.scan w (p :: _) chosen) => p = q ∧ ¬ (w = .count ∧ chosen = some p)
  | .proc _ none => true
  | .sched _ | .proc _ (some _) => false

/-- Two or more processors each of which holds a process lock that the next one, cyclically, is
spinning to acquire. -/
def LockCycle (s : Cpus C K) : Prop :=
  ∃ (n : ℕ) (c : Fin (n + 2) → C), Function.Injective c ∧
    ∀ i, ∃ q, s.plock q = some (c i) ∧ (s.pc (c (i + 1))).spinsFor q = true

/-- A processor that holds a process lock and spins for another one is in a pass of `scheduler`, and
the lock that it holds is that of the process that it has chosen. -/
theorem PlockInv.spinning (hI : PlockInv s) {c : C} {q r : Slot} (hq : s.plock q = some c)
    (hr : (s.pc c).spinsFor r = true) :
    ∃ w rest, s.pc c = .sched (.scan w (r :: rest) (some q)) := by
  rw [hI.locks] at hq
  cases hpc : s.pc c with
  | proc p held =>
    rw [hpc] at hq hr
    cases held with
    | none => simp [CpuPc.locks] at hq
    | some q' => simp [CpuPc.spinsFor] at hr
  | sched l =>
    rw [hpc] at hq hr
    cases l with
    | scan w rest chosen =>
      cases rest with
      | nil => simp [CpuPc.spinsFor] at hr
      | cons p rest =>
        simp only [CpuPc.spinsFor, decide_eq_true_eq] at hr
        obtain ⟨rfl, -⟩ := hr
        obtain rfl : chosen = some q := by simpa [CpuPc.locks, SchedPc.locks] using hq
        exact ⟨w, rest, rfl⟩
    | top | test | swap | drop | busyTest | busyStore | busyArm | switch | back | unlock | idleTest
    | idleStore | idleArm | wfi => simp [CpuPc.spinsFor] at hr

/-- If processors choose and count alone, they do not deadlock. -/
theorem not_lockCycle (hI : PlockInv s) (hA : CountsAlone s) : ¬ LockCycle s := by
  rintro ⟨n, c, hinj, hcycle⟩
  choose q hq hspin using hcycle
  -- Each processor scans the slot whose lock the one before it holds.
  have hscan (i : Fin (n + 2)) :
      ∃ w rest, s.pc (c (i + 1)) = .sched (.scan w (q i :: rest) (some (q (i + 1)))) :=
    hI.spinning (hq (i + 1)) (hspin i)
  have hdesc (i : Fin (n + 2)) : q (i + 1) < q i := by
    obtain ⟨w, rest, hpc⟩ := hscan i
    have hwf := hI.wf (c (i + 1))
    rw [hpc] at hwf
    refine hwf.2.1 (fun hw => ?_) _ (by simp) _ (by simp)
    -- A processor that counts is alone, but the next one has chosen a process as well.
    obtain ⟨w', rest', hpc'⟩ := hscan (i + 1)
    have hne : c (i + 1 + 1) ≠ c (i + 1) := fun he => by simpa using hinj he
    have := hA (c (i + 1)) (c (i + 1 + 1)) hne (by simp [hpc, hw, CpuPc.counting])
    simp [hpc', CpuPc.chosen] at this
  obtain ⟨i, hi⟩ := Finite.exists_min q
  exact absurd (hdesc i) (not_lt.mpr (hi (i + 1)))

/-- Processors that choose and count alone never deadlock on the process locks. -/
theorem no_lockCycle [DecidableEq C] {t : Table K}
    (h : ReachVia cpuStep ChoosesAlone (.start t) s) : ¬ LockCycle s := by
  have hA : CountsAlone s := by
    refine h.invariant (fun c c' _ hcount => ?_) fun _ _ _ _ hI ha hs => hI.step ha hs
    simp [Cpus.start, CpuPc.counting] at hcount
  exact not_lockCycle (plockInv_of_reachVia h) hA

/-- Two children of `schedtest` can run, and the later slot has the lower pid. -/
def crossedChildren : Table Unit := fun p =>
  match p.val with
  | 2 => .sample .sleeping 3 none "schedtest" 900
  | 3 => .sample .runnable 6 (some 2) "schedtest" 900
  | 4 => .sample .runnable 5 (some 2) "schedtest" 900
  | _ => .zero

/-- Processor 1 chooses the process in slot 4 and starts to count. -/
def countsSlot4 : List (CpuAct (Fin 2) Unit) := List.replicate 193 (.sched 1)

/-- While processor 0 has only begun to look for a process, there is no deadlock. -/
theorem no_lockCycle_countsSlot4 :
    ∃ s : Cpus (Fin 2) Unit, ReachVia cpuStep ChoosesAlone (.start crossedChildren) s ∧
      s.plock 4 = some 1 ∧ s.plock 2 = some 0 ∧ ¬ LockCycle s := by
  obtain ⟨s, hs, h4, h2⟩ := exists_of_run cpuStep ChoosesAlone (.start crossedChildren)
    (List.flatten [countsSlot4, List.replicate 8 (.sched 0)])
    (fun s : Cpus (Fin 2) Unit => s.plock 4 = some 1 ∧ s.plock 2 = some 0) (by decide +kernel)
  exact ⟨s, hs, h4, h2, no_lockCycle hs⟩

/-- When processor 0 has chosen the process in slot 3, it spins for the lock of slot 4, which
processor 1 keeps while it counts, and processor 1 gets to slot 3. -/
theorem crossedChildren_lockCycle :
    ∃ s : Cpus (Fin 2) Unit, Reach cpuStep (.start crossedChildren) s ∧ LockCycle s := by
  obtain ⟨s, hs, h3, h4, hspin1, hspin0⟩ := exists_of_run cpuStep (fun _ _ => True)
    (.start crossedChildren)
    (List.flatten [countsSlot4, List.replicate 12 (.sched 0), List.replicate 9 (.sched 1)])
    (fun s : Cpus (Fin 2) Unit => s.plock 3 = some 0 ∧ s.plock 4 = some 1 ∧
      (s.pc 1).spinsFor 3 = true ∧ (s.pc 0).spinsFor 4 = true) (by decide +kernel)
  refine ⟨s, hs, 0, id, injective_id, fun i => ?_⟩
  fin_cases i
  · exact ⟨3, h3, hspin1⟩
  · exact ⟨4, h4, hspin0⟩

end SustainableXv6
