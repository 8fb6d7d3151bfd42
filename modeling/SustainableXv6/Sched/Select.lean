import SustainableXv6.Proc.Ops

/-!
# The choice of `scheduler`

One iteration of `scheduler` of `kernel/proc.c` looks for a process to run in up to three passes
over the table: the runnable child of `schedtest` with the lowest pid among those with more energy
than `LOW_ENERGY_THRESHOLD`, then the one with the lowest pid among all of them, and then the first
runnable process of the table. `chooseProc` is that choice in a table that does not change during
the iteration.

The first two passes differ in their test only, so `lowestPid` is such a pass for any test, and
`lowestPid_some` and `lowestPid_eq_none` say what it finds. `chooseProc_cases` puts the three passes
together, and the law of the energy tiers is read off from it (`chooseProc_tierLaw`). The law holds
among the children of `schedtest`. Among all processes of the table it does not
(`mixedTable_not_tierLaw`), because the passes that look at the energy skip every process that is
not a child of `schedtest`.
-/

namespace SustainableXv6

variable {K : Type} {t : Table K}

/-! ## The passes -/

/-- The energy budget at or below which a process is deprioritized. -/
def LOW_ENERGY_THRESHOLD : UInt64 := 100

/-- A round of the first two passes: `chosen` after the process `p`, where `f` is the test of the
pass. -/
def selectRound (t : Table K) (f : Slot → Bool) (chosen : Option Slot) (p : Slot) : Option Slot :=
  if f p then
    match chosen with
    | none => some p
    | some q => if (t p).pid < (t q).pid then some p else some q
  else chosen

/-- One of the first two passes: the process with the lowest pid among those that pass the test. -/
def lowestPid (t : Table K) (f : Slot → Bool) : Option Slot :=
  (List.finRange NPROC).foldl (selectRound t f) none

/-- The test of the first pass: a runnable child of `schedtest` with good energy. -/
def highTest (t : Table K) (p : Slot) : Bool :=
  (t p).state = .runnable && schedtestChild t p && LOW_ENERGY_THRESHOLD < (t p).energy_budget

/-- The test of the second pass: a runnable child of `schedtest`. -/
def childTest (t : Table K) (p : Slot) : Bool := (t p).state = .runnable && schedtestChild t p

/-- The choice of one iteration of `scheduler`. -/
def chooseProc (t : Table K) : Option Slot :=
  match lowestPid t (highTest t) with
  | some p => some p
  | none =>
    match lowestPid t (childTest t) with
    | some p => some p
    | none => findSlot fun p => (t p).state = .runnable

/-! ## What the passes find -/

/-- What is known of `chosen` after the slots `ps`: it passes the test and has the lowest pid of
those that do, and it is 0 only if none does. -/
def Selected (t : Table K) (f : Slot → Bool) (ps : List Slot) : Option Slot → Prop
  | none => ∀ q ∈ ps, f q = false
  | some p => f p = true ∧ ∀ q ∈ ps, f q = true → (t p).pid ≤ (t q).pid

/-- A round keeps `chosen` the best so far. -/
theorem Selected.round {f : Slot → Bool} {ps : List Slot} {chosen : Option Slot}
    (h : Selected t f ps chosen) (p : Slot) :
    Selected t f (ps ++ [p]) (selectRound t f chosen p) := by
  unfold selectRound
  split_ifs with hf
  · cases chosen with
    | none =>
      refine ⟨hf, fun q hq hfq => ?_⟩
      rcases List.mem_append.mp hq with hq | hq
      · exact absurd hfq (by simp [h q hq])
      · rw [List.mem_singleton.mp hq]
    | some c =>
      obtain ⟨hc, hmin⟩ := h
      dsimp only
      split_ifs with hlt
      · refine ⟨hf, fun q hq hfq => ?_⟩
        rcases List.mem_append.mp hq with hq | hq
        · exact le_trans (le_of_lt hlt) (hmin q hq hfq)
        · rw [List.mem_singleton.mp hq]
      · refine ⟨hc, fun q hq hfq => ?_⟩
        rcases List.mem_append.mp hq with hq | hq
        · exact hmin q hq hfq
        · rw [List.mem_singleton.mp hq]
          exact not_lt.mp hlt
  · have hfp : f p = false := by simpa using hf
    cases chosen with
    | none =>
      intro q hq
      rcases List.mem_append.mp hq with hq | hq
      · exact h q hq
      · rwa [List.mem_singleton.mp hq]
    | some c =>
      refine ⟨h.1, fun q hq hfq => ?_⟩
      rcases List.mem_append.mp hq with hq | hq
      · exact h.2 q hq hfq
      · rw [List.mem_singleton.mp hq, hfp] at hfq
        simp at hfq

/-- A whole pass keeps `chosen` the best so far. -/
theorem selected_foldl {f : Slot → Bool} (ps : List Slot) :
    Selected t f ps (ps.foldl (selectRound t f) none) := by
  induction ps using List.reverseRecOn with
  | nil => simp [Selected]
  | append_singleton ps p ih =>
    rw [List.foldl_append]
    exact ih.round p

/-- The process that a pass chooses passes its test, and has the lowest pid of those that do. -/
theorem lowestPid_some {f : Slot → Bool} {p : Slot} (h : lowestPid t f = some p) :
    f p = true ∧ ∀ q, f q = true → (t p).pid ≤ (t q).pid := by
  have hs := selected_foldl (t := t) (f := f) (List.finRange NPROC)
  rw [← lowestPid, h] at hs
  exact ⟨hs.1, fun q hq => hs.2 q (List.mem_finRange q) hq⟩

/-- A pass chooses no process only if none passes its test. -/
theorem lowestPid_eq_none {f : Slot → Bool} (h : lowestPid t f = none) (q : Slot) :
    f q = false := by
  have hs := selected_foldl (t := t) (f := f) (List.finRange NPROC)
  rw [← lowestPid, h] at hs
  exact hs q (List.mem_finRange q)

/-- The first slot that passes a test comes before every other one that does. -/
theorem findSlot_le {f : Slot → Bool} {p q : Slot} (h : findSlot f = some p) (hq : f q = true) :
    p ≤ q := by
  by_contra hlt
  obtain ⟨-, as, bs, heq, has⟩ := List.find?_eq_some_iff_append.mp h
  have hmem : q ∈ as ++ p :: bs := heq ▸ List.mem_finRange q
  have hsorted : (as ++ p :: bs).Pairwise (· < ·) := heq ▸ List.pairwise_lt_finRange NPROC
  rcases List.mem_append.mp hmem with hmem | hmem
  · simpa [hq] using has q hmem
  · rcases List.mem_cons.mp hmem with rfl | hmem
    · exact hlt le_rfl
    · have := (List.pairwise_cons.mp (List.pairwise_append.mp hsorted).2.1).1 q hmem
      exact hlt (le_of_lt this)

/-- The pass that made the choice, and what it found. -/
theorem chooseProc_cases {p : Slot} (h : chooseProc t = some p) :
    lowestPid t (highTest t) = some p ∨
      ((∀ q, highTest t q = false) ∧ lowestPid t (childTest t) = some p) ∨
      ((∀ q, childTest t q = false) ∧ findSlot (fun q => (t q).state = .runnable) = some p) := by
  unfold chooseProc at h
  cases hhigh : lowestPid t (highTest t) with
  | some q =>
    rw [hhigh] at h
    exact .inl h
  | none =>
    rw [hhigh] at h
    cases hchild : lowestPid t (childTest t) with
    | some q =>
      rw [hchild] at h
      exact .inr (.inl ⟨lowestPid_eq_none hhigh, h⟩)
    | none =>
      rw [hchild] at h
      exact .inr (.inr ⟨lowestPid_eq_none hchild, h⟩)

/-- If no child of `schedtest` is runnable, the first runnable process of the table is chosen. -/
theorem chooseProc_of_no_child (h : ∀ q, childTest t q = false) :
    chooseProc t = findSlot fun q => (t q).state = .runnable := by
  have hchild : ∀ p, lowestPid t (childTest t) ≠ some p := fun p hp => by
    simpa [h p] using (lowestPid_some hp).1
  have hhigh : ∀ p, lowestPid t (highTest t) ≠ some p := fun p hp => by
    have hp := (lowestPid_some hp).1
    have := h p
    unfold highTest at hp
    unfold childTest at this
    simp [this] at hp
  unfold chooseProc
  rw [Option.eq_none_iff_forall_ne_some.mpr hhigh, Option.eq_none_iff_forall_ne_some.mpr hchild]

/-! ## The energy tiers -/

/-- Both processes have more energy left than the threshold, or neither has. -/
def Proc.SameTier (p q : Proc K) : Prop :=
  LOW_ENERGY_THRESHOLD < p.energy_budget ↔ LOW_ENERGY_THRESHOLD < q.energy_budget

/-- The law of the two tiers for the choice of `p`, among the runnable processes in `A`: one of low
energy is chosen only if none has more, and it has the lowest pid of its tier. -/
def TierLaw (t : Table K) (A : Slot → Prop) (p : Slot) : Prop :=
  ((t p).energy_budget ≤ LOW_ENERGY_THRESHOLD →
    ∀ q, A q → (t q).state = .runnable → ¬ LOW_ENERGY_THRESHOLD < (t q).energy_budget) ∧
  ∀ q, A q → (t q).state = .runnable → (t p).SameTier (t q) → (t p).pid ≤ (t q).pid

/-- The tests of the first two passes, for a runnable child of `schedtest`. -/
theorem childTest_eq_true {q : Slot} :
    childTest t q = true ↔ (t q).state = .runnable ∧ schedtestChild t q = true := by
  simp [childTest]

theorem highTest_eq_true {q : Slot} :
    highTest t q = true ↔ ((t q).state = .runnable ∧ schedtestChild t q = true) ∧
      LOW_ENERGY_THRESHOLD < (t q).energy_budget := by
  simp [highTest]

/-- **The choice obeys the law of the tiers among the children of `schedtest`.** A process that is
not one of them is chosen only if none of them is runnable, and then it is the first runnable
process of the table, whatever its energy and its pid. -/
theorem chooseProc_tierLaw (t : Table K) (p : Slot) (h : chooseProc t = some p) :
    (schedtestChild t p = true → TierLaw t (fun q => schedtestChild t q = true) p) ∧
      (schedtestChild t p = false →
        ∀ q, (t q).state = .runnable → schedtestChild t q = false ∧ p ≤ q) := by
  rcases chooseProc_cases h with hp | ⟨hhigh, hp⟩ | ⟨hchild, hp⟩
  · -- The first pass: the choice is in the high tier.
    obtain ⟨hp, hmin⟩ := lowestPid_some hp
    obtain ⟨⟨hrun, hpc⟩, hpe⟩ := highTest_eq_true.mp hp
    refine ⟨fun _ => ⟨fun hle => ?_, fun q hqc hq htier => ?_⟩, fun hnc => ?_⟩
    · exact absurd hpe (UInt64.not_lt.mpr hle)
    · exact hmin q (highTest_eq_true.mpr ⟨⟨hq, hqc⟩, htier.mp hpe⟩)
    · simp [hnc] at hpc
  · -- The second pass: the high tier is empty.
    obtain ⟨hp, hmin⟩ := lowestPid_some hp
    obtain ⟨hrun, hpc⟩ := childTest_eq_true.mp hp
    refine ⟨fun _ => ⟨fun _ q hqc hq hlt => ?_, fun q hqc hq _ => ?_⟩, fun hnc => ?_⟩
    · have := highTest_eq_true.mpr ⟨⟨hq, hqc⟩, hlt⟩
      simp [hhigh q] at this
    · exact hmin q (childTest_eq_true.mpr ⟨hq, hqc⟩)
    · simp [hnc] at hpc
  · -- The third pass: no child of `schedtest` is runnable.
    have hrun : (t p).state = .runnable := by simpa using findSlot_some hp
    refine ⟨fun hpc => ?_, fun _ q hq => ⟨?_, findSlot_le hp (by simpa using hq)⟩⟩
    · have := childTest_eq_true.mpr ⟨hrun, hpc⟩
      simp [hchild p] at this
    · by_contra hqc
      have := childTest_eq_true.mpr ⟨hq, by simpa using hqc⟩
      simp [hchild q] at this

/-- A process in a given slot of the tables below. -/
def Proc.sample (state : ProcState) (pid : ℤ) (parent : Option Slot) (name : String)
    (energy_budget : UInt64) : Proc Unit :=
  { (Proc.zero : Proc Unit).alloc pid with
    state := state, parent := parent, name := name, energy_budget := energy_budget }

/-- The shell has run `schedtest` in the background and can run itself, and the only child of
`schedtest` has used up its energy but for 50 ticks. -/
def mixedTable : Table Unit := fun p =>
  match p.val with
  | 0 => .sample .sleeping 1 none "init" 900
  | 1 => .sample .runnable 2 (some 0) "sh" 900
  | 2 => .sample .sleeping 3 (some 1) "schedtest" 900
  | 3 => .sample .runnable 4 (some 2) "schedtest" 50
  | _ => .zero

/-- The child of `schedtest` is chosen. -/
theorem chooseProc_tierLaw_mixedTable :
    chooseProc mixedTable = some 3 ∧
      TierLaw mixedTable (fun q => schedtestChild mixedTable q = true) 3 := by
  have h : chooseProc mixedTable = some 3 := by decide +kernel
  exact ⟨h, (chooseProc_tierLaw mixedTable 3 h).1 (by decide)⟩

/-- It is chosen although the shell is runnable and has energy above the threshold. -/
theorem mixedTable_not_tierLaw :
    chooseProc mixedTable = some 3 ∧ ¬ TierLaw mixedTable (fun _ => True) 3 := by
  refine ⟨by decide +kernel, fun h => ?_⟩
  exact h.1 (by decide) 1 trivial (by decide) (by decide)

end SustainableXv6
