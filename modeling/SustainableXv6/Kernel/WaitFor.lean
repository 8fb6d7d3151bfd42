import SustainableXv6.Kernel.Effect

/-!
# The wait-for graph of the sleep locks

A process waits for the owner of the lock in its `waiting_for_lock`, and the owner of a lock is the
process with the pid in the lock. A process becomes the owner of a lock only by taking it
(`Owns.of_effect`), and starts to wait only by registering (`Effect.waiting`). Hence an edge of the
graph appears only when its first process registers, or else ends at a process that waits for
nothing (`waitEdge_of_effect`), and a cycle appears only when a member registers
(`isCycle_of_effect`).
-/

namespace SustainableXv6

open Function Lib

variable {K : Type} {s s' : State K}

/-- The process `q` owns the lock `l`: it is locked, and its pid is that of `q`. -/
def Owns (s : State K) (q : Slot) (l : Lock K) : Prop :=
  (s.lock l).locked = true ∧ (s.proc q).state ≠ .unused ∧ (s.lock l).pid = (s.proc q).pid

instance (s : State K) (q : Slot) (l : Lock K) : Decidable (Owns s q l) :=
  inferInstanceAs (Decidable (_ ∧ _))

/-- The wait-for graph: an edge leads from a process to the owner of the lock that it waits for. -/
def WaitEdge (s : State K) (p q : Slot) : Prop :=
  ∃ l, (s.proc p).waiting_for_lock = some l ∧ Owns s q l

/-- The process `p` sleeps in `acquiresleep` on a lock that `q` owns. -/
def BlockedOn (s : State K) (p q : Slot) : Prop :=
  (s.proc p).state = .sleeping ∧ ∃ l, s.pc p = .asleep l ∧ Owns s q l

/-- A process that sleeps on a lock waits for its owner. -/
theorem BlockedOn.waitEdge (hL : LocalInv s) {p q : Slot} (h : BlockedOn s p q) :
    WaitEdge s p q := by
  obtain ⟨-, l, hpc, hown⟩ := h
  exact ⟨l, (hL.proc p).asked l (by rw [hpc]; rfl), hown⟩

/-- A lock has one owner. -/
theorem Owns.unique (hP : PidInv s) {p q : Slot} {l : Lock K} (hp : Owns s p l) (hq : Owns s q l) :
    p = q :=
  hP.inj p q hp.2.1 hq.2.1 (hp.2.2.symm.trans hq.2.2)

/-- A process waits for one other. -/
theorem waitEdge_rightUnique (hP : PidInv s) : Relator.RightUnique (WaitEdge s) := by
  rintro p q r ⟨l, hl, hq⟩ ⟨l', hl', hr⟩
  obtain rfl : l = l' := Option.some.inj (hl.symm.trans hl')
  exact hq.unique hP hr

/-- `pid2proc` finds the owner of a lock. -/
theorem Owns.pid2proc_eq (hP : PidInv s) {q : Slot} {l : Lock K} (h : Owns s q l) :
    pid2proc s.proc (s.lock l).pid = some q := by
  have hpos := hP.pos q h.2.1
  unfold pid2proc
  rw [if_neg (by rw [h.2.2]; omega)]
  refine findSlot_eq_some_of_unique (by simp [h.2.1, h.2.2]) fun r hr => ?_
  simp only [decide_eq_true_eq] at hr
  exact hP.inj r q hr.2 h.2.1 (hr.1.trans h.2.2)

/-- The members of a cycle all wait. -/
theorem waiting_of_isCycle {k : ℕ} {c : Fin (k + 1) → Slot} (hc : IsCycle (WaitEdge s) c)
    (i : Fin (k + 1)) : ∃ l, (s.proc (c i)).waiting_for_lock = some l := by
  obtain ⟨l, hl, -⟩ := hc i
  exact ⟨l, hl⟩

/-! ## How a step changes the graph -/

/-- Where a recovery goes astray, a process that waits becomes the owner of no lock. -/
theorem Owns.of_stray (hL : LocalInv s) {a : Act K} (hs : Stray s a s') {q : Slot} {l : Lock K}
    (h : Owns s' q l) (hw : (s.proc q).waiting_for_lock ≠ none) : Owns s q l := by
  obtain ⟨p, ok, l', v, -, -⟩ := hs
  refine ⟨h.1, fun hu => ?_, h.2.2.trans ?_⟩
  · -- A slot that runs nothing waits for no lock.
    have hidle := (hL.proc q).idle (.inl fun ha => ha.1 hu)
    exact hw ((hL.proc q).waiting_eq_none (Pc.waits_of_idle hidle) fun he => by
      rw [he] at hidle; cases hidle)
  · by_cases hq : q = v <;> simp [execRecovery, recoverRound, hq]

/-- The cycles of the graph have been there before it. -/
theorem isCycle_of_stray (hL : LocalInv s) {a : Act K} (hs : Stray s a s') {k : ℕ}
    {c : Fin (k + 1) → Slot} (hc : IsCycle (WaitEdge s') c) : IsCycle (WaitEdge s) c := by
  have hwait : ∀ p, (s'.proc p).waiting_for_lock = (s.proc p).waiting_for_lock := by
    obtain ⟨-, -, -, v, -, -⟩ := hs
    intro p
    by_cases hp : p = v <;> simp [execRecovery, recoverRound, hp]
  intro i
  obtain ⟨l, hl, hown⟩ := hc i
  obtain ⟨l', hl'⟩ := waiting_of_isCycle hc (i + 1)
  exact ⟨l, (hwait _).symm.trans hl, hown.of_stray hL hs (by simp [← hwait, hl'])⟩

/-- The processes blocked in a cycle have been so before it. -/
theorem isCycle_blockedOn_of_stray (hL : LocalInv s) {a : Act K} (hs : Stray s a s') {k : ℕ}
    {c : Fin (k + 1) → Slot} (hc : IsCycle (BlockedOn s') c) : IsCycle (BlockedOn s) c := by
  -- A process that sleeps is neither the one that recovers nor its victim.
  have hasleep : ∀ p l, (s'.proc p).state = .sleeping → s'.pc p = .asleep l →
      (s.proc p).state = .sleeping ∧ s.pc p = .asleep l := by
    obtain ⟨q, ok, l', v, -, -⟩ := hs
    intro p l hst hpc
    have hpv : p ≠ v := by
      rintro rfl
      simp [execRecovery, recoverRound] at hst
    have hpq : p ≠ q := by
      rintro rfl
      simp [execRecovery, recoverRound] at hpc
    simp only [execRecovery, recoverRound, State.setPc_proc, State.setTable_proc, State.setPc_pc,
      State.setTable_pc, update_of_ne hpv, update_of_ne hpq] at hst hpc
    exact ⟨hst, hpc⟩
  intro i
  obtain ⟨hst, l, hpc, hown⟩ := hc i
  obtain ⟨hst', l', hpc', -⟩ := hc (i + 1)
  have hw := (hL.proc (c (i + 1))).asked l' (by rw [(hasleep _ _ hst' hpc').2]; rfl)
  exact ⟨(hasleep _ _ hst hpc).1, l, (hasleep _ _ hst hpc).2, hown.of_stray hL hs (by simp [hw])⟩

variable [DecidableEq K]

/-- An owner after a step was the owner before, or has just taken the lock. -/
theorem Owns.of_effect (hP : PidInv s) {a : Act K} (he : Effect s a s') {q : Slot} {l : Lock K}
    (h : Owns s' q l) :
    Owns s q l ∨ s.pc q = .take l ∧ (s'.pc q = .ret 0 ∨ s'.pc q = .panicked) ∧
      (s'.proc q).waiting_for_lock = none := by
  have hlock : (s.lock l).pid = (s'.lock l).pid ∧ (s.lock l).locked = true ∨
      s.pc q = .take l ∧ (s'.pc q = .ret 0 ∨ s'.pc q = .panicked) ∧
        (s'.proc q).waiting_for_lock = none := by
    have hP' := hP.effect he
    rcases he.locked h.1 with ⟨hlocked, hpid⟩ | ⟨-, hpid, -⟩ | ⟨p, hrun, hpc, hpid, hpc', hproc⟩
    · exact .inl ⟨hpid.symm, hlocked⟩
    · -- No process in use has the pid 0.
      have hpos := hP'.pos q h.2.1
      rw [← h.2.2, hpid] at hpos
      exact absurd hpos (by omega)
    · obtain rfl : q = p := by
        refine hP'.inj q p h.2.1 (by simp [hproc, hrun]) ?_
        rw [← h.2.2, hpid, hproc]
      exact .inr ⟨hpc, hpc', by rw [hproc]⟩
  rcases hlock with ⟨hpid, hlocked⟩ | htaken
  · left
    rcases he.pid q with ⟨hsame, hunused⟩ | ⟨-, hnew, -, -, -⟩ | ⟨-, hunused, -⟩
    · exact ⟨hlocked, fun hu => h.2.1 (hunused.mpr hu), by rw [hpid, h.2.2, hsame]⟩
    · -- The pid of a new process is in no lock.
      have hlt := hP.lock l
      rw [hpid, h.2.2, hnew] at hlt
      exact absurd hlt (by omega)
    · exact absurd hunused h.2.1
  · exact .inr htaken

/-- A process that waits after a step waited for the same lock before, or has just registered. -/
theorem Effect.waiting {a : Act K} (he : Effect s a s') {p : Slot} {l : Lock K}
    (h : (s'.proc p).waiting_for_lock = some l) :
    (s.proc p).waiting_for_lock = some l ∨ s.pc p = .register l ∧ s' = execRegister s p l := by
  cases he with
  | quiet hproc hlock hnext => exact .inl ((hproc p).waiting_for_lock ▸ h)
  | init q ok c w ha hpc hproc hlock hnext => exact .inl (by rw [← hproc]; exact h)
  | register q l' hpc hs =>
    subst hs
    by_cases hp : p = q
    · subst hp
      obtain rfl : l' = l := by simpa [execRegister] using h
      exact .inr ⟨hpc, rfl⟩
    · exact .inl (by simpa [execRegister, hp] using h)
  | report q l' o n hpc hpc' hproc hlock hnext =>
    rw [hproc] at h
    by_cases hp : p = q
    · exact .inl (by simpa [hp] using h)
    · exact .inl (by simpa [hp] using h)
  | take q l' hrun hpc hproc hlock htaken hpc' hnext =>
    rw [hproc] at h
    by_cases hp : p = q
    · simp [hp] at h
    · exact .inl (by simpa [hp] using h)
  | alloc q name hunused hproc hlock hnext =>
    rw [hproc] at h
    by_cases hp : p = q
    · simp [hp, Proc.alloc] at h
    · exact .inl (by simpa [hp] using h)
  | freed q old hdead hproc hlock hheld hnext =>
    rw [hproc] at h
    by_cases hp : p = q
    · simp [hp, freeproc] at h
    · exact .inl (by simpa [hp] using h)
  | exited q ok status ha hrun hpc hs =>
    subst hs
    by_cases hp : p = q
    · subst hp
      exact .inl ((kexit_self s.proc p status).2.2.1.symm.trans h)
    · exact .inl ((kexit_passive_of_ne s.proc q status hp).waiting_for_lock.symm.trans h)

/-- An edge of the wait-for graph after a step was there before, or its first process has just
registered its wait, or it ends at a process that waits for nothing. -/
theorem waitEdge_of_effect (hP : PidInv s) {a : Act K} (he : Effect s a s') {p q : Slot}
    (h : WaitEdge s' p q) :
    WaitEdge s p q ∨ (∃ l, s.pc p = .register l ∧ s' = execRegister s p l) ∨
      (s'.proc q).waiting_for_lock = none := by
  obtain ⟨l, hl, hq⟩ := h
  rcases he.waiting hl with hl | ⟨hpc, hs⟩
  · rcases hq.of_effect hP he with hq | ⟨-, -, hq⟩
    · exact .inl ⟨l, hl, hq⟩
    · exact .inr (.inr hq)
  · exact .inr (.inl ⟨l, hpc, hs⟩)

/-- A cycle after a step was there before, or one of its members has just registered its wait. -/
theorem isCycle_of_effect (hP : PidInv s) {a : Act K} (he : Effect s a s') {k : ℕ}
    {c : Fin (k + 1) → Slot} (hc : IsCycle (WaitEdge s') c) :
    IsCycle (WaitEdge s) c ∨ ∃ i l, s.pc (c i) = .register l ∧ s' = execRegister s (c i) l := by
  by_contra! hn
  obtain ⟨hno, hreg⟩ := hn
  refine hno fun i => ?_
  rcases waitEdge_of_effect hP he (hc i) with h | ⟨l, hpc, hs⟩ | h
  · exact h
  · exact absurd hs (hreg i l hpc)
  · obtain ⟨l, hl⟩ := waiting_of_isCycle hc (i + 1)
    rw [h] at hl
    cases hl

/-- A process that waits after a step has kept its pid, and its count of reports unless its own walk
has returned 1. -/
theorem Effect.of_waiting {a : Act K} (he : Effect s a s') {q : Slot}
    (hw : (s'.proc q).waiting_for_lock ≠ none) :
    (s'.proc q).pid = (s.proc q).pid ∧
      ((s'.proc q).deadlock_reports = (s.proc q).deadlock_reports ∨
        (s.pc q).walking = true ∧ ∃ l, s'.pc q = .recover l .start) := by
  cases he with
  | quiet hproc hlock hnext => exact ⟨(hproc q).pid, .inl (hproc q).deadlock_reports⟩
  | init p ok c w ha hpc hproc hlock hnext => rw [hproc]; exact ⟨rfl, .inl rfl⟩
  | register p l hpc hs =>
    subst hs
    by_cases hq : q = p <;> simp [execRegister, hq]
  | report p l o n hpc hpc' hproc hlock hnext =>
    rw [hproc]
    by_cases hq : q = p
    · subst hq
      exact ⟨by simp, .inr ⟨by rw [hpc]; rfl, l, hpc'⟩⟩
    · simp [hq]
  | take p l hrun hpc hproc hlock htaken hpc' hnext =>
    rw [hproc]
    by_cases hq : q = p <;> simp [hq]
  | alloc p name hunused hproc hlock hnext =>
    rw [hproc] at hw ⊢
    by_cases hq : q = p
    · exact absurd (by simp [hq, Proc.alloc]) hw
    · simp [hq]
  | freed p old hdead hproc hlock hheld hnext =>
    rw [hproc] at hw ⊢
    by_cases hq : q = p
    · exact absurd (by simp [hq, freeproc]) hw
    · simp [hq]
  | exited p ok status ha hrun hpc hs =>
    subst hs
    by_cases hq : q = p
    · subst hq
      obtain ⟨-, hpid, -, hrep, -⟩ := kexit_self s.proc q status
      exact ⟨hpid, .inl hrep⟩
    · have hpas := kexit_passive_of_ne s.proc p status hq
      exact ⟨hpas.pid, .inl hpas.deadlock_reports⟩

end SustainableXv6
