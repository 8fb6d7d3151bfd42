import SustainableXv6.Family.Invariant

/-!
# Steps of `kfork`, `kexit`, and `kwait`

Every step of a process in the kernel keeps the invariant of `Family.Invariant`. Most steps go on
from one ordinary place to another and leave the processes as they are, which is one lemma. The
steps that make a child, give it a parent, start it, make a zombie, and free one have a lemma each.
-/

namespace SustainableXv6.Family

open Function Lib

variable {C K F D : Type} {s s' : State C K F D} {c : C} {p q : Slot} {x y : Code K}

/-- A process is killed, by `kkill` or by `check_deadlock`. -/
theorem kept_kill {r r' : Proc K} (hpid : r'.pid = r.pid) (hxstate : r'.xstate = r.xstate)
    (hparent : r'.parent = r.parent) (hstate : r'.state = r.state.wake) : Kept r r' := by
  by_cases hsleep : r.state = .sleeping
  · exact .of_started hpid hxstate hparent (.inr (.inr hsleep))
      (.inl (by simp [hstate, hsleep, ProcState.wake]))
  · exact .of_state (fun _ => hpid) (fun _ => hxstate) hparent
      (by simp [hstate, hsleep, ProcState.wake])

/-- Both invariants. -/
structure Inv (s : State C K F D) : Prop where
  core : Core s
  hist : Hist s

namespace Inv

variable (h : Inv s)
include h

/-- The process on a processor runs. -/
theorem started (hc : s.cpuproc c = some p) : Started (s.proc p).state :=
  .inr (.inl (h.core.cpu c p hc))

/-- A process that is not started is in the kernel no longer. -/
theorem not_busy (hp : ¬ Started (s.proc p).state) : (s.code p).busy = false := by
  cases hbusy : (s.code p).busy with
  | false => rfl
  | true => exact absurd (h.core.busy p hbusy) hp

/-- The holder of `wait_lock` after a step that leaves it alone. -/
theorem keepLock (hcode : s'.code = update s.code p y) (hlock : s'.wait_lock = s.wait_lock)
    (hy : y.locked = (s.code p).locked) (q : Slot) :
    s'.wait_lock = some q ↔ (s'.code q).locked = true := by
  rw [hlock, h.core.lock q, hcode]
  by_cases hq : q = p
  · rw [hq, update_self, hy]
  · rw [update_of_ne hq]

/-- The holder of `wait_lock` after it has been acquired. -/
theorem acquireLock (hcode : s'.code = update s.code p y) (hfree : s.wait_lock = none)
    (hlock : s'.wait_lock = some p) (hy : y.locked = true) (q : Slot) :
    s'.wait_lock = some q ↔ (s'.code q).locked = true := by
  rw [hlock, hcode]
  by_cases hq : q = p
  · simp [hq, hy]
  · have hnot : (s.code q).locked ≠ true := by
      rw [ne_eq, ← h.core.lock q, hfree]
      simp
    simp [hq, Ne.symm hq, hnot]

/-- The holder of `wait_lock` after it has been released. -/
theorem releaseLock (hcode : s'.code = update s.code p y)
    (hold : (s.code p).locked = true) (hlock : s'.wait_lock = none) (hy : y.locked = false)
    (q : Slot) : s'.wait_lock = some q ↔ (s'.code q).locked = true := by
  have hheld := (h.core.lock p).mpr hold
  rw [hlock, hcode]
  by_cases hq : q = p
  · simp [hq, hy]
  · have hnot : (s.code q).locked ≠ true := by
      rw [ne_eq, ← h.core.lock q, hheld]
      simpa using Ne.symm hq
    simp [hq, hnot]

/-- The process `p` on a processor goes on, and the processes are kept. -/
theorem goOn (hc : s.cpuproc c = some p) (hproc : ∀ q, Kept (s.proc q) (s'.proc q))
    (hrun : ∀ q, (s.proc q).state = .running → (s'.proc q).state = .running)
    (hcode : s'.code = update s.code p y) (hcpu : s'.cpuproc = s.cpuproc)
    (hpid : s.nextpid ≤ s'.nextpid) (hexits : s'.exits = s.exits) (hreaps : s'.reaps = s.reaps)
    (hlock : ∀ q, s'.wait_lock = some q ↔ (s'.code q).locked = true)
    (hy : Goes s p y) : Inv s' :=
  ⟨h.core.kept hproc hcode (fun _ => h.started hc)
      (fun c q hq => hrun q (h.core.cpu c q (hcpu ▸ hq)))
      (fun c c' q hq hq' => h.core.uniq c c' q (hcpu ▸ hq) (hcpu ▸ hq')) hlock hy,
    h.hist.same (fun q => (hproc q).toSame) hpid hexits hreaps⟩

/-- The process `p` on a processor goes on, and assigns nothing. -/
theorem goto (hc : s.cpuproc c = some p) (hlock : y.locked = (s.code p).locked)
    (hy : Goes s p y) : Inv (s.goto p y) :=
  h.goOn hc (fun _ => .refl _) (fun _ hq => hq) rfl rfl le_rfl rfl rfl
    (h.keepLock rfl rfl hlock) hy

/-- The process `p` on a processor assigns to one slot, and goes on. -/
theorem assign {r : Proc K} (hc : s.cpuproc c = some p) (hr : Kept (s.proc q) r)
    (hrun : (s.proc q).state = .running → r.state = .running)
    (hlock : y.locked = (s.code p).locked) (hy : Goes s p y) : Inv ((s.setProc q r).goto p y) := by
  refine h.goOn hc (fun q' => ?_) (fun q' hq' => ?_) rfl rfl le_rfl rfl rfl
    (h.keepLock rfl rfl hlock) hy
  · by_cases hq : q' = q
    · simpa [hq] using hr
    · simpa [hq] using Kept.refl (s.proc q')
  · by_cases hq : q' = q
    · subst hq
      simpa using hrun hq'
    · simpa [hq] using hq'

variable [DecidableEq C]

/-- The process `p` on the processor `c` goes off it, with a state in which it can be woken or
switched to. -/
theorem leave {r : Proc K} {l : Option Slot} (hc : s.cpuproc c = some p)
    (hr : Kept (s.proc p) r)
    (hlock : ∀ q, l = some q ↔ (update s.code p y q).locked = true)
    (hy : Goes s p y) :
    Inv ((((s.setProc p r).goto p y).setLock l).leave c) := by
  have hproc (q : Slot) : Kept (s.proc q) (update s.proc p r q) := by
    by_cases hq : q = p
    · simpa [hq] using hr
    · simpa [hq] using Kept.refl (s.proc q)
  have hother {c' : C} {q : Slot} (hq : update s.cpuproc c none c' = some q) :
      c' ≠ c ∧ s.cpuproc c' = some q := by
    have hne : c' ≠ c := by
      rintro rfl
      simp at hq
    exact ⟨hne, by simpa [hne] using hq⟩
  refine ⟨h.core.kept (y := y) hproc rfl (fun _ => h.started hc) (fun c' q hq => ?_)
    (fun c' c'' q hq hq' => h.core.uniq c' c'' q (hother hq).2 (hother hq').2) hlock hy,
    h.hist.same (fun q => (hproc q).toSame) le_rfl rfl rfl⟩
  obtain ⟨hne, hold⟩ := hother hq
  have hqp : q ≠ p := by
    rintro rfl
    exact hne (h.core.uniq c' c q hold hc)
  simpa [hqp] using h.core.cpu c' q hold

/-! ## Special steps -/

omit [DecidableEq C]

/-- The process `p` on a processor stores to one slot, and goes on. -/
theorem store {r : Proc K} (hc : s.cpuproc c = some p) (hr : Stores s p q r y)
    (hrun : (s.proc q).state = .running → r.state = .running)
    (hproc : s'.proc = update s.proc q r) (hcode : s'.code = update s.code p y)
    (hcpu : s'.cpuproc = s.cpuproc) (hwait : s'.wait_lock = s.wait_lock)
    (hlock : y.locked = (s.code p).locked) (hist : Hist s') : Inv s' := by
  refine ⟨h.core.store (h.started hc) hr hproc (by rw [hcode, update_self])
    (fun p' hp' => .inl (by rw [hcode, update_of_ne hp'])) (fun c' q' hq' => ?_)
    (fun c₁ c₂ q' h₁ h₂ => h.core.uniq c₁ c₂ q' (hcpu ▸ h₁) (hcpu ▸ h₂))
    (h.keepLock hcode hwait hlock), hist⟩
  have hold := h.core.cpu c' q' (hcpu ▸ hq')
  rw [hproc]
  by_cases hqq : q' = q
  · subst hqq
    rw [update_self]
    exact hrun hold
  · rwa [update_of_ne hqq]

/-- `kfork` allocates a slot. -/
theorem forkAlloc {np : Slot} {rest : List Slot} (hc : s.cpuproc c = some p)
    (hcode : s.code p = .forkScan (np :: rest)) (hnp : (s.proc np).state = .unused) :
    Inv (execFork s p np true) := by
  have hrunning := h.core.cpu c p hc
  have hpnp : p ≠ np := by
    rintro rfl
    simp [hnp] at hrunning
  have hnpcode := h.not_busy (p := np) (by simp [hnp, Started])
  have hself : (execFork s p np true).code p = .forkParent np s.nextpid := by simp [execFork]
  have hchildcode : (execFork s p np true).code np = .user := by
    simp [execFork, Ne.symm hpnp]
  have hother {q : Slot} (hqp : q ≠ p) (hqnp : q ≠ np) :
      (execFork s p np true).code q = s.code q := by
    simp [execFork, hqp, hqnp]
  have hproc {q : Slot} (hq : q ≠ np) : (execFork s p np true).proc q = s.proc q := by
    simp [execFork, hq]
  have hparent : (s.proc np).parent = none := h.core.unused np hnp
  have hstores : Stores s p np { (s.proc np).alloc s.nextpid with name := (s.proc p).name }
      (.forkParent np s.nextpid) := by
    refine ⟨fun hs => absurd hnp hs.ne.1, by simp [hnp], fun q hq => ?_, by simp [Proc.alloc],
      fun r hr => ?_, fun _ _ _ => .inl ⟨_, rfl⟩, by simp [hcode], by simp [Code.adopts],
      fun p' _ _ _ hr => ?_, fun _ => rfl⟩
    · obtain rfl : np = q := by simpa [Code.child] using hq
      refine ⟨by simp [Proc.alloc], fun p' _ hp' => ?_⟩
      simpa [hnp] using h.core.child p' np hp'
    · exact absurd (hparent.symm.trans hr) (by simp)
    · exact absurd (hparent.symm.trans hr) (by simp)
  refine ⟨h.core.store (h.started hc) hstores rfl hself (fun p' hp' => ?_) (fun c' q hq => ?_)
    h.core.uniq (fun q => ?_),
    h.hist.alloc (fun q hq => hproc hq) hnp (by simp [execFork, Proc.alloc])
      (by simp [execFork, Proc.alloc]) rfl rfl rfl⟩
  · by_cases hpn : p' = np
    · exact .inr ⟨hpn ▸ hchildcode, hpn ▸ hnpcode⟩
    · exact .inl (hother hp' hpn)
  · have hrun := h.core.cpu c' q hq
    have hqnp : q ≠ np := by
      rintro rfl
      simp [hnp] at hrun
    rwa [hproc hqnp]
  · change s.wait_lock = some q ↔ _
    rw [h.core.lock q]
    by_cases hqp : q = p
    · rw [hqp, hself, hcode]
      rfl
    · by_cases hqnp : q = np
      · rw [hqnp, hchildcode, Code.locked_of_not_busy hnpcode]
        rfl
      · rw [hother hqp hqnp]

/-- `kfork` finds no memory. -/
theorem forkFail {np : Slot} {rest : List Slot} (hc : s.cpuproc c = some p)
    (hcode : s.code p = .forkScan (np :: rest)) (hnp : (s.proc np).state = .unused) :
    Inv (execFork s p np false) := by
  refine h.goOn (y := .ret (-1)) hc (fun q => ?_) (fun q hq => ?_) rfl rfl (by simp [execFork]) rfl
    rfl (h.keepLock rfl rfl (by rw [hcode]; rfl))
    (.ordinary (by rw [hcode]; exact ⟨rfl, rfl, rfl⟩) ⟨rfl, rfl, rfl⟩)
  · by_cases hq : q = np
    · subst hq
      refine .of_state (fun hne => absurd hnp hne) (fun hne => absurd hnp hne) ?_ ?_
      · simp [execFork, freeproc, h.core.unused q hnp]
      · simp [execFork, freeproc, hnp]
    · simpa [execFork, hq] using Kept.refl (s.proc q)
  · have hqnp : q ≠ np := by
      rintro rfl
      simp [hnp] at hq
    simpa [execFork, hqnp] using hq

/-- The process `p` makes the process `r`, which has not exited, the parent of `q`, and goes on. -/
theorem stores_parent {r : Slot} (hq : (s.proc q).state ≠ .unused) (hr : Started (s.proc r).state)
    (hchild : y.child = (s.code p).child) (hbusy : y.busy = true)
    (hparent : ∀ q' pid, s.code p = .forkParent q' pid → q' = q)
    (hadopts : ∀ rest, y.adopts = some rest → r ≠ p ∧ ∀ q' ∉ rest, q' ≠ q →
      (s.proc q').parent ≠ some p)
    (hothers : ∀ p' rest, p' ≠ p → (s.code p').adopts = some rest → r ≠ p')
    (hexiting : p = initproc → y.exiting = false) :
    Stores s p q { s.proc q with parent := some r } y := by
  refine ⟨.inl, .inl, fun q' hq' => ?_, fun hu => absurd hu hq, fun r' hr' => ?_, by simp, hparent,
    fun rest hrest q' hq' => ?_, fun p' rest hp' hrest hr' => ?_, hexiting⟩
  · rw [hchild] at hq'
    have hused := h.core.child p q' hq'
    refine ⟨?_, fun p' hp' hp'' => hp' (h.core.childInj p' p q' hp'' hq')⟩
    by_cases hqq : q' = q
    · subst hqq
      simpa using hused
    · simpa [hqq] using hused
  · obtain rfl := Option.some.inj hr'
    exact .inr ⟨hr, hbusy⟩
  · obtain ⟨hrp, hrest⟩ := hadopts rest hrest
    by_cases hqq : q' = q
    · simpa [hqq] using hrp
    · simpa [hqq] using hrest q' hq' hqq
  · exact absurd (Option.some.inj hr') (hothers p' rest hp' hrest)

/-- `kfork` starts the child. -/
theorem stores_runnable {np : Slot} {pid : ℤ} (hcode : s.code p = .forkRun np pid) :
    Stores s p np { s.proc np with state := .runnable } (.ret pid) := by
  have hnpchild : (s.code p).child = some np := by rw [hcode]; rfl
  have hused : (s.proc np).state = .used := h.core.child p np hnpchild
  -- The child has a parent: otherwise the process would be at the step before.
  have hnp : np ≠ initproc → (s.proc np).parent ≠ none := by
    intro hne hnone
    obtain ⟨p', pid', hp'⟩ := h.core.orphan np (by simp [hused]) hne hnone
    obtain rfl := h.core.childInj p' p np (by rw [hp']; rfl) hnpchild
    simp [hcode] at hp'
  exact ⟨fun _ => .inl (.inl rfl), fun _ => .inr hnpchild, by simp [Code.child], by simp,
    fun _ hr => .inl hr, fun hne _ hnone => absurd hnone (hnp hne), by simp [hcode],
    by simp [Code.adopts], fun _ _ _ _ hr => hr,
    fun _ => rfl⟩

/-- The process `p` becomes a zombie. -/
theorem exitZombie [DecidableEq C] {status : ℤ} (hc : s.cpuproc c = some p)
    (hcode : s.code p = .exitZombie status) :
    Inv { ((((s.setProc p { s.proc p with xstate := status, state := .zombie }).goto p
      .dead).setLock none).leave c) with exits := s.exits ++ [⟨(s.proc p).pid, status⟩] } := by
  have hlive := (h.started hc).ne
  have hinit : p ≠ initproc := by
    rintro rfl
    simpa [hcode, Code.exiting] using h.core.init.2
  -- All children have been given away.
  have hnochild (q : Slot) : (s.proc q).parent ≠ some p :=
    h.core.adopts p [] (by rw [hcode]; rfl) q (by simp)
  have hcpu {c' : C} {q : Slot} (hq : update s.cpuproc c none c' = some q) :
      q ≠ p ∧ s.cpuproc c' = some q := by
    have hne : c' ≠ c := by
      rintro rfl
      simp at hq
    have hold : s.cpuproc c' = some q := by simpa [hne] using hq
    refine ⟨?_, hold⟩
    rintro rfl
    exact hne (h.core.uniq c' c q hold hc)
  have hstores : Stores s p p { s.proc p with xstate := status, state := .zombie } .dead :=
    ⟨fun _ => .inr ⟨rfl, rfl, rfl, hnochild⟩, fun hused => absurd hused hlive.2.1,
      by simp [Code.child], by simp, fun _ hr => .inl hr,
      fun _ _ hnone => .inr ⟨hlive.1, hnone, by simp [hcode]⟩, by simp [hcode],
      by simp [Code.adopts], fun _ _ _ _ hr => hr, fun hp => absurd hp hinit⟩
  refine ⟨h.core.store (h.started hc) hstores rfl (update_self ..)
    (fun p' hp' => .inl (update_of_ne hp' ..)) (fun c' q hq => ?_)
    (fun c₁ c₂ q h₁ h₂ => h.core.uniq c₁ c₂ q (hcpu h₁).2 (hcpu h₂).2)
    (h.releaseLock rfl (by rw [hcode]; rfl) rfl rfl),
    h.hist.exit (p := p) (fun q hq => by simp [hq]) (h.started hc) (by simp) (by simp) (by simp)
      rfl rfl rfl⟩
  obtain ⟨hqp, hold⟩ := hcpu hq
  simpa [hqp] using h.core.cpu c' q hold

/-- `kwait` frees a zombie. -/
theorem reap {pp : Slot} {addr : UInt64} {rest : List Slot} {havekids : Bool} {st : Option ℤ}
    (hc : s.cpuproc c = some p) (hcode : s.code p = .waitScan addr (pp :: rest) havekids)
    (hz : (s.proc pp).state = .zombie) (hst : ∀ x ∈ st, x = (s.proc pp).xstate) :
    Inv { (s.setProc pp (freeproc (s.proc pp))).goto p (.waitDone (s.proc pp).pid) with
      reaps := s.reaps ++ [⟨p, (s.proc pp).pid, st⟩] } := by
  have hstores : Stores s p pp (freeproc (s.proc pp)) (.waitDone (s.proc pp).pid) :=
    ⟨fun hs => absurd hz hs.ne.2.2, by simp [hz], by simp [Code.child], fun _ => rfl,
      by simp [freeproc], fun _ hu => absurd rfl hu, by simp [hcode], by simp [Code.adopts],
      by simp [freeproc], fun _ => rfl⟩
  exact h.store hc hstores (by simp [hz]) rfl rfl rfl rfl (by rw [hcode]; rfl)
    (h.hist.free (p := p) (fun q hq => by simp [hq]) hz (by simp [freeproc]) hst rfl rfl rfl)

end Inv

/-! ## Every step -/

/-- The process `p` may go on at `y` in a step that is not special. -/
structure Onward (s : State C K F D) (p : Slot) (y : Code K) : Prop extends Goes s p y where
  exits : y.exiting = true → (s.code p).exiting = true
  kill : ∀ pid rest, y = .killScan pid rest → ∃ rest', s.code p = .killScan pid rest'
  recovers : (s.code p).recovers = false → y.recovers = false

/-- The process `p` goes on outside of `kfork` and `kexit`. -/
theorem Onward.ordinary (hcode : s.code p = x) (hx : x.Ordinary) (hy : y.Ordinary)
    (hkill : ∀ pid rest, y = .killScan pid rest → ∃ rest', x = .killScan pid rest')
    (hrec : x.recovers = false → y.recovers = false) : Onward s p y :=
  ⟨.ordinary (hcode ▸ hx) hy, by simp [hy.2.2], hcode ▸ hkill, hcode ▸ hrec⟩

variable [DecidableEq C] [DecidableEq K]

/-- The next step of the process `p` on the processor `c`. -/
inductive ExecStep (s : State C K F D) (c : C) (p : Slot) (ok : Bool) : State C K F D → Prop
  /-- The process goes on. -/
  | goto (y : Code K) (hy : Onward s p y) (hlock : y.locked = (s.code p).locked) :
      ExecStep s c p ok (s.goto p y)
  /-- A round of `wakeup`. -/
  | wake (q : Slot) (chan : Option (Chan K)) (y : Code K) (hy : Onward s p y)
      (hlock : y.locked = (s.code p).locked) : ExecStep s c p ok (execWake s p q chan y)
  /-- `acquire(&wait_lock)`. -/
  | acquire (y : Code K) (hy : Onward s p y) (hfree : s.wait_lock = none)
      (hlock : y.locked = true) : ExecStep s c p ok ((s.setLock (some p)).goto p y)
  /-- `release(&wait_lock)`. -/
  | release (y : Code K) (hy : Onward s p y) (hheld : (s.code p).locked = true)
      (hlock : y.locked = false) : ExecStep s c p ok ((s.setLock none).goto p y)
  /-- `kexit` closes the files. -/
  | files (status : ℤ) (hcode : s.code p = .exitFiles status) (hp : p ≠ initproc) :
      ExecStep s c p ok { s.goto p (.exitWait status) with
        ofile := update s.ofile p fun _ => none
        cwd := update s.cwd p none }
  /-- `kfork` finds a slot. -/
  | fork (np : Slot) (rest : List Slot) (hcode : s.code p = .forkScan (np :: rest))
      (hnp : (s.proc np).state = .unused) : ExecStep s c p ok (execFork s p np ok)
  /-- A process gets a parent, or is started. -/
  | store (q : Slot) (r : Proc K) (y : Code K) (hr : Stores s p q r y) (hsame : Same (s.proc q) r)
      (hrun : (s.proc q).state = .running → r.state = .running) (hused : r.state ≠ .unused)
      (hkilled : r.killed = (s.proc q).killed) (hlock : y.locked = (s.code p).locked)
      (hexits : y.exiting = true → (s.code p).exiting = true)
      (hkill : ∀ pid rest, y ≠ .killScan pid rest) (hrec : y.recovers = false) :
      ExecStep s c p ok ((s.setProc q r).goto p y)
  /-- The process is past its sleep. -/
  | unchan (y : Code K) (hy : Onward s p y) (hlock : y.locked = (s.code p).locked) :
      ExecStep s c p ok ((s.setProc p { s.proc p with chan := none }).goto p y)
  /-- The process goes to sleep. -/
  | asleep (chan : Chan K) (l : Option Slot) (y : Code K) (hy : Onward s p y)
      (hlock : ∀ q, l = some q ↔ (update s.code p y q).locked = true) :
      ExecStep s c p ok ((((s.setProc p
        { s.proc p with chan := some chan, state := .sleeping }).goto p y).setLock l).leave c)
  /-- `kkill` finds the pid. -/
  | kill (q : Slot) (pid : ℤ) (rest : List Slot) (hcode : s.code p = .killScan pid (q :: rest))
      (hpid : (s.proc q).pid = pid) :
      ExecStep s c p ok ((s.setProc q (kill (s.proc q))).goto p (.ret 0))
  /-- The process becomes a zombie. -/
  | zombie (status : ℤ) (hcode : s.code p = .exitZombie status) :
      ExecStep s c p ok { ((((s.setProc p
        { s.proc p with xstate := status, state := .zombie }).goto p .dead).setLock none).leave
          c) with exits := s.exits ++ [⟨(s.proc p).pid, status⟩] }
  /-- `kwait` finds a child. -/
  | child (q : Slot) (addr : UInt64) (rest : List Slot) (havekids : Bool)
      (hcode : s.code p = .waitScan addr (q :: rest) havekids)
      (hq : (s.proc q).parent = some p) : ExecStep s c p ok (execChild s p q addr rest ok)
  /-- A step of a recovery. -/
  | recover (s' : State C K F D) (hx : (s.code p).recovers = true)
      (hs : exec s c p ok (s.code p) = some s') : ExecStep s c p ok s'

/-- The process goes from one ordinary place to another. -/
theorem ExecStep.next {ok : Bool} (hcode : s.code p = x) (hx : x.Ordinary) (hy : y.Ordinary)
    (hkill : ∀ pid rest, y = .killScan pid rest → ∃ rest', x = .killScan pid rest')
    (hrec : y.recovers = false) (hlock : y.locked = x.locked) : ExecStep s c p ok (s.goto p y) :=
  .goto y (.ordinary hcode hx hy hkill fun _ => hrec) (hcode ▸ hlock)

namespace Inv

variable (h : Inv s)
include h

/-- The next step of a process in `kexit`. -/
theorem execExit_cases {ok : Bool} (hx : (s.code p).exiting = true)
    (hs : exec s c p ok (s.code p) = some s') : ExecStep s c p ok s' := by
  have hinit : p ≠ initproc := by
    rintro rfl
    simp [h.core.init.2] at hx
  have hadopts {rest : List Slot} (hrest : (s.code p).adopts = some rest) (q : Slot)
      (hq : q ∉ rest) : (s.proc q).parent ≠ some p :=
    h.core.adopts p rest hrest q hq
  have hon {y : Code K} (hchild : y.child = none) (hchild' : (s.code p).child = none)
      (hrest : ∀ rest, y.adopts = some rest → ∀ q ∉ rest, (s.proc q).parent ≠ some p)
      (hkill : ∀ pid rest, y ≠ .killScan pid rest) (hrec : y.recovers = false) : Onward s p y :=
    ⟨⟨hchild.trans hchild'.symm, fun q pid hq => by simp [hq, Code.child] at hchild', hrest,
      fun hp => absurd hp hinit⟩, fun _ => hx, fun pid rest hy => absurd hy (hkill pid rest),
      fun _ => hrec⟩
  -- The step keeps the list of `reparent`.
  have hsame {y : Code K} (hchild : y.child = none) (hchild' : (s.code p).child = none)
      (hrest : y.adopts = (s.code p).adopts) (hkill : ∀ pid rest, y ≠ .killScan pid rest)
      (hrec : y.recovers = false) : Onward s p y :=
    hon hchild hchild' (fun rest hy => hadopts (hrest ▸ hy)) hkill hrec
  cases hcode : s.code p <;> simp [hcode, Code.exiting] at hx
  case dead => simp [hcode, exec] at hs
  case exitWait status =>
    simp only [hcode, exec, Option.ite_none_right_eq_some, Option.some.injEq] at hs
    obtain ⟨hfree, rfl⟩ := hs
    refine .acquire _ (hon rfl (by rw [hcode]; rfl) (fun rest hrest q hq => ?_) (by simp) rfl)
      hfree rfl
    obtain rfl : slots = rest := by simpa [Code.adopts] using hrest
    exact absurd (List.mem_finRange q) hq
  case exitReparent status rest =>
    cases rest with
    | nil =>
      simp only [hcode, exec, Option.some.injEq] at hs
      subst hs
      exact .goto _ (hsame rfl (by rw [hcode]; rfl) (by rw [hcode]; rfl) (by simp) rfl)
        (by rw [hcode]; rfl)
    | cons q rest =>
      have hvisited := hadopts (by rw [hcode]; rfl : (s.code p).adopts = some (q :: rest))
      simp only [hcode, exec] at hs
      split_ifs at hs with hq
      · obtain rfl := Option.some.inj hs
        have hused : (s.proc q).state ≠ .unused := fun hunused => by
          simp [h.core.unused q hunused] at hq
        refine .store q _ _ (h.stores_parent hused h.core.init.1 (by rw [hcode]; rfl) rfl
          (by simp [hcode]) (fun rest' hrest => ?_) (fun p' rest' _ hp' => ?_)
          fun hp => absurd hp hinit) ⟨fun _ => rfl, fun _ => rfl, Iff.rfl, Iff.rfl⟩ id hused rfl
          (by rw [hcode]; rfl) (fun _ => by rw [hcode]; rfl) (by simp) rfl
        · obtain rfl : rest = rest' := by simpa [Code.adopts] using hrest
          exact ⟨Ne.symm hinit, fun q' hq' hne => hvisited q' (by simp [hne, hq'])⟩
        · rintro rfl
          exact absurd h.core.init.2 (by simp [Code.exiting_of_adopts hp'])
      · obtain rfl := Option.some.inj hs
        refine .goto _ (hon rfl (by rw [hcode]; rfl) (fun rest' hrest q' hq' => ?_) (by simp) rfl)
          (by rw [hcode]; rfl)
        obtain rfl : rest = rest' := by simpa [Code.adopts] using hrest
        by_cases hne : q' = q
        · rwa [hne]
        · exact hvisited q' (by simp [hne, hq'])
  case exitInit status wake rest | exitWake status parent wake =>
    cases wake with
    | nil =>
      simp only [hcode, exec, Option.some.injEq] at hs
      subst hs
      exact .goto _ (hsame rfl (by rw [hcode]; rfl) (by rw [hcode]; rfl) (by simp) rfl)
        (by rw [hcode]; rfl)
    | cons q wake =>
      simp only [hcode, exec, Option.some.injEq] at hs
      subst hs
      exact .wake q _ _ (hsame rfl (by rw [hcode]; rfl) (by rw [hcode]; rfl) (by simp) rfl)
        (by rw [hcode]; rfl)
  case exitZombie status =>
    simp only [hcode, exec, Option.some.injEq] at hs
    subst hs
    exact .zombie status hcode

/-- The next step of a process. -/
theorem exec_cases {ok : Bool} (hc : s.cpuproc c = some p)
    (hs : exec s c p ok (s.code p) = some s') : ExecStep s c p ok s' := by
  cases hx : (s.code p).recovers with
  | true => exact .recover s' hx hs
  | false => ?_
  by_cases hexit : (s.code p).exiting = true
  · exact h.execExit_cases hexit hs
  cases hcode : s.code p <;> simp only [hcode, exec, reduceCtorEq] at hs
  -- Most steps go from one ordinary place to another.
  case ret value | waitKilled addr =>
    obtain rfl := Option.some.inj hs
    split_ifs
    all_goals exact .next hcode ⟨rfl, rfl, rfl⟩ ⟨rfl, rfl, rfl⟩ (by simp) rfl rfl
  case forkScan rest =>
    cases rest with
    | nil =>
      obtain rfl := Option.some.inj hs
      exact .next hcode ⟨rfl, rfl, rfl⟩ ⟨rfl, rfl, rfl⟩ (by simp) rfl rfl
    | cons q rest =>
      dsimp only at hs
      split_ifs at hs with hq
      · exact Option.some.inj hs ▸ .fork q rest hcode hq
      · obtain rfl := Option.some.inj hs
        exact .next hcode ⟨rfl, rfl, rfl⟩ ⟨rfl, rfl, rfl⟩ (by simp) rfl rfl
  case forkParent np pid =>
    obtain ⟨hfree, rfl⟩ : s.wait_lock = none ∧ _ := by
      simpa only [Option.ite_none_right_eq_some, Option.some.injEq] using hs
    have hused := h.core.child p np (by rw [hcode]; rfl)
    refine .store np _ _ (h.stores_parent (by simp [hused]) (h.started hc) (by rw [hcode]; rfl) rfl
      (fun q pid' hq => ?_) (by simp [Code.adopts]) (fun p' rest _ hp' => ?_) fun _ => rfl)
      ⟨fun _ => rfl, fun _ => rfl, Iff.rfl, Iff.rfl⟩ id (by simp [hused]) rfl (by rw [hcode]; rfl)
      (by simp [Code.exiting]) (by simp) rfl
    · rw [hcode] at hq
      exact (Code.forkParent.inj hq).1.symm
    -- No process is in `reparent`, since `wait_lock` is free.
    · have hlocked := (h.core.lock p').mpr (Code.locked_of_adopts hp')
      simp [hfree] at hlocked
  case forkRun np pid =>
    obtain rfl := Option.some.inj hs
    have hused := h.core.child p np (by rw [hcode]; rfl)
    exact .store np _ _ (h.stores_runnable hcode)
      ⟨fun _ => rfl, fun _ => rfl, by simp [hused], by simp [hused]⟩ (by simp [hused]) (by simp) rfl
      (by rw [hcode]; rfl) (by simp [Code.exiting]) (by simp) rfl
  case exitFiles status =>
    split_ifs at hs with hp
    · obtain rfl := Option.some.inj hs
      exact .next hcode ⟨rfl, rfl, rfl⟩ ⟨rfl, rfl, rfl⟩ (by simp) rfl rfl
    · exact Option.some.inj hs ▸ .files status hcode hp
  case waitLock addr =>
    obtain ⟨hfree, rfl⟩ : s.wait_lock = none ∧ _ := by
      simpa only [Option.ite_none_right_eq_some, Option.some.injEq] using hs
    exact .acquire _ (.ordinary hcode ⟨rfl, rfl, rfl⟩ ⟨rfl, rfl, rfl⟩ (by simp) fun _ => rfl) hfree
      rfl
  case waitScan addr rest havekids =>
    cases rest with
    | nil =>
      obtain rfl := Option.some.inj hs
      split_ifs
      all_goals exact .next hcode ⟨rfl, rfl, rfl⟩ ⟨rfl, rfl, rfl⟩ (by simp) rfl rfl
    | cons q rest =>
      dsimp only at hs
      split_ifs at hs with hq
      · exact Option.some.inj hs ▸ .child q addr rest havekids hcode hq
      · obtain rfl := Option.some.inj hs
        exact .next hcode ⟨rfl, rfl, rfl⟩ ⟨rfl, rfl, rfl⟩ (by simp) rfl rfl
  case waitSleep addr =>
    obtain rfl := Option.some.inj hs
    have hcode' : ((s.setLock none).goto p (.waitWoken addr)).code = _ := rfl
    exact .asleep _ none _ (.ordinary hcode ⟨rfl, rfl, rfl⟩ ⟨rfl, rfl, rfl⟩ (by simp) fun _ => rfl)
      (h.releaseLock hcode' (by rw [hcode]; rfl) rfl rfl)
  case waitWoken addr | woken =>
    obtain rfl := Option.some.inj hs
    exact .unchan _ (.ordinary hcode ⟨rfl, rfl, rfl⟩ ⟨rfl, rfl, rfl⟩ (by simp) fun _ => rfl)
      (by rw [hcode]; rfl)
  case waitDone value =>
    obtain rfl := Option.some.inj hs
    exact .release _ (.ordinary hcode ⟨rfl, rfl, rfl⟩ ⟨rfl, rfl, rfl⟩ (by simp) fun _ => rfl)
      (by rw [hcode]; rfl) rfl
  case killScan pid rest =>
    cases rest with
    | nil =>
      obtain rfl := Option.some.inj hs
      exact .next hcode ⟨rfl, rfl, rfl⟩ ⟨rfl, rfl, rfl⟩ (by simp) rfl rfl
    | cons q rest =>
      dsimp only at hs
      split_ifs at hs with hq
      · exact Option.some.inj hs ▸ .kill q pid rest hcode hq
      · obtain rfl := Option.some.inj hs
        exact .next hcode ⟨rfl, rfl, rfl⟩ ⟨rfl, rfl, rfl⟩ (by simp) rfl rfl
  case sleep chan =>
    obtain rfl := Option.some.inj hs
    have hcode' : (s.goto p .woken).code = _ := rfl
    exact .asleep chan s.wait_lock _
      (.ordinary hcode ⟨rfl, rfl, rfl⟩ ⟨rfl, rfl, rfl⟩ (by simp) fun _ => rfl)
      (h.keepLock hcode' rfl (by rw [hcode]; rfl))
  case wakeup chan rest =>
    cases rest with
    | nil =>
      obtain rfl := Option.some.inj hs
      exact .next hcode ⟨rfl, rfl, rfl⟩ ⟨rfl, rfl, rfl⟩ (by simp) rfl rfl
    | cons q rest =>
      obtain rfl := Option.some.inj hs
      exact .wake q _ _ (.ordinary hcode ⟨rfl, rfl, rfl⟩ ⟨rfl, rfl, rfl⟩ (by simp) fun _ => rfl)
        (by rw [hcode]; rfl)
  -- The places of `kexit` and of the recoveries remain.
  all_goals simp [hcode, Code.exiting, Code.recovers] at hexit hx

omit [DecidableEq C] in
/-- A round of `wakeup`. -/
theorem execWake {chan : Option (Chan K)} (hc : s.cpuproc c = some p)
    (hlock : y.locked = (s.code p).locked) (hy : Goes s p y) : Inv (execWake s p q chan y) := by
  unfold Family.execWake
  split_ifs
  · exact h.goto hc hlock hy
  · refine h.assign hc ?_ (fun hrun => ?_) hlock hy
    · unfold wake
      split_ifs with hsleep
      · exact .of_started rfl rfl rfl (.inr (.inr hsleep.1)) (.inl rfl)
      · exact .refl _
    · unfold wake
      split_ifs with hsleep
      · simp [hrun] at hsleep
      · exact hrun

omit [DecidableEq C] [DecidableEq K] in
/-- The process `p` goes on, outside of `kfork` and `kexit`. -/
theorem next (hc : s.cpuproc c = some p) (hcode : s.code p = x) (hx : x.Ordinary) (hy : y.Ordinary)
    (hlock : y.locked = x.locked) : Inv (s.goto p y) :=
  h.goto hc (hcode ▸ hlock) (.ordinary (hcode ▸ hx) hy)

omit [DecidableEq C] [DecidableEq K] in
/-- `kwait` at a child. -/
theorem execChild {addr : UInt64} {rest : List Slot} {havekids ok : Bool}
    (hc : s.cpuproc c = some p) (hcode : s.code p = .waitScan addr (q :: rest) havekids) :
    Inv (execChild s p q addr rest ok) := by
  unfold Family.execChild
  split_ifs with hz hfail haddr
  · exact h.next hc hcode ⟨rfl, rfl, rfl⟩ ⟨rfl, rfl, rfl⟩ rfl
  · exact h.reap hc hcode hz (fun st hst => (Option.mem_some.mp hst).symm)
  · exact h.reap hc hcode hz (fun st hst => absurd hst (by simp))
  · exact h.next hc hcode ⟨rfl, rfl, rfl⟩ ⟨rfl, rfl, rfl⟩ rfl

/-- The next step of a process that is not in a recovery. -/
theorem exec {ok : Bool} (hc : s.cpuproc c = some p) (hx : (s.code p).recovers = false)
    (hs : Family.exec s c p ok (s.code p) = some s') : Inv s' := by
  cases h.exec_cases hc hs with
  | goto y hy hlock => exact h.goto hc hlock hy.toGoes
  | wake q chan y hy hlock => exact h.execWake hc hlock hy.toGoes
  | acquire y hy hfree hlock =>
    exact h.goOn hc (fun _ => .refl _) (fun _ hq => hq) rfl rfl le_rfl rfl rfl
      (h.acquireLock rfl hfree rfl hlock) hy.toGoes
  | release y hy hheld hlock =>
    exact h.goOn hc (fun _ => .refl _) (fun _ hq => hq) rfl rfl le_rfl rfl rfl
      (h.releaseLock rfl hheld rfl hlock) hy.toGoes
  | files status hcode hp =>
    exact h.goOn (y := .exitWait status) hc (fun _ => .refl _) (fun _ hq => hq) rfl rfl le_rfl rfl
      rfl (h.keepLock rfl rfl (by rw [hcode]; rfl))
      ⟨by rw [hcode]; rfl, by simp [hcode], by simp [Code.adopts], fun heq => absurd heq hp⟩
  | fork np rest hcode hnp =>
    cases ok with
    | true => exact h.forkAlloc hc hcode hnp
    | false => exact h.forkFail hc hcode hnp
  | store q r y hr hsame hrun hused hkilled hlock hexits hkill hrec =>
    exact h.store hc hr hrun rfl rfl rfl rfl hlock
      (h.hist.same (hsame.update (s := s)) le_rfl rfl rfl)
  | unchan y hy hlock =>
    exact h.assign hc (.of_state (fun _ => rfl) (fun _ => rfl) rfl rfl) id hlock hy.toGoes
  | asleep chan l y hy hlock =>
    exact h.leave hc (.of_started rfl rfl rfl (h.started hc) (.inr (.inr rfl))) hlock hy.toGoes
  | kill q pid rest hcode hpid =>
    exact h.assign hc (kept_kill rfl rfl rfl rfl) (fun hrun => by simp [kill, hrun, ProcState.wake])
      (by rw [hcode]; rfl) (.ordinary (by rw [hcode]; exact ⟨rfl, rfl, rfl⟩) ⟨rfl, rfl, rfl⟩)
  | zombie status hcode => exact h.exitZombie hc hcode
  | child q addr rest havekids hcode hq => exact h.execChild hc hcode
  | recover s' hx' hs => simp [hx] at hx'

end Inv

end SustainableXv6.Family
