import SustainableXv6.Family.Machine

/-!
# Parents, children, and zombies

The process family in every state of a run of `kfork`, `kexit`, `kwait`, and `kkill`. `wait_lock`
protects the parents: the process that holds it in `kexit` gives its children to the first process
one by one, and as long as it holds the lock no process gets a new parent. So it has no children
when it becomes a zombie. A process is given its parent by the parent itself, which is alive then.

`Hist` compares the slots with the history: a process that has exited is a zombie with its pid and
status, until one `kwait` of its parent frees the slot.
-/

namespace SustainableXv6.Family

open Function Lib

variable {C K F D : Type}

/-! ## The invariant -/

/-- A process that has been started and has not exited. -/
def Started (st : ProcState) : Prop := st = .runnable ∨ st = .running ∨ st = .sleeping

theorem Started.ne {st : ProcState} (h : Started st) :
    st ≠ .unused ∧ st ≠ .used ∧ st ≠ .zombie := by
  rcases h with rfl | rfl | rfl <;> simp

namespace Code

/-- The process holds `wait_lock`. -/
def locked : Code K → Bool
  | .exitReparent _ _ | .exitInit _ _ _ | .exitWake _ _ _ | .exitZombie _ | .waitScan _ _ _
  | .waitKilled _ | .waitSleep _ | .waitDone _ => true
  | _ => false

/-- The child that the process creates. -/
def child : Code K → Option Slot
  | .forkParent np _ | .forkRun np _ => some np
  | _ => none

/-- The slots that the process has still to visit in `reparent`. -/
def adopts : Code K → Option (List Slot)
  | .exitReparent _ rest | .exitInit _ _ rest => some rest
  | .exitWake _ _ _ | .exitZombie _ => some []
  | _ => none

/-- The process is in `kexit`, after the test for the first process. -/
def exiting : Code K → Bool
  | .exitWait _ | .exitReparent _ _ | .exitInit _ _ _ | .exitWake _ _ _ | .exitZombie _
  | .dead => true
  | _ => false

/-- The process is about to store to the victim of a recovery. -/
def recovers : Code K → Bool
  | .checkKill _ _ | .recoverKill _ _ | .recoverTest _ _ | .recoverState _ _ => true
  | _ => false

/-- The process executes code of the kernel. -/
def busy : Code K → Bool
  | .user | .dead => false
  | _ => true

end Code

/-- The process is neither in the part of `kfork` that creates a child, nor in `kexit`. -/
def Code.Ordinary (x : Code K) : Prop := x.child = none ∧ x.adopts = none ∧ x.exiting = false

theorem Code.exiting_of_adopts {x : Code K} {rest : List Slot} (hx : x.adopts = some rest) :
    x.exiting = true := by
  cases x <;> simp_all [Code.adopts, Code.exiting]

theorem Code.locked_of_adopts {x : Code K} {rest : List Slot} (hx : x.adopts = some rest) :
    x.locked = true := by
  cases x <;> simp_all [Code.adopts, Code.locked]

theorem Code.locked_of_not_busy {x : Code K} (hx : x.busy = false) : x.locked = false := by
  cases x <;> simp_all [Code.busy, Code.locked]

/-- The processes and their parents. -/
structure Core (s : State C K F D) : Prop where
  busy : ∀ p, (s.code p).busy = true → Started (s.proc p).state
  cpu : ∀ c p, s.cpuproc c = some p → (s.proc p).state = .running
  uniq : ∀ c c' p, s.cpuproc c = some p → s.cpuproc c' = some p → c = c'
  lock : ∀ p, s.wait_lock = some p ↔ (s.code p).locked = true
  child : ∀ p q, (s.code p).child = some q → (s.proc q).state = .used
  childInj : ∀ p p' q, (s.code p).child = some q → (s.code p').child = some q → p = p'
  unused : ∀ q, (s.proc q).state = .unused → (s.proc q).parent = none
  parent : ∀ q r, (s.proc q).parent = some r → Started (s.proc r).state
  orphan : ∀ q, (s.proc q).state ≠ .unused → q ≠ initproc → (s.proc q).parent = none →
    ∃ p pid, s.code p = .forkParent q pid
  adopts : ∀ p rest, (s.code p).adopts = some rest → ∀ q ∉ rest, (s.proc q).parent ≠ some p
  init : Started (s.proc initproc).state ∧ (s.code initproc).exiting = false

/-- The processes and the history. -/
structure Hist (s : State C K F D) : Prop where
  pid : ∀ q, (s.proc q).state ≠ .unused → (s.proc q).pid < s.nextpid
  pidInj : ∀ q q', (s.proc q).state ≠ .unused → (s.proc q').state ≠ .unused →
    (s.proc q).pid = (s.proc q').pid → q = q'
  exitsNodup : (s.exits.map Exit.pid).Nodup
  reapsNodup : (s.reaps.map Reap.pid).Nodup
  live : ∀ q, (s.proc q).state ≠ .unused → (s.proc q).state ≠ .zombie →
    (s.proc q).pid ∉ s.exits.map Exit.pid
  zombie : ∀ q, (s.proc q).state = .zombie →
    ⟨(s.proc q).pid, (s.proc q).xstate⟩ ∈ s.exits ∧ (s.proc q).pid ∉ s.reaps.map Reap.pid
  exits : ∀ e ∈ s.exits, e.pid < s.nextpid ∧ ((∃ r ∈ s.reaps, r.pid = e.pid) ∨
    ∃ q, (s.proc q).state = .zombie ∧ (s.proc q).pid = e.pid ∧ (s.proc q).xstate = e.status)
  reaps : ∀ r ∈ s.reaps, ∃ e ∈ s.exits, e.pid = r.pid ∧ ∀ st ∈ r.status, st = e.status

/-- A process is neither freed nor ended. -/
structure Same (r r' : Proc K) : Prop where
  pid : r.state ≠ .unused → r'.pid = r.pid
  xstate : r.state ≠ .unused → r'.xstate = r.xstate
  unused_iff : r'.state = .unused ↔ r.state = .unused
  zombie_iff : r'.state = .zombie ↔ r.state = .zombie

/-- What most steps do to a process: a started process stays started, and others keep their state.
-/
structure Kept (r r' : Proc K) : Prop extends Same r r' where
  parent : r'.parent = r.parent
  used_iff : r'.state = .used ↔ r.state = .used
  started_iff : Started r'.state ↔ Started r.state

theorem Kept.refl (r : Proc K) : Kept r r :=
  ⟨⟨fun _ => rfl, fun _ => rfl, Iff.rfl, Iff.rfl⟩, rfl, Iff.rfl, Iff.rfl⟩

/-- The state of a process does not change. -/
theorem Kept.of_state {r r' : Proc K} (hpid : r.state ≠ .unused → r'.pid = r.pid)
    (hxstate : r.state ≠ .unused → r'.xstate = r.xstate) (hparent : r'.parent = r.parent)
    (hstate : r'.state = r.state) : Kept r r' :=
  ⟨⟨hpid, hxstate, by rw [hstate], by rw [hstate]⟩, hparent, by rw [hstate], by rw [hstate]⟩

/-- A process is started, and stays so. -/
theorem Kept.of_started {r r' : Proc K} (hpid : r'.pid = r.pid) (hxstate : r'.xstate = r.xstate)
    (hparent : r'.parent = r.parent) (hold : Started r.state) (hnew : Started r'.state) :
    Kept r r' :=
  ⟨⟨fun _ => hpid, fun _ => hxstate,
      ⟨fun heq => absurd heq hnew.ne.1, fun heq => absurd heq hold.ne.1⟩,
      ⟨fun heq => absurd heq hnew.ne.2.2, fun heq => absurd heq hold.ne.2.2⟩⟩, hparent,
    ⟨fun heq => absurd heq hnew.ne.2.1, fun heq => absurd heq hold.ne.2.1⟩,
    ⟨fun _ => hold, fun _ => hnew⟩⟩

variable {s s' : State C K F D} {c : C} {p q : Slot} {x y : Code K}

/-- A store to one slot. -/
theorem Same.update {r : Proc K} (h : Same (s.proc q) r) (q' : Slot) :
    Same (s.proc q') (update s.proc q r q') := by
  by_cases hq : q' = q
  · subst hq
    rwa [update_self]
  · rw [update_of_ne hq]
    exact (Kept.refl _).toSame

/-- A step that frees and starts no process leaves the history as it is. -/
theorem Hist.same (h : Hist s) (hproc : ∀ q, Same (s.proc q) (s'.proc q))
    (hpid : s.nextpid ≤ s'.nextpid) (hexits : s'.exits = s.exits) (hreaps : s'.reaps = s.reaps) :
    Hist s' := by
  refine ⟨fun q hq => ?_, fun q q' hq hq' => ?_, hexits ▸ h.exitsNodup, hreaps ▸ h.reapsNodup,
    fun q hq hz => ?_, fun q hz => ?_, fun e he => ?_, by rw [hreaps, hexits]; exact h.reaps⟩
  · rw [ne_eq, (hproc q).unused_iff] at hq
    rw [(hproc q).pid hq]
    exact (h.pid q hq).trans_le hpid
  · rw [ne_eq, (hproc q).unused_iff] at hq
    rw [ne_eq, (hproc q').unused_iff] at hq'
    rw [(hproc q).pid hq, (hproc q').pid hq']
    exact h.pidInj q q' hq hq'
  · rw [ne_eq, (hproc q).unused_iff] at hq
    rw [ne_eq, (hproc q).zombie_iff] at hz
    rw [(hproc q).pid hq, hexits]
    exact h.live q hq hz
  · rw [(hproc q).zombie_iff] at hz
    have hq : (s.proc q).state ≠ .unused := by simp [hz]
    rw [(hproc q).pid hq, (hproc q).xstate hq, hexits, hreaps]
    exact h.zombie q hz
  · rw [hexits] at he
    obtain ⟨hlt, hcases⟩ := h.exits e he
    rw [hreaps]
    refine ⟨hlt.trans_le hpid, hcases.imp_right fun ⟨q, hz, hp, hx⟩ => ⟨q, ?_, ?_, ?_⟩⟩
    · rwa [(hproc q).zombie_iff]
    · rwa [(hproc q).pid (by simp [hz])]
    · rwa [(hproc q).xstate (by simp [hz])]

/-- A slot is allocated. -/
theorem Hist.alloc {np : Slot} (h : Hist s) (hproc : ∀ q, q ≠ np → s'.proc q = s.proc q)
    (hold : (s.proc np).state = .unused) (hnew : (s'.proc np).state = .used)
    (hnewpid : (s'.proc np).pid = s.nextpid) (hpid : s'.nextpid = s.nextpid + 1)
    (hexits : s'.exits = s.exits) (hreaps : s'.reaps = s.reaps) : Hist s' := by
  -- The pid is new.
  have hfresh {q : Slot} (hq : (s.proc q).state ≠ .unused) : (s.proc q).pid ≠ s.nextpid :=
    (h.pid q hq).ne
  have hne {q : Slot} (hq : (s'.proc q).state = .zombie) : q ≠ np := by
    rintro rfl
    simp [hnew] at hq
  refine ⟨fun q hq => ?_, fun q q' hq hq' heq => ?_, hexits ▸ h.exitsNodup, hreaps ▸ h.reapsNodup,
    fun q hq hz => ?_, fun q hz => ?_, fun e he => ?_, by rw [hreaps, hexits]; exact h.reaps⟩
  · by_cases hqnp : q = np
    · rw [hqnp, hnewpid]
      omega
    · rw [hproc q hqnp] at hq ⊢
      have := h.pid q hq
      omega
  · by_cases hqnp : q = np
    · by_cases hqnp' : q' = np
      · rw [hqnp, hqnp']
      · rw [hproc q' hqnp'] at hq' heq
        rw [hqnp, hnewpid] at heq
        exact absurd heq.symm (hfresh hq')
    · rw [hproc q hqnp] at hq heq
      by_cases hqnp' : q' = np
      · rw [hqnp', hnewpid] at heq
        exact absurd heq (hfresh hq)
      · rw [hproc q' hqnp'] at hq' heq
        exact h.pidInj q q' hq hq' heq
  · rw [hexits]
    by_cases hqnp : q = np
    · rw [hqnp, hnewpid]
      intro hmem
      obtain ⟨e, he, hepid⟩ := List.mem_map.mp hmem
      exact absurd hepid (h.exits e he).1.ne
    · rw [hproc q hqnp] at hq hz ⊢
      exact h.live q hq hz
  · have hqnp := hne hz
    rw [hproc q hqnp] at hz ⊢
    rw [hexits, hreaps]
    exact h.zombie q hz
  · rw [hexits] at he
    obtain ⟨hlt, hcases⟩ := h.exits e he
    rw [hreaps]
    refine ⟨by omega, hcases.imp_right fun ⟨q, hz, hp, hx⟩ => ⟨q, ?_⟩⟩
    have hqnp : q ≠ np := by
      rintro rfl
      simp [hold] at hz
    rw [hproc q hqnp]
    exact ⟨hz, hp, hx⟩

/-- A process exits. -/
theorem Hist.exit {status : ℤ} (h : Hist s) (hproc : ∀ q, q ≠ p → s'.proc q = s.proc q)
    (hold : Started (s.proc p).state) (hnew : (s'.proc p).state = .zombie)
    (hnewpid : (s'.proc p).pid = (s.proc p).pid) (hxstate : (s'.proc p).xstate = status)
    (hpid : s'.nextpid = s.nextpid) (hexits : s'.exits = s.exits ++ [⟨(s.proc p).pid, status⟩])
    (hreaps : s'.reaps = s.reaps) : Hist s' := by
  obtain ⟨hused, -, hnotz⟩ := hold.ne
  have hfresh := h.live p hused hnotz
  have hin (q : Slot) : (s'.proc q).state ≠ .unused → (s.proc q).state ≠ .unused := by
    by_cases hqp : q = p
    · rw [hqp]
      exact fun _ => hused
    · rw [hproc q hqp]
      exact id
  have hpids (q : Slot) : (s'.proc q).pid = (s.proc q).pid := by
    by_cases hqp : q = p
    · rw [hqp, hnewpid]
    · rw [hproc q hqp]
  refine ⟨fun q hq => ?_, fun q q' hq hq' heq => ?_, ?_, hreaps ▸ h.reapsNodup, fun q hq hz => ?_,
    fun q hz => ?_, fun e he => ?_, fun r hr => ?_⟩
  · rw [hpids, hpid]
    exact h.pid q (hin q hq)
  · rw [hpids, hpids] at heq
    exact h.pidInj q q' (hin q hq) (hin q' hq') heq
  · rw [hexits, List.map_append, List.nodup_append]
    refine ⟨h.exitsNodup, by simp, fun a ha b hb => ?_⟩
    obtain rfl : b = (s.proc p).pid := by simpa using hb
    exact fun hab => hfresh (hab ▸ ha)
  · have hqp : q ≠ p := by
      rintro rfl
      exact hz hnew
    rw [hproc q hqp] at hq hz ⊢
    rw [hexits]
    simp only [List.map_append, List.map_cons, List.map_nil, List.mem_append, List.mem_singleton]
    rintro (hmem | heq)
    · exact h.live q hq hz hmem
    · exact hqp (h.pidInj q p hq hused heq)
  · rw [hexits, hreaps]
    by_cases hqp : q = p
    · subst hqp
      rw [hnewpid, hxstate]
      refine ⟨by simp, fun hmem => ?_⟩
      obtain ⟨r, hr, hrpid⟩ := List.mem_map.mp hmem
      obtain ⟨e, he, hepid, -⟩ := h.reaps r hr
      exact hfresh (List.mem_map.mpr ⟨e, he, hepid.trans hrpid⟩)
    · rw [hproc q hqp] at hz ⊢
      obtain ⟨hmem, hnot⟩ := h.zombie q hz
      exact ⟨List.mem_append_left _ hmem, hnot⟩
  · rw [hexits, List.mem_append, List.mem_singleton] at he
    rw [hpid, hreaps]
    rcases he with he | rfl
    · obtain ⟨hlt, hcases⟩ := h.exits e he
      refine ⟨hlt, hcases.imp_right fun ⟨q, hz, hp, hx⟩ => ⟨q, ?_⟩⟩
      have hqp : q ≠ p := by
        rintro rfl
        exact hnotz hz
      rw [hproc q hqp]
      exact ⟨hz, hp, hx⟩
    · exact ⟨h.pid p hused, .inr ⟨p, hnew, hnewpid, hxstate⟩⟩
  · rw [hreaps] at hr
    obtain ⟨e, he, hrest⟩ := h.reaps r hr
    exact ⟨e, by rw [hexits]; exact List.mem_append_left _ he, hrest⟩

/-- A zombie is freed. -/
theorem Hist.free {pp : Slot} {st : Option ℤ} (h : Hist s)
    (hproc : ∀ q, q ≠ pp → s'.proc q = s.proc q) (hold : (s.proc pp).state = .zombie)
    (hnew : (s'.proc pp).state = .unused) (hst : ∀ x ∈ st, x = (s.proc pp).xstate)
    (hpid : s'.nextpid = s.nextpid) (hexits : s'.exits = s.exits)
    (hreaps : s'.reaps = s.reaps ++ [⟨p, (s.proc pp).pid, st⟩]) : Hist s' := by
  obtain ⟨hmem, hnot⟩ := h.zombie pp hold
  have hused : (s.proc pp).state ≠ .unused := by simp [hold]
  have hne {q : Slot} (hq : (s'.proc q).state ≠ .unused) : q ≠ pp := by
    rintro rfl
    exact hq hnew
  refine ⟨fun q hq => ?_, fun q q' hq hq' heq => ?_, hexits ▸ h.exitsNodup, ?_, fun q hq hz => ?_,
    fun q hz => ?_, fun e he => ?_, fun r hr => ?_⟩
  · have hqpp := hne hq
    rw [hproc q hqpp] at hq ⊢
    rw [hpid]
    exact h.pid q hq
  · have hqpp := hne hq
    have hqpp' := hne hq'
    rw [hproc q hqpp] at hq heq
    rw [hproc q' hqpp'] at hq' heq
    exact h.pidInj q q' hq hq' heq
  · rw [hreaps, List.map_append, List.nodup_append]
    refine ⟨h.reapsNodup, by simp, fun a ha b hb => ?_⟩
    obtain rfl : b = (s.proc pp).pid := by simpa using hb
    exact fun hab => hnot (hab ▸ ha)
  · have hqpp := hne hq
    rw [hproc q hqpp] at hq hz ⊢
    rw [hexits]
    exact h.live q hq hz
  · have hqpp : q ≠ pp := by
      rintro rfl
      simp [hnew] at hz
    rw [hproc q hqpp] at hz ⊢
    obtain ⟨hmem', hnot'⟩ := h.zombie q hz
    rw [hexits, hreaps]
    refine ⟨hmem', ?_⟩
    simp only [List.map_append, List.map_cons, List.map_nil, List.mem_append, List.mem_singleton]
    rintro (hin | heq)
    · exact hnot' hin
    · exact hqpp (h.pidInj q pp (by simp [hz]) hused heq)
  · rw [hexits] at he
    obtain ⟨hlt, hcases⟩ := h.exits e he
    rw [hpid, hreaps]
    refine ⟨hlt, ?_⟩
    rcases hcases with ⟨r, hr, hrpid⟩ | ⟨q, hz, hp, hx⟩
    · exact .inl ⟨r, List.mem_append_left _ hr, hrpid⟩
    · by_cases hqpp : q = pp
      · subst hqpp
        exact .inl ⟨_, List.mem_append_right _ (List.mem_singleton.mpr rfl), hp⟩
      · exact .inr ⟨q, by rw [hproc q hqpp]; exact ⟨hz, hp, hx⟩⟩
  · rw [hreaps, List.mem_append, List.mem_singleton] at hr
    rw [hexits]
    rcases hr with hr | rfl
    · exact h.reaps r hr
    · exact ⟨_, hmem, rfl, hst⟩

/-- The process `p` may go on at `y`: it creates the same child, if any, and what it has done in
`reparent` is what the place calls for. -/
structure Goes (s : State C K F D) (p : Slot) (y : Code K) : Prop where
  child : y.child = (s.code p).child
  parent : ∀ q pid, s.code p = .forkParent q pid → y = .forkParent q pid
  adopts : ∀ rest, y.adopts = some rest → ∀ q ∉ rest, (s.proc q).parent ≠ some p
  exiting : p = initproc → y.exiting = false

theorem Goes.ordinary (hx : (s.code p).Ordinary) (hy : y.Ordinary) : Goes s p y where
  child := hy.1.trans hx.1.symm
  parent := fun q pid hq => by simpa [hq, Code.child] using hx.1
  adopts := fun rest hrest => by simp [hy.2.1] at hrest
  exiting := fun _ => hy.2.2

theorem Goes.self (h : Core s) (p : Slot) : Goes s p (s.code p) where
  child := rfl
  parent := fun _ _ hq => hq
  adopts := h.adopts p
  exiting := fun hp => hp ▸ h.init.2

/-- The code of the process `p` goes on outside of the special places, and the other processes are
kept. -/
theorem Core.kept (h : Core s) (hproc : ∀ q, Kept (s.proc q) (s'.proc q))
    (hcode : s'.code = update s.code p y)
    (hbusy : y.busy = true → Started (s.proc p).state)
    (hcpu : ∀ c q, s'.cpuproc c = some q → (s'.proc q).state = .running)
    (huniq : ∀ c c' q, s'.cpuproc c = some q → s'.cpuproc c' = some q → c = c')
    (hlock : ∀ q, s'.wait_lock = some q ↔ (s'.code q).locked = true)
    (hy : Goes s p y) : Core s' := by
  have hother {q : Slot} (hq : q ≠ p) : s'.code q = s.code q := by
    rw [hcode, update_of_ne hq]
  have hself : s'.code p = y := by rw [hcode, update_self]
  have hchild' (q : Slot) : (s'.code q).child = (s.code q).child := by
    by_cases hq : q = p
    · rw [hq, hself, hy.child]
    · rw [hother hq]
  refine ⟨fun q hq => ?_, hcpu, huniq, hlock, fun q r hq => ?_, fun q q' r hq hq' => ?_,
    fun q hq => ?_, fun q r hq => ?_, fun q hq hne hnone => ?_, fun q rest hq r hr => ?_, ?_⟩
  · rw [(hproc q).started_iff]
    by_cases hqp : q = p
    · subst hqp
      exact hbusy (hself ▸ hq)
    · exact h.busy q (hother hqp ▸ hq)
  · rw [(hproc r).used_iff]
    exact h.child q r (hchild' q ▸ hq)
  · exact h.childInj q q' r (hchild' q ▸ hq) (hchild' q' ▸ hq')
  · rw [(hproc q).unused_iff] at hq
    rw [(hproc q).parent]
    exact h.unused q hq
  · rw [(hproc q).parent] at hq
    rw [(hproc r).started_iff]
    exact h.parent q r hq
  · rw [ne_eq, (hproc q).unused_iff] at hq
    rw [(hproc q).parent] at hnone
    obtain ⟨r, pid, hr⟩ := h.orphan q hq hne hnone
    refine ⟨r, pid, ?_⟩
    by_cases hrp : r = p
    · rw [hrp, hself]
      exact hy.parent q pid (hrp ▸ hr)
    · rw [hother hrp, hr]
  · rw [(hproc r).parent]
    by_cases hqp : q = p
    · subst hqp
      exact hy.adopts rest (hself ▸ hq) r hr
    · exact h.adopts q rest (hother hqp ▸ hq) r hr
  · rw [(hproc initproc).started_iff]
    refine ⟨h.init.1, ?_⟩
    by_cases hp : initproc = p
    · rw [hp, hself]
      exact hy.exiting hp.symm
    · rw [hother hp]
      exact h.init.2

/-- The process `p` may store `r` to the slot `q`, which gets a process, a parent, or a state by
this, and go on at `y`. -/
structure Stores (s : State C K F D) (p q : Slot) (r : Proc K) (y : Code K) : Prop where
  started : Started (s.proc q).state → Started r.state ∨
    q = p ∧ y.exiting = true ∧ y.busy = false ∧ ∀ q', (s.proc q').parent ≠ some p
  used : (s.proc q).state = .used → r.state = .used ∨ (s.code p).child = some q
  child : ∀ q', y.child = some q' → (update s.proc q r q').state = .used ∧
    ∀ p', p' ≠ p → (s.code p').child ≠ some q'
  unused : r.state = .unused → r.parent = none
  parent : ∀ r', r.parent = some r' →
    (s.proc q).parent = some r' ∨ Started (s.proc r').state ∧ y.busy = true
  orphan : q ≠ initproc → r.state ≠ .unused → r.parent = none →
    (∃ pid, y = .forkParent q pid) ∨
      (s.proc q).state ≠ .unused ∧ (s.proc q).parent = none ∧ ∀ pid, s.code p ≠ .forkParent q pid
  forkParent : ∀ q' pid, s.code p = .forkParent q' pid → q' = q
  adopts : ∀ rest, y.adopts = some rest → ∀ q' ∉ rest,
    (update s.proc q r q').parent ≠ some p
  others : ∀ p' rest, p' ≠ p → (s.code p').adopts = some rest → r.parent = some p' →
    (s.proc q).parent = some p'
  exiting : p = initproc → y.exiting = false

/-- The process `p` stores to one slot. The place of another process may only be reset. -/
theorem Core.store {r : Proc K} (h : Core s) (hp : Started (s.proc p).state)
    (hr : Stores s p q r y) (hproc : s'.proc = update s.proc q r) (hself : s'.code p = y)
    (hother : ∀ p', p' ≠ p → s'.code p' = s.code p' ∨
      s'.code p' = .user ∧ (s.code p').busy = false)
    (hcpu : ∀ c q, s'.cpuproc c = some q → (s'.proc q).state = .running)
    (huniq : ∀ c c' q, s'.cpuproc c = some q → s'.cpuproc c' = some q → c = c')
    (hlock : ∀ q, s'.wait_lock = some q ↔ (s'.code q).locked = true) : Core s' := by
  have hat : s'.proc q = r := by rw [hproc, update_self]
  have hnot {q' : Slot} (hq' : q' ≠ q) : s'.proc q' = s.proc q' := by
    rw [hproc, update_of_ne hq']
  -- A process that is busy or a parent stays started.
  have hstarted {r' : Slot} (hr' : Started (s.proc r').state)
      (hwhy : (r' = p → y.busy = true) ∨ ∃ q', (s.proc q').parent = some r') :
      Started (s'.proc r').state := by
    by_cases hrq : r' = q
    · subst hrq
      rw [hat]
      rcases hr.started hr' with hnew | ⟨rfl, -, hbusy, hno⟩
      · exact hnew
      · rcases hwhy with hwhy | ⟨q', hq'⟩
        · simp [hwhy rfl] at hbusy
        · exact absurd hq' (hno q')
    · rwa [hnot hrq]
  have hchild {p' q' : Slot} (hp' : p' ≠ p) (hq' : (s'.code p').child = some q') :
      (s.code p').child = some q' := by
    rcases hother p' hp' with heq | ⟨heq, -⟩
    · rwa [heq] at hq'
    · simp [heq, Code.child] at hq'
  refine ⟨fun p' hp' => ?_, hcpu, huniq, hlock, fun p' q' hq' => ?_, fun p₁ p₂ q' h₁ h₂ => ?_,
    fun q' hq' => ?_, fun q' r' hq' => ?_, fun q' hq' hne hnone => ?_, fun p' rest hp' q' hq' => ?_,
    ?_, ?_⟩
  · by_cases hpp : p' = p
    · subst hpp
      exact hstarted hp (.inl fun _ => hself ▸ hp')
    · rcases hother p' hpp with heq | ⟨heq, -⟩
      · exact hstarted (h.busy p' (heq ▸ hp')) (.inl fun hpp' => absurd hpp' hpp)
      · simp [heq, Code.busy] at hp'
  · by_cases hpp : p' = p
    · rw [hproc]
      exact (hr.child q' (hself ▸ hpp ▸ hq')).1
    · have hold := hchild hpp hq'
      have hused := h.child p' q' hold
      by_cases hqq : q' = q
      · subst hqq
        rw [hat]
        exact (hr.used hused).resolve_right fun hc => hpp (h.childInj p' p q' hold hc)
      · rwa [hnot hqq]
  · by_cases hp₁ : p₁ = p
    · by_cases hp₂ : p₂ = p
      · rw [hp₁, hp₂]
      · exact absurd (hchild hp₂ h₂) ((hr.child q' (hself ▸ hp₁ ▸ h₁)).2 p₂ hp₂)
    · by_cases hp₂ : p₂ = p
      · exact absurd (hchild hp₁ h₁) ((hr.child q' (hself ▸ hp₂ ▸ h₂)).2 p₁ hp₁)
      · exact h.childInj p₁ p₂ q' (hchild hp₁ h₁) (hchild hp₂ h₂)
  · by_cases hqq : q' = q
    · rw [hqq, hat] at hq' ⊢
      exact hr.unused hq'
    · rw [hnot hqq] at hq' ⊢
      exact h.unused q' hq'
  · by_cases hqq : q' = q
    · rw [hqq, hat] at hq'
      rcases hr.parent r' hq' with hold | ⟨hnew, hbusy⟩
      · exact hstarted (h.parent q r' hold) (.inr ⟨q, hold⟩)
      · exact hstarted hnew (.inl fun _ => hbusy)
    · rw [hnot hqq] at hq'
      exact hstarted (h.parent q' r' hq') (.inr ⟨q', hq'⟩)
  · -- The process that creates an orphan is at the same place as before, unless it is `p`.
    have hstays {p' : Slot} {pid : ℤ} (hp' : s.code p' = .forkParent q' pid) (hpp : p' ≠ p) :
        ∃ p pid, s'.code p = .forkParent q' pid := by
      rcases hother p' hpp with heq | ⟨-, hidle⟩
      · exact ⟨p', pid, heq.trans hp'⟩
      · simp [hp', Code.busy] at hidle
    by_cases hqq : q' = q
    · subst hqq
      rw [hat] at hq' hnone
      rcases hr.orphan hne hq' hnone with ⟨pid, rfl⟩ | ⟨hold, hold', hcode⟩
      · exact ⟨p, pid, hself⟩
      · obtain ⟨p', pid, hp'⟩ := h.orphan q' hold hne hold'
        exact hstays hp' fun hpp => hcode pid (hpp ▸ hp')
    · rw [hnot hqq] at hq' hnone
      obtain ⟨p', pid, hp'⟩ := h.orphan q' hq' hne hnone
      exact hstays hp' fun hpp => hqq (hr.forkParent q' pid (hpp ▸ hp'))
  · by_cases hpp : p' = p
    · subst hpp
      rw [hproc]
      exact hr.adopts rest (hself ▸ hp') q' hq'
    · rcases hother p' hpp with heq | ⟨heq, -⟩
      · rw [heq] at hp'
        have hold := h.adopts p' rest hp' q' hq'
        by_cases hqq : q' = q
        · rw [hqq] at hold ⊢
          rw [hat]
          exact fun hpar => hold (hr.others p' rest hpp hp' hpar)
        · rwa [hnot hqq]
      · simp [heq, Code.adopts] at hp'
  · by_cases hq : initproc = q
    · rw [hq, hat]
      exact (hr.started (hq ▸ h.init.1)).resolve_right fun ⟨hqp, hexit, _⟩ => by
        simp [hr.exiting (hqp.symm.trans hq.symm)] at hexit
    · rw [hnot hq]
      exact h.init.1
  · by_cases hp : initproc = p
    · rw [hp, hself]
      exact hr.exiting hp.symm
    · rcases hother initproc hp with heq | ⟨heq, -⟩
      · rw [heq]
        exact h.init.2
      · rw [heq]
        rfl

end SustainableXv6.Family
