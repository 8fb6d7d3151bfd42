import SustainableXv6.Family.Steps

/-!
# The process family

`family_invariant` says what holds in every state of a run of `kfork`, `kexit`, `kwait`, and
`kkill`. A process has a parent that has not exited, no zombie is a parent, and every exit is
reported once, to the parent, by the `kwait` that frees the slot.

The recoveries of the deadlock detectors are left out: `energy_aware_deadlock_recovery` stores to
the state of its victim without a lock.
-/

namespace SustainableXv6.Family

open Function Lib

variable {C K F D : Type} {s s' : State C K F D} {c : C} {p q : Slot} {x y : Code K}

/-! ## Zombies -/

/-- A process stays in use, and a zombie stays a zombie. -/
structure Settled (r r' : Proc K) : Prop where
  zombie : r.state = .zombie → r'.state = .zombie
  used : r.state ≠ .unused → r'.state ≠ .unused

theorem Settled.refl (r : Proc K) : Settled r r := ⟨id, id⟩

theorem Same.settled {r r' : Proc K} (h : Same r r') : Settled r r' :=
  ⟨h.zombie_iff.mpr, fun hr => mt h.unused_iff.mp hr⟩

/-- An assignment to one slot, which keeps it in use. -/
theorem Settled.update {r : Proc K} (h : Settled (s.proc q) r) (q' : Slot) :
    Settled (s.proc q') (update s.proc q r q') := by
  by_cases hq : q' = q
  · subst hq
    rwa [update_self]
  · rw [update_of_ne hq]
    exact .refl _

/-- `scheduler` switches to a runnable process. -/
theorem kept_switchTo {t : Table K} (hp : (t p).state = .runnable) (q : Slot) :
    Kept (t q) (switchTo t p q) := by
  unfold switchTo
  split_ifs with hq
  · subst hq
    exact .of_started rfl rfl rfl (.inl hp) (.inr (.inl rfl))
  · exact .of_state (fun _ => rfl) (fun _ => rfl) rfl rfl
  · exact .refl _

/-- The `kwait` of the process `p` that returns its child `q`, and delivers its status if there is
an address for it. -/
structure Reaps (s : State C K F D) (a : Act C K F D) (s' : State C K F D) (p q : Slot) :
    Prop where
  exec : ∃ c ok addr rest havekids, a = .exec c ok ∧ s.cpuproc c = some p ∧
    s.code p = .waitScan addr (q :: rest) havekids ∧
    s'.reaps = s.reaps ++
      [⟨p, (s.proc q).pid, if addr ≠ 0 then some (s.proc q).xstate else none⟩]
  parent : (s.proc q).parent = some p
  zombie : (s.proc q).state = .zombie
  unused : (s'.proc q).state = .unused
  value : s'.code p = .waitDone (s.proc q).pid
  others : ∀ q', q' ≠ q → s'.proc q' = s.proc q'

/-- What a step does to the zombies. -/
def Fate (s : State C K F D) (a : Act C K F D) (s' : State C K F D) : Prop :=
  (∃ p q, Reaps s a s' p q) ∨ s'.reaps = s.reaps ∧ ∀ q, Settled (s.proc q) (s'.proc q)

/-- A step that assigns to no process. -/
theorem Fate.stay {a : Act C K F D} (hproc : s'.proc = s.proc) (hreaps : s'.reaps = s.reaps) :
    Fate s a s' :=
  .inr ⟨hreaps, fun q => by rw [hproc]; exact .refl _⟩

/-- A step that assigns to one process, and keeps it in use. -/
theorem Fate.assign {a : Act C K F D} {r : Proc K} (hproc : s'.proc = update s.proc q r)
    (hreaps : s'.reaps = s.reaps) (hr : Settled (s.proc q) r) : Fate s a s' :=
  .inr ⟨hreaps, fun q' => by rw [hproc]; exact hr.update q'⟩

/-- `kwait` at a child. -/
theorem Fate.execChild {addr : UInt64} {rest : List Slot} {havekids ok : Bool}
    (hc : s.cpuproc c = some p) (hcode : s.code p = .waitScan addr (q :: rest) havekids)
    (hq : (s.proc q).parent = some p) :
    Fate s (.exec c ok) (Family.execChild s p q addr rest ok) := by
  unfold Family.execChild
  by_cases hz : (s.proc q).state = .zombie
  · rw [if_pos hz]
    by_cases hfail : addr ≠ 0 ∧ !ok
    · rw [if_pos hfail]
      exact .stay rfl rfl
    · rw [if_neg hfail]
      refine .inl ⟨p, q, ⟨c, ok, addr, rest, havekids, rfl, hc, hcode, rfl⟩, hq, hz, ?_, ?_,
        fun q' hq' => ?_⟩
      · simp [freeproc]
      · simp
      · simp [hq']
  · rw [if_neg hz]
    exact .stay rfl rfl

variable [DecidableEq C] [DecidableEq K]

omit [DecidableEq C] in
/-- A round of `wakeup`. -/
theorem Fate.execWake {a : Act C K F D} {chan : Option (Chan K)} :
    Fate s a (execWake s p q chan y) := by
  unfold Family.execWake
  split_ifs
  · exact .stay rfl rfl
  · refine .assign rfl rfl ?_
    unfold wake
    split_ifs with hsleep
    · exact ⟨by simp [hsleep.1], by simp⟩
    · exact .refl _

namespace Inv

variable (h : Inv s)
include h

/-- The next step of a process frees a zombie only in `kwait`. -/
theorem fate_exec {ok : Bool} (hc : s.cpuproc c = some p) (hx : (s.code p).recovers = false)
    (hs : Family.exec s c p ok (s.code p) = some s') : Fate s (.exec c ok) s' := by
  have hrun := h.started hc
  have hself {r : Proc K} (hr : r.state ≠ .unused) : Settled (s.proc p) r :=
    ⟨fun hz => absurd hz hrun.ne.2.2, fun _ => hr⟩
  cases h.exec_cases hc hs with
  | goto | acquire | release | files => exact .stay rfl rfl
  | wake => exact .execWake
  | fork np rest hcode hnp =>
    cases ok with
    | true => exact .assign rfl rfl ⟨by simp [hnp], by simp [hnp]⟩
    | false => exact .assign rfl rfl ⟨by simp [hnp], by simp [hnp]⟩
  | store q r y hr hsame => exact .assign rfl rfl hsame.settled
  | unchan => exact .assign rfl rfl ⟨id, id⟩
  | asleep | zombie => exact .assign rfl rfl (hself (by simp))
  | kill q pid rest =>
    have hkill : Kept (s.proc q) (kill (s.proc q)) := kept_kill rfl rfl rfl rfl
    exact .assign rfl rfl hkill.toSame.settled
  | child q addr rest havekids hcode hq => exact Fate.execChild hc hcode hq
  | recover s' hx' => simp [hx] at hx'

/-- No other step frees a zombie. -/
theorem fate {a : Act C K F D} (hx : ∀ p, (s.code p).recovers = false)
    (hs : step s a = some s') : Fate s a s' := by
  cases step_cases hs with
  | sched c p hrunnable =>
    exact .inr ⟨rfl, fun q => (kept_switchTo hrunnable q).toSame.settled⟩
  | call | files => exact .stay rfl rfl
  | exec c ok p s' hc hs => exact h.fate_exec hc (hx p) hs
  | yield c p hc => exact .assign rfl rfl ⟨fun hz => absurd hz (h.started hc).ne.2.2, by simp⟩
  | fault => exact .assign rfl rfl ⟨id, id⟩

end Inv

/-! ## Runs -/

/-- The action starts no recovery. -/
def Act.recovers : Act C K F D → Bool
  | .call _ (.checkDeadlock _) | .call _ (.recovery _) => true
  | _ => false

/-- The steps of `kfork`, `kexit`, `kwait`, and `kkill`, and those of the scheduler. -/
def NoRecovery (_ : State C K F D) (a : Act C K F D) : Prop := a.recovers = false

instance (s : State C K F D) (a : Act C K F D) : Decidable (NoRecovery s a) :=
  inferInstanceAs (Decidable (_ = _))

omit [DecidableEq C] [DecidableEq K] in
/-- The state after `userinit`. -/
theorem inv_boot (root : D) : Inv (boot root : State C K F D) := by
  have hinit : ((boot root : State C K F D).proc initproc).state = .runnable := by simp [boot]
  have hother {q : Slot} (hq : q ≠ initproc) : (boot root : State C K F D).proc q = .zero := by
    simp [boot, hq]
  -- Only the slot of the first process is in use.
  have hused {q : Slot} (hq : ((boot root : State C K F D).proc q).state ≠ .unused) :
      q = initproc := by
    by_contra hne
    rw [hother hne] at hq
    exact hq rfl
  have hparent (q : Slot) : ((boot root : State C K F D).proc q).parent = none := by
    by_cases hq : q = initproc
    · simp [hq, boot, Proc.alloc, Proc.zero]
    · rw [hother hq]
      rfl
  have hzombie (q : Slot) : ((boot root : State C K F D).proc q).state ≠ .zombie := by
    intro hz
    obtain rfl := hused (q := q) (by simp [hz])
    simp [hinit] at hz
  refine ⟨⟨by simp [boot, Code.busy], by simp [boot], by simp [boot], by simp [boot, Code.locked],
    by simp [boot, Code.child], by simp [boot, Code.child], fun q _ => hparent q,
    fun q r hq => by simp [hparent] at hq, fun q hq hne => absurd (hused hq) hne,
    by simp [boot, Code.adopts], .inl hinit, rfl⟩,
    ⟨fun q hq => ?_, fun q q' hq hq' _ => (hused hq).trans (hused hq').symm, by simp [boot],
    by simp [boot], by simp [boot], fun q hz => absurd hz (hzombie q), by simp [boot],
    by simp [boot]⟩⟩
  rw [hused hq]
  simp [boot, Proc.alloc]

omit [DecidableEq C] [DecidableEq K] in
/-- The place where a call starts is an ordinary one. -/
theorem Call.entry_ordinary {a : Call K} (hs : a.entry s = some y) :
    y.Ordinary ∧ y.locked = false := by
  cases a <;> simp only [Call.entry, Option.some.injEq, Option.ite_none_right_eq_some] at hs
  case checkDeadlock | recovery =>
    obtain ⟨-, rfl⟩ := hs
    exact ⟨⟨rfl, rfl, rfl⟩, rfl⟩
  all_goals
    subst hs
    exact ⟨⟨rfl, rfl, rfl⟩, rfl⟩

omit [DecidableEq C] [DecidableEq K] in
/-- The place where a call starts is in a recovery only if the call is one. -/
theorem Call.entry_recovers {a : Call K} (ha : (Act.call c a : Act C K F D).recovers = false)
    (hs : a.entry s = some y) : y.recovers = false := by
  cases a <;> simp only [Act.recovers, Call.entry, Option.some.injEq, reduceCtorEq] at ha hs
  all_goals
    subst hs
    rfl

omit [DecidableEq C] [DecidableEq K] in
/-- A process that goes to where it is. -/
theorem State.goto_self (s : State C K F D) (p : Slot) (r : Proc K) :
    (s.setProc p r).goto p (s.code p) = s.setProc p r := by
  simp [State.goto, State.setProc]

omit [DecidableEq K] in
/-- `scheduler` switches to a runnable process. -/
theorem Inv.sched (h : Inv s) (hrunnable : (s.proc p).state = .runnable) :
    Inv { s with
      proc := switchTo s.proc p
      cpuproc := update s.cpuproc c (some p) } := by
  have hkept := kept_switchTo hrunnable
  -- A process that runs is another one, and goes on.
  have hother {c' : C} {q : Slot} (hq : s.cpuproc c' = some q) : q ≠ p := by
    rintro rfl
    simp [h.core.cpu c' q hq] at hrunnable
  have hcpu {c' : C} {q : Slot} (hq : update s.cpuproc c (some p) c' = some q) :
      c' = c ∧ q = p ∨ s.cpuproc c' = some q := by
    by_cases hc : c' = c
    · rw [hc, update_self] at hq
      exact .inl ⟨hc, (Option.some.inj hq).symm⟩
    · rw [update_of_ne hc] at hq
      exact .inr hq
  refine ⟨h.core.kept hkept (update_eq_self p s.code).symm (h.core.busy p)
    (fun c' q hq => ?_) (fun c₁ c₂ q h₁ h₂ => ?_) h.core.lock (.self h.core p),
    h.hist.same (fun q => (hkept q).toSame) le_rfl rfl rfl⟩
  · rcases hcpu hq with ⟨-, rfl⟩ | hold
    · simp [switchTo]
    · have hrun := h.core.cpu c' q hold
      simp [switchTo, hother hold, hrun]
  · rcases hcpu h₁ with ⟨rfl, rfl⟩ | hold₁
    · rcases hcpu h₂ with ⟨rfl, -⟩ | hold₂
      · rfl
      · exact absurd rfl (hother hold₂)
    · rcases hcpu h₂ with ⟨rfl, rfl⟩ | hold₂
      · exact absurd rfl (hother hold₁)
      · exact h.core.uniq c₁ c₂ q hold₁ hold₂

/-- Every step keeps the invariant if those of the processes in the kernel do. -/
theorem Inv.step {a : Act C K F D} (h : Inv s)
    (hexec : ∀ c ok p, a = .exec c ok → s.cpuproc c = some p →
      Family.exec s c p ok (s.code p) = some s' → Inv s')
    (hs : Family.step s a = some s') : Inv s' := by
  cases step_cases hs with
  | sched c p hrunnable =>
    exact h.sched hrunnable
  | call c a p x hc hcode hentry =>
    obtain ⟨hord, hlock⟩ := Call.entry_ordinary hentry
    exact h.next hc hcode ⟨rfl, rfl, rfl⟩ hord hlock
  | exec c ok p s' hc hs =>
    exact hexec c ok p rfl hc hs
  | files c ofile cwd p hc hcode =>
    exact h.goOn hc (fun _ => .refl _) (fun _ hq => hq) (update_eq_self p s.code).symm rfl
      le_rfl rfl rfl h.core.lock (.self h.core p)
  | yield c p hc =>
    have hkept : Kept (s.proc p) { s.proc p with state := .runnable } :=
      .of_started rfl rfl rfl (h.started hc) (.inl rfl)
    have hyield := h.leave (l := s.wait_lock) hc hkept
      (by rw [update_eq_self]; exact h.core.lock) (.self h.core p)
    rwa [State.goto_self] at hyield
  | fault c p hc hcode =>
    exact h.assign hc (.of_state (fun _ => rfl) (fun _ => rfl) rfl rfl) id (by rw [hcode]; rfl)
      (.ordinary (by rw [hcode]; exact ⟨rfl, rfl, rfl⟩) ⟨rfl, rfl, rfl⟩)

/-- A process outside of the recoveries stays so. -/
theorem Inv.exec_recovers {ok : Bool} (h : Inv s) (hc : s.cpuproc c = some p)
    (hx : ∀ p, (s.code p).recovers = false) (hs : Family.exec s c p ok (s.code p) = some s')
    (q : Slot) : (s'.code q).recovers = false := by
  have hgoto {t : State C K F D} {y : Code K} (ht : t.code = update s.code p y)
      (hy : y.recovers = false) : (t.code q).recovers = false := by
    rw [ht]
    by_cases hq : q = p
    · rw [hq, update_self, hy]
    · rw [update_of_ne hq, hx]
  cases h.exec_cases hc hs with
  | goto y hy | acquire y hy | release y hy | unchan y hy | asleep chan l y hy =>
    exact hgoto rfl (hy.recovers (hx p))
  | wake q chan y hy =>
    unfold Family.execWake
    split_ifs
    all_goals exact hgoto rfl (hy.recovers (hx p))
  | files | kill | zombie => exact hgoto rfl rfl
  | store q r y hr hsame hrun hused hkilled hlock hexits hkill hrec => exact hgoto rfl hrec
  | fork np rest hcode hnp =>
    cases ok with
    | false => exact hgoto rfl rfl
    | true =>
      by_cases hq : q = p
      · simp [execFork, hq, Code.recovers]
      · by_cases hqnp : q = np
        · subst hqnp
          simp [execFork, hq, Code.recovers]
        · simp [execFork, hq, hqnp, hx]
  | child =>
    unfold Family.execChild
    split_ifs
    all_goals exact hgoto rfl rfl
  | recover s' hx' => simp [hx p] at hx'

/-- A run without recoveries stays outside of them. -/
theorem Inv.step_recovers {a : Act C K F D} (h : Inv s) (hx : ∀ p, (s.code p).recovers = false)
    (ha : a.recovers = false) (hs : Family.step s a = some s') (p : Slot) :
    (s'.code p).recovers = false := by
  have hgoto (q : Slot) {y : Code K} (hy : y.recovers = false) :
      (update s.code q y p).recovers = false := by
    by_cases hq : p = q
    · rw [hq, update_self, hy]
    · rw [update_of_ne hq, hx]
  cases step_cases hs with
  | sched | files | yield => exact hx _
  | call c a q x hc hcode hentry => exact hgoto q (Call.entry_recovers ha hentry)
  | exec c ok q s' hc hs => exact h.exec_recovers hc hx hs p
  | fault c q => exact hgoto q rfl

/-- A run without recoveries. -/
theorem inv_of_reachVia {root : D} (h : ReachVia step NoRecovery (boot root) s) :
    Inv s ∧ ∀ p, (s.code p).recovers = false := by
  refine h.invariant (I := fun s => Inv s ∧ ∀ p, (s.code p).recovers = false)
    ⟨inv_boot root, fun _ => rfl⟩ fun s a s' _ ⟨hinv, hx⟩ ha hs => ?_
  exact ⟨hinv.step (fun c ok p _ hc hs => hinv.exec hc (hx p) hs) hs,
    hinv.step_recovers hx ha hs⟩

/-- In every state of a run of `kfork`, `kexit`, `kwait`, and `kkill`, a process that is in use has
a parent that is in use and has not exited, unless it is the first one, or its parent is still in
the `kfork` that creates it, and no zombie is a parent. Pids identify processes: each process that
has exited is reported at most once, with its pid and its status, and until then it is a zombie.
Only its parent can be told, by the `kwait` that frees the slot. -/
theorem family_invariant {root : D} (h : ReachVia step NoRecovery (boot root) s) :
    (∀ q, (s.proc q).state ≠ .unused → q ≠ initproc → (∀ p pid, s.code p ≠ .forkParent q pid) →
      ∃ r, (s.proc q).parent = some r ∧ (s.proc r).state ≠ .unused ∧ (s.proc r).state ≠ .zombie) ∧
    (∀ q r, (s.proc q).parent = some r → (s.proc r).state ≠ .zombie) ∧
    (s.exits.map Exit.pid).Nodup ∧ (s.reaps.map Reap.pid).Nodup ∧
    (∀ r ∈ s.reaps, ∃ e ∈ s.exits, e.pid = r.pid ∧ ∀ status ∈ r.status, status = e.status) ∧
    (∀ e ∈ s.exits, (∃ r ∈ s.reaps, r.pid = e.pid) ∨
      ∃ q, (s.proc q).state = .zombie ∧ (s.proc q).pid = e.pid ∧ (s.proc q).xstate = e.status) ∧
    (∀ q, (s.proc q).state = .zombie → ⟨(s.proc q).pid, (s.proc q).xstate⟩ ∈ s.exits) ∧
    ∀ a s', step s a = some s' →
      ((∃ p q, Reaps s a s' p q) ∨ s'.reaps = s.reaps) ∧
      (∀ q, (s.proc q).state = .zombie → (s'.proc q).state ≠ .zombie → ∃ p, Reaps s a s' p q) ∧
      ∀ q, (s.proc q).state ≠ .unused → (s'.proc q).state = .unused → ∃ p, Reaps s a s' p q := by
  obtain ⟨hinv, hx⟩ := inv_of_reachVia h
  refine ⟨fun q hq hne hfork => ?_, fun q r hq => (hinv.core.parent q r hq).ne.2.2,
    hinv.hist.exitsNodup, hinv.hist.reapsNodup, hinv.hist.reaps,
    fun e he => (hinv.hist.exits e he).2, fun q hz => (hinv.hist.zombie q hz).1, fun a s' hs => ?_⟩
  · cases hparent : (s.proc q).parent with
    | none =>
      obtain ⟨p, pid, hp⟩ := hinv.core.orphan q hq hne hparent
      exact absurd hp (hfork p pid)
    | some r =>
      have hr := (hinv.core.parent q r hparent).ne
      exact ⟨r, rfl, hr.1, hr.2.2⟩
  · rcases hinv.fate hx hs with ⟨p, q, hreap⟩ | ⟨hreaps, hsettled⟩
    -- Only the child that `kwait` returns is freed.
    · have hother {q' : Slot} (hq' : (s'.proc q').state ≠ (s.proc q').state) : q' = q := by
        by_contra hne
        exact hq' (by rw [hreap.others q' hne])
      refine ⟨.inl ⟨p, q, hreap⟩, fun q' hz hnz => ?_, fun q' hused hunused => ?_⟩
      · obtain rfl := hother (by rw [hz]; exact hnz)
        exact ⟨p, hreap⟩
      · obtain rfl := hother (by rw [hunused]; exact hused.symm)
        exact ⟨p, hreap⟩
    · exact ⟨.inr hreaps, fun q hz hnz => absurd ((hsettled q).zombie hz) hnz,
        fun q hused hunused => absurd hunused ((hsettled q).used hused)⟩

/-- The first process forks, its child exits with the status 7, and it waits for the child. -/
def forkExitWait : List (Act Unit Unit Unit Unit) :=
  List.flatten [[.sched () initproc, .call () .fork], List.replicate 5 (.exec () true),
    [.yield (), .sched () 1, .call () (.exit 7)], List.replicate 133 (.exec () true),
    [.sched () initproc, .call () (.wait 8)], List.replicate 3 (.exec () true)]

/-- The child is returned with its status. -/
theorem family_invariant_forkExitWait :
    ∃ s : State Unit Unit Unit Unit, ReachVia step NoRecovery (boot ()) s ∧
      s.exits = [⟨2, 7⟩] ∧ s.reaps = [⟨initproc, 2, some 7⟩] ∧
      ∀ q r, (s.proc q).parent = some r → (s.proc r).state ≠ .zombie := by
  obtain ⟨s, h, hs⟩ := exists_of_run step NoRecovery (boot () : State Unit Unit Unit Unit)
    forkExitWait
    (fun s => s.exits = [⟨2, 7⟩] ∧ s.reaps = [⟨initproc, 2, some 7⟩]) (by decide +kernel)
  exact ⟨s, h, hs.1, hs.2, (family_invariant h).2.1⟩

end SustainableXv6.Family
