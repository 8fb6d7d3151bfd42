import SustainableXv6.Family.Run

/-!
# New processes start clean

`allocproc` resets some fields of the slot that it finds, and leaves the kill flag, the exit status,
the channel, the parent, and the files as they are. They are clean if everything that is done to a
slot is done to the process in it. There are two ways around this. `kkill` compares pids and does
not look at the state, so that `kill(0)` finds the first unused slot. And a recovery stores to its
victim some time after it has chosen it, when the process may be gone.

`new_process_clean` says that there is no other way, and `kill_zero_marks_new_process` is a run of
the first kind.
-/

namespace SustainableXv6.Family

open Function Lib

variable {C K F D : Type} {s s' : State C K F D} {c : C} {p q : Slot} {x y : Code K}

/-! ## The invariant -/

/-- The fields that `allocproc` leaves as they are. -/
structure Blank (r : Proc K) : Prop where
  killed : r.killed = false
  xstate : r.xstate = 0
  chan : r.chan = none
  parent : r.parent = none

/-- Unused slots are clean, and processes have no files once they are in `kexit`. -/
structure Clean (s : State C K F D) : Prop where
  blank : ∀ q, (s.proc q).state = .unused → Blank (s.proc q)
  zero : ∀ q, (s.proc q).state = .unused → (s.proc q).pid = 0
  files : ∀ q, (s.proc q).state = .unused ∨ (s.proc q).state = .zombie ∨
    (s.code q).exiting = true → s.ofile q = (fun _ => none) ∧ s.cwd q = none
  kill : ∀ p pid rest, s.code p = .killScan pid rest → pid ≠ 0

/-- A store to a slot that keeps it clean: nothing changes, or the slot is in use. -/
def Tame (s : State C K F D) (q : Slot) (r : Proc K) : Prop :=
  r = s.proc q ∨ r.state ≠ .unused ∧
    (r.state = .zombie → (s.proc q).state = .zombie ∨ (s.code q).exiting = true)

theorem Tame.update {r : Proc K} (h : Tame s q r) (q' : Slot) :
    Tame s q' (update s.proc q r q') := by
  by_cases hq : q' = q
  · subst hq
    rwa [update_self]
  · rw [update_of_ne hq]
    exact .inl rfl

/-- The slot is in use, and does not become a zombie. -/
theorem Kept.tame {r : Proc K} (h : Kept (s.proc q) r) (hq : (s.proc q).state ≠ .unused) :
    Tame s q r :=
  .inr ⟨mt h.unused_iff.mp hq, fun hz => .inl (h.zombie_iff.mp hz)⟩

/-- The process `p` goes on, and stores to processes in use. -/
theorem Clean.move (h : Clean s) (hproc : ∀ q, Tame s q (s'.proc q))
    (hcode : s'.code = update s.code p y)
    (hy : y.exiting = true → (s.code p).exiting = true)
    (hkill : ∀ pid rest, y = .killScan pid rest → pid ≠ 0)
    (hofile : s'.ofile = s.ofile) (hcwd : s'.cwd = s.cwd) : Clean s' := by
  have hunused {q : Slot} (hq : (s'.proc q).state = .unused) : s'.proc q = s.proc q := by
    rcases hproc q with heq | ⟨hne, -⟩
    · exact heq
    · exact absurd hq hne
  have hexiting {q : Slot} (hq : (s'.code q).exiting = true) : (s.code q).exiting = true := by
    rw [hcode] at hq
    by_cases hqp : q = p
    · subst hqp
      exact hy (by simpa using hq)
    · simpa [hqp] using hq
  refine ⟨fun q hq => ?_, fun q hq => ?_, fun q hq => ?_, fun q pid rest hq => ?_⟩
  · have heq := hunused hq
    rw [heq] at hq ⊢
    exact h.blank q hq
  · have heq := hunused hq
    rw [heq] at hq ⊢
    exact h.zero q hq
  · rw [hofile, hcwd]
    refine h.files q ?_
    rcases hq with hq | hq | hq
    · exact .inl (hunused hq ▸ hq)
    · rcases hproc q with heq | ⟨-, hz⟩
      · exact .inr (.inl (heq ▸ hq))
      · exact .inr (hz hq)
    · exact .inr (.inr (hexiting hq))
  · rw [hcode] at hq
    by_cases hqp : q = p
    · subst hqp
      exact hkill pid rest (by simpa using hq)
    · exact h.kill q pid rest (by simpa [hqp] using hq)

/-- The process `p` goes on, and stores to no process. -/
theorem Clean.stay (h : Clean s) (hproc : s'.proc = s.proc)
    (hcode : s'.code = update s.code p y)
    (hofile : s'.ofile = s.ofile) (hcwd : s'.cwd = s.cwd)
    (hy : y.exiting = true → (s.code p).exiting = true)
    (hkill : ∀ pid rest, y = .killScan pid rest → pid ≠ 0) : Clean s' :=
  h.move (fun q => .inl (by rw [hproc])) hcode hy hkill hofile hcwd

/-- The process `p` goes on, and stores to a process in use. -/
theorem Clean.store {r : Proc K} (h : Clean s) (hproc : s'.proc = update s.proc q r)
    (hcode : s'.code = update s.code p y) (hofile : s'.ofile = s.ofile)
    (hcwd : s'.cwd = s.cwd) (hr : Tame s q r) (hy : y.exiting = true → (s.code p).exiting = true)
    (hkill : ∀ pid rest, y = .killScan pid rest → pid ≠ 0) : Clean s' :=
  h.move (fun q' => hproc ▸ hr.update q') hcode hy hkill hofile hcwd

/-! ## Steps -/

/-- The recovery finds the process that it has chosen. -/
def Chosen (s : State C K F D) : Code K → Prop
  | .checkKill q pid | .recoverKill q pid => (s.proc q).state ≠ .unused ∧ (s.proc q).pid = pid
  | .recoverState q pid => (s.proc q).state = .sleeping ∧ (s.proc q).pid = pid
  | _ => True

namespace Inv

variable [DecidableEq C] [DecidableEq K] (h : Inv s)
include h

/-- The steps of the recoveries keep the family as it is. -/
theorem execChosen {ok : Bool} (hc : s.cpuproc c = some p) (hchosen : Chosen s (s.code p))
    (hs : Family.exec s c p ok (s.code p) = some s') : Inv s' := by
  cases hx : (s.code p).recovers with
  | false => exact h.exec hc hx hs
  | true =>
    cases hcode : s.code p <;> simp [hcode, Code.recovers] at hx
    all_goals
      simp only [hcode, Family.exec, Option.some.injEq] at hs
      subst hs
    case checkKill q pid =>
      exact h.assign hc (kept_kill rfl rfl rfl rfl) (fun hrun => by simp [Proc.ragKill, hrun])
        (by rw [hcode]; rfl) (.ordinary (by rw [hcode]; exact ⟨rfl, rfl, rfl⟩) ⟨rfl, rfl, rfl⟩)
    case recoverKill q pid =>
      exact h.assign hc (.of_state (fun _ => rfl) (fun _ => rfl) rfl rfl) id
        (by rw [hcode]; rfl) (.ordinary (by rw [hcode]; exact ⟨rfl, rfl, rfl⟩) ⟨rfl, rfl, rfl⟩)
    case recoverTest q pid =>
      split_ifs
      · exact h.next hc hcode ⟨rfl, rfl, rfl⟩ ⟨rfl, rfl, rfl⟩ rfl
      · exact h.next hc hcode ⟨rfl, rfl, rfl⟩ ⟨rfl, rfl, rfl⟩ rfl
    case recoverState q pid =>
      rw [hcode] at hchosen
      have hsleep : (s.proc q).state = .sleeping := hchosen.1
      exact h.assign hc (.of_started rfl rfl rfl (.inr (.inr hsleep)) (.inl rfl))
        (fun hrun => by simp [hsleep] at hrun) (by rw [hcode]; rfl)
        (.ordinary (by rw [hcode]; exact ⟨rfl, rfl, rfl⟩) ⟨rfl, rfl, rfl⟩)

end Inv

namespace Clean

variable (h : Clean s)
include h

/-- `kfork` allocates a slot. -/
theorem forkAlloc {np : Slot} (hpnp : p ≠ np) : Clean (execFork s p np true) := by
  have hproc {q : Slot} (hq : q ≠ np) : (execFork s p np true).proc q = s.proc q := by
    simp [execFork, hq]
  have hnew : ((execFork s p np true).proc np).state = .used := by simp [execFork, Proc.alloc]
  have hself : (execFork s p np true).code p = .forkParent np s.nextpid := by simp [execFork]
  have hchild : (execFork s p np true).code np = .user := by simp [execFork, Ne.symm hpnp]
  have hcode {q : Slot} (hqp : q ≠ p) (hqnp : q ≠ np) :
      (execFork s p np true).code q = s.code q := by
    simp [execFork, hqp, hqnp]
  have hunused {q : Slot} (hq : ((execFork s p np true).proc q).state = .unused) : q ≠ np := by
    rintro rfl
    simp [hnew] at hq
  refine ⟨fun q hq => ?_, fun q hq => ?_, fun q hq => ?_, fun q pid rest hq => ?_⟩
  · have hqnp := hunused hq
    rw [hproc hqnp] at hq ⊢
    exact h.blank q hq
  · have hqnp := hunused hq
    rw [hproc hqnp] at hq ⊢
    exact h.zero q hq
  · have hqnp : q ≠ np := by
      rintro rfl
      simp [hnew, hchild, Code.exiting] at hq
    have hold : (s.proc q).state = .unused ∨ (s.proc q).state = .zombie ∨
        (s.code q).exiting = true := by
      rw [hproc hqnp] at hq
      refine hq.imp_right (Or.imp_right fun hexit => ?_)
      by_cases hqp : q = p
      · simp [hqp, hself, Code.exiting] at hexit
      · rwa [hcode hqp hqnp] at hexit
    simpa [execFork, hqnp] using h.files q hold
  · by_cases hqp : q = p
    · simp [hqp, hself] at hq
    · have hqnp : q ≠ np := by
        rintro rfl
        simp [hchild] at hq
      exact h.kill q pid rest (hcode hqp hqnp ▸ hq)

/-- A slot is freed, and the process `p` goes on. -/
theorem free {r : Proc K} (hproc : s'.proc = update s.proc q (freeproc r))
    (hcode : s'.code = update s.code p y) (hofile : s'.ofile = s.ofile)
    (hcwd : s'.cwd = s.cwd) (hq : (s.proc q).state = .unused ∨ (s.proc q).state = .zombie)
    (hy : y.exiting = false) (hkill : ∀ pid rest, y ≠ .killScan pid rest) : Clean s' := by
  have hself : s'.proc q = freeproc r := by rw [hproc, update_self]
  have hother {q' : Slot} (hq' : q' ≠ q) : s'.proc q' = s.proc q' := by
    rw [hproc, update_of_ne hq']
  refine ⟨fun q' hq' => ?_, fun q' hq' => ?_, fun q' hq' => ?_, fun q' pid rest hq' => ?_⟩
  · by_cases hqq : q' = q
    · rw [hqq, hself]
      exact ⟨rfl, rfl, rfl, rfl⟩
    · rw [hother hqq] at hq' ⊢
      exact h.blank q' hq'
  · by_cases hqq : q' = q
    · rw [hqq, hself]
      rfl
    · rw [hother hqq] at hq' ⊢
      exact h.zero q' hq'
  · rw [hofile, hcwd]
    refine h.files q' ?_
    by_cases hqq : q' = q
    · rw [hqq]
      exact hq.imp_right .inl
    · rw [hother hqq] at hq'
      refine hq'.imp_right (Or.imp_right fun hexit => ?_)
      rw [hcode] at hexit
      by_cases hqp : q' = p
      · simp [hqp, hy] at hexit
      · simpa [hqp] using hexit
  · rw [hcode] at hq'
    by_cases hqp : q' = p
    · simp [hqp, hkill] at hq'
    · exact h.kill q' pid rest (by simpa [hqp] using hq')

/-- `kexit` closes the files. -/
theorem exitFiles {status : ℤ} :
    Clean { s.goto p (.exitWait status) with
      ofile := update s.ofile p fun _ => none
      cwd := update s.cwd p none } := by
  refine ⟨h.blank, h.zero, fun q hq => ?_, fun q pid rest hq => ?_⟩
  · by_cases hqp : q = p
    · simp [hqp]
    · simpa [hqp] using h.files q (by simpa [hqp] using hq)
  · by_cases hqp : q = p
    · simp [hqp] at hq
    · exact h.kill q pid rest (by simpa [hqp] using hq)

/-- `kwait` at a child. -/
theorem execChild {addr : UInt64} {rest : List Slot} {ok : Bool} :
    Clean (execChild s p q addr rest ok) := by
  unfold Family.execChild
  split_ifs with hz
  · exact h.stay rfl rfl rfl rfl (by simp [Code.exiting]) (by simp)
  · exact h.free rfl rfl rfl rfl (.inr hz) rfl (by simp)
  · exact h.free rfl rfl rfl rfl (.inr hz) rfl (by simp)
  · exact h.stay rfl rfl rfl rfl (by simp [Code.exiting]) (by simp)

variable [DecidableEq K]

/-- A round of `wakeup`. -/
theorem execWake {chan : Option (Chan K)} (hy : y.exiting = true → (s.code p).exiting = true)
    (hkill : ∀ pid rest, y = .killScan pid rest → pid ≠ 0) : Clean (execWake s p q chan y) := by
  unfold Family.execWake
  split_ifs
  · exact h.stay rfl rfl rfl rfl hy hkill
  · refine h.store rfl rfl rfl rfl ?_ hy hkill
    unfold wake
    split_ifs
    · exact .inr ⟨by simp, by simp⟩
    · exact .inl rfl

variable [DecidableEq C]

/-- The next step of a process. -/
theorem exec {ok : Bool} (hinv : Inv s) (hc : s.cpuproc c = some p) (hchosen : Chosen s (s.code p))
    (hs : Family.exec s c p ok (s.code p) = some s') : Clean s' := by
  have hrun := hinv.started hc
  -- What a process in use that does not become a zombie may store to itself.
  have hlive {r : Proc K} (hu : r.state ≠ .unused) (hz : r.state ≠ .zombie) (q : Slot) :
      Tame s q r :=
    .inr ⟨hu, fun heq => absurd heq hz⟩
  have hkill {y : Code K} (hy : Onward s p y) (pid : ℤ) (rest : List Slot)
      (heq : y = .killScan pid rest) : pid ≠ 0 := by
    obtain ⟨rest', hcode⟩ := hy.kill pid rest heq
    exact h.kill p pid rest' hcode
  cases hinv.exec_cases hc hs with
  | goto y hy | acquire y hy | release y hy => exact h.stay rfl rfl rfl rfl hy.exits (hkill hy)
  | wake q chan y hy => exact h.execWake hy.exits (hkill hy)
  | files => exact h.exitFiles
  | fork np rest hcode hnp =>
    cases ok with
    | true =>
      refine h.forkAlloc ?_
      rintro rfl
      exact hrun.ne.1 hnp
    | false => exact h.free rfl rfl rfl rfl (.inl hnp) rfl (by simp)
  | store q r y hr hsame _ hused _ _ hexits hkill =>
    exact h.store rfl rfl rfl rfl (.inr ⟨hused, fun hz => .inl (hsame.zombie_iff.mp hz)⟩) hexits
      fun pid rest heq => absurd heq (hkill pid rest)
  | unchan y hy => exact h.store rfl rfl rfl rfl (.inr ⟨hrun.ne.1, .inl⟩) hy.exits (hkill hy)
  | asleep chan l y hy =>
    exact h.store rfl rfl rfl rfl (hlive (by simp) (by simp) p) hy.exits (hkill hy)
  | kill q pid rest hcode hpid =>
    -- The pid of an unused slot is 0.
    have hused : (s.proc q).state ≠ .unused := fun hunused =>
      h.kill p pid _ hcode (hpid.symm.trans (h.zero q hunused))
    have hkept : Kept (s.proc q) (Family.kill (s.proc q)) := kept_kill rfl rfl rfl rfl
    exact h.store rfl rfl rfl rfl (hkept.tame hused) (by simp [Code.exiting]) (by simp)
  | zombie status hcode =>
    exact h.store rfl rfl rfl rfl (.inr ⟨by simp, fun _ => .inr (by rw [hcode]; rfl)⟩)
      (by simp [hcode, Code.exiting]) (by simp)
  | child => exact h.execChild
  | recover s' hx hs =>
    -- The recoveries store to a process that is in use.
    cases hcode : s.code p <;> simp [hcode, Code.recovers] at hx
    all_goals
      rw [hcode] at hchosen
      simp only [hcode, Family.exec, Option.some.injEq] at hs
      subst hs
    case checkKill q pid =>
      have hkept : Kept (s.proc q) (s.proc q).ragKill := kept_kill rfl rfl rfl rfl
      exact h.store rfl rfl rfl rfl (hkept.tame hchosen.1) (by simp [Code.exiting]) (by simp)
    case recoverKill q pid =>
      exact h.store rfl rfl rfl rfl (.inr ⟨hchosen.1, .inl⟩) (by simp [Code.exiting]) (by simp)
    case recoverTest q pid =>
      refine h.stay rfl rfl rfl rfl ?_ ?_ <;> split_ifs <;> simp [Code.exiting]
    case recoverState q pid =>
      exact h.store rfl rfl rfl rfl (hlive (by simp) (by simp) q) (by simp [Code.exiting]) (by simp)

end Clean

/-! ## The kill flag -/

/-- The ways to kill the process `q`: a `kkill` that finds its pid, a fault of its own, and a
recovery that has chosen it. -/
def Kills (s : State C K F D) (a : Act C K F D) (q : Slot) : Prop :=
  (∃ c ok p rest, a = .exec c ok ∧ s.cpuproc c = some p ∧
    s.code p = .killScan (s.proc q).pid (q :: rest)) ∨
  (∃ c, a = .fault c ∧ s.cpuproc c = some q) ∨
  ∃ c ok p, a = .exec c ok ∧ s.cpuproc c = some p ∧
    (s.code p = .checkKill q (s.proc q).pid ∨ s.code p = .recoverKill q (s.proc q).pid)

variable [DecidableEq C] [DecidableEq K]

/-- The next step of a process sets the kill flag of another only in `kkill` and in the
recoveries. -/
theorem killed_exec {ok : Bool} (h : Inv s) (hc : s.cpuproc c = some p)
    (hchosen : Chosen s (s.code p)) (hs : exec s c p ok (s.code p) = some s')
    (hold : (s.proc q).killed = false) (hnew : (s'.proc q).killed = true) :
    Kills s (.exec c ok) q := by
  have hstay {t : State C K F D} (hnew : (t.proc q).killed = true) (ht : t.proc = s.proc) :
      Kills s (.exec c ok) q := by
    simp [ht, hold] at hnew
  have hkeep {t : State C K F D} {q' : Slot} {r : Proc K} (hnew : (t.proc q).killed = true)
      (ht : t.proc = update s.proc q' r)
      (hr : r.killed = true → (s.proc q').killed = true) : Kills s (.exec c ok) q := by
    rw [ht] at hnew
    by_cases hq : q = q'
    · subst hq
      simp [hr (by simpa using hnew)] at hold
    · simp [hq, hold] at hnew
  -- The process whose flag is set is the one that the step stores to.
  have hself {t : State C K F D} {q' : Slot} {r : Proc K} (hnew : (t.proc q).killed = true)
      (ht : t.proc = update s.proc q' r) : q' = q := by
    by_contra hne
    simp [ht, Ne.symm hne, hold] at hnew
  cases h.exec_cases hc hs with
  | goto | acquire | release | files => exact hstay hnew rfl
  | wake =>
    unfold execWake at hnew
    split_ifs at hnew
    · exact hstay hnew rfl
    · exact hkeep hnew rfl (by unfold wake; split_ifs <;> exact id)
  | fork =>
    cases ok with
    | true => exact hkeep hnew rfl id
    | false => exact hkeep hnew rfl (by simp [freeproc])
  | store q r y hr hsame hrun hused hkilled => exact hkeep hnew rfl (by rw [hkilled]; exact id)
  | unchan | asleep | zombie => exact hkeep hnew rfl id
  | child =>
    unfold execChild at hnew
    split_ifs at hnew
    · exact hstay hnew rfl
    · exact hkeep hnew rfl (by simp [freeproc])
    · exact hkeep hnew rfl (by simp [freeproc])
    · exact hstay hnew rfl
  | kill q pid rest hcode hpid =>
    obtain rfl := hself hnew rfl
    subst hpid
    exact .inl ⟨c, ok, p, _, rfl, hc, hcode⟩
  | recover s' hx hs =>
    cases hcode : s.code p <;> simp [hcode, Code.recovers] at hx
    all_goals
      rw [hcode] at hchosen
      simp only [hcode, exec, Option.some.injEq] at hs
      subst hs
    case checkKill q pid =>
      obtain rfl := hself hnew rfl
      obtain ⟨-, rfl⟩ := hchosen
      exact .inr (.inr ⟨c, ok, p, rfl, hc, .inl hcode⟩)
    case recoverKill q pid =>
      obtain rfl := hself hnew rfl
      obtain ⟨-, rfl⟩ := hchosen
      exact .inr (.inr ⟨c, ok, p, rfl, hc, .inr hcode⟩)
    case recoverTest q pid => exact hstay hnew rfl
    case recoverState q pid => exact hkeep hnew rfl id

/-! ## Runs -/

instance (s : State C K F D) : (x : Code K) → Decidable (Chosen s x)
  | .checkKill q pid | .recoverKill q pid =>
    inferInstanceAs (Decidable ((s.proc q).state ≠ .unused ∧ (s.proc q).pid = pid))
  | .recoverState q pid =>
    inferInstanceAs (Decidable ((s.proc q).state = .sleeping ∧ (s.proc q).pid = pid))
  | .user | .ret _ | .forkScan _ | .forkParent _ _ | .forkRun _ _ | .exitFiles _ | .exitWait _
  | .exitReparent _ _ | .exitInit _ _ _ | .exitWake _ _ _ | .exitZombie _ | .dead | .waitLock _
  | .waitScan _ _ _ | .waitKilled _ | .waitSleep _ | .waitWoken _ | .waitDone _ | .killScan _ _
  | .sleep _ | .woken | .wakeup _ _ | .recoverTest _ _ | .panicked => .isTrue trivial

/-- No process calls `kill(0)`, and a recovery that stores to its victim finds the process that it
has chosen. -/
def Rules (s : State C K F D) : Act C K F D → Prop
  | .call _ (.kill pid) => pid ≠ 0
  | .exec c _ => ∀ p ∈ s.cpuproc c, Chosen s (s.code p)
  | _ => True

omit [DecidableEq C] [DecidableEq K] in
/-- The state after `userinit`. -/
theorem clean_boot (root : D) : Clean (boot root : State C K F D) := by
  have hother {q : Slot} (hq : q ≠ initproc) : (boot root : State C K F D).proc q = .zero := by
    simp [boot, hq]
  have hne {q : Slot} (hq : ((boot root : State C K F D).proc q).state = .unused ∨
      ((boot root : State C K F D).proc q).state = .zombie) : q ≠ initproc := by
    rintro rfl
    simp [boot] at hq
  refine ⟨fun q hq => ?_, fun q hq => ?_, fun q hq => ⟨rfl, ?_⟩, fun p pid rest hp => ?_⟩
  · rw [hother (hne (.inl hq))]
    exact ⟨rfl, rfl, rfl, rfl⟩
  · rw [hother (hne (.inl hq))]
    rfl
  · have hq : q ≠ initproc := by
      rcases hq with hq | hq | hq
      · exact hne (.inl hq)
      · exact hne (.inr hq)
      · simp [boot, Code.exiting] at hq
    simp [boot, hq]
  · simp [boot] at hp

omit [DecidableEq C] [DecidableEq K] in
/-- `scheduler` stores to the process that it switches to, and to runnable ones. -/
theorem tame_switchTo (p q : Slot) :
    Tame s q (switchTo s.proc p q) := by
  unfold switchTo
  split_ifs with hq hrunnable
  · exact .inr ⟨by simp, by simp⟩
  · exact .inr ⟨by simp [hrunnable.1], by simp [hrunnable.1]⟩
  · exact .inl rfl

/-- Every step keeps the slots clean. -/
theorem Clean.step {a : Act C K F D} (h : Clean s) (hinv : Inv s) (ha : Rules s a)
    (hs : Family.step s a = some s') : Clean s' := by
  have hself (p : Slot) : s.code = update s.code p (s.code p) :=
    (update_eq_self p s.code).symm
  cases step_cases hs with
  | sched c p hrunnable =>
    exact h.move (tame_switchTo p) (hself p) id (h.kill p) rfl rfl
  | call c a p x hc hcode hentry =>
    obtain ⟨hord, -⟩ := Call.entry_ordinary hentry
    refine h.stay rfl rfl rfl rfl (by simp [hord.2.2]) (fun pid rest hx => ?_)
    subst hx
    cases a <;> simp [Call.entry] at hentry
    obtain ⟨rfl, -⟩ := hentry
    exact ha
  | exec c ok p s' hc hs =>
    exact h.exec hinv hc (ha p hc) hs
  | files c ofile cwd p hc hcode =>
    refine ⟨h.blank, h.zero, fun q hq => ?_, h.kill⟩
    -- The process runs, in user mode.
    have hqp : q ≠ p := by
      rintro rfl
      have hrun := hinv.core.cpu c q hc
      simp [hrun, hcode, Code.exiting] at hq
    simpa [hqp] using h.files q hq
  | yield c p hc =>
    exact h.store rfl (hself p) rfl rfl (.inr ⟨by simp, by simp⟩) id (h.kill p)
  | fault c p hc hcode =>
    exact h.store rfl rfl rfl rfl (.inr ⟨(hinv.started hc).ne.1, .inl⟩) (by simp [Code.exiting])
      (by simp)

/-- A step sets the kill flag of a process only in these ways. -/
theorem killed_step {a : Act C K F D} (h : Inv s) (ha : Rules s a) (hs : step s a = some s')
    (hold : (s.proc q).killed = false) (hnew : (s'.proc q).killed = true) : Kills s a q := by
  cases step_cases hs with
  | sched c p hrunnable =>
    have hkept : (switchTo s.proc p q).killed = (s.proc q).killed := by
      unfold switchTo
      split_ifs <;> rfl
    exact absurd (hkept.symm.trans hnew) (by simp [hold])
  | exec c ok p s' hc hs =>
    exact killed_exec h hc (ha p hc) hs hold hnew
  | call c a p x hc hcode hentry =>
    simp [hold] at hnew
  | files c ofile cwd p hc hcode =>
    simp [hold] at hnew
  | yield c p hc =>
    by_cases hq : q = p
    · subst hq
      simp [hold] at hnew
    · simp [hq, hold] at hnew
  | fault c p hc hcode =>
    by_cases hq : q = p
    · subst hq
      exact .inr (.inl ⟨c, rfl, hc⟩)
    · simp [hq, hold] at hnew

omit [DecidableEq C] [DecidableEq K] in
/-- A process that is killed is in use. -/
theorem Kills.used {a : Act C K F D} (h : Kills s a q) (hinv : Inv s) (hclean : Clean s)
    (ha : Rules s a) : (s.proc q).state ≠ .unused := by
  rcases h with ⟨c, ok, p, rest, rfl, hc, hcode⟩ | ⟨c, rfl, hc⟩ | ⟨c, ok, p, rfl, hc, hcode⟩
  · exact fun hq => hclean.kill p _ _ hcode (hclean.zero q hq)
  · exact (hinv.started hc).ne.1
  · have hchosen := ha p hc
    rcases hcode with hcode | hcode
    · rw [hcode] at hchosen
      exact hchosen.1
    · rw [hcode] at hchosen
      exact hchosen.1

/-- In every run in which no process calls `kill(0)` and the recoveries find the processes that they
have chosen, a slot that `allocproc` returns is clean, and a process is killed only in these ways,
while it is in use. -/
theorem new_process_clean {root : D} (h : ReachVia step Rules (boot root) s) :
    (∀ c p q rest, s.cpuproc c = some p → s.code p = .forkScan (q :: rest) →
      (s.proc q).state = .unused →
        Blank ((s.proc q).alloc s.nextpid) ∧ s.ofile q = (fun _ => none) ∧ s.cwd q = none) ∧
    ∀ a s' q, Rules s a → step s a = some s' → (s.proc q).killed = false →
      (s'.proc q).killed = true → (s.proc q).state ≠ .unused ∧ Kills s a q := by
  obtain ⟨hinv, hclean⟩ : Inv s ∧ Clean s := by
    refine h.invariant (I := fun s => Inv s ∧ Clean s) ⟨inv_boot root, clean_boot root⟩
      fun s a s' _ ⟨hinv, hclean⟩ ha hs => ⟨hinv.step (fun c ok p hact hc hexec => ?_) hs,
        hclean.step hinv ha hs⟩
    subst hact
    exact hinv.execChosen hc (ha p hc) hexec
  refine ⟨fun c p q rest _ _ hq => ?_, fun a s' q ha hs hold hnew => ?_⟩
  · have hblank := hclean.blank q hq
    exact ⟨⟨hblank.killed, hblank.xstate, hblank.chan, hblank.parent⟩, hclean.files q (.inl hq)⟩
  · have hkills := killed_step hinv ha hs hold hnew
    exact ⟨hkills.used hinv hclean ha, hkills⟩

instance (s : State C K F D) : (a : Act C K F D) → Decidable (Rules s a)
  | .call _ (.kill pid) => inferInstanceAs (Decidable (pid ≠ 0))
  | .exec c _ => inferInstanceAs (Decidable (∀ p ∈ s.cpuproc c, Chosen s (s.code p)))
  | .call _ .fork | .call _ (.exit _) | .call _ (.wait _) | .call _ (.sleep _)
  | .call _ (.wakeup _) | .call _ (.checkDeadlock _) | .call _ (.recovery _) | .sched _ _
  | .files _ _ _ | .yield _ | .fault _ => .isTrue trivial

/-- The first process forks, its child kills it, and calls `fork`. -/
def forkKillFork : List (Act Unit Unit Unit Unit) :=
  [.sched () initproc, .call () .fork, .exec () true, .exec () true, .exec () true, .exec () true,
    .exec () true, .yield (), .sched () 1, .call () (.kill 1), .exec () true, .exec () true,
    .call () .fork, .exec () true, .exec () true]

/-- The slot that the child is about to allocate is clean. -/
theorem new_process_clean_forkKillFork :
    ∃ s : State Unit Unit Unit Unit, ReachVia step Rules (boot ()) s ∧ s.cpuproc () = some 1 ∧
      s.code 1 = .forkScan (2 :: slots.drop 3) ∧ (s.proc 2).state = .unused ∧
      (s.proc initproc).killed = true ∧ Blank ((s.proc 2).alloc s.nextpid) := by
  obtain ⟨s, h, hcpu, hcode, hunused, hkilled⟩ := exists_of_run step Rules
    (boot () : State Unit Unit Unit Unit) forkKillFork
    (fun s => s.cpuproc () = some 1 ∧ s.code 1 = .forkScan (2 :: slots.drop 3) ∧
      (s.proc 2).state = .unused ∧ (s.proc initproc).killed = true) (by decide +kernel)
  exact ⟨s, h, hcpu, hcode, hunused, hkilled,
    ((new_process_clean h).1 () 1 2 (slots.drop 3) hcpu hcode hunused).1⟩

/-- The first process calls `kill(0)`, and then `fork`. -/
def killZeroFork : List (Act Unit Unit Unit Unit) :=
  [.sched () initproc, .call () (.kill 0), .exec () true, .exec () true, .exec () true,
    .call () .fork, .exec () true, .exec () true]

/-- `kill(0)` marks an unused slot, and the next process starts as killed. -/
theorem kill_zero_marks_new_process :
    ∃ s : State Unit Unit Unit Unit, Reach step (boot ()) s ∧
      s.code initproc = .forkParent 1 2 ∧ (s.proc 1).state = .used ∧ (s.proc 1).pid = 2 ∧
      (s.proc 1).killed = true := by
  exact exists_of_run step (fun _ _ => True) (boot () : State Unit Unit Unit Unit) killZeroFork _
    (by decide +kernel)

end SustainableXv6.Family
