import SustainableXv6.Sleeplock.Basic
import SustainableXv6.Lib.Cycle

/-!
# What `would_create_deadlock` and `energy_aware_deadlock_recovery` compute

In a state that does not change, the walks of `kernel/sleeplock.c` follow the owner of a lock, the
owner of the lock that this process waits for, and so on. The wait-for graph gives every process one
successor at most, so the first visit of every process on the way is followed by its last one, and
`NPROC` hops are enough to get to any process that can be reached at all (`exists_leave`).

`wouldCreateDeadlock_iff` says that the first walk is exact, and `recovery_exact` that the two walks
of the recovery visit the processes of the cycle and no others.
-/

namespace SustainableXv6

open Relation

variable {K : Type} {t : Table K} {lk : Locks K} {p q : Slot} {l : Lock K}

/-! ## The graph -/

/-- The processes in use have positive pids, and no two have the same. -/
structure UniquePids (t : Table K) : Prop where
  pos : ∀ q, (t q).state ≠ .unused → 0 < (t q).pid
  inj : ∀ p q, (t p).state ≠ .unused → (t q).state ≠ .unused → (t p).pid = (t q).pid → p = q

/-- The process `q` has the pid that is in the lock `l`. -/
def OwnerOf (t : Table K) (lk : Locks K) (l : Lock K) (q : Slot) : Prop :=
  (t q).state ≠ .unused ∧ (t q).pid = (lk l).pid

/-- The process `p` waits for a locked lock, whose owner is `q`. -/
def WaitsFor (t : Table K) (lk : Locks K) (p q : Slot) : Prop :=
  ∃ l, (t p).waiting_for_lock = some l ∧ (lk l).locked = true ∧ OwnerOf t lk l q

/-- A lock has one owner at most. -/
theorem OwnerOf.unique (hpids : UniquePids t) (hp : OwnerOf t lk l p) (hq : OwnerOf t lk l q) :
    p = q :=
  hpids.inj p q hp.1 hq.1 (hp.2.trans hq.2.symm)

/-- `pid2proc` finds the owner of a lock. -/
theorem OwnerOf.pid2proc_eq (hpids : UniquePids t) (h : OwnerOf t lk l q) :
    pid2proc t (lk l).pid = some q := by
  have hpos := hpids.pos q h.1
  rw [h.2] at hpos
  unfold pid2proc
  rw [if_neg (not_le.mpr hpos)]
  refine findSlot_eq_some_of_unique (by simp [h.1, h.2]) fun r hr => ?_
  simp only [decide_eq_true_eq] at hr
  exact hpids.inj r q hr.2 h.1 (hr.1.trans h.2.symm)

/-- A process that `pid2proc` finds is the owner. -/
theorem ownerOf_of_pid2proc (h : pid2proc t (lk l).pid = some q) : OwnerOf t lk l q := by
  unfold pid2proc at h
  split_ifs at h
  have hq := findSlot_some h
  simp only [decide_eq_true_eq] at hq
  exact ⟨hq.2, hq.1⟩

/-- Where a path from `a` ends elsewhere, its part after the last visit of `a` does not come back.
-/
theorem exists_leave {α : Type*} {E : α → α → Prop} {a b : α} (h : ReflTransGen E a b)
    (hne : b ≠ a) : ∃ c, E a c ∧ c ≠ a ∧ ReflTransGen (fun x y => E x y ∧ y ≠ a) c b := by
  induction h with
  | refl => exact absurd rfl hne
  | @tail x y hx hxy ih =>
    by_cases hxa : x = a
    · subst hxa
      exact ⟨y, hxy, hne, .refl⟩
    · obtain ⟨c, hac, hca, hcx⟩ := ih hxa
      exact ⟨c, hac, hca, hcx.tail ⟨hxy, hne⟩⟩

/-- The edges of the graph that do not lead to one of the processes `S`. -/
def Avoiding (t : Table K) (lk : Locks K) (S : Finset Slot) (x y : Slot) : Prop :=
  WaitsFor t lk x y ∧ y ∉ S

/-- The next owner on a path that does not come back to the processes `S` that have been visited. -/
theorem exists_next {S : Finset Slot} (h : ReflTransGen (Avoiding t lk S) q p) (hne : p ≠ q) :
    ∃ l r, (t q).waiting_for_lock = some l ∧ (lk l).locked = true ∧ OwnerOf t lk l r ∧
      r ∉ insert q S ∧ ReflTransGen (Avoiding t lk (insert q S)) r p := by
  obtain ⟨r, ⟨⟨l, hl, hlocked, hr⟩, hrS⟩, hrq, hpath⟩ := exists_leave h hne
  refine ⟨l, r, hl, hlocked, hr, by simp [hrq, hrS], ?_⟩
  refine ReflTransGen.mono (fun x y hxy => ⟨hxy.1.1, ?_⟩) _ _ hpath
  simp [hxy.1.2, hxy.2]

/-- There is a process that has not been visited, so less than `NPROC` have been. -/
theorem card_lt_of_notMem {S : Finset Slot} (hq : q ∉ S) : S.card < NPROC := by
  have hlt := Finset.card_lt_univ_of_notMem hq
  rwa [Fintype.card_fin] at hlt

/-! ## `would_create_deadlock` -/

/-- A round of the walk at the owner of the lock `l`, where this is `p`. -/
theorem walkRound_self (hpids : UniquePids t) (hp : OwnerOf t lk l p) {hops : ℕ}
    (hhops : hops < NPROC) : walkRound t lk p (lk l).pid hops = .done true := by
  have hpos := hpids.pos p hp.1
  rw [hp.2] at hpos
  simp only [walkRound, hpos, hhops, hp.pid2proc_eq hpids, and_self, if_true]

/-- A round of the walk at the owner `q` of the lock `l`, which waits for the lock `l'`. -/
theorem walkRound_next (hpids : UniquePids t) (hp : (t p).state ≠ .unused) (hq : OwnerOf t lk l q)
    (hne : p ≠ q) {l' : Lock K} (hl' : (t q).waiting_for_lock = some l')
    (hlocked : (lk l').locked = true) {hops : ℕ} (hhops : hops < NPROC) :
    walkRound t lk p (lk l).pid hops = .next (lk l').pid := by
  have hpos := hpids.pos q hq.1
  rw [hq.2] at hpos
  have hpid : ¬ (t q).pid = (t p).pid := fun heq => hne (hpids.inj p q hp hq.1 heq.symm)
  simp only [walkRound, hpos, hhops, hq.pid2proc_eq hpids, and_self, if_true, hpid, if_false, hl',
    hlocked]

/-- A walk that returns 1 has followed a path. -/
theorem walkLoop_sound (hpids : UniquePids t) (hp : (t p).state ≠ .unused) :
    ∀ (fuel : ℕ) (l : Lock K) (hops : ℕ), walkLoop t lk p fuel (lk l).pid hops = true →
      ∃ o, OwnerOf t lk l o ∧ ReflTransGen (WaitsFor t lk) o p := by
  intro fuel
  induction fuel with
  | zero =>
    intro l hops h
    simp [walkLoop] at h
  | succ fuel ih =>
    intro l hops h
    unfold walkLoop walkRound at h
    split_ifs at h
    · cases ho : pid2proc t (lk l).pid with
      | none => simp [ho] at h
      | some o =>
        have hown := ownerOf_of_pid2proc ho
        simp only [ho] at h
        split_ifs at h with hpid
        · obtain rfl := hpids.inj o p hown.1 hp hpid
          exact ⟨o, hown, .refl⟩
        · cases hw : (t o).waiting_for_lock with
          | none => simp [hw] at h
          | some l' =>
            simp only [hw] at h
            split_ifs at h with hlocked
            obtain ⟨r, hr, hpath⟩ := ih l' (hops + 1) h
            exact ⟨o, hown, .head ⟨l', hw, hlocked, hr⟩ hpath⟩

/-- A walk from an owner that leads to `p` returns 1. `S` are the processes that it has visited. -/
theorem walkLoop_complete (hpids : UniquePids t) (hp : (t p).state ≠ .unused) :
    ∀ (fuel : ℕ) (l : Lock K) (o : Slot) (S : Finset Slot), NPROC < fuel + S.card →
      OwnerOf t lk l o → o ∉ S → ReflTransGen (Avoiding t lk S) o p →
      walkLoop t lk p fuel (lk l).pid S.card = true := by
  intro fuel
  induction fuel with
  | zero =>
    intro l o S hfuel ho hoS hpath
    have := card_lt_of_notMem hoS
    omega
  | succ fuel ih =>
    intro l o S hfuel ho hoS hpath
    have hhops := card_lt_of_notMem hoS
    unfold walkLoop
    by_cases hne : p = o
    · subst hne
      rw [walkRound_self hpids ho hhops]
    · obtain ⟨l', r, hl', hlocked, hr, hrS, hpath'⟩ := exists_next hpath hne
      have hcard : (insert o S).card = S.card + 1 := Finset.card_insert_of_notMem hoS
      rw [walkRound_next hpids hp ho hne hl' hlocked hhops, ← hcard]
      exact ih l' r (insert o S) (by omega) hr hrS hpath'

/-- **`would_create_deadlock` is exact.** It returns 1 exactly when the owner of the lock, the owner
of the lock that this process waits for, and so on are in the end the process `p` itself. More
rounds of its loop than `NPROC + 1` change nothing. -/
theorem wouldCreateDeadlock_iff (hpids : UniquePids t) (hp : (t p).state ≠ .unused) :
    (wouldCreateDeadlock t lk p l = true ↔
      ∃ o, OwnerOf t lk l o ∧ ReflTransGen (WaitsFor t lk) o p) ∧
      ∀ fuel, NPROC < fuel → walkLoop t lk p fuel (lk l).pid 0 = wouldCreateDeadlock t lk p l := by
  have hiff (fuel : ℕ) (hfuel : NPROC < fuel) : walkLoop t lk p fuel (lk l).pid 0 = true ↔
      ∃ o, OwnerOf t lk l o ∧ ReflTransGen (WaitsFor t lk) o p := by
    refine ⟨walkLoop_sound hpids hp fuel l 0, ?_⟩
    rintro ⟨o, ho, hpath⟩
    refine walkLoop_complete hpids hp fuel l o ∅ hfuel ho (Finset.notMem_empty o) ?_
    exact ReflTransGen.mono (fun x y hxy => ⟨hxy, Finset.notMem_empty y⟩) _ _ hpath
  have hmain := hiff (NPROC + 1) (Nat.lt_succ_self _)
  refine ⟨hmain, fun fuel hfuel => ?_⟩
  rw [Bool.eq_iff_iff, hiff fuel hfuel]
  exact hmain.symm

/-- The first process waits for the lock of the second one, which waits for the lock of the first
one. The second one has consumed more energy. -/
def crossedProcs : Table Empty := fun p =>
  if p = 0 then
    { (Proc.zero : Proc Empty) with
      state := .running, pid := 1, energy_consumed := 3, waiting_for_lock := some (.demo 1) }
  else if p = 1 then
    { (Proc.zero : Proc Empty) with
      state := .sleeping, pid := 2, energy_consumed := 5, waiting_for_lock := some (.demo 0) }
  else Proc.zero

/-- The locks that they hold. -/
def crossedLocks : Locks Empty
  | .demo i => ⟨true, .free, i.val + 1⟩
  | .other k => nomatch k

theorem crossedProcs_used {p : Slot} (hp : (crossedProcs p).state ≠ .unused) : p = 0 ∨ p = 1 := by
  by_contra hn
  rw [not_or] at hn
  exact hp (by simp [crossedProcs, hn.1, hn.2, Proc.zero])

theorem uniquePids_crossedProcs : UniquePids crossedProcs where
  pos q hq := by
    rcases crossedProcs_used hq with rfl | rfl
    · decide
    · decide
  inj p q hp hq hpid := by
    rcases crossedProcs_used hp with rfl | rfl <;> rcases crossedProcs_used hq with rfl | rfl
    · rfl
    · exact absurd hpid (by decide)
    · exact absurd hpid (by decide)
    · rfl

/-- The walk finds the crossed wait. -/
theorem wouldCreateDeadlock_iff_crossedProcs :
    wouldCreateDeadlock crossedProcs crossedLocks 0 (.demo 1) = true ∧
      ∃ o, OwnerOf crossedProcs crossedLocks (.demo 1) o ∧
        ReflTransGen (WaitsFor crossedProcs crossedLocks) o 0 := by
  have hw : wouldCreateDeadlock crossedProcs crossedLocks 0 (.demo 1) = true := by decide +kernel
  exact ⟨hw, (wouldCreateDeadlock_iff uniquePids_crossedProcs (by decide)).1.mp hw⟩

/-! ## `energy_aware_deadlock_recovery` -/

/-- The graph in which the process `p` waits for the lock `l`. -/
def CycleEdge (t : Table K) (lk : Locks K) (p : Slot) (l : Lock K) (x y : Slot) : Prop :=
  x = p ∧ OwnerOf t lk l y ∨ x ≠ p ∧ WaitsFor t lk x y

/-- The cycle from `p` to the owner of the lock `l`, and on along the graph back to `p`. -/
def CycleOf (t : Table K) (lk : Locks K) (p : Slot) (l : Lock K) : Set Slot :=
  {q | ReflTransGen (CycleEdge t lk p l) p q}

/-- `L` are the processes from the owner `o` on until the walk is back at `p`. -/
structure Visits (t : Table K) (lk : Locks K) (p o : Slot) (L : List Slot) : Prop where
  start : o = p ∨ o ∈ L
  reach : ∀ x ∈ L, ReflTransGen (fun x y => x ≠ p ∧ WaitsFor t lk x y) o x
  closed : ∀ x ∈ L, x ≠ p ∧ ∀ y, WaitsFor t lk x y → y = p ∨ y ∈ L
  returns : ReflTransGen (fun x y => x ≠ p ∧ WaitsFor t lk x y) o p

/-- The walks of the recovery stop at `p`. `S` are the processes that they have visited. -/
theorem visits_cycleOwners (hpids : UniquePids t) (hp : (t p).state ≠ .unused) :
    ∀ (room : ℕ) (l : Lock K) (o : Slot) (S : Finset Slot), NPROC ≤ room + S.card →
      OwnerOf t lk l o → o ∉ S → ReflTransGen (Avoiding t lk S) o p →
      Visits t lk p o (cycleOwners t lk (t p).pid room (lk l).pid) := by
  intro room
  induction room with
  | zero =>
    intro l o S hroom ho hoS hpath
    have := card_lt_of_notMem hoS
    omega
  | succ room ih =>
    intro l o S hroom ho hoS hpath
    unfold cycleOwners
    by_cases hne : p = o
    · subst hne
      rw [if_neg (by rw [ho.2]; simp)]
      exact ⟨.inl rfl, by simp, by simp, .refl⟩
    · obtain ⟨l', r, hl', hlocked, hr, hrS, hpath'⟩ := exists_next hpath hne
      have hcard : (insert o S).card = S.card + 1 := Finset.card_insert_of_notMem hoS
      have hpos := hpids.pos o ho.1
      have hpid : (t o).pid ≠ (t p).pid := fun heq => hne (hpids.inj p o hp ho.1 heq.symm)
      rw [ho.2] at hpos hpid
      have hrest := ih l' r (insert o S) (by omega) hr hrS hpath'
      have hedge : o ≠ p ∧ WaitsFor t lk o r := ⟨Ne.symm hne, l', hl', hlocked, hr⟩
      simp only [hpos, ne_eq, hpid, not_false_eq_true, and_self, if_true, ho.pid2proc_eq hpids, hl',
        hlocked]
      refine ⟨.inr List.mem_cons_self, fun x hx => ?_, fun x hx => ?_, .head hedge hrest.returns⟩
      · rcases List.mem_cons.mp hx with rfl | hx
        · exact .refl
        · exact .head hedge (hrest.reach x hx)
      · rcases List.mem_cons.mp hx with rfl | hx
        · -- The owner waits for one lock, whose owner comes next.
          refine ⟨hedge.1, ?_⟩
          rintro y ⟨l'', hl'', -, hy⟩
          obtain rfl : l' = l'' := Option.some.inj (hl'.symm.trans hl'')
          obtain rfl := hr.unique hpids hy
          exact hrest.start.imp_right (List.mem_cons_of_mem _)
        · exact ⟨(hrest.closed x hx).1, fun y hy =>
            ((hrest.closed x hx).2 y hy).imp_right (List.mem_cons_of_mem _)⟩

/-- The processes visited are those of the cycle. -/
theorem Visits.mem_iff {o : Slot} {L : List Slot} (hpids : UniquePids t) (ho : OwnerOf t lk l o)
    (h : Visits t lk p o L) : q ∈ p :: L ↔ q ∈ CycleOf t lk p l := by
  have hedge : CycleEdge t lk p l p o := .inl ⟨rfl, ho⟩
  constructor
  · intro hq
    rcases List.mem_cons.mp hq with rfl | hq
    · exact ReflTransGen.refl
    · exact .head hedge (ReflTransGen.mono (fun x y hxy => .inr hxy) _ _ (h.reach q hq))
  · intro hq
    induction hq with
    | refl => exact List.mem_cons_self
    | @tail x y hx hxy ih =>
      rcases hxy with ⟨rfl, hy⟩ | ⟨hxp, hxy⟩
      · obtain rfl := ho.unique hpids hy
        exact List.mem_cons.mpr h.start
      · have hxL : x ∈ L := (List.mem_cons.mp ih).resolve_left hxp
        exact List.mem_cons.mpr ((h.closed x hxL).2 y hxy)

/-- What the walks read of a process, they do not change. -/
theorem pid2proc_congr {t' : Table K} (h : Passive t t') (pid : ℤ) :
    pid2proc t' pid = pid2proc t pid := by
  unfold pid2proc
  have htest (q : Slot) : ((t' q).pid = pid ∧ (t' q).state ≠ .unused) ↔
      ((t q).pid = pid ∧ (t q).state ≠ .unused) := by
    rw [(h q).pid, ne_eq, (h q).unused]
  simp only [htest]

theorem cycleOwners_congr {t' : Table K} (h : Passive t t') (start_pid : ℤ) :
    ∀ (room : ℕ) (owner_pid : ℤ),
      cycleOwners t' lk start_pid room owner_pid = cycleOwners t lk start_pid room owner_pid := by
  intro room
  induction room with
  | zero => intro owner_pid; rfl
  | succ room ih =>
    intro owner_pid
    simp only [cycleOwners, pid2proc_congr h, (h _).waiting_for_lock, ih]

/-- Where nobody has more energy than the first process, it is the victim. -/
theorem foldl_pickRound_of_le {ds : List Slot}
    (h : ∀ d ∈ ds, (t d).energy_consumed ≤ (t p).energy_consumed) :
    ds.foldl (pickRound t) (p, (t p).energy_consumed) = (p, (t p).energy_consumed) := by
  induction ds with
  | nil => rfl
  | cons d ds ih =>
    have hd : ¬ (t p).energy_consumed < (t d).energy_consumed :=
      UInt64.not_lt.mpr (h d List.mem_cons_self)
    rw [List.foldl_cons, pickRound, if_neg hd]
    exact ih fun e he => h e (List.mem_cons_of_mem d he)

/-- Marking the processes of a list that has the victim, killing the victim, and removing the marks
leaves no marks. -/
theorem unmark_kill_mark {v : Slot} {L : List Slot} (hflags : ∀ q, (t q).in_deadlock = false)
    (hv : v ∈ L) :
    markInDeadlock false L (killVictim v (markInDeadlock true L t)) = killVictim v t := by
  funext q
  have hflag : { t q with in_deadlock := false } = t q := by rw [← hflags q]
  by_cases hqv : q = v
  · subst hqv
    simp [markInDeadlock, killVictim, hv, hflags]
  · by_cases hq : q ∈ L
    · simpa [markInDeadlock, killVictim, hqv, hq] using hflag
    · simp [markInDeadlock, killVictim, hqv, hq]

/-- **The victim of a recovery, and its frame.** If the wait of `p` for the lock `l` closes a cycle,
the recovery kills a process of that cycle with the most energy consumed on it, and `p` if it is one
of those. It wakes the victim if it sleeps, returns its pid, and changes nothing else. -/
theorem recovery_exact (hpids : UniquePids t) (hp : (t p).state ≠ .unused)
    (hflags : ∀ q, (t q).in_deadlock = false) (hw : wouldCreateDeadlock t lk p l = true) :
    TransGen (CycleEdge t lk p l) p p ∧
      ∃ v ∈ CycleOf t lk p l,
        (∀ q ∈ CycleOf t lk p l, (t q).energy_consumed ≤ (t v).energy_consumed) ∧
        ((t p).energy_consumed = (t v).energy_consumed → v = p) ∧
        energyAwareDeadlockRecovery t lk p l = (killVictim v t, (t v).pid) := by
  obtain ⟨o, ho, hpath⟩ := walkLoop_sound hpids hp (NPROC + 1) l 0 hw
  have hvisits := visits_cycleOwners hpids hp NPROC l o ∅ (by simp) ho (Finset.notMem_empty o)
    (ReflTransGen.mono (fun x y hxy => ⟨hxy, Finset.notMem_empty y⟩) _ _ hpath)
  have hreturn : TransGen (CycleEdge t lk p l) p p :=
    .head' (.inl ⟨rfl, ho⟩) (ReflTransGen.mono (fun x y hxy => .inr hxy) _ _ hvisits.returns)
  obtain ⟨v, hfold, hmem, hmax⟩ :=
    pickRound_foldl t (cycleOwners t lk (t p).pid NPROC (lk l).pid) p
  have hvictim : recoveryVictim t lk p l = v := by rw [recoveryVictim, hfold]
  refine ⟨hreturn, v, (hvisits.mem_iff hpids ho).mp hmem, fun q hq => ?_, fun htie => ?_, ?_⟩
  · exact hmax q ((hvisits.mem_iff hpids ho).mpr hq)
  · have hkeep := foldl_pickRound_of_le (p := p) fun d hd =>
      htie ▸ hmax d (List.mem_cons_of_mem p hd)
    rw [hkeep] at hfold
    exact (congrArg Prod.fst hfold).symm
  · have hpassive : Passive t (killVictim v (markInDeadlock true
        (p :: cycleOwners t lk (t p).pid NPROC (lk l).pid) t)) :=
      (markInDeadlock_passive _ _ _).trans (.update (Proc.passive_kill _))
    unfold energyAwareDeadlockRecovery
    simp only [hvictim, cycleOwners_congr hpassive, (hpassive p).pid]
    rw [unmark_kill_mark hflags hmem]

/-- The second process of the crossed wait is killed. -/
theorem recovery_exact_crossedProcs :
    (energyAwareDeadlockRecovery crossedProcs crossedLocks 0 (.demo 1)).2 = 2 ∧
      ∃ v, (energyAwareDeadlockRecovery crossedProcs crossedLocks 0 (.demo 1)).1 =
        killVictim v crossedProcs := by
  have hflags : ∀ q, (crossedProcs q).in_deadlock = false := by
    intro q
    unfold crossedProcs
    split_ifs
    · rfl
    · rfl
    · rfl
  have hw : wouldCreateDeadlock crossedProcs crossedLocks 0 (.demo 1) = true := by decide +kernel
  obtain ⟨-, v, -, -, -, hrec⟩ := recovery_exact uniquePids_crossedProcs (by decide) hflags hw
  exact ⟨by decide +kernel, v, by rw [hrec]⟩

end SustainableXv6
