import SustainableXv6.Proc.Table
import SustainableXv6.Lib.Cycle

/-!
# `check_deadlock` decides cyclicity of the resource allocation graph

`find_holder` and `check_deadlock` of `kernel/proc.c`. For each waiting process in table order,
`check_deadlock` follows the chain from a process to the holder of the resource that it waits for,
and keeps the processes visited (`followChain`). If the chain comes back to a visited process, the
visited processes from there on are the deadlocked ones (`findDeadlock`), and the one of them with
the most energy consumed is the victim (`pickVictim`).

`RagEdge` is the graph. `checkDeadlock_spec` proves, of tables in which no resource has two holders
(`RagTable`), that a victim is returned exactly when the graph has a cycle, and that the victim has
the most energy consumed on such a cycle. That the list found is a cycle and not the tail that leads
to it is `followChain_sound`. That the bound on the number of processes visited never hides a cycle
is `followChain_complete`: a list of `NPROC` distinct slots holds every slot.
-/

namespace SustainableXv6

open Function Lib Relation

variable {K : Type} {t : Table K}

/-! ## The source's functions -/

/-- `p->holding_res[res_id]`. The kernel reads it at ids from 0 to `NRES - 1` only. -/
def Proc.holds (p : Proc K) (res_id : ℤ) : Bool :=
  if h : 0 ≤ res_id ∧ res_id < NRES then p.holding_res ⟨res_id.toNat, by omega⟩ else false

/-- `find_holder`. -/
def findHolder (t : Table K) (res_id : ℤ) : Option Slot :=
  findSlot fun p => (t p).state ≠ .unused ∧ (t p).holds res_id

/-- The `while` loop of `check_deadlock` at the process `cur`, with the array `visited` and room for
`room = NPROC - nvisited` more processes in it: the processes of the cycle found, or `none` where
the loop ends without one. -/
def followChain (t : Table K) : ℕ → List Slot → Option Slot → Option (List Slot)
  | _, _, none => none
  | room, visited, some cur =>
    if (t cur).waiting_res < 0 then none
    else if cur ∈ visited then
      -- `visited[i] == cur` for the first such `i`: the cycle is `visited[i..]`.
      some (visited.dropWhile (· ≠ cur))
    else match room with
      -- `nvisited >= NPROC`
      | 0 => none
      | room + 1 => followChain t room (visited ++ [cur]) (findHolder t (t cur).waiting_res)

/-- The `for` loop of `check_deadlock`: the processes of the first cycle found. -/
def findDeadlock (t : Table K) : Option (List Slot) :=
  (List.finRange NPROC).findSome? fun p =>
    -- `continue`
    if (t p).state = .unused ∨ (t p).waiting_res < 0 then none
    else followChain t NPROC [] (some p)

/-- The victim among the deadlocked processes, or `none` if there are none. -/
def pickVictim (t : Table K) : List Slot → Option Slot
  | [] => none
  | d :: ds => some (ds.foldl (pickRound t) (d, (t d).energy_consumed)).1

/-- What `check_deadlock` does to its victim. -/
def Proc.ragKill (p : Proc K) : Proc K :=
  { p with
    holding_res := fun _ => false
    waiting_res := -1
    killed := true
    state := if p.state = .sleeping then .runnable else p.state }

/-- The victim that `check_deadlock` chooses, if it finds a deadlock. -/
def ragVictim (t : Table K) : Option Slot := (findDeadlock t).bind (pickVictim t)

/-- `check_deadlock`: the table after it, and its result. -/
def checkDeadlock (t : Table K) : Table K × ℤ :=
  match ragVictim t with
  | none => (t, 0)
  | some victim => (update t victim (t victim).ragKill, (t victim).pid)

/-! ## The resource allocation graph -/

/-- `p` waits for a resource that `q` holds, and both are in use. -/
def RagEdge (t : Table K) (p q : Slot) : Prop :=
  (t p).state ≠ .unused ∧ (t q).state ≠ .unused ∧
    ∃ r : Fin NRES, (t p).waiting_res = r ∧ (t q).holding_res r = true

/-- The tables that `check_deadlock` is meant for. -/
structure RagTable (t : Table K) : Prop where
  /-- No resource has two holders. -/
  one_holder : ∀ (r : Fin NRES) (p q : Slot), (t p).state ≠ .unused → (t q).state ≠ .unused →
    (t p).holding_res r = true → (t q).holding_res r = true → p = q
  /-- A process waits for nothing or for one of the resources. -/
  waiting : ∀ p, (t p).waiting_res = -1 ∨ ∃ r : Fin NRES, (t p).waiting_res = r
  /-- Processes in use have positive pids. -/
  pid_pos : ∀ p, (t p).state ≠ .unused → 0 < (t p).pid

/-- `holds` at a resource id reads the array. -/
theorem Proc.holds_natCast (p : Proc K) (r : Fin NRES) : p.holds (r.val : ℤ) = p.holding_res r := by
  have hr := r.isLt
  simp [Proc.holds]

/-- A process has one successor at most. -/
theorem RagTable.rightUnique (h : RagTable t) : Relator.RightUnique (RagEdge t) := by
  rintro p q q' ⟨-, hq, r, hr, hqr⟩ ⟨-, hq', r', hr', hqr'⟩
  have he : r = r' := by
    rw [hr] at hr'
    exact Fin.ext (by omega)
  subst he
  exact h.one_holder r q q' hq hq' hqr hqr'

/-- A process in use that waits for a resource has the holder of the resource as its successor. -/
theorem RagTable.edge_of_findHolder (h : RagTable t) {p q : Slot} (hp : (t p).state ≠ .unused)
    (hw : ¬ (t p).waiting_res < 0) (hq : findHolder t (t p).waiting_res = some q) :
    RagEdge t p q := by
  have hf := findSlot_some hq
  simp only [decide_eq_true_eq] at hf
  rcases h.waiting p with hneg | ⟨r, hr⟩
  · omega
  · rw [hr, Proc.holds_natCast] at hf
    exact ⟨hp, hf.1, r, hr, hf.2⟩

/-- The successor of a process is what `find_holder` returns. -/
theorem RagTable.findHolder_of_edge (h : RagTable t) {p q : Slot} (he : RagEdge t p q) :
    findHolder t (t p).waiting_res = some q := by
  obtain ⟨-, hq, r, hr, hqr⟩ := he
  apply findSlot_eq_some_of_unique
  · simp only [decide_eq_true_eq]
    rw [hr, Proc.holds_natCast]
    exact ⟨hq, hqr⟩
  · intro q' hq'
    simp only [decide_eq_true_eq] at hq'
    rw [hr, Proc.holds_natCast] at hq'
    exact h.one_holder r q' q hq'.1 hq hq'.2 hqr

/-- A process with a successor waits. -/
theorem RagEdge.waiting_nonneg {p q : Slot} (he : RagEdge t p q) : ¬ (t p).waiting_res < 0 := by
  obtain ⟨-, -, r, hr, -⟩ := he
  omega

/-! ## The chain from one process -/

/-- A list found from `visited` and `cur` is a cycle of the graph, if the visited processes form a
chain that `cur` continues. -/
theorem followChain_sound (h : RagTable t) :
    ∀ (room : ℕ) (visited : List Slot) (cur : Slot) (ds : List Slot), (t cur).state ≠ .unused →
      (visited ++ [cur]).IsChain (RagEdge t) → followChain t room visited (some cur) = some ds →
      ∃ (k : ℕ) (c : Fin (k + 1) → Slot), IsCycle (RagEdge t) c ∧ Set.range c = {p | p ∈ ds} := by
  intro room
  induction room with
  | zero =>
    intro visited cur ds hcur hchain hf
    unfold followChain at hf
    split_ifs at hf with hw hmem
    rw [Option.some.injEq] at hf
    exact hf ▸ exists_isCycle_of_revisit hchain hmem
  | succ room ih =>
    intro visited cur ds hcur hchain hf
    unfold followChain at hf
    split_ifs at hf with hw hmem
    · rw [Option.some.injEq] at hf
      exact hf ▸ exists_isCycle_of_revisit hchain hmem
    · cases hq : findHolder t (t cur).waiting_res with
      | none => simp [hq, followChain] at hf
      | some q =>
        rw [hq] at hf
        have he := h.edge_of_findHolder hcur hw hq
        refine ih (visited ++ [cur]) q ds he.2.1 ?_ hf
        -- The holder continues the chain.
        rw [List.isChain_append]
        refine ⟨hchain, List.isChain_singleton q, ?_⟩
        intro x hx y hy
        simp only [List.getLast?_append, List.getLast?_singleton, Option.some_or,
          Option.mem_def, Option.some.injEq, List.head?_cons] at hx hy
        rw [← hx, ← hy]
        exact he

/-- From a process all of whose descendants have successors, the loop finds a cycle. The visited
processes are distinct, so when there is no room left they are all the slots, and the loop has
stopped at one of them before it tests the bound. -/
theorem followChain_complete (h : RagTable t) :
    ∀ (room : ℕ) (visited : List Slot) (cur : Slot), visited.length + room = NPROC →
      visited.Nodup → (∀ p, ReflTransGen (RagEdge t) cur p → ∃ q, RagEdge t p q) →
      ∃ ds, followChain t room visited (some cur) = some ds := by
  intro room
  induction room with
  | zero =>
    intro visited cur hlen hnodup hsucc
    obtain ⟨q, hq⟩ := hsucc cur .refl
    -- `NPROC` processes have been visited, so `cur` is one of them.
    have hmem : cur ∈ visited := by
      by_contra hmem
      have hle := (hnodup.concat hmem).length_le_card
      rw [List.length_concat, Fintype.card_fin] at hle
      omega
    unfold followChain
    rw [if_neg hq.waiting_nonneg, if_pos hmem]
    exact ⟨_, rfl⟩
  | succ room ih =>
    intro visited cur hlen hnodup hsucc
    obtain ⟨q, hq⟩ := hsucc cur .refl
    unfold followChain
    rw [if_neg hq.waiting_nonneg]
    by_cases hmem : cur ∈ visited
    · rw [if_pos hmem]
      exact ⟨_, rfl⟩
    · rw [if_neg hmem, h.findHolder_of_edge hq, ← List.concat_eq_append]
      refine ih (visited.concat cur) q ?_ (hnodup.concat hmem) fun p hp => hsucc p (.head hq hp)
      rw [List.length_concat]
      omega

/-! ## The search over the table -/

/-- A list found by `findDeadlock` is a cycle of the graph. -/
theorem findDeadlock_sound (h : RagTable t) {ds : List Slot} (hf : findDeadlock t = some ds) :
    ∃ (k : ℕ) (c : Fin (k + 1) → Slot), IsCycle (RagEdge t) c ∧ Set.range c = {p | p ∈ ds} := by
  obtain ⟨p, -, hp⟩ := List.exists_of_findSome?_eq_some hf
  split_ifs at hp with hskip
  rw [not_or] at hskip
  exact followChain_sound h NPROC [] p ds hskip.1 (List.isChain_singleton p) hp

/-- If the graph has a cycle, `findDeadlock` finds one. -/
theorem findDeadlock_complete (h : RagTable t) (hcyc : HasCycle (RagEdge t)) :
    ∃ ds, findDeadlock t = some ds := by
  obtain ⟨k, c, hc⟩ := hcyc
  rw [← Option.isSome_iff_exists, findDeadlock, List.findSome?_isSome_iff]
  refine ⟨c 0, List.mem_finRange _, ?_⟩
  have hskip : ¬ ((t (c 0)).state = .unused ∨ (t (c 0)).waiting_res < 0) := by
    rw [not_or]
    exact ⟨(hc 0).1, (hc 0).waiting_nonneg⟩
  rw [if_neg hskip, Option.isSome_iff_exists]
  refine followChain_complete h NPROC [] (c 0) (by simp) List.nodup_nil ?_
  -- From a process of the cycle, the chain stays on the cycle.
  intro p hp
  obtain ⟨i, rfl⟩ := hc.mem_range_of_reflTransGen h.rightUnique 0 hp
  exact ⟨_, hc i⟩

/-! ## The victim -/

/-- The victim of a list is a member of it with the most energy consumed. -/
theorem pickVictim_some {ds : List Slot} {v : Slot} (h : pickVictim t ds = some v) :
    v ∈ ds ∧ ∀ d ∈ ds, (t d).energy_consumed ≤ (t v).energy_consumed := by
  cases ds with
  | nil => simp [pickVictim] at h
  | cons d ds =>
    obtain ⟨w, hw, hmem, hmax⟩ := pickRound_foldl t ds d
    simp only [pickVictim, hw, Option.some.injEq] at h
    subst h
    exact ⟨hmem, hmax⟩

/-- A list with a member has a victim. -/
theorem pickVictim_isSome {ds : List Slot} {d : Slot} (h : d ∈ ds) :
    ∃ v, pickVictim t ds = some v := by
  cases ds with
  | nil => simp at h
  | cons d ds => exact ⟨_, rfl⟩

/-! ## `check_deadlock` -/

/-- The victim lies on a cycle of the graph and has the most energy consumed on it. -/
theorem ragVictim_some (h : RagTable t) {v : Slot} (hv : ragVictim t = some v) :
    ∃ (k : ℕ) (c : Fin (k + 1) → Slot), IsCycle (RagEdge t) c ∧ ∃ i, v = c i ∧
      ∀ j, (t (c j)).energy_consumed ≤ (t (c i)).energy_consumed := by
  obtain ⟨ds, hds, hv⟩ := Option.bind_eq_some_iff.mp hv
  obtain ⟨k, c, hc, hr⟩ := findDeadlock_sound h hds
  obtain ⟨hmem, hmax⟩ := pickVictim_some hv
  have hmem_iff : ∀ p, p ∈ Set.range c ↔ p ∈ ds := fun p => by rw [hr]; rfl
  obtain ⟨i, rfl⟩ := (hmem_iff v).mpr hmem
  exact ⟨k, c, hc, i, rfl, fun j => hmax _ ((hmem_iff _).mp ⟨j, rfl⟩)⟩

/-- There is a victim exactly when the graph has a cycle. -/
theorem ragVictim_isSome_iff (h : RagTable t) :
    (∃ v, ragVictim t = some v) ↔ HasCycle (RagEdge t) := by
  constructor
  · rintro ⟨v, hv⟩
    obtain ⟨k, c, hc, -⟩ := ragVictim_some h hv
    exact ⟨k, c, hc⟩
  · intro hcyc
    obtain ⟨ds, hds⟩ := findDeadlock_complete h hcyc
    obtain ⟨k, c, -, hr⟩ := findDeadlock_sound h hds
    have hmem : c 0 ∈ ds := by
      have h0 : c 0 ∈ Set.range c := ⟨0, rfl⟩
      rw [hr] at h0
      exact h0
    obtain ⟨v, hv⟩ := pickVictim_isSome (t := t) hmem
    exact ⟨v, Option.bind_eq_some_iff.mpr ⟨ds, hds, hv⟩⟩

/-- Without a victim `check_deadlock` returns 0 and leaves the table alone. -/
theorem checkDeadlock_of_none (hv : ragVictim t = none) : checkDeadlock t = (t, 0) := by
  simp [checkDeadlock, hv]

/-- Where no process waits for a resource, `check_deadlock` returns 0. -/
theorem checkDeadlock_of_no_waiter (h : ∀ p, (t p).state ≠ .unused → (t p).waiting_res < 0) :
    checkDeadlock t = (t, 0) := by
  apply checkDeadlock_of_none
  have hnone : findDeadlock t = none := by
    refine List.findSome?_eq_none_iff.mpr fun p _ => if_pos ?_
    by_cases hp : (t p).state = .unused
    · exact .inl hp
    · exact .inr (h p hp)
  rw [ragVictim, hnone, Option.bind_none]

/-- With a victim `check_deadlock` kills it and returns its pid. -/
theorem checkDeadlock_of_some {v : Slot} (hv : ragVictim t = some v) :
    checkDeadlock t = (update t v (t v).ragKill, (t v).pid) := by
  simp [checkDeadlock, hv]

/-- The result of `check_deadlock` is not 0 exactly when there is a victim. -/
theorem checkDeadlock_ne_zero_iff (h : RagTable t) :
    (checkDeadlock t).2 ≠ 0 ↔ ∃ v, ragVictim t = some v := by
  cases hv : ragVictim t with
  | none => simp [checkDeadlock_of_none hv]
  | some v =>
    obtain ⟨k, c, hc, i, rfl, -⟩ := ragVictim_some h hv
    have hpid := h.pid_pos (c i) (hc i).1
    rw [checkDeadlock_of_some hv]
    exact iff_of_true (by dsimp only; omega) ⟨_, rfl⟩

/-- `check_deadlock` returns a non-zero value exactly when the resource allocation graph has a
cycle, and the value is then the pid of a process on a cycle with the most energy consumed on it. -/
theorem checkDeadlock_spec (h : RagTable t) :
    ((checkDeadlock t).2 ≠ 0 ↔ HasCycle (RagEdge t)) ∧
      ((checkDeadlock t).2 ≠ 0 → ∃ (k : ℕ) (c : Fin (k + 1) → Slot), IsCycle (RagEdge t) c ∧
        ∃ i, (checkDeadlock t).2 = (t (c i)).pid ∧
          ∀ j, (t (c j)).energy_consumed ≤ (t (c i)).energy_consumed) := by
  have hiff := checkDeadlock_ne_zero_iff h
  refine ⟨hiff.trans (ragVictim_isSome_iff h), fun hne => ?_⟩
  obtain ⟨v, hv⟩ := hiff.mp hne
  obtain ⟨k, c, hc, i, rfl, hmax⟩ := ragVictim_some h hv
  exact ⟨k, c, hc, i, by rw [checkDeadlock_of_some hv], hmax⟩

/-- A table with the classic deadlock: slot 0 holds resource 0 and waits for 1, slot 1 holds
resource 1 and waits for 0, and slot 1 has consumed more energy. -/
def crossedTable : Table Empty := fun p =>
  if p = 0 then
    { (Proc.zero : Proc Empty) with
      state := .sleeping, pid := 1, energy_consumed := 3
      holding_res := fun r => r = 0, waiting_res := 1 }
  else if p = 1 then
    { (Proc.zero : Proc Empty) with
      state := .sleeping, pid := 2, energy_consumed := 5
      holding_res := fun r => r = 1, waiting_res := 0 }
  else Proc.zero

/-- The slots of the crossed table that are in use. -/
theorem crossedTable_used {p : Slot} (hp : (crossedTable p).state ≠ .unused) : p = 0 ∨ p = 1 := by
  by_contra hn
  rw [not_or] at hn
  exact hp (by simp [crossedTable, hn.1, hn.2, Proc.zero])

/-- The crossed table meets the conditions on tables. -/
theorem ragTable_crossedTable : RagTable crossedTable where
  one_holder := by
    have hone : ∀ r, (crossedTable 0).holding_res r = true →
        (crossedTable 1).holding_res r = true → False := by decide
    intro r p q hp hq hpr hqr
    rcases crossedTable_used hp with rfl | rfl <;> rcases crossedTable_used hq with rfl | rfl
    · rfl
    · exact (hone r hpr hqr).elim
    · exact (hone r hqr hpr).elim
    · rfl
  waiting := by
    intro p
    unfold crossedTable
    split_ifs
    · exact .inr ⟨1, rfl⟩
    · exact .inr ⟨0, rfl⟩
    · exact .inr ⟨0, rfl⟩
  pid_pos := by
    intro p hp
    rcases crossedTable_used hp with rfl | rfl <;> decide

/-- The crossed table is one to which the specification applies, and its victim is slot 1. -/
theorem checkDeadlock_spec_crossedTable :
    (checkDeadlock crossedTable).2 = 2 ∧ HasCycle (RagEdge crossedTable) :=
  have hv : (checkDeadlock crossedTable).2 = 2 := by decide
  ⟨hv, (checkDeadlock_spec ragTable_crossedTable).1.mp (by rw [hv]; decide)⟩

end SustainableXv6
