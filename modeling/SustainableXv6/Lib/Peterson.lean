import SustainableXv6.Lib.TwoIds

/-!
# Peterson's lock with several processes for each of its two ids

Peterson's algorithm is for two parties, with the ids 0 and 1. Here each of any number of processes
may play either party, one variable at a time: `Step` is one store or one test of a process. `View`
is what the algorithm sees of a system: the variables `flag` and `turn`, and where in the algorithm
each process is.

The algorithm excludes two processes of different ids from the critical section at a time, as long
as no two processes play one id at a time. `Inv` is its invariant, and `Inv.step` keeps it for the
steps that start only alone (`StartsAlone`). `Inv.exclusive` is mutual exclusion.
-/

namespace SustainableXv6.Lib.Peterson

open Function

/-- Where a process is, once it has stored its flag. -/
inductive Phase
  /-- At `turn = other`. -/
  | setTurn
  /-- At the test of `flag[other]`. -/
  | testFlag
  /-- At the test of `turn`. -/
  | testTurn
  /-- In the critical section, until it clears its flag. -/
  | critical
  deriving DecidableEq, Repr

/-- What the algorithm sees of a system. -/
structure View (P : Type*) where
  flag : Fin 2 → Bool
  turn : Fin 2
  /-- The id and the phase of each process that is in the algorithm. -/
  phase : P → Option (Fin 2 × Phase)

variable {P : Type*} {v v' : View P}

/-- One process moves, and the others stay. -/
def MovesTo (v v' : View P) (p : P) (x : Option (Fin 2 × Phase)) : Prop :=
  v'.phase p = x ∧ ∀ q ≠ p, v'.phase q = v.phase q

/-- A step of the algorithm. -/
inductive Step (v v' : View P) : Prop
  /-- `flag[i] = 1`. -/
  | start (p : P) (i : Fin 2) (hp : v.phase p = none)
      (hflag : v'.flag = update v.flag i true) (hturn : v'.turn = v.turn)
      (hmove : MovesTo v v' p (some (i, .setTurn)))
  /-- `turn = other`. -/
  | setTurn (p : P) (i : Fin 2) (hp : v.phase p = some (i, .setTurn)) (hflag : v'.flag = v.flag)
      (hturn : v'.turn = other i) (hmove : MovesTo v v' p (some (i, .testFlag)))
  /-- `flag[other] == 1` holds, and `turn` is tested next. -/
  | flagSet (p : P) (i : Fin 2) (hp : v.phase p = some (i, .testFlag)) (hflag : v'.flag = v.flag)
      (hturn : v'.turn = v.turn) (hmove : MovesTo v v' p (some (i, .testTurn)))
  /-- `flag[other] == 1` fails, and the process enters. -/
  | flagClear (p : P) (i : Fin 2) (hp : v.phase p = some (i, .testFlag))
      (hclear : v.flag (other i) = false) (hflag : v'.flag = v.flag) (hturn : v'.turn = v.turn)
      (hmove : MovesTo v v' p (some (i, .critical)))
  /-- `turn == other` holds, and the process waits on. -/
  | turnOther (p : P) (i : Fin 2) (hp : v.phase p = some (i, .testTurn)) (hflag : v'.flag = v.flag)
      (hturn : v'.turn = v.turn) (hmove : MovesTo v v' p (some (i, .testFlag)))
  /-- `turn == other` fails, and the process enters. -/
  | turnMine (p : P) (i : Fin 2) (hp : v.phase p = some (i, .testTurn)) (hmine : v.turn = i)
      (hflag : v'.flag = v.flag) (hturn : v'.turn = v.turn)
      (hmove : MovesTo v v' p (some (i, .critical)))
  /-- `flag[i] = 0`. -/
  | release (p : P) (i : Fin 2) (hp : v.phase p = some (i, .critical))
      (hflag : v'.flag = update v.flag i false) (hturn : v'.turn = v.turn)
      (hmove : MovesTo v v' p none)

/-- A party that meets a process of the id `i` in the critical section has not given the turn away
yet, or waits for it. -/
def Waits (v : View P) (i : Fin 2) (a : Phase) : Prop := a = .setTurn ∨ a ≠ .critical ∧ v.turn = i

/-- The invariant of the algorithm. -/
structure Inv (v : View P) : Prop where
  /-- No two processes play one id. -/
  alone : ∀ p q i a b, v.phase p = some (i, a) → v.phase q = some (i, b) → p = q
  /-- The flag of an id that is played is set. -/
  flag : ∀ p i a, v.phase p = some (i, a) → v.flag i = true
  /-- While a process is in the critical section, the other party can only wait for its turn. -/
  turn : ∀ p q i a, v.phase p = some (i, .critical) → v.phase q = some (other i, a) →
    Waits v i a

/-- A process that starts to play an id starts alone. -/
def StartsAlone (v v' : View P) : Prop :=
  ∀ p i, v.phase p = none → v'.phase p = some (i, .setTurn) → ∀ q a, v.phase q ≠ some (i, a)

/-- Mutual exclusion. -/
theorem Inv.exclusive (hI : Inv v) {p q : P} {i j : Fin 2} (hp : v.phase p = some (i, .critical))
    (hq : v.phase q = some (j, .critical)) : p = q := by
  by_cases hij : j = i
  · subst hij
    exact hI.alone p q j _ _ hp hq
  · rw [eq_other_of_ne hij] at hq
    rcases hI.turn p q i _ hp hq with h | ⟨h, -⟩
    · cases h
    · exact absurd rfl h

/-- Before anyone starts. -/
theorem Inv.of_none (h : ∀ p, v.phase p = none) : Inv v := by
  refine ⟨fun p q i a b hp => ?_, fun p i a hp => ?_, fun p q i a hp => ?_⟩ <;>
    rw [h p] at hp <;> cases hp

/-- A step of a process that plays an id before and after it keeps everyone alone with their flag
set, and it keeps the turn if it does so where the process takes part. -/
theorem Inv.of_move (hI : Inv v) {p : P} {i : Fin 2} {a b : Phase} (hp : v.phase p = some (i, a))
    (hflag : v'.flag = v.flag) (hmove : MovesTo v v' p (some (i, b)))
    (hself : b = .critical → ∀ q c, v.phase q = some (other i, c) → Waits v' i c)
    (hpeer : ∀ q, v.phase q = some (other i, .critical) → Waits v' (other i) b)
    (hrest : ∀ q r j c, q ≠ p → r ≠ p → v.phase q = some (j, .critical) →
      v.phase r = some (other j, c) → Waits v' j c) : Inv v' := by
  -- Every process plays the id that it played before.
  have hback : ∀ q j c, v'.phase q = some (j, c) → ∃ d, v.phase q = some (j, d) := by
    intro q j c hq
    by_cases hqp : q = p
    · subst hqp
      rw [hmove.1] at hq
      cases hq
      exact ⟨a, hp⟩
    · rw [hmove.2 q hqp] at hq
      exact ⟨c, hq⟩
  refine ⟨fun q r j c d hq hr => ?_, fun q j c hq => ?_, fun q r j c hq hr => ?_⟩
  · obtain ⟨c', hq⟩ := hback q j c hq
    obtain ⟨d', hr⟩ := hback r j d hr
    exact hI.alone q r j c' d' hq hr
  · obtain ⟨c', hq⟩ := hback q j c hq
    rw [hflag]
    exact hI.flag q j c' hq
  · by_cases hqp : q = p
    · subst hqp
      rw [hmove.1] at hq
      cases hq
      have hrq : r ≠ q := by
        rintro rfl
        rw [hmove.1] at hr
        exact other_ne i (congrArg Prod.fst (Option.some.inj hr)).symm
      rw [hmove.2 r hrq] at hr
      exact hself rfl r c hr
    · rw [hmove.2 q hqp] at hq
      by_cases hrp : r = p
      · subst hrp
        rw [hmove.1] at hr
        cases hr
        rw [other_other] at hpeer
        exact hpeer q hq
      · rw [hmove.2 r hrp] at hr
        exact hrest q r j c hqp hrp hq hr

/-- Where the turn stays, the waiting stays. -/
theorem Inv.waits (hI : Inv v) (hturn : v'.turn = v.turn) {q r : P} {j : Fin 2} {c : Phase}
    (hq : v.phase q = some (j, .critical)) (hr : v.phase r = some (other j, c)) : Waits v' j c := by
  rw [Waits, hturn]
  exact hI.turn q r j c hq hr

/-- A process that meets one of the other id in the critical section, and has given the turn away,
has given it to that one. -/
theorem Inv.turn_eq (hI : Inv v) {p q : P} {i : Fin 2} {a : Phase} (hp : v.phase p = some (i, a))
    (ha : a ≠ .setTurn) (hq : v.phase q = some (other i, .critical)) : v.turn = other i := by
  rcases hI.turn q p (other i) a hq (by rwa [other_other]) with h | ⟨-, h⟩
  · exact absurd h ha
  · exact h

/-- A process that starts alone keeps the invariant. -/
theorem Inv.start (hI : Inv v) {p : P} {i : Fin 2} (hnone : ∀ q a, v.phase q ≠ some (i, a))
    (hflag : v'.flag = update v.flag i true) (hturn : v'.turn = v.turn)
    (hmove : MovesTo v v' p (some (i, .setTurn))) : Inv v' := by
  refine ⟨fun q r j a b hq hr => ?_, fun q j a hq => ?_, fun q r j a hq hr => ?_⟩
  · by_cases hqp : q = p <;> by_cases hrp : r = p
    · rw [hqp, hrp]
    · rw [hqp, hmove.1] at hq
      cases hq
      rw [hmove.2 r hrp] at hr
      exact absurd hr (hnone r b)
    · rw [hrp, hmove.1] at hr
      cases hr
      rw [hmove.2 q hqp] at hq
      exact absurd hq (hnone q a)
    · rw [hmove.2 q hqp] at hq
      rw [hmove.2 r hrp] at hr
      exact hI.alone q r j a b hq hr
  · rw [hflag]
    by_cases hji : j = i
    · rw [hji, update_self]
    · have hqp : q ≠ p := by
        rintro rfl
        rw [hmove.1] at hq
        cases hq
        exact hji rfl
      rw [update_of_ne hji]
      rw [hmove.2 q hqp] at hq
      exact hI.flag q j a hq
  · -- The process that starts is not in the critical section, and has not given the turn away.
    have hqp : q ≠ p := by
      rintro rfl
      rw [hmove.1] at hq
      cases hq
    rw [hmove.2 q hqp] at hq
    by_cases hrp : r = p
    · rw [hrp, hmove.1] at hr
      cases hr
      exact .inl rfl
    · rw [hmove.2 r hrp] at hr
      exact hI.waits hturn hq hr

/-- A process that leaves the critical section keeps the invariant. -/
theorem Inv.release (hI : Inv v) {p : P} {i : Fin 2} (hp : v.phase p = some (i, .critical))
    (hflag : v'.flag = update v.flag i false) (hturn : v'.turn = v.turn)
    (hmove : MovesTo v v' p none) : Inv v' := by
  have hne : ∀ {q x}, v'.phase q = some x → q ≠ p := by
    rintro q x hq rfl
    rw [hmove.1] at hq
    cases hq
  refine ⟨fun q r j a b hq hr => ?_, fun q j a hq => ?_, fun q r j a hq hr => ?_⟩
  · rw [hmove.2 q (hne hq)] at hq
    rw [hmove.2 r (hne hr)] at hr
    exact hI.alone q r j a b hq hr
  · -- The flag that is cleared is nobody else's.
    have hqp := hne hq
    rw [hmove.2 q hqp] at hq
    have hji : j ≠ i := by
      rintro rfl
      exact hqp (hI.alone q p j a _ hq hp)
    rw [hflag, update_of_ne hji]
    exact hI.flag q j a hq
  · rw [hmove.2 q (hne hq)] at hq
    rw [hmove.2 r (hne hr)] at hr
    exact hI.waits hturn hq hr

/-- Every step that starts only alone keeps the invariant. -/
theorem Inv.step (hI : Inv v) (hs : Step v v') (halone : StartsAlone v v') : Inv v' := by
  cases hs with
  | start p i hp hflag hturn hmove => exact hI.start (halone p i hp hmove.1) hflag hturn hmove
  | setTurn p i hp hflag hturn hmove =>
    refine hI.of_move hp hflag hmove (by simp) (fun q hq => .inr ⟨by simp, hturn⟩) ?_
    -- No third process takes part: it would play the id of one of the two.
    intro q r j c hqp hrp hq hr
    exfalso
    by_cases hji : j = i
    · subst hji
      exact hqp (hI.alone q p j _ _ hq hp)
    · rw [eq_other_of_ne hji, other_other] at hr
      exact hrp (hI.alone r p i _ _ hr hp)
  | flagSet p i hp hflag hturn hmove | turnOther p i hp hflag hturn hmove =>
    refine hI.of_move hp hflag hmove (by simp) (fun q hq => .inr ⟨by simp, ?_⟩)
      fun q r j c _ _ hq hr => hI.waits hturn hq hr
    rw [hturn]
    exact hI.turn_eq hp (by simp) hq
  | flagClear p i hp hclear hflag hturn hmove =>
    -- The flag of the other id is clear, so nobody plays it.
    have hnone : ∀ q c, v.phase q ≠ some (other i, c) := by
      intro q c hq
      rw [hI.flag q _ c hq] at hclear
      cases hclear
    exact hI.of_move hp hflag hmove (fun _ q c hq => absurd hq (hnone q c))
      (fun q hq => absurd hq (hnone q _)) fun q r j c _ _ hq hr => hI.waits hturn hq hr
  | turnMine p i hp hmine hflag hturn hmove =>
    -- A process of the other id in the critical section would have the turn.
    have hnone : ∀ q, v.phase q ≠ some (other i, .critical) := fun q hq =>
      other_ne i ((hI.turn_eq hp (by simp) hq).symm.trans hmine)
    refine hI.of_move hp hflag hmove (fun _ q c hq => .inr ⟨?_, by rw [hturn, hmine]⟩)
      (fun q hq => absurd hq (hnone q)) fun q r j c _ _ hq hr => hI.waits hturn hq hr
    rintro rfl
    exact hnone q hq
  | release p i hp hflag hturn hmove => exact hI.release hp hflag hturn hmove

end SustainableXv6.Lib.Peterson
