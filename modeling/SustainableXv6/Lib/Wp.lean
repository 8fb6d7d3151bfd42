import Mathlib

/-!
# Weakest preconditions

A program is a computation on a state `σ` that may fail with an error of `ε`. `wp m s Q E` says that
`m`, run in the state `s`, either returns a value and a state with `Q`, or fails with an error that
satisfies `E`. A program without loops is taken apart by the equations for its parts. A call is
replaced by what has been proved about it with `wp_mono`, and a loop by its invariant (`wp_upto`,
`wp_firstM`).
-/

namespace SustainableXv6.Lib

variable {σ ε α β : Type}

/-- The programs on the state `σ` that may fail with `ε`. -/
abbrev Prog (σ ε : Type) : Type → Type := StateT σ (Except ε)

/-- The program `m`, run in the state `s`, ends with `Q` or fails with `E`. -/
def wp (m : Prog σ ε α) (s : σ) (Q : α → σ → Prop) (E : ε → Prop) : Prop :=
  match m s with
  | .ok (a, s') => Q a s'
  | .error e => E e

variable {s s' : σ} {Q Q' : α → σ → Prop} {E E' : ε → Prop} {m : Prog σ ε α}

/-! ## Programs without loops -/

@[simp]
theorem wp_pure {a : α} : wp (pure a : Prog σ ε α) s Q E ↔ Q a s := Iff.rfl

@[simp]
theorem wp_bind {f : α → Prog σ ε β} {Q : β → σ → Prop} :
    wp (m >>= f) s Q E ↔ wp m s (fun a s' => wp (f a) s' Q E) E := by
  simp only [wp, bind, StateT.bind]
  cases m s with
  | error e => exact Iff.rfl
  | ok r => exact Iff.rfl

@[simp]
theorem wp_map {f : α → β} {Q : β → σ → Prop} :
    wp (f <$> m) s Q E ↔ wp m s (fun a s' => Q (f a) s') E := by
  simp only [wp, Functor.map, StateT.map]
  cases m s with
  | error e => simp [bind, Except.bind]
  | ok r => simp [bind, Except.bind, pure, Except.pure]

@[simp]
theorem wp_get {Q : σ → σ → Prop} : wp (get : Prog σ ε σ) s Q E ↔ Q s s := Iff.rfl

@[simp]
theorem wp_set {Q : PUnit → σ → Prop} : wp (set s' : Prog σ ε PUnit) s Q E ↔ Q ⟨⟩ s' := Iff.rfl

@[simp]
theorem wp_modify {f : σ → σ} {Q : PUnit → σ → Prop} :
    wp (modify f : Prog σ ε PUnit) s Q E ↔ Q ⟨⟩ (f s) := Iff.rfl

@[simp]
theorem wp_throw {e : ε} : wp (throw e : Prog σ ε α) s Q E ↔ E e := Iff.rfl

theorem wp_ite {c : Prop} [Decidable c] {m' : Prog σ ε α} :
    wp (if c then m else m') s Q E ↔ (c → wp m s Q E) ∧ (¬ c → wp m' s Q E) := by
  by_cases hc : c
  · simp [hc]
  · simp [hc]

/-- What a program ensures may be weakened. -/
theorem wp_mono (h : wp m s Q E) (hQ : ∀ a s', Q a s' → Q' a s') (hE : ∀ e, E e → E' e) :
    wp m s Q' E' := by
  unfold wp at h ⊢
  cases hm : m s with
  | error e =>
    rw [hm] at h
    exact hE e h
  | ok r =>
    rw [hm] at h
    exact hQ r.1 r.2 h

/-- What a program that returns ensures may be weakened. -/
theorem wp.imp (h : wp m s Q E) (hQ : ∀ a s', Q a s' → Q' a s') : wp m s Q' E :=
  wp_mono h hQ fun _ he => he

/-- What two arguments show of a program holds together. -/
theorem wp.and (h : wp m s Q E) (h' : wp m s Q' E') :
    wp m s (fun a s' => Q a s' ∧ Q' a s') fun e => E e ∧ E' e := by
  unfold wp at h h' ⊢
  cases hm : m s with
  | error e =>
    rw [hm] at h h'
    exact ⟨h, h'⟩
  | ok r =>
    rw [hm] at h h'
    exact ⟨h, h'⟩

/-- The call of a program whose effect is known, in front of a program. -/
theorem wp_call {f : α → Prog σ ε β} {R : β → σ → Prop} (h : wp m s Q E)
    (hf : ∀ a s', Q a s' → wp (f a) s' R E) : wp (m >>= f) s R E :=
  wp_bind.mpr (h.imp hf)

/-- A program after one that returns. -/
theorem bind_of_ok {a : α} {f : α → Prog σ ε β} (h : m s = .ok (a, s')) : (m >>= f) s = f a s' := by
  simp only [bind, StateT.bind, h, Except.bind]

/-- What is known of a program that returns. -/
theorem wp.of_ok {a : α} (h : wp m s Q E) (hm : m s = .ok (a, s')) : Q a s' := by
  rw [wp, hm] at h
  exact h

/-- What is known of a program that fails. -/
theorem wp.of_error {e : ε} (h : wp m s Q E) (hm : m s = .error e) : E e := by
  rw [wp, hm] at h
  exact h

/-- A result that passes a test, from what has been computed of it. -/
theorem exists_ok {r : Except ε α} (P : α → Prop) [DecidablePred P]
    (h : r.toOption.any (fun a => decide (P a)) = true) : ∃ a, r = .ok a ∧ P a := by
  cases r with
  | error e => simp [Except.toOption] at h
  | ok a => exact ⟨a, rfl, of_decide_eq_true h⟩

/-- An error, from what has been computed of it. -/
theorem error_of_map {r : Except ε α} {e : ε} (h : r.map (fun _ => ()) = .error e) :
    r = .error e := by
  cases r with
  | error p => simpa [Except.map] using h
  | ok b => simp [Except.map] at h

/-- A program that cannot fail returns. -/
theorem wp.exists_ok (h : wp m s Q fun _ => False) : ∃ a s', m s = .ok (a, s') ∧ Q a s' := by
  unfold wp at h
  cases hm : m s with
  | error e =>
    rw [hm] at h
    exact h.elim
  | ok r =>
    rw [hm] at h
    exact ⟨r.1, r.2, rfl, h⟩

/-! ## Loops -/

/-- `for (i = 0; i < n; i++)`. -/
def upto : ℕ → (ℕ → Prog σ ε Unit) → Prog σ ε Unit
  | 0, _ => pure ()
  | n + 1, body => do
    upto n body
    body n

/-- A loop keeps an invariant that its body keeps. -/
theorem wp_upto {n : ℕ} {body : ℕ → Prog σ ε Unit} (I : ℕ → σ → Prop) (h₀ : I 0 s)
    (hbody : ∀ i s', i < n → I i s' → wp (body i) s' (fun _ s'' => I (i + 1) s'') E) :
    wp (upto n body) s (fun _ s' => I n s') E := by
  induction n with
  | zero => exact h₀
  | succ n ih =>
    refine wp_call (ih fun i s' hi => hbody i s' (Nat.lt_succ_of_lt hi)) fun _ s' hs' => ?_
    exact hbody n s' (Nat.lt_succ_self n) hs'

theorem upto_zero (body : ℕ → Prog σ ε Unit) : upto 0 body = pure () := rfl

theorem upto_succ (n : ℕ) (body : ℕ → Prog σ ε Unit) :
    upto (n + 1) body = upto n body >>= fun _ => body n := rfl

-- A loop over a numeral is not unfolded.
attribute [irreducible] upto

/-- A loop over a list keeps an invariant that its body keeps. The invariant may depend on the
elements that are left. -/
theorem wp_forM {body : β → Prog σ ε PUnit} (I : List β → σ → Prop)
    (hbody : ∀ b bs s', I (b :: bs) s' → wp (body b) s' (fun _ s'' => I bs s'') E) {l : List β}
    (h₀ : I l s) : wp (l.forM body) s (fun _ s' => I [] s') E := by
  induction l generalizing s with
  | nil => exact h₀
  | cons b bs ih => exact wp_call (hbody b bs s h₀) fun _ s' hs' => ih hs'

/-- A loop over a list that ends at the first element with a result. -/
def firstM (body : β → Prog σ ε (Option α)) : List β → Prog σ ε (Option α)
  | [] => pure none
  | b :: bs => do
    match ← body b with
    | some a => pure (some a)
    | none => firstM body bs

/-- A loop that ends at the first element with a result keeps an invariant that its body keeps while
there is none. The invariant may depend on the elements that are left. -/
theorem wp_firstM {body : β → Prog σ ε (Option α)} {Q : Option α → σ → Prop}
    (I : List β → σ → Prop) (hnil : ∀ s', I [] s' → Q none s')
    (hbody : ∀ b bs s', I (b :: bs) s' →
      wp (body b) s' (fun r s'' => (∃ a, r = some a ∧ Q r s'') ∨ r = none ∧ I bs s'') E)
    {l : List β} (h₀ : I l s) : wp (firstM body l) s Q E := by
  induction l generalizing s with
  | nil => exact hnil s h₀
  | cons b bs ih =>
    refine wp_call (hbody b bs s h₀) fun r s' hr => ?_
    rcases hr with ⟨a, rfl, hQ⟩ | ⟨rfl, hI⟩
    · exact hQ
    · exact ih hI

end SustainableXv6.Lib
