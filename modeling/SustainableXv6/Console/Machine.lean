import SustainableXv6.Lib.Transition
import SustainableXv6.Lib.Ring

/-!
# The console

`consoleintr` and `consoleread` of `kernel/console.c`. `cons.lock` is held from the start of
`consoleintr` to its end, and `consoleread` lets go of it only to sleep. So `consoleintr` is one
step, and `consoleread` is cut where it sleeps (`readLoop`). A process that sleeps goes on at any
later time, whether `wakeup` or `kkill` has woken it.

Whether `either_copyout` copies a byte and whether `killed` says that the process has been killed
are given with each step. The echo of the characters is left out.

The characters that have been typed also go to an editor of one line (`Editor`), which says what the
input is. The code never looks at it, nor at the records of what the reads got.
-/

namespace SustainableXv6.Console

open Function Lib

/-! ## Characters -/

/-- `INPUT_BUF_SIZE`. -/
def INPUT_BUF_SIZE : ℕ := 128

instance : NeZero INPUT_BUF_SIZE := ⟨by decide⟩

theorem INPUT_BUF_SIZE_dvd : INPUT_BUF_SIZE ∣ 2 ^ 32 := by decide

theorem INPUT_BUF_SIZE_lt : INPUT_BUF_SIZE < 2 ^ 32 := by decide

/-- `C(x)`: the character that the control key gives with `x`. -/
def C (x : Char) : UInt8 := x.toUInt8 - '@'.toUInt8

/-- `'\n'`. -/
def NL : UInt8 := 10

/-- `'\r'`. -/
def CR : UInt8 := 13

/-- `'\x7f'`, the delete key. -/
def DEL : UInt8 := 127

/-! ## The code -/

/-- `cons`, without its lock. -/
structure Cons where
  buf : Fin INPUT_BUF_SIZE → UInt8
  r : BitVec 32
  w : BitVec 32
  e : BitVec 32

namespace Cons

/-- The cells from `r` to `e`. -/
def ring (s : Cons) : Ring UInt8 INPUT_BUF_SIZE 32 := ⟨s.buf, s.r, s.e⟩

/-- `cons.buf[i % INPUT_BUF_SIZE]`. -/
def cell (s : Cons) (i : BitVec 32) : UInt8 := s.buf (Ring.slot INPUT_BUF_SIZE i)

end Cons

/-- The loop of `consoleintr` that kills the line, with at most `fuel` rounds. -/
def killLoop : ℕ → Cons → Cons
  | 0, s => s
  | fuel + 1, s =>
    if s.e ≠ s.w ∧ s.cell (s.e - 1) ≠ NL then killLoop fuel { s with e := s.e - 1 } else s

/-- `consoleintr`. -/
def consoleintr (c : UInt8) (s : Cons) : Cons :=
  if c = C 'P' then s
  -- After `e - w` rounds of the loop, `e` is `w`.
  else if c = C 'U' then killLoop (s.e - s.w).toNat s
  else if c = C 'H' ∨ c = DEL then
    if s.e ≠ s.w then { s with e := s.e - 1 } else s
  else if c ≠ 0 ∧ (s.e - s.r).toNat < INPUT_BUF_SIZE then
    let c := if c = CR then NL else c
    let s := { s with
      buf := update s.buf (Ring.slot INPUT_BUF_SIZE s.e) c
      e := s.e + 1 }
    if c = NL ∨ c = C 'D' ∨ (s.e - s.r).toNat = INPUT_BUF_SIZE then { s with w := s.e } else s
  else s

/-- How `consoleread` leaves `cons.lock`. -/
inductive Leaves
  /-- In `sleep`. -/
  | sleeps
  /-- It returns `-1`, as the process has been killed. -/
  | killed
  /-- It returns the number of bytes copied. -/
  | returns
  deriving DecidableEq, Repr

/-- What `consoleread` does while it has `cons.lock`. -/
structure Section where
  cons : Cons
  /-- `n`, the number of bytes still to read. -/
  n : ℕ
  /-- The bytes that it copies to the destination. -/
  bytes : List UInt8
  /-- It takes a `^D` out of the buffer. -/
  eof : Bool
  leaves : Leaves

/-- The loop of `consoleread`, up to the next `sleep`. -/
def readLoop (killed : Bool) (copy : ℕ → Bool) (target : ℕ) : ℕ → Cons → Section
  | 0, s => ⟨s, 0, [], false, .returns⟩
  | n + 1, s =>
    if s.r = s.w then ⟨s, n + 1, [], false, if killed then .killed else .sleeps⟩
    else
      let c := s.cell s.r
      let s := { s with r := s.r + 1 }
      if c = C 'D' then
        -- `^D` is saved for the next time, if there is something to return.
        if n + 1 < target then ⟨{ s with r := s.r - 1 }, n + 1, [], false, .returns⟩
        else ⟨s, n + 1, [], true, .returns⟩
      else if copy n then
        if c = NL then ⟨s, n, [c], false, .returns⟩
        else
          let t := readLoop killed copy target n s
          { t with bytes := c :: t.bytes }
      else ⟨s, n + 1, [], false, .returns⟩

/-- A section counts the bytes that it copies. -/
theorem readLoop_length (killed : Bool) (copy : ℕ → Bool) (target n : ℕ) (s : Cons) :
    (readLoop killed copy target n s).n + (readLoop killed copy target n s).bytes.length = n := by
  induction n generalizing s with
  | zero => rfl
  | succ n ih =>
    unfold readLoop
    dsimp only
    split_ifs
    any_goals rfl
    rw [List.length_cons, ← Nat.add_assoc]
    exact congrArg (· + 1) (ih { s with r := s.r + 1 })

/-! ## The editor -/

/-- An editor of one line. -/
structure Editor where
  /-- The characters that have been committed. -/
  committed : List UInt8
  /-- The characters of the line that is being edited. -/
  line : List UInt8
  deriving DecidableEq

/-- A key is pressed, while `unread` of the characters committed have not been read. -/
def Editor.key (unread : ℕ) (ed : Editor) (c : UInt8) : Editor :=
  if c = C 'P' ∨ c = 0 then ed
  else if c = C 'U' then { ed with line := [] }
  else if c = C 'H' ∨ c = DEL then { ed with line := ed.line.dropLast }
  else if unread + ed.line.length < INPUT_BUF_SIZE then
    let c := if c = CR then NL else c
    let line := ed.line ++ [c]
    if c = NL ∨ c = C 'D' ∨ unread + line.length = INPUT_BUF_SIZE then
      { committed := ed.committed ++ line, line := [] }
    else { ed with line := line }
  else ed

/-! ## Processes that read -/

variable {P : Type}

/-- A `consoleread` that sleeps. -/
structure Call where
  /-- The argument. -/
  arg : ℤ
  target : ℕ
  n : ℕ
  /-- The bytes copied so far. -/
  bytes : List UInt8

/-- A character that a process has taken out of the buffer. -/
inductive Event (P : Type)
  /-- The byte has been copied to the destination of the process. -/
  | byte (p : P) (c : UInt8)
  /-- A `^D` has ended the read of the process. -/
  | eof (p : P)
  deriving DecidableEq

/-- The character. -/
def Event.char : Event P → UInt8
  | .byte _ c => c
  | .eof _ => C 'D'

/-- A `consoleread` that has returned. -/
structure Return (P : Type) where
  proc : P
  /-- The argument. -/
  arg : ℤ
  /-- The bytes copied. -/
  bytes : List UInt8
  /-- The process had been killed. -/
  killed : Bool
  value : ℤ

/-- The console and the processes that read from it. -/
structure State (P : Type) where
  cons : Cons
  /-- The `consoleread` in which a process sleeps. -/
  reader : P → Option Call
  editor : Editor
  /-- The characters taken out of the buffer, in their order. -/
  events : List (Event P)
  /-- The calls that have returned, in their order. -/
  returns : List (Return P)

/-- The state before the first key. -/
def init (s : Cons) : State P where
  cons := s
  reader := fun _ => none
  editor := ⟨[], []⟩
  events := []
  returns := []

/-- The actions. -/
inductive Act (P : Type)
  /-- `consoleintr`. -/
  | intr (c : UInt8)
  /-- A process calls `consoleread`. -/
  | read (p : P) (n : ℤ) (killed : Bool) (copy : ℕ → Bool)
  /-- A process that sleeps in `consoleread` goes on. -/
  | resume (p : P) (killed : Bool) (copy : ℕ → Bool)

/-- The characters that a section takes out of the buffer, as events of the process `p`. -/
def Section.events (t : Section) (p : P) : List (Event P) :=
  t.bytes.map (.byte p) ++ if t.eof then [.eof p] else []

/-- A section of the call `c` of the process `p`. -/
def State.enter [DecidableEq P] (s : State P) (p : P) (c : Call) (killed : Bool)
    (copy : ℕ → Bool) : State P :=
  let t := readLoop killed copy c.target c.n s.cons
  let bytes := c.bytes ++ t.bytes
  let s := { s with cons := t.cons, events := s.events ++ t.events p }
  match t.leaves with
  | .sleeps => { s with reader := update s.reader p (some { c with n := t.n, bytes }) }
  | .killed =>
    { s with
      reader := update s.reader p none
      returns := s.returns ++ [⟨p, c.arg, bytes, killed, -1⟩] }
  | .returns =>
    { s with
      reader := update s.reader p none
      returns := s.returns ++ [⟨p, c.arg, bytes, killed, (c.target : ℤ) - t.n⟩] }

/-- The state after an action, or `none` where it is not enabled. -/
def step [DecidableEq P] (s : State P) : Act P → Option (State P)
  | .intr c => some
      { s with
        cons := consoleintr c s.cons
        editor := s.editor.key (s.editor.committed.length - s.events.length) c }
  | .read p n killed copy =>
    match s.reader p with
    | none => some (s.enter p ⟨n, n.toNat, n.toNat, []⟩ killed copy)
    | some _ => none
  | .resume p killed copy =>
    match s.reader p with
    | none => none
    | some c => some (s.enter p c killed copy)

/-- The copies to the destination succeed. -/
def CopiesSucceed (s : State P) : Act P → Prop
  | .intr _ => True
  | .read _ n _ copy => ∀ i < n.toNat, copy i = true
  | .resume p _ copy => ∀ i < ((s.reader p).map Call.n).getD 0, copy i = true

instance (s : State P) : ∀ a, Decidable (CopiesSucceed s a)
  | .intr _ => .isTrue trivial
  | .read _ _ _ _ | .resume _ _ _ => inferInstanceAs (Decidable (∀ _ < _, _))

end SustainableXv6.Console
