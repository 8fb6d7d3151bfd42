import SustainableXv6.Inode.Write

/-!
# `copyin` and `copyout`

The loops of `kernel/vm.c` that copy between the kernel and the memory of a process. They go page by
page and stop at the first page that is not mapped as they need it. `pages` says which pages are:
those that `walkaddr` finds or `vmfault` maps, below `MAXVA`, and for `copyout` those with `PTE_W`.
-/

namespace SustainableXv6.File

open Inode

/-- `PGSIZE`. -/
def PGSIZE : ℕ := 4096

variable {pages : ℕ → Bool}

/-- The number of bytes that the loop of `copyin` or `copyout` moves of `len` bytes at the address
`va`. Each round moves a byte at least. -/
def pageLoop (pages : ℕ → Bool) : ℕ → ℕ → ℕ → ℕ
  | 0, _, _ => 0
  | fuel + 1, va, len =>
    if 0 < len ∧ pages (va / PGSIZE) = true then
      let n := min (PGSIZE - va % PGSIZE) len
      n + pageLoop pages fuel (va + n) (len - n)
    else 0

/-- `copyin` of `len` bytes at the address `srcva` of the memory `mem`. -/
def copyin (pages : ℕ → Bool) (mem : ℕ → UInt8) (srcva len : ℕ) : Copied :=
  let moved := (List.range (pageLoop pages len srcva len)).map fun i => mem (srcva + i)
  if moved.length = len then .all moved else .failed moved

/-- The stores of a process's memory: addresses with bytes. -/
abbrev Stores : Type := List (ℕ × UInt8)

/-- The bytes `l`, stored from the address `a` on. -/
def storesAt (a : ℕ) (l : List UInt8) : Stores := l.mapIdx fun i v => (a + i, v)

/-- `copyout` of the bytes `l` to the address `dstva`: whether it returns 0, and what it stores. -/
def copyout (pages : ℕ → Bool) (dstva : ℕ) (l : List UInt8) : Bool × Stores :=
  let moved := l.take (pageLoop pages l.length dstva l.length)
  (moved.length == l.length, storesAt dstva moved)

/-! ## How far the loops go -/

/-- The bytes from `va` on can be accessed up to the byte `k`, and not further if `k < len`. -/
structure Accessible (pages : ℕ → Bool) (va len k : ℕ) : Prop where
  le : k ≤ len
  below : ∀ i, i < k → pages ((va + i) / PGSIZE) = true
  stop : k < len → pages ((va + k) / PGSIZE) = false

/-- There is one such number. -/
theorem Accessible.unique {va len k k' : ℕ} (h : Accessible pages va len k)
    (h' : Accessible pages va len k') : k = k' := by
  have aux {i j : ℕ} (hi : Accessible pages va len i) (hj : Accessible pages va len j) :
      ¬ i < j := by
    intro hlt
    have hstop := hi.stop (lt_of_lt_of_le hlt hj.le)
    rw [hj.below i hlt] at hstop
    exact Bool.noConfusion hstop
  have h₁ := aux h h'
  have h₂ := aux h' h
  omega

theorem pageLoop_accessible (pages : ℕ → Bool) (fuel : ℕ) :
    ∀ va len, len ≤ fuel → Accessible pages va len (pageLoop pages fuel va len) := by
  induction fuel with
  | zero => exact fun va len hle => ⟨Nat.zero_le _, by simp [pageLoop], fun h => by omega⟩
  | succ fuel ih =>
    intro va len hle
    unfold pageLoop
    split_ifs with hpage
    · obtain ⟨hpos, hpage⟩ := hpage
      dsimp only
      generalize hn : min (PGSIZE - va % PGSIZE) len = n
      have hn' : 0 < n ∧ n ≤ len ∧ va % PGSIZE + n ≤ PGSIZE := by
        simp only [PGSIZE] at *
        omega
      obtain ⟨hrest, hbelow, hstop⟩ := ih (va + n) (len - n) (by omega)
      refine ⟨by omega, fun i hi => ?_, fun hlt => ?_⟩
      · by_cases hin : i < n
        · have hdiv : (va + i) / PGSIZE = va / PGSIZE := by
            simp only [PGSIZE] at *
            omega
          rw [hdiv]
          exact hpage
        · have hi' := hbelow (i - n) (by omega)
          rwa [show va + n + (i - n) = va + i by omega] at hi'
      · have hlt' := hstop (by omega)
        rwa [Nat.add_assoc] at hlt'
    · refine ⟨Nat.zero_le _, fun i hi => absurd hi (Nat.not_lt_zero i), fun hpos => ?_⟩
      simpa [hpos] using hpage

/-- The loop, begun `tot` bytes further on. -/
theorem Accessible.shift {va len k tot m : ℕ} (h : Accessible pages va len k) (htot : tot ≤ k)
    (hm : tot + m ≤ len) : Accessible pages (va + tot) m (min m (k - tot)) := by
  refine ⟨Nat.min_le_left _ _, fun i hi => ?_, fun hlt => ?_⟩
  · rw [Nat.add_assoc]
    exact h.below (tot + i) (by omega)
  · have hk : min m (k - tot) = k - tot := by omega
    rw [hk, Nat.add_assoc, Nat.add_sub_cancel' htot]
    exact h.stop (by omega)

/-- The bytes that a process can give to `write`. -/
def readable (pages : ℕ → Bool) (mem : ℕ → UInt8) (addr n : ℕ) : List UInt8 :=
  (List.range (pageLoop pages n addr n)).map fun i => mem (addr + i)

/-- `copyin` delivers the bytes that can be read, and fails at their end. -/
theorem copyin_delivers (pages : ℕ → Bool) (mem : ℕ → UInt8) (addr n : ℕ) :
    Delivers (fun tot m => copyin pages mem (addr + tot) m) (readable pages mem addr n) n := by
  intro tot m htot hle
  have hacc := pageLoop_accessible pages n addr n le_rfl
  have hlen : (readable pages mem addr n).length = pageLoop pages n addr n := by simp [readable]
  rw [hlen] at htot ⊢
  have hmove : pageLoop pages m (addr + tot) m = min m (pageLoop pages n addr n - tot) :=
    (pageLoop_accessible pages m (addr + tot) m le_rfl).unique (hacc.shift htot hle)
  have hbytes : ((readable pages mem addr n).drop tot).take m =
      (List.range (pageLoop pages m (addr + tot) m)).map fun i => mem (addr + tot + i) := by
    refine List.ext_getElem? fun i => ?_
    rw [hmove]
    simp only [readable, List.getElem?_take, List.getElem?_drop, List.getElem?_map]
    by_cases hi : i < min m (pageLoop pages n addr n - tot)
    · rw [if_pos (by omega), List.getElem?_range (by omega), List.getElem?_range hi,
        Option.map_some, Option.map_some, Nat.add_assoc]
    · rw [List.getElem?_eq_none (l := List.range (min _ _)) (by rw [List.length_range]; omega),
        Option.map_none]
      split_ifs
      · rw [List.getElem?_eq_none (by simp; omega)]
        rfl
      · rfl
  unfold copyin
  simp only [List.length_map, List.length_range]
  rw [hbytes]
  by_cases hm : pageLoop pages m (addr + tot) m = m
  · rw [if_pos hm, if_pos (by omega)]
  · rw [if_neg hm, if_neg (by omega)]

end SustainableXv6.File
