import SustainableXv6.Lib.Numeral

/-!
# `printint`

The `printint` of `kernel/printf.c` and that of `user/printf.c` store the digits of a number from
the right in a buffer of 20 bytes, then a minus sign, and emit the buffer backwards. In the model, a
store outside of the buffer has no result. The loop of the digits stores a numeral at the end of
what the buffer has (`digitsLoop_canonical`), and at most as many digits as a bound on the number
allows. An unsigned number has at most 20 digits, as `2^64 ≤ 10^20`, and a negative one at most 19,
as `2^63 < 10^19`, so that there is a place for its sign (`printint_canonical`).

`-xx` is negation modulo `2^64`, as compiled: the least number has the magnitude `2^63`.
-/

namespace SustainableXv6.Printf

open Lib

variable {γ : Type} {base x : UInt64} {buf : Vector Char 20} {i k : ℕ}

/-! ## The functions -/

/-- `do { buf[i++] = digits[x % base]; } while((x /= base) != 0)`. The result is the buffer and
`i`. -/
def digitsLoop (digits : List Char) (base x : UInt64) (buf : Vector Char 20) (i : ℕ) :
    Option (Vector Char 20 × ℕ) :=
  if h : i < 20 then
    digits[(x % base).toNat]?.bind fun c =>
      if x / base = 0 then some (buf.set i c, i + 1)
      else digitsLoop digits base (x / base) (buf.set i c) (i + 1)
  else none
termination_by 20 - i

/-- `buf[i++] = c`. -/
def push (c : Char) (buf : Vector Char 20) (i : ℕ) : Option (Vector Char 20 × ℕ) :=
  if h : i < 20 then some (buf.set i c, i + 1) else none

/-- `while(--i >= 0) putc(buf[i])`. -/
def emit (putc : Char → γ) (buf : Vector Char 20) : ℕ → Option (List γ)
  | 0 => some []
  | i + 1 => do
    let c ← buf[i]?
    let cs ← emit putc buf i
    return putc c :: cs

/-- What both functions do once they have the magnitude `x`. -/
def printMagnitude (putc : Char → γ) (digits : List Char) (base x : UInt64) (neg : Bool)
    (buf : Vector Char 20) : Option (List γ) := do
  let (buf, i) ← digitsLoop digits base x buf 0
  let (buf, i) ← if neg then push '-' buf i else some (buf, i)
  emit putc buf i

/-- The digits of the kernel. -/
def Kernel.digits : List Char := "0123456789abcdef".toList

/-- `printint` of the kernel, whose result are the arguments of `consputc`. The flag is used again
for the sign. -/
def Kernel.printint (xx : Int64) (base sign : Int32) (buf : Vector Char 20) : Option (List Char) :=
  let sign : Int32 := if sign ≠ 0 then if xx < 0 then 1 else 0 else sign
  let x := if sign ≠ 0 then (-xx).toUInt64 else xx.toUInt64
  printMagnitude id digits base.toInt64.toUInt64 x (sign ≠ 0) buf

/-- The digits of the user library. -/
def User.digits : List Char := "0123456789ABCDEF".toList

/-- `printint` of the user library, whose result are the arguments of `putc`. -/
def User.printint (fd : Int32) (xx : Int64) (base sgn : Int32) (buf : Vector Char 20) :
    Option (List (Int32 × Char)) :=
  let neg := sgn ≠ 0 ∧ xx < 0
  let x := if neg then (-xx).toUInt64 else xx.toUInt64
  printMagnitude (fun c => (fd, c)) digits base.toInt64.toUInt64 x neg buf

/-! ## Numerals -/

/-- The number that `printint` is to print. -/
def value (xx : Int64) (sign : Int32) : ℤ := if sign ≠ 0 then xx.toInt else xx.toUInt64.toNat

/-- The characters are the numeral of `v`, with the characters `digits` for its digits. -/
def Numeral (digits : List Char) (base : ℕ) (v : ℤ) (out : List Char) : Prop :=
  ∃ (ds : List ℕ) (cs : List Char), Canonical base ds v.natAbs ∧
    ds.map (digits[·]?) = cs.map some ∧ out = (if v < 0 then ['-'] else []) ++ cs

variable {digits : List Char}

/-! ## The buffer -/

theorem take_set (c : Char) (h : i < 20) :
    (buf.set i c).toList.take (i + 1) = buf.toList.take i ++ [c] := by
  have hlt : i < (buf.toList.set i c).length := by simpa using h
  rw [Vector.toList_set, List.take_succ_eq_append_getElem hlt, List.getElem_set_self,
    List.take_set_of_le (le_refl i)]

/-- What is emitted is the buffer backwards. -/
theorem emit_eq (putc : Char → γ) (h : i ≤ 20) :
    emit putc buf i = some ((buf.toList.take i).reverse.map putc) := by
  induction i with
  | zero => rfl
  | succ i ih =>
    have hlt : i < buf.toList.length := by simpa using h
    rw [emit, ih (Nat.le_of_succ_le h), Vector.getElem?_eq_getElem h,
      List.take_succ_eq_append_getElem hlt, List.reverse_append]
    rfl

/-- The loop stores the numeral of the number, from the right. -/
theorem digitsLoop_canonical (buf : Vector Char 20) (hbase : 1 < base.toNat)
    (hdigits : base.toNat ≤ digits.length) (hx : x.toNat < base.toNat ^ k) (hpos : k ≠ 0)
    (hi : i + k ≤ 20) :
    ∃ (buf' : Vector Char 20) (j : ℕ) (ds : List ℕ) (cs : List Char),
      digitsLoop digits base x buf i = some (buf', j) ∧ j ≤ i + k ∧
      buf'.toList.take j = buf.toList.take i ++ cs.reverse ∧
      Canonical base.toNat ds x.toNat ∧ ds.map (digits[·]?) = cs.map some := by
  induction k generalizing x buf i with
  | zero => exact absurd rfl hpos
  | succ k ih =>
    have hmod : (x % base).toNat = x.toNat % base.toNat := UInt64.toNat_mod x base
    have hdiv : (x / base).toNat = x.toNat / base.toNat := UInt64.toNat_div x base
    have hlt : (x % base).toNat < base.toNat := hmod ▸ Nat.mod_lt _ (by omega)
    obtain ⟨c, hget⟩ : ∃ c, digits[(x % base).toNat]? = some c :=
      ⟨_, List.getElem?_eq_getElem (by omega)⟩
    rw [digitsLoop, dif_pos (by omega), hget, Option.bind_some]
    split_ifs with hlast
    · -- The number has one digit.
      have hsmall : (x % base).toNat = x.toNat := by
        have hzero : x.toNat / base.toNat = 0 := by rw [← hdiv, hlast]; rfl
        rw [hmod, Nat.mod_eq_of_lt ((Nat.div_eq_zero_iff_lt (by omega)).mp hzero)]
      refine ⟨_, _, [x.toNat], [c], rfl, by omega, take_set _ _,
        Canonical.digit (hsmall ▸ hlt), ?_⟩
      rw [← hsmall, List.map_singleton, List.map_singleton, hget]
    · have hne : (x / base).toNat ≠ 0 := fun h => hlast (UInt64.toNat_inj.mp h)
      have hk : (x / base).toNat < base.toNat ^ k := by
        rw [hdiv]
        exact Nat.div_lt_of_lt_mul (by rwa [pow_succ'] at hx)
      have hkpos : k ≠ 0 := by
        rintro rfl
        exact hne (Nat.lt_one_iff.mp hk)
      obtain ⟨buf', j, ds, cs, hloop, hj, htake, hds, hcs⟩ :=
        ih _ hk hkpos (show i + 1 + k ≤ 20 by omega)
      refine ⟨buf', j, ds ++ [(x % base).toNat], cs ++ [c], hloop, by omega, ?_, ?_, ?_⟩
      · rw [htake, take_set, List.append_assoc, List.reverse_append]
        rfl
      · have hsum : (x % base).toNat + base.toNat * (x / base).toNat = x.toNat := by
          rw [hmod, hdiv, Nat.mod_add_div]
        exact hsum ▸ hds.snoc hne hlt
      · rw [List.map_append, List.map_append, hcs, List.map_singleton, List.map_singleton, hget]

/-! ## The whole numeral -/

/-- From the magnitude and the sign of a number, its numeral is emitted, and all stores are in the
buffer. -/
theorem printMagnitude_numeral (putc : Char → γ) (digits : List Char) (buf : Vector Char 20) {v : ℤ}
    (hten : 10 ≤ base.toNat) (hdigits : base.toNat ≤ digits.length) (hx : x.toNat = v.natAbs)
    (hneg : v < 0 → x.toNat ≤ 2 ^ 63) :
    ∃ out, printMagnitude putc digits base x (v < 0) buf = some (out.map putc) ∧
      Numeral digits base.toNat v out := by
  have hpow (k : ℕ) : 10 ^ k ≤ base.toNat ^ k := Nat.pow_le_pow_left hten k
  by_cases hv : v < 0
  · -- At most 19 digits, and the sign.
    have hlt : x.toNat < base.toNat ^ 19 :=
      lt_of_lt_of_le (lt_of_le_of_lt (hneg hv) (by norm_num)) (hpow 19)
    obtain ⟨buf', j, ds, cs, hloop, hj, htake, hds, hcs⟩ :=
      digitsLoop_canonical buf (by omega) hdigits hlt (by omega) (show 0 + 19 ≤ 20 by omega)
    refine ⟨'-' :: cs, ?_, ds, cs, hx ▸ hds, hcs, by rw [if_pos hv]; rfl⟩
    rw [printMagnitude, hloop]
    simp only [Option.bind_eq_bind, Option.bind_some, hv, decide_true, if_true, push]
    rw [dif_pos (by omega), Option.bind_some, emit_eq _ (by omega), take_set, htake]
    simp
  · have hlt : x.toNat < base.toNat ^ 20 :=
      lt_of_lt_of_le (lt_of_lt_of_le x.toNat_lt (by norm_num)) (hpow 20)
    obtain ⟨buf', j, ds, cs, hloop, hj, htake, hds, hcs⟩ :=
      digitsLoop_canonical buf (by omega) hdigits hlt (by omega) (show 0 + 20 ≤ 20 by omega)
    refine ⟨cs, ?_, ds, cs, hx ▸ hds, hcs, by rw [if_neg hv]; rfl⟩
    rw [printMagnitude, hloop]
    simp only [Option.bind_eq_bind, Option.bind_some, hv, decide_false, Bool.false_eq_true,
      if_false]
    rw [emit_eq _ (by omega), htake]
    simp

/-! ## Signs -/

/-- The magnitude that both functions compute. -/
def magnitude (xx : Int64) (sign : Int32) : UInt64 :=
  if sign ≠ 0 ∧ xx < 0 then (-xx).toUInt64 else xx.toUInt64

theorem value_neg_iff (xx : Int64) (sign : Int32) : value xx sign < 0 ↔ sign ≠ 0 ∧ xx < 0 := by
  unfold value
  split_ifs with hsign
  · rw [Int64.lt_iff_toInt_lt]
    exact (and_iff_right hsign).symm
  · simp [hsign]

/-- The words of a number, as a signed and as an unsigned one. -/
theorem toInt_eq (xx : Int64) :
    xx.toInt = if xx.toUInt64.toNat < 2 ^ 63 then (xx.toUInt64.toNat : ℤ)
      else (xx.toUInt64.toNat : ℤ) - 2 ^ 64 := by
  rw [← Int64.toNat_toBitVec]
  exact (BitVec.toInt_eq_toNat_cond xx.toBitVec).trans (by split_ifs <;> omega)

/-- The magnitude of a negative number is at most `2^63`. -/
theorem toNat_magnitude (xx : Int64) (sign : Int32) :
    (magnitude xx sign).toNat = (value xx sign).natAbs ∧
      (value xx sign < 0 → (magnitude xx sign).toNat ≤ 2 ^ 63) := by
  have hlt := xx.toUInt64.toNat_lt
  have hint := toInt_eq xx
  rw [value_neg_iff]
  by_cases hneg : sign ≠ 0 ∧ xx < 0
  · have hxx : xx.toInt < 0 := Int64.lt_iff_toInt_lt.mp hneg.2
    have hword : (-xx).toUInt64.toNat = (2 ^ 64 - xx.toUInt64.toNat) % 2 ^ 64 := by
      rw [Int64.toUInt64_neg, UInt64.toNat_neg]
      rfl
    rw [magnitude, value, if_pos hneg, if_pos hneg.1, hword]
    split_ifs at hint <;> omega
  · refine ⟨?_, fun h => absurd h hneg⟩
    rw [magnitude, value, if_neg hneg]
    split_ifs with hsign
    · -- A signed number that is not negative is below `2^63`.
      have hxx : ¬xx.toInt < 0 := fun h => hneg ⟨hsign, Int64.lt_iff_toInt_lt.mpr h⟩
      split_ifs at hint <;> omega
    · exact (Int.natAbs_natCast _).symm

theorem kernel_printint_eq (xx : Int64) (base sign : Int32) (buf : Vector Char 20) :
    Kernel.printint xx base sign buf = printMagnitude id Kernel.digits base.toInt64.toUInt64
      (magnitude xx sign) (value xx sign < 0) buf := by
  simp only [Kernel.printint, magnitude, value_neg_iff]
  by_cases hsign : sign = 0 <;> by_cases hneg : xx < 0 <;> simp [hsign, hneg]

theorem user_printint_eq (fd : Int32) (xx : Int64) (base sgn : Int32) (buf : Vector Char 20) :
    User.printint fd xx base sgn buf =
      printMagnitude (fun c => (fd, c)) User.digits base.toInt64.toUInt64 (magnitude xx sgn)
        (value xx sgn < 0) buf := by
  simp only [User.printint, magnitude, value_neg_iff]

/-- The kernel and the user library print every number, signed or not, as its numeral in base 10 and
in base 16, with a minus sign only where it is negative. Every store is in the buffer, whatever
that has before. -/
theorem printint_canonical (fd : Int32) (xx : Int64) (base sign : Int32)
    (hbase : base = 10 ∨ base = 16) (buf : Vector Char 20) :
    (∃ out, Kernel.printint xx base sign buf = some out ∧
      Numeral Kernel.digits base.toInt.toNat (value xx sign) out) ∧
    (∃ out, User.printint fd xx base sign buf = some (out.map fun c => (fd, c)) ∧
      Numeral User.digits base.toInt.toNat (value xx sign) out) := by
  have hword : base.toInt64.toUInt64.toNat = base.toInt.toNat ∧ 10 ≤ base.toInt.toNat ∧
      base.toInt.toNat ≤ 16 := by
    rcases hbase with rfl | rfl <;> decide
  obtain ⟨hword, hten, hsixteen⟩ := hword
  obtain ⟨hmag, hneg⟩ := toNat_magnitude xx sign
  rw [kernel_printint_eq, user_printint_eq, ← hword]
  rw [← hword] at hten hsixteen
  refine ⟨?_, printMagnitude_numeral _ _ buf hten hsixteen hmag hneg⟩
  have hkernel := printMagnitude_numeral id Kernel.digits buf hten hsixteen hmag hneg
  simpa only [List.map_id] using hkernel

/-- The least number fills the buffer. -/
theorem printint_least :
    value Int64.minValue 1 = -2 ^ 63 ∧
    (∃ out, Kernel.printint Int64.minValue 10 1 (Vector.replicate 20 ' ') = some out ∧
      Numeral Kernel.digits 10 (value Int64.minValue 1) out) ∧
    (∃ out, User.printint 2 Int64.minValue 10 1 (Vector.replicate 20 ' ') =
        some (out.map fun c => (2, c)) ∧
      Numeral User.digits 10 (value Int64.minValue 1) out) :=
  ⟨by decide, printint_canonical 2 Int64.minValue 10 1 (.inl rfl) (Vector.replicate 20 ' ')⟩

end SustainableXv6.Printf
