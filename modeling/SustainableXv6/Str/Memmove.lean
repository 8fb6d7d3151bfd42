import SustainableXv6.Lib.Move

/-!
# `memmove`

The `memmove` of `kernel/string.c` and that of `user/ulib.c` choose between a loop that goes up and
one that goes down. The kernel goes down only where the destination starts inside of the source, and
the library wherever the source does not start behind the destination. Both loops are copies in an
order of the offsets (`copyUp_eq`, `copyDown_eq`), and in each case no byte is written before it is
read. So both move the bytes, whether the ranges overlap or not (`memmove_moves`).

Pointers have 64 bits and wrap. A range may end at the last address, so that the pointer behind it
is 0.
-/

namespace SustainableXv6.Str

open Function Lib

variable {n : ℕ} {dst src d s : UInt64} {m : UInt64 → UInt8}

/-! ## The loops -/

/-- `while(n-- > 0) *d++ = *s++`. -/
def copyUp : ℕ → UInt64 → UInt64 → (UInt64 → UInt8) → UInt64 → UInt8
  | 0, _, _, m => m
  | n + 1, d, s, m => copyUp n (d + 1) (s + 1) (update m d (m s))

/-- `while(n-- > 0) *--d = *--s`. -/
def copyDown : ℕ → UInt64 → UInt64 → (UInt64 → UInt8) → UInt64 → UInt8
  | 0, _, _, m => m
  | n + 1, d, s, m => copyDown n (d - 1) (s - 1) (update m (d - 1) (m (s - 1)))

/-- `memmove` of the kernel. -/
def Kernel.memmove (dst src : UInt64) (n : UInt32) (m : UInt64 → UInt8) : UInt64 → UInt8 :=
  if n = 0 then m
  else if src < dst ∧ dst < src + n.toUInt64 then
    copyDown n.toNat (dst + n.toUInt64) (src + n.toUInt64) m
  else copyUp n.toNat dst src m

/-- `memmove` of the user library, whose `n` is an `int`. -/
def Ulib.memmove (dst src : UInt64) (n : Int32) (m : UInt64 → UInt8) : UInt64 → UInt8 :=
  if dst < src then copyUp n.toInt.toNat dst src m
  else copyDown n.toInt.toNat (dst + n.toInt64.toUInt64) (src + n.toInt64.toUInt64) m

/-! ## The loops as copies -/

/-- The address `i` bytes behind `p`. -/
def offset (p : UInt64) (i : ℕ) : UInt64 := p + UInt64.ofNat i

theorem offset_zero (p : UInt64) : offset p 0 = p := UInt64.add_zero p

theorem offset_succ (p : UInt64) (i : ℕ) : offset p (i + 1) = offset (p + 1) i := by
  rw [offset, offset, UInt64.ofNat_add, UInt64.add_comm (UInt64.ofNat i), UInt64.add_assoc]
  rfl

theorem offset_succ_sub (p : UInt64) (i : ℕ) : offset p (i + 1) - 1 = offset p i := by
  rw [offset, offset, UInt64.ofNat_add, ← UInt64.add_assoc]
  exact UInt64.add_sub_cancel _ _

theorem toNat_offset (p : UInt64) {i : ℕ} (h : p.toNat + i < 2 ^ 64) :
    (offset p i).toNat = p.toNat + i := by
  rw [offset, UInt64.toNat_add, UInt64.toNat_ofNat', Nat.add_mod_mod, Nat.mod_eq_of_lt h]

/-- Two addresses are apart where their numbers are. -/
theorem offset_ne {p q : UInt64} {i j : ℕ} (hi : p.toNat + i < 2 ^ 64) (hj : q.toNat + j < 2 ^ 64)
    (hne : p.toNat + i ≠ q.toNat + j) : offset p i ≠ offset q j := by
  intro heq
  refine hne ?_
  rw [← toNat_offset p hi, ← toNat_offset q hj, heq]

/-- The loop that goes up copies the offsets from 0 on. -/
theorem copyUp_eq (n : ℕ) (d s : UInt64) (m : UInt64 → UInt8) :
    copyUp n d s m = copyAll (offset d) (offset s) (List.range n) m := by
  induction n generalizing d s m with
  | zero => rfl
  | succ n ih =>
    have hd : offset d ∘ Nat.succ = offset (d + 1) := funext fun i => offset_succ d i
    have hs : offset s ∘ Nat.succ = offset (s + 1) := funext fun i => offset_succ s i
    rw [copyUp, ih, List.range_succ_eq_map, copyAll, copyAll_map, hd, hs, offset_zero, offset_zero]

/-- The loop that goes down copies the offsets to 0. -/
theorem copyDown_eq (n : ℕ) (d s : UInt64) (m : UInt64 → UInt8) :
    copyDown n (offset d n) (offset s n) m =
      copyAll (offset d) (offset s) (List.range n).reverse m := by
  induction n generalizing m with
  | zero => rfl
  | succ n ih =>
    rw [copyDown, offset_succ_sub, offset_succ_sub, ih, List.range_succ, List.reverse_append]
    rfl

/-! ## Overlapping moves -/

theorem add_toUInt64 (p : UInt64) (n : UInt32) : p + n.toUInt64 = offset p n.toNat := by
  rw [offset, UInt64.ofNat_uInt32ToNat]

/-- A count of the library that is not negative is added to a pointer as it is. -/
theorem add_toInt64 (p : UInt64) {n : Int32} (h : 0 ≤ n.toInt) :
    p + n.toInt64.toUInt64 = offset p n.toInt.toNat := by
  have hcount : n.toInt64.toUInt64.toNat = n.toInt.toNat := by
    rw [Int64.toNat_toUInt64_of_le (Int64.le_iff_toInt_le.mpr (Int32.toInt_toInt64 n ▸ h)),
      Int64.toNatClampNeg, Int32.toInt_toInt64]
  rw [offset, ← hcount, UInt64.ofNat_toNat]

/-- Where the kernel goes up, the destination does not start inside of the source. -/
theorem apart_of_not_inside {n : UInt32} (hdst : dst.toNat + n.toNat ≤ 2 ^ 64)
    (h : ¬(src < dst ∧ dst < src + n.toUInt64)) :
    dst ≤ src ∨ src.toNat + n.toNat ≤ dst.toNat := by
  rcases le_or_gt dst.toNat src.toNat with hle | hlt
  · exact .inl (UInt64.le_iff_toNat_le.mpr hle)
  · -- The pointer behind the source does not wrap, since the one behind the destination may only
    -- be 0.
    have hend : (src + n.toUInt64).toNat = src.toNat + n.toNat := by
      rw [add_toUInt64, toNat_offset src (by omega)]
    have hle : src + n.toUInt64 ≤ dst :=
      UInt64.not_lt.mp fun hdst => h ⟨UInt64.lt_iff_toNat_lt.mpr hlt, hdst⟩
    exact .inr (hend ▸ UInt64.le_iff_toNat_le.mp hle)

/-- The bytes from `src` on are moved to `dst`. -/
abbrev Moves (dst src : UInt64) (n : ℕ) (m m' : UInt64 → UInt8) : Prop :=
  MovedTo (offset dst) (offset src) (· < n) m m'

section Bounds

variable (hdst : dst.toNat + n ≤ 2 ^ 64) (hsrc : src.toNat + n ≤ 2 ^ 64)
include hdst hsrc

/-- A loop that goes up moves the bytes where the destination does not start inside of the source,
behind its first byte. -/
theorem copyUp_moves (h : dst ≤ src ∨ src.toNat + n ≤ dst.toNat) :
    Moves dst src n m (copyUp n dst src m) := by
  have hpairs : (List.range n).Pairwise fun i j => i < j ∧ j < n :=
    (List.pairwise_lt_range).imp_of_mem fun _ hj hlt => ⟨hlt, List.mem_range.mp hj⟩
  have hle : dst.toNat ≤ src.toNat ∨ src.toNat + n ≤ dst.toNat :=
    h.imp_left UInt64.le_iff_toNat_le.mp
  have hmoved := copyAll_moved (offset dst) (offset src)
    (hpairs.imp fun ⟨hlt, hn⟩ => offset_ne (by omega) (by omega) (by omega))
    (hpairs.imp fun ⟨hlt, hn⟩ => offset_ne (by omega) (by omega) (by omega)) m
  simpa only [copyUp_eq, List.mem_range] using hmoved

/-- A loop that goes down moves the bytes where the source does not start behind the destination. -/
theorem copyDown_moves (h : src ≤ dst) :
    Moves dst src n m (copyDown n (offset dst n) (offset src n) m) := by
  have hpairs : (List.range n).reverse.Pairwise fun i j => j < i ∧ i < n := by
    rw [List.pairwise_reverse]
    exact (List.pairwise_lt_range).imp_of_mem fun _ hj hlt => ⟨hlt, List.mem_range.mp hj⟩
  have hle : src.toNat ≤ dst.toNat := UInt64.le_iff_toNat_le.mp h
  have hmoved := copyAll_moved (offset dst) (offset src)
    (hpairs.imp fun ⟨hlt, hn⟩ => offset_ne (by omega) (by omega) (by omega))
    (hpairs.imp fun ⟨hlt, hn⟩ => offset_ne (by omega) (by omega) (by omega)) m
  simpa only [copyDown_eq, List.mem_reverse, List.mem_range] using hmoved

end Bounds

theorem Kernel.memmove_moved {n : UInt32} (hdst : dst.toNat + n.toNat ≤ 2 ^ 64)
    (hsrc : src.toNat + n.toNat ≤ 2 ^ 64) :
    Moves dst src n.toNat m (Kernel.memmove dst src n m) := by
  unfold Kernel.memmove
  split_ifs with hzero hinside
  · rw [hzero]
    exact ⟨fun i hi => absurd hi (Nat.not_lt_zero i), fun a _ => rfl⟩
  · rw [add_toUInt64, add_toUInt64]
    exact copyDown_moves hdst hsrc (UInt64.le_of_lt hinside.1)
  · exact copyUp_moves hdst hsrc (apart_of_not_inside hdst hinside)

theorem Ulib.memmove_moved {n : Int32} (hdst : dst.toNat + n.toInt.toNat ≤ 2 ^ 64)
    (hsrc : src.toNat + n.toInt.toNat ≤ 2 ^ 64) :
    Moves dst src n.toInt.toNat m (Ulib.memmove dst src n m) := by
  unfold Ulib.memmove
  split_ifs with hlt
  · exact copyUp_moves hdst hsrc (.inl (UInt64.le_of_lt hlt))
  · rcases Int.le_total n.toInt 0 with hneg | hpos
    · rw [Int.toNat_of_nonpos hneg]
      exact ⟨fun i hi => absurd hi (Nat.not_lt_zero i), fun a _ => rfl⟩
    · rw [add_toInt64 _ hpos, add_toInt64 _ hpos]
      exact copyDown_moves hdst hsrc (UInt64.not_lt.mp hlt)

/-- `memmove` moves the bytes of the source to the destination as they were before the call, and
changes no other byte, in the kernel and in the user library. The ranges may overlap in any way, as
long as neither wraps. A negative count of the library is an empty range. -/
theorem memmove_moves (dst src : UInt64) (m : UInt64 → UInt8) :
    (∀ n : UInt32, dst.toNat + n.toNat ≤ 2 ^ 64 → src.toNat + n.toNat ≤ 2 ^ 64 →
      Moves dst src n.toNat m (Kernel.memmove dst src n m)) ∧
    (∀ n : Int32, dst.toNat + n.toInt.toNat ≤ 2 ^ 64 → src.toNat + n.toInt.toNat ≤ 2 ^ 64 →
      Moves dst src n.toInt.toNat m (Ulib.memmove dst src n m)) :=
  ⟨fun _ hdst hsrc => Kernel.memmove_moved hdst hsrc,
    fun _ hdst hsrc => Ulib.memmove_moved hdst hsrc⟩

/-- Four bytes are moved by one, up in the kernel and down in the library. -/
theorem memmove_overlaps :
    Moves 0x1001 0x1000 4 (fun a => a.toUInt8)
      (Kernel.memmove 0x1001 0x1000 4 fun a => a.toUInt8) ∧
    Moves 0x1000 0x1001 4 (fun a => a.toUInt8)
      (Ulib.memmove 0x1000 0x1001 4 fun a => a.toUInt8) :=
  ⟨(memmove_moves 0x1001 0x1000 fun a => a.toUInt8).1 4 (by decide) (by decide),
    (memmove_moves 0x1000 0x1001 fun a => a.toUInt8).2 4 (by decide) (by decide)⟩

end SustainableXv6.Str
