import SustainableXv6.Inode.Machine

/-!
# `log_write`, `balloc` and `bfree`

What the functions on blocks leave, on any state. `balloc` returns a block whose bit was clear, and
`bfree` needs the bit of its block. A transaction that has blocks of a set `S` only is too big only
if `S` has `LOGBLOCKS` elements (`LogIn`).
-/

namespace SustainableXv6.Inode

open Fs Function Lib

variable {sb : Superblock} {s s' : State} {b : BlockNo} {v : Block} {E : Panic → Prop}

/-! ## `log_write` -/

/-- The transaction `l` with the block `b`. -/
def addLog (l : List BlockNo) (b : BlockNo) : List BlockNo := if l.contains b then l else l ++ [b]

/-- The state after `log_write` of the block `b` with the contents `v`. -/
@[simps -fullyApplied]
def State.logged (s : State) (b : BlockNo) (v : Block) : State :=
  { s with
    disk := update s.disk b v
    lh := addLog s.lh b }

theorem wp_logWrite {Q : Unit → State → Prop} (hQ : s.lh.length < LOGBLOCKS → Q () (s.logged b v))
    (hbig : LOGBLOCKS ≤ s.lh.length → E .tooBig) (hout : s.outstanding = 0 → E .outsideTrans) :
    wp (logWrite b v) s Q E := by
  simp only [logWrite, wp_bind, wp_get]
  rw [wp_ite]
  refine ⟨hbig, fun hlen => ?_⟩
  rw [wp_ite]
  exact ⟨fun h => hout (by omega), fun _ => hQ (by omega)⟩

/-- The block is in the transaction after `log_write`. -/
theorem mem_addLog {l : List BlockNo} {b c : BlockNo} : c ∈ addLog l b ↔ c = b ∨ c ∈ l := by
  unfold addLog
  by_cases hb : b ∈ l
  · simp only [List.contains_eq_mem, hb, decide_true, if_true]
    constructor
    · exact .inr
    · rintro (rfl | hc)
      · exact hb
      · exact hc
  · simp [hb, or_comm]

/-- The blocks of the transaction are different ones of `S`. -/
structure LogIn (S : Finset BlockNo) (l : List BlockNo) : Prop where
  nodup : l.Nodup
  mem : ∀ c ∈ l, c ∈ S

/-- `log_write` of a block of `S`. -/
theorem LogIn.addLog {S : Finset BlockNo} {l : List BlockNo} (h : LogIn S l) (hb : b ∈ S) :
    LogIn S (addLog l b) := by
  refine ⟨?_, fun c hc => ?_⟩
  · unfold Inode.addLog
    by_cases hmem : b ∈ l
    · simpa [hmem] using h.nodup
    · simp only [List.contains_eq_mem, hmem, decide_false, Bool.false_eq_true, if_false]
      exact h.nodup.append (List.nodup_singleton b) (by simpa using hmem)
  · rcases mem_addLog.mp hc with rfl | hc
    · exact hb
    · exact h.mem c hc

/-- A transaction of blocks of `S` has at most as many. -/
theorem LogIn.length_le {S : Finset BlockNo} {l : List BlockNo} (h : LogIn S l) :
    l.length ≤ S.card := by
  rw [← List.toFinset_card_of_nodup h.nodup]
  exact Finset.card_le_card fun c hc => h.mem c (List.mem_toFinset.mp hc)

/-- A transaction that has all blocks of `S` has at least as many. -/
theorem le_length_of_subset {S : Finset BlockNo} {l : List BlockNo} (h : ∀ c ∈ S, c ∈ l) :
    S.card ≤ l.length :=
  (Finset.card_le_card fun c hc => List.mem_toFinset.mpr (h c hc)).trans (List.toFinset_card_le _)

/-! ## `balloc` -/

/-- The block that `balloc` finds is a block of the image whose bit is clear. -/
theorem freeBlock_spec {d : Disk} {b : ℕ} (h : freeBlock sb d = some b) :
    b < sb.size.toNat ∧ bitAt (d (bblock sb b)) (b % BPB) = false := by
  obtain ⟨k, -, hk⟩ := List.exists_of_findSome?_eq_some h
  obtain ⟨bi, hbi, rfl⟩ := Option.map_eq_some_iff.mp hk
  have hmem := List.mem_range.mp (List.mem_of_find?_eq_some hbi)
  have hprop := List.find?_some hbi
  simp only [Bool.and_eq_true, decide_eq_true_eq, Bool.not_eq_true'] at hprop
  have hpos : 0 < BPB := by decide
  have hdiv : (k * BPB + bi) / BPB = k := by
    rw [Nat.mul_comm, Nat.mul_add_div hpos, Nat.div_eq_of_lt hmem, Nat.add_zero]
  have hmod : (k * BPB + bi) % BPB = bi := by
    rw [Nat.mul_comm, Nat.mul_add_mod, Nat.mod_eq_of_lt hmem]
  have hblock : bblock sb (k * BPB + bi) = bblock sb (k * BPB) := by
    rw [bblock, bblock, hdiv, Nat.mul_div_cancel _ hpos]
  rw [hblock, hmod]
  exact hprop

/-- Where `balloc` finds no block, all blocks of the image are in use. -/
theorem used_of_freeBlock {d : Disk} (h : freeBlock sb d = none) (hb : b.toNat < sb.size.toNat) :
    Used sb d b := by
  have hpos : 0 < BPB := by decide
  have hmod : b.toNat % BPB < BPB := Nat.mod_lt _ hpos
  have hsum : b.toNat / BPB * BPB + b.toNat % BPB = b.toNat := Nat.div_add_mod' _ _
  have hk : b.toNat / BPB < (sb.size.toNat + BPB - 1) / BPB := by
    rw [Nat.lt_div_iff_mul_lt hpos]
    omega
  have hrow := List.findSome?_eq_none_iff.mp h _ (List.mem_range.mpr hk)
  have hbit := List.find?_eq_none.mp (Option.map_eq_none_iff.mp hrow) _ (List.mem_range.mpr hmod)
  have hblock : bblock sb (b.toNat / BPB * BPB) = bblock sb b.toNat := by
    rw [bblock, bblock, Nat.mul_div_cancel _ hpos]
  rw [hsum, hblock] at hbit
  exact ⟨hb, by simpa [hb] using hbit⟩

/-- What `balloc` leaves when it returns the block `a`. -/
structure Alloced (sb : Superblock) (s : State) (a : BlockNo) (s' : State) : Prop where
  size : a.toNat < sb.size.toNat
  free : ¬ Used sb s.disk a
  disk : s'.disk = update (markUsed sb s.disk a.toNat) a fun _ => 0
  itable : s'.itable = s.itable
  locked : s'.locked = s.locked
  outstanding : s'.outstanding = s.outstanding

theorem wp_balloc (h0 : Used sb s.disk 0) (hbig : E .tooBig) (hout : E .outsideTrans) :
    wp (balloc sb) s (fun a s' => a = 0 ∧ s' = s ∧ freeBlock sb s.disk = none ∨
      a ≠ 0 ∧ Alloced sb s a s') E := by
  simp only [balloc, wp_bind, wp_get]
  cases hfree : freeBlock sb s.disk with
  | none => exact .inl ⟨rfl, rfl, rfl⟩
  | some b =>
    obtain ⟨hsize, hbit⟩ := freeBlock_spec hfree
    have hnum : (UInt32.ofNat b).toNat = b :=
      UInt32.toNat_ofNat_of_lt' (lt_trans hsize sb.size.toNat_lt)
    have hnot : ¬ Used sb s.disk (UInt32.ofNat b) := by
      rintro ⟨-, hset⟩
      rw [hnum, hbit] at hset
      exact Bool.false_ne_true hset
    simp only [wp_bind, bzero]
    refine wp_logWrite (fun _ => ?_) (fun _ => hbig) fun _ => hout
    refine wp_logWrite (fun _ => ?_) (fun _ => hbig) fun _ => hout
    refine .inr ⟨fun h => hnot (h ▸ h0), hnum.symm ▸ hsize, hnot, ?_, rfl, rfl, rfl⟩
    simp only [State.logged_disk, markUsed, hnum]

/-- The bitmap after `balloc`. -/
theorem Alloced.used_iff {a : BlockNo} (h : Alloced sb s a s') (hsb : sb.Ok)
    (ha : sb.nmeta ≤ a.toNat) (c : BlockNo) : Used sb s'.disk c ↔ c = a ∨ Used sb s.disk c := by
  rw [h.disk, used_update hsb ha, used_markUsed hsb h.size]

/-- The inodes after `balloc`. -/
theorem Alloced.dinodeAt {a : BlockNo} (h : Alloced sb s a s') (hsb : sb.Ok)
    (ha : sb.nmeta ≤ a.toNat) {i : ℕ} (hi : i < sb.ninodes.toNat) :
    dinodeAt sb s'.disk i = Fs.dinodeAt sb s.disk i := by
  rw [h.disk, dinodeAt_update hsb ha hi, markUsed, dinodeAt_update_bblock hsb h.size hi]

/-- The other data blocks after `balloc`. -/
theorem Alloced.disk_of_ne {a : BlockNo} (h : Alloced sb s a s') (hsb : sb.Ok) {c : BlockNo}
    (hc : sb.nmeta ≤ c.toNat) (hne : c ≠ a) : s'.disk c = s.disk c := by
  rw [h.disk, update_of_ne hne, markUsed, update_of_ne]
  exact (ne_of_nmeta_le hc (bblock_lt hsb h.size).2).symm

/-! ## `bfree` -/

theorem wp_bfree {Q : Unit → State → Prop} (hused : Used sb s.disk b)
    (hQ : s.lh.length < LOGBLOCKS →
      Q () (s.logged (bblock sb b.toNat)
        (clearBit (s.disk (bblock sb b.toNat)) (b.toNat % BPB))))
    (hbig : LOGBLOCKS ≤ s.lh.length → E .tooBig) (hout : s.outstanding = 0 → E .outsideTrans) :
    wp (bfree sb b) s Q E := by
  simp only [bfree, wp_bind, wp_get, hused.2]
  rw [wp_ite]
  refine ⟨fun h => absurd h (by simp), fun _ => ?_⟩
  exact wp_logWrite hQ hbig hout

end SustainableXv6.Inode
