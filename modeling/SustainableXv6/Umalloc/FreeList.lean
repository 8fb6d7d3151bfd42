import SustainableXv6.Umalloc.Machine

/-!
# The free list

`Blocks E h bs` says that the blocks `bs` tile the memory obtained from `sbrk`: two blocks that
touch may be joined, and one may be cut in two. `Inv E h fl lv` says that the list from `base`
visits the free blocks `fl` in the order of their addresses, that no free block touches the next
one, and that the free blocks and the live blocks `lv` tile the memory. `free` and `malloc` keep it,
and their loops end (`Inv.free`, `Inv.malloc`).

As all memory from `sbrk` is less than `2^32` units, a sum of sizes does not wrap (`Env.Ok`).
-/

namespace SustainableXv6.Umalloc

open Lib

variable {E : Env} {h h' : Heap} {a b p q bp x : ℕ} {n : UInt32} {bs bs' fl lv l₁ l₂ v₁ v₂ : List ℕ}

/-- `base` lies at an address that is not null, and all memory that `sbrk` can give is less than
`2^32` units. -/
structure Env.Ok (E : Env) : Prop where
  base : 0 < E.base
  ram : E.ram < 2 ^ 32 * HDR

/-! ## Stores to headers -/

namespace Heap

@[simp] theorem next_setPtr : (h.setPtr a p).next b = if b = a then p else h.next b := by
  by_cases hb : b = a
  · simp [setPtr, next, hb]
  · simp [setPtr, next, hb]

@[simp] theorem units_setPtr : (h.setPtr a p).units b = h.units b := by
  by_cases hb : b = a
  · simp [setPtr, units, hb]
  · simp [setPtr, units, hb]

@[simp] theorem next_setSize : (h.setSize a n).next b = h.next b := by
  by_cases hb : b = a
  · simp [setSize, next, hb]
  · simp [setSize, next, hb]

@[simp] theorem units_setSize :
    (h.setSize a n).units b = if b = a then n.toNat else h.units b := by
  by_cases hb : b = a
  · simp [setSize, units, hb]
  · simp [setSize, units, hb]

/-- The bytes of a block, with its header. -/
def blk (h : Heap) (a : ℕ) : ℕ × ℕ := (a, HDR * h.units a)

/-- The bytes obtained from `sbrk`. -/
def obtained (h : Heap) : Set ℕ := {x | ∃ r ∈ h.got, Within r x}

end Heap

/-! ## Blocks -/

/-- The blocks `bs` tile the memory obtained from `sbrk`, which lies behind `base` and below the
end of the memory. -/
structure Blocks (E : Env) (h : Heap) (bs : List ℕ) : Prop where
  tiles : Tiles (bs.map h.blk) h.obtained
  total : totalLength (bs.map h.blk) = totalLength h.got
  regions : ∀ r ∈ h.got, E.base + HDR ≤ r.1 ∧ r.1 + r.2 ≤ h.brk
  ram : totalLength h.got ≤ E.ram
  low : E.base + HDR ≤ h.brk
  top : h.brk ≤ TRAPFRAME

namespace Blocks

theorem perm (hb : Blocks E h bs) (hp : bs.Perm bs') : Blocks E h bs' :=
  ⟨hb.tiles.perm (hp.map _), (totalLength_perm (hp.map _)).symm.trans hb.total, hb.regions, hb.ram,
    hb.low, hb.top⟩

/-- Stores that leave the sizes of the blocks leave the blocks. -/
theorem congr (hb : Blocks E h bs) (hgot : h'.got = h.got) (hbrk : h'.brk = h.brk)
    (hu : ∀ a ∈ bs, h'.units a = h.units a) : Blocks E h' bs := by
  have hmap : bs.map h'.blk = bs.map h.blk :=
    List.map_congr_left fun a ha => by rw [Heap.blk, Heap.blk, hu a ha]
  have hobt : h'.obtained = h.obtained := by rw [Heap.obtained, Heap.obtained, hgot]
  exact ⟨by rw [hmap, hobt]; exact hb.tiles, by rw [hmap, hgot]; exact hb.total,
    by rw [hgot, hbrk]; exact hb.regions, hgot ▸ hb.ram, hbrk ▸ hb.low, hbrk ▸ hb.top⟩

theorem pos (hb : Blocks E h bs) (ha : a ∈ bs) : 0 < h.units a := by
  have hpos : 0 < HDR * h.units a := hb.tiles.pos _ (List.mem_map_of_mem ha)
  exact Nat.pos_of_mul_pos_left hpos

/-- A block lies behind `base` and below the end of the memory. -/
theorem range (hb : Blocks E h bs) (ha : a ∈ bs) : E.base + HDR ≤ a ∧ h.stop a ≤ h.brk := by
  have hpos : 0 < HDR * h.units a := Nat.mul_pos (by decide) (hb.pos ha)
  have hmem := List.mem_map_of_mem (f := h.blk) ha
  obtain ⟨r, hr, hfirst⟩ := (hb.tiles.cover a).mp ⟨_, hmem, show a ≤ a ∧ _ by
    simp only [Heap.blk]
    omega⟩
  obtain ⟨r', hr', hlast⟩ := (hb.tiles.cover (h.stop a - 1)).mp ⟨_, hmem, show a ≤ _ ∧ _ by
    simp only [Heap.blk, Heap.stop]
    omega⟩
  have h₁ := hb.regions r hr
  have h₂ := hb.regions r' hr'
  unfold Within at hfirst hlast
  omega

/-- Two blocks do not overlap. -/
theorem apart (hb : Blocks E h bs) (ha : a ∈ bs) (hb' : b ∈ bs) (hne : a ≠ b) :
    h.stop a ≤ b ∨ h.stop b ≤ a :=
  hb.tiles.apart_of_ne (List.mem_map_of_mem ha) (List.mem_map_of_mem hb')
    fun he => hne (Prod.mk.inj he).1

theorem nodup (hb : Blocks E h bs) : bs.Nodup := by
  have hp := List.pairwise_map.mp hb.tiles.apart
  refine hp.imp_of_mem fun {a b} ha _ hab => ?_
  rintro rfl
  have hpos : 0 < HDR * h.units a := Nat.mul_pos (by decide) (hb.pos ha)
  unfold Apart Heap.blk at hab
  simp only at hab
  omega

/-- The sizes of two blocks together do not wrap. -/
theorem units_add_lt (hb : Blocks E h (a :: b :: bs)) (hE : E.Ok) :
    h.units a + h.units b < 2 ^ 32 := by
  have htotal := hb.total
  have hram := hb.ram
  have hlt := hE.ram
  simp only [List.map_cons, totalLength_cons, Heap.blk] at htotal
  simp only [HDR] at *
  omega

/-- Two blocks that touch are joined. -/
theorem join (hb : Blocks E h (a :: b :: bs)) (hab : h.stop a = b) (hgot : h'.got = h.got)
    (hbrk : h'.brk = h.brk) (ha : h'.units a = h.units a + h.units b)
    (hu : ∀ c ∈ bs, h'.units c = h.units c) : Blocks E h' (a :: bs) := by
  have hpa : 0 < HDR * h.units a := Nat.mul_pos (by decide) (hb.pos (by simp))
  have hpb : 0 < HDR * h.units b := Nat.mul_pos (by decide) (hb.pos (by simp))
  have hmap : bs.map h'.blk = bs.map h.blk :=
    List.map_congr_left fun c hc => by rw [Heap.blk, Heap.blk, hu c hc]
  have hobt : h'.obtained = h.obtained := by rw [Heap.obtained, Heap.obtained, hgot]
  have hblk : h'.blk a = (a, HDR * h.units a + HDR * h.units b) := by
    rw [Heap.blk, ha, Nat.mul_add]
  have htiles := hb.tiles
  have htotal := hb.total
  simp only [List.map_cons, totalLength_cons] at htiles htotal ⊢
  have hstop : h.blk b = (a + HDR * h.units a, HDR * h.units b) := by
    rw [Heap.blk, ← hab, Heap.stop]
  rw [hstop] at htiles htotal
  refine ⟨?_, ?_, by rw [hgot, hbrk]; exact hb.regions, hgot ▸ hb.ram, hbrk ▸ hb.low,
    hbrk ▸ hb.top⟩
  · rw [List.map_cons, hblk, hmap, hobt]
    exact (tiles_split hpa hpb).mpr htiles
  · rw [List.map_cons, totalLength_cons, hblk, hmap, hgot, ← htotal]
    simp only [Heap.blk]
    omega

/-- A block is cut in two. -/
theorem split (hb : Blocks E h (a :: bs)) (hgot : h'.got = h.got) (hbrk : h'.brk = h.brk)
    (hpos : 0 < h'.units a ∧ 0 < h'.units (h'.stop a))
    (hsum : h'.units a + h'.units (h'.stop a) = h.units a)
    (hu : ∀ c ∈ bs, h'.units c = h.units c) : Blocks E h' (a :: h'.stop a :: bs) := by
  have hpa : 0 < HDR * h'.units a := Nat.mul_pos (by decide) hpos.1
  have hpb : 0 < HDR * h'.units (h'.stop a) := Nat.mul_pos (by decide) hpos.2
  have hmap : bs.map h'.blk = bs.map h.blk :=
    List.map_congr_left fun c hc => by rw [Heap.blk, Heap.blk, hu c hc]
  have hobt : h'.obtained = h.obtained := by rw [Heap.obtained, Heap.obtained, hgot]
  have hblk : h.blk a = (a, HDR * h'.units a + HDR * h'.units (h'.stop a)) := by
    rw [Heap.blk, ← hsum, Nat.mul_add]
  have htiles := hb.tiles
  have htotal := hb.total
  rw [List.map_cons, hblk] at htiles htotal
  refine ⟨?_, ?_, by rw [hgot, hbrk]; exact hb.regions, hgot ▸ hb.ram, hbrk ▸ hb.low,
    hbrk ▸ hb.top⟩
  · rw [List.map_cons, List.map_cons, hmap, hobt]
    exact (tiles_split hpa hpb).mp htiles
  · rw [List.map_cons, List.map_cons, totalLength_cons, totalLength_cons, hmap, hgot, ← htotal,
      totalLength_cons]
    simp only [Heap.blk]
    omega

/-- A region is added behind the end of the memory, as one block. -/
theorem add (hb : Blocks E h bs) (hgot : h'.got = (h.brk, HDR * h'.units h.brk) :: h.got)
    (hbrk : h'.brk = h.brk + HDR * h'.units h.brk) (hpos : 0 < h'.units h.brk)
    (hu : ∀ c ∈ bs, h'.units c = h.units c)
    (hram : totalLength h'.got ≤ E.ram) (htop : h'.brk ≤ TRAPFRAME) :
    Blocks E h' (h.brk :: bs) := by
  have hmap : bs.map h'.blk = bs.map h.blk :=
    List.map_congr_left fun c hc => by rw [Heap.blk, Heap.blk, hu c hc]
  have hobt : h'.obtained = h.obtained ∪ {x | Within (h'.blk h.brk) x} := by
    ext x
    simp only [Heap.obtained, hgot, Set.mem_union, Set.mem_ofPred_eq, List.mem_cons,
      exists_eq_or_imp]
    exact or_comm
  have hlow := hb.low
  refine ⟨?_, ?_, fun r hr => ?_, hram, by omega, htop⟩
  · rw [List.map_cons, hmap, hobt]
    refine hb.tiles.add (Nat.mul_pos (by decide) hpos) fun c hc => .inr ?_
    obtain ⟨c, hmem, rfl⟩ := List.mem_map.mp hc
    exact (hb.range hmem).2
  · rw [List.map_cons, totalLength_cons, hmap, hb.total, hgot, totalLength_cons, Heap.blk]
  · rw [hgot, List.mem_cons] at hr
    rcases hr with rfl | hr
    · exact ⟨hlow, hbrk.ge⟩
    · have := hb.regions r hr
      omega

end Blocks

/-! ## The list -/

/-- The list from `base` visits the free blocks `fl`, and with the live blocks `lv` they tile the
memory. -/
structure Inv (E : Env) (h : Heap) (fl lv : List ℕ) : Prop where
  chain : Chain h.next E.base fl E.base
  sorted : (E.base :: fl).Pairwise (· < ·)
  freep : h.freep ∈ E.base :: fl
  baseSize : h.units E.base = 0
  apart : ∀ a ∈ fl, h.stop a ≠ h.next a
  blocks : Blocks E h (fl ++ lv)

namespace Inv

theorem base_lt (hi : Inv E h fl lv) (ha : a ∈ fl ++ lv) : E.base < a := by
  have := (hi.blocks.range ha).1
  simp only [HDR] at this
  omega

theorem nodup (hi : Inv E h fl lv) : (E.base :: fl).Nodup := hi.sorted.imp fun hlt => hlt.ne

/-- There are fewer blocks than addresses. -/
theorem length_le (hi : Inv E h fl lv) : fl.length ≤ TRAPFRAME := by
  have hsub : fl ⊆ List.range TRAPFRAME := fun a ha => by
    have hmem : a ∈ fl ++ lv := List.mem_append_left _ ha
    have hr := (hi.blocks.range hmem).2
    have hpos : 0 < HDR * h.units a := Nat.mul_pos (by decide) (hi.blocks.pos hmem)
    have htop := hi.blocks.top
    rw [Heap.stop] at hr
    rw [List.mem_range]
    omega
  have hlen := ((List.nodup_cons.mp hi.nodup).2.subperm hsub).length_le
  rwa [List.length_range] at hlen

/-- A block of the list points to the next one, or it is the last one and points to `base`. -/
theorem next_cases (hi : Inv E h fl lv) (hx : x ∈ E.base :: fl) :
    (x < h.next x ∧ h.next x ∈ fl ∧ ∀ y ∈ E.base :: fl, y ≤ x ∨ h.next x ≤ y) ∨
      (h.next x = E.base ∧ ∀ y ∈ E.base :: fl, y ≤ x) := by
  obtain ⟨m₁, m₂, hm, hc⟩ := hi.chain.from_mem hx
  have hs := hi.sorted
  rw [hm, List.pairwise_append] at hs
  obtain ⟨-, hs₂, hs₁⟩ := hs
  have hlow : ∀ y ∈ m₁, y ≤ x := fun y hy => (hs₁ y hy x (List.mem_cons_self ..)).le
  cases m₂ with
  | nil =>
    refine .inr ⟨hc, fun y hy => ?_⟩
    rw [hm, List.mem_append, List.mem_singleton] at hy
    exact hy.elim (hlow y) le_of_eq
  | cons z m₂ =>
    obtain ⟨hz, -⟩ := hc
    obtain ⟨hxz, hs₂⟩ := List.pairwise_cons.mp hs₂
    have hlt : x < z := hxz z (List.mem_cons_self ..)
    refine .inl ⟨hz ▸ hlt, ?_, fun y hy => ?_⟩
    · have hmem : z ∈ E.base :: fl := by simp [hm]
      refine hz ▸ (List.mem_cons.mp hmem).resolve_left ?_
      rintro rfl
      -- `base` is below all blocks.
      rcases List.mem_cons.mp hx with rfl | hxf
      · exact absurd hlt (lt_irrefl _)
      · exact absurd hlt (hi.base_lt (List.mem_append_left _ hxf)).not_gt
    · rw [hm, List.mem_append, List.mem_cons, List.mem_cons] at hy
      rcases hy with hy | rfl | rfl | hy
      · exact .inl (hlow y hy)
      · exact .inl le_rfl
      · exact .inr hz.le
      · exact .inr (hz ▸ ((List.pairwise_cons.mp hs₂).1 y hy).le)

/-- A free block ends before the next one. -/
theorem stop_le_next (hi : Inv E h fl lv) (ha : a ∈ fl) :
    h.stop a ≤ h.next a ∨ h.next a = E.base := by
  rcases hi.next_cases (List.mem_cons_of_mem _ ha) with ⟨hlt, hmem, -⟩ | ⟨hbase, -⟩
  · refine .inl ((hi.blocks.apart (List.mem_append_left _ ha) (List.mem_append_left _ hmem)
      hlt.ne).resolve_right fun hle => ?_)
    rw [Heap.stop] at hle
    omega
  · exact .inr hbase

/-- No two free blocks touch. -/
theorem stop_ne (hi : Inv E h fl lv) (ha : a ∈ fl) (hb : b ∈ fl) : h.stop a ≠ b := by
  intro he
  have hab : a < b := by
    have hpos : 0 < HDR * h.units a :=
      Nat.mul_pos (by decide) (hi.blocks.pos (List.mem_append_left _ ha))
    rw [← he, Heap.stop]
    omega
  have hne := hi.apart a ha
  have hle := hi.stop_le_next ha
  have hbase := hi.base_lt (List.mem_append_left _ ha)
  rcases hi.next_cases (List.mem_cons_of_mem _ ha) with ⟨hlt, -, hall⟩ | ⟨-, hall⟩
  · have := hall b (List.mem_cons_of_mem _ hb)
    omega
  · have := hall b (List.mem_cons_of_mem _ hb)
    omega

end Inv

/-! ## The place of a block -/

/-- A list in order is cut at a number that is not in it. -/
theorem exists_cut (hs : fl.Pairwise (· < ·)) (hbp : bp ∉ fl) :
    ∃ l₁ l₂, fl = l₁ ++ l₂ ∧ (∀ y ∈ l₁, y < bp) ∧ ∀ y ∈ l₂, bp < y := by
  induction fl with
  | nil => exact ⟨[], [], rfl, by simp, by simp⟩
  | cons c fl ih =>
    obtain ⟨hc, hs⟩ := List.pairwise_cons.mp hs
    obtain ⟨hne, hbp⟩ := not_or.mp (List.mem_cons.not.mp hbp)
    rcases lt_or_gt_of_ne hne with hlt | hgt
    · refine ⟨[], c :: fl, rfl, by simp, fun y hy => ?_⟩
      rcases List.mem_cons.mp hy with rfl | hy
      · exact hlt
      · exact hlt.trans (hc y hy)
    · obtain ⟨l₁, l₂, rfl, h₁, h₂⟩ := ih hs hbp
      exact ⟨c :: l₁, l₂, rfl, List.forall_mem_cons.mpr ⟨hgt, h₁⟩, h₂⟩

/-- The last one of `base` and the blocks `l₁`. -/
def pred (E : Env) (l₁ : List ℕ) : ℕ := (E.base :: l₁).getLast (List.cons_ne_nil _ _)

theorem pred_mem : pred E l₁ ∈ E.base :: l₁ := List.getLast_mem _

theorem le_pred (hs : (E.base :: l₁).Pairwise (· < ·)) (hx : x ∈ E.base :: l₁) : x ≤ pred E l₁ :=
  (hs.imp le_of_lt).rel_getLast_of_rel_getLast_getLast hx le_rfl

namespace Inv

/-- The loop of `free` ends at the last block before `bp`. -/
theorem place_iff (hi : Inv E h fl lv) (hbase : E.base < bp) (hbp : bp ∉ fl)
    (hx : x ∈ E.base :: fl) :
    h.place bp x = true ↔ x < bp ∧ ∀ y ∈ E.base :: fl, y < bp → y ≤ x := by
  unfold Heap.place
  simp only [Bool.or_eq_true, Bool.and_eq_true, decide_eq_true_eq]
  rcases hi.next_cases hx with ⟨hlt, hmem, hall⟩ | ⟨hnext, hall⟩
  · have hne : h.next x ≠ bp := fun he => hbp (he ▸ hmem)
    constructor
    · intro hp
      refine ⟨by omega, fun y hy hyb => ?_⟩
      have := hall y hy
      omega
    · rintro ⟨hxb, hmax⟩
      have := hmax (h.next x) (List.mem_cons_of_mem _ hmem)
      omega
  · have := hall E.base (List.mem_cons_self ..)
    rw [hnext]
    exact ⟨fun hp => ⟨by omega, fun y hy _ => hall y hy⟩, fun hp => by omega⟩

/-- The loop of `free` finds the last block before `bp`. -/
theorem follow_place (hi : Inv E h (l₁ ++ l₂) lv) (hbase : E.base < bp)
    (hl₁ : ∀ y ∈ l₁, y < bp) (hl₂ : ∀ y ∈ l₂, bp < y) :
    follow h.next (h.place bp) (TRAPFRAME + 2) h.freep = some (pred E l₁) := by
  have hbp : bp ∉ l₁ ++ l₂ := by
    intro hmem
    rcases List.mem_append.mp hmem with hmem | hmem
    · exact absurd (hl₁ bp hmem) (lt_irrefl bp)
    · exact absurd (hl₂ bp hmem) (lt_irrefl bp)
  have hs : (E.base :: l₁).Pairwise (· < ·) :=
    hi.sorted.sublist ((List.sublist_append_left l₁ l₂).cons_cons E.base)
  have hmem : pred E l₁ ∈ E.base :: (l₁ ++ l₂) :=
    List.cons_subset_cons _ (List.subset_append_left ..) pred_mem
  have hlow : ∀ y ∈ E.base :: l₁, y < bp := List.forall_mem_cons.mpr ⟨hbase, hl₁⟩
  have hmax : ∀ y ∈ E.base :: (l₁ ++ l₂), y < bp → y ≤ pred E l₁ := by
    intro y hy hyb
    rw [← List.cons_append, List.mem_append] at hy
    rcases hy with hy | hy
    · exact le_pred hs hy
    · exact absurd hyb (hl₂ y hy).not_gt
  have hat : h.place bp (pred E l₁) = true :=
    (hi.place_iff hbase hbp hmem).mpr ⟨hlow _ pred_mem, hmax⟩
  -- The loop ends nowhere else.
  have hother : ∀ y ∈ E.base :: (l₁ ++ l₂), y ≠ pred E l₁ → h.place bp y = false := by
    intro y hy hne
    by_contra hplace
    obtain ⟨hyb, hge⟩ := (hi.place_iff hbase hbp hy).mp (Bool.eq_true_of_not_eq_false hplace)
    exact hne (le_antisymm (hmax y hy hyb) (hge _ hmem (hlow _ pred_mem)))
  obtain ⟨m, hm, hsub, hnot, hlen⟩ := hi.chain.exists_to hi.nodup hi.freep hmem
  have hfuel := hi.length_le
  by_cases hfree : h.freep = pred E l₁
  · rw [follow, hfree, hat, if_pos rfl]
  · obtain ⟨k, hk⟩ : ∃ k, TRAPFRAME + 2 = m.length + 1 + (k + 1) :=
      ⟨TRAPFRAME - m.length, by omega⟩
    rw [hk, hm.follow (List.forall_mem_cons.mpr ⟨hother _ hi.freep hfree, fun y hy =>
      hother y (hsub hy) fun he => hnot (he ▸ hy)⟩), follow, hat, if_pos rfl]

end Inv

/-! ## Joining -/

/-- The state between the two halves of `free`: the block `bp` points to the blocks `l₂` after it,
and the blocks `l₁` before it do not point to it yet. -/
structure Cut (E : Env) (h : Heap) (bp : ℕ) (l₁ l₂ lv : List ℕ) : Prop where
  left : ∃ l z, Chain h.next E.base (l₁ ++ l) z
  right : Chain h.next bp l₂ E.base
  sorted : (E.base :: (l₁ ++ bp :: l₂)).Pairwise (· < ·)
  baseSize : h.units E.base = 0
  apart₁ : ∀ a ∈ l₁, a ≠ pred E l₁ → h.stop a ≠ h.next a
  apart₂ : ∀ a ∈ bp :: l₂, h.stop a ≠ h.next a
  blocks : Blocks E h (l₁ ++ bp :: l₂ ++ lv)

/-- The block `bp` is made to point to the blocks `l`, which are those after it or all of them but
the first one. -/
theorem Inv.cut (hi : Inv E h (l₁ ++ l₂) (v₁ ++ bp :: v₂)) (hl₁ : ∀ y ∈ l₁, y < bp)
    (hl₂ : ∀ y ∈ l₂, bp < y) {l : List ℕ} (hl : l.Sublist l₂)
    (hnext : ∀ y, y ≠ bp → h'.next y = h.next y) (hunits : ∀ y, y ≠ bp → h'.units y = h.units y)
    (hright : Chain h'.next bp l E.base) (hstop : h'.stop bp ≠ h'.next bp)
    (hblocks : Blocks E h' (l₁ ++ bp :: l ++ (v₁ ++ v₂))) : Cut E h' bp l₁ l (v₁ ++ v₂) := by
  have hbase : E.base < bp := hi.base_lt (by simp)
  have hlow : ∀ y ∈ E.base :: l₁, y < bp := List.forall_mem_cons.mpr ⟨hbase, hl₁⟩
  have hstay : ∀ y, y ≠ bp → h.stop y ≠ h.next y → h'.stop y ≠ h'.next y := by
    intro y hy hne
    rwa [Heap.stop, hunits y hy, hnext y hy]
  have hne₂ : ∀ y ∈ l₂, y ≠ bp := fun y hy => (hl₂ y hy).ne'
  refine ⟨⟨l₂, E.base, hi.chain.congr fun y hy => hnext y ?_⟩, hright, ?_, ?_,
    fun y hy _ => hstay y (hl₁ y hy).ne (hi.apart y (List.mem_append_left _ hy)), fun y hy => ?_,
    hblocks⟩
  · rw [← List.cons_append, List.mem_append] at hy
    exact hy.elim (fun hy => (hlow y hy).ne) (hne₂ y)
  · have hs := hi.sorted
    rw [← List.cons_append, List.pairwise_append] at hs ⊢
    refine ⟨hs.1, List.pairwise_cons.mpr ⟨fun y hy => hl₂ y (hl.subset hy), hs.2.1.sublist hl⟩,
      fun y hy z hz => ?_⟩
    rcases List.mem_cons.mp hz with rfl | hz
    · exact hlow y hy
    · exact (hlow y hy).trans (hl₂ z (hl.subset hz))
  · rw [hunits _ hbase.ne, hi.baseSize]
  · rcases List.mem_cons.mp hy with rfl | hy
    · exact hstop
    · have hy₂ := hl.subset hy
      exact hstay y (hne₂ y hy₂) (hi.apart y (List.mem_append_right _ hy₂))

/-- The first half of `free`. The block `bp` may have taken the block after it. -/
theorem Inv.joinUpper (hi : Inv E h (l₁ ++ l₂) (v₁ ++ bp :: v₂)) (hE : E.Ok)
    (hl₁ : ∀ y ∈ l₁, y < bp) (hl₂ : ∀ y ∈ l₂, bp < y) :
    ∃ l, Cut E (h.joinUpper bp (pred E l₁)) bp l₁ l (v₁ ++ v₂) ∧
      h.units bp ≤ (h.joinUpper bp (pred E l₁)).units bp ∧
      ∀ a, a ≠ bp → (h.joinUpper bp (pred E l₁)).units a = h.units a := by
  have hbase : E.base < bp := hi.base_lt (by simp)
  have hlast : Chain h.next (pred E l₁) l₂ E.base := hi.chain.from_last
  have hbp₂ : ∀ y ∈ l₂, y ≠ bp := fun y hy => (hl₂ y hy).ne'
  unfold Heap.joinUpper
  by_cases hU : h.stop bp = h.next (pred E l₁)
  · -- `bp` is not the last block, as `base` is not behind it.
    cases l₂ with
    | nil =>
      have hnext : h.next (pred E l₁) = E.base := hlast
      rw [hnext, Heap.stop] at hU
      omega
    | cons q l₂ =>
      obtain ⟨hq, hright⟩ := hlast
      have hqbp : q ≠ bp := hbp₂ q (List.mem_cons_self ..)
      have hperm : ((l₁ ++ q :: l₂) ++ (v₁ ++ bp :: v₂)).Perm
          (bp :: q :: (l₁ ++ l₂ ++ (v₁ ++ v₂))) := by
        simp only [← List.append_assoc]
        refine List.perm_middle.trans (.cons _ ?_)
        simp only [List.append_assoc, List.cons_append]
        exact List.perm_middle
      have hblocks := hi.blocks.perm hperm
      have hsum : ((h.mem bp).size + (h.mem q).size).toNat = h.units bp + h.units q := by
        rw [UInt32.toNat_add]
        exact Nat.mod_eq_of_lt (hblocks.units_add_lt hE)
      rw [if_pos hU]
      rw [hq] at hU ⊢
      simp only [Heap.next_setSize, hq]
      generalize hh' : (h.setSize bp ((h.mem bp).size + (h.mem q).size)).setPtr bp (h.next q) = h'
      have hnext (y : ℕ) : h'.next y = if y = bp then h.next q else h.next y := by simp [← hh']
      have hunits (y : ℕ) : h'.units y = if y = bp then h.units bp + h.units q else h.units y := by
        simp [← hh', hsum]
      have hgot : h'.got = h.got := by rw [← hh']; rfl
      have hbrk : h'.brk = h.brk := by rw [← hh']; rfl
      have hself : h'.units bp = h.units bp + h.units q := by rw [hunits, if_pos rfl]
      refine ⟨l₂, hi.cut hl₁ hl₂ (List.sublist_cons_self ..) (fun y hy => by rw [hnext, if_neg hy])
        (fun y hy => by rw [hunits, if_neg hy]) ?_ ?_ ?_, by omega,
        fun y hy => by rw [hunits, if_neg hy]⟩
      · exact hright.restart (by rw [hnext, if_pos rfl]) fun y hy => by
          rw [hnext, if_neg (hbp₂ y (List.mem_cons_of_mem _ hy))]
      · -- The end of `bp` is now the end of `q`.
        have hne := hi.apart q (by simp)
        have hstop : h'.stop bp = h.stop q := by
          rw [Heap.stop] at hU
          rw [Heap.stop, Heap.stop, hself, Nat.mul_add]
          omega
        rwa [hstop, hnext, if_pos rfl]
      · refine (hblocks.join hU hgot hbrk hself fun c hc => ?_).perm ?_
        · have hc : c ≠ bp := by
            rintro rfl
            exact (List.nodup_cons.mp hblocks.nodup).1 (List.mem_cons_of_mem _ hc)
          rw [hunits, if_neg hc]
        · rw [List.append_assoc, List.append_assoc, List.cons_append]
          exact List.perm_middle.symm
  · rw [if_neg hU]
    have hnext (y : ℕ) : (h.setPtr bp (h.next (pred E l₁))).next y =
        if y = bp then h.next (pred E l₁) else h.next y := Heap.next_setPtr
    refine ⟨l₂, hi.cut hl₁ hl₂ (List.Sublist.refl _) (fun y hy => by rw [hnext, if_neg hy])
      (fun y _ => Heap.units_setPtr) ?_ ?_ ?_, Heap.units_setPtr.ge, fun y _ => Heap.units_setPtr⟩
    · exact hlast.restart (by rw [hnext, if_pos rfl]) fun y hy => by
        rw [hnext, if_neg (hbp₂ y hy)]
    · rwa [Heap.stop, Heap.units_setPtr, hnext, if_pos rfl]
    · have hblocks : Blocks E (h.setPtr bp (h.next (pred E l₁))) _ :=
        hi.blocks.congr rfl rfl fun y _ => Heap.units_setPtr
      refine hblocks.perm ?_
      simp only [List.append_assoc, List.cons_append]
      refine List.Perm.append_left l₁ ?_
      rw [← List.append_assoc]
      refine List.perm_middle.trans (.cons _ ?_)
      rw [List.append_assoc]

/-- The last one of `base` and the blocks before `bp` is made to point to the blocks `l`. -/
theorem Cut.inv (hc : Cut E h bp l₁ l₂ lv) {l : List ℕ} (hl : l.Sublist (bp :: l₂))
    (hnext : ∀ y, y ≠ pred E l₁ → h'.next y = h.next y)
    (hunits : ∀ y, y ≠ pred E l₁ → h'.units y = h.units y)
    (hbase : h'.units E.base = 0) (hright : Chain h'.next (pred E l₁) l E.base)
    (hstop : pred E l₁ ∈ l₁ → h'.stop (pred E l₁) ≠ h'.next (pred E l₁))
    (hfreep : h'.freep = pred E l₁) (hblocks : Blocks E h' (l₁ ++ l ++ lv)) :
    Inv E h' (l₁ ++ l) lv := by
  have hs := hc.sorted
  rw [← List.cons_append, List.pairwise_append] at hs
  obtain ⟨hs₁, -, hlt⟩ := hs
  obtain ⟨l', z, hleft⟩ := hc.left
  have hne : ∀ y ∈ bp :: l₂, y ≠ pred E l₁ := fun y hy => (hlt _ pred_mem y hy).ne'
  have hstay : ∀ y, y ≠ pred E l₁ → h.stop y ≠ h.next y → h'.stop y ≠ h'.next y := by
    intro y hy hy'
    rwa [Heap.stop, hunits y hy, hnext y hy]
  refine ⟨hleft.redirect (hs₁.imp fun hlt => hlt.ne) (fun y _ hy => hnext y hy) hright,
    hc.sorted.sublist ((hl.append_left l₁).cons_cons _), ?_, hbase, fun y hy => ?_, hblocks⟩
  · rw [hfreep]
    exact List.cons_subset_cons _ (List.subset_append_left ..) pred_mem
  · rcases List.mem_append.mp hy with hy | hy
    · by_cases hyp : y = pred E l₁
      · exact hyp ▸ hstop (hyp ▸ hy)
      · exact hstay y hyp (hc.apart₁ y hy hyp)
    · have hy' := hl.subset hy
      exact hstay y (hne y hy') (hc.apart₂ y hy')

/-- The second half of `free`. The block `bp` is in the list now, or the block before it has taken
it. -/
theorem Cut.joinLower (hc : Cut E h bp l₁ l₂ lv) (hE : E.Ok) :
    ∃ fl, Inv E { h.joinLower bp (pred E l₁) with freep := pred E l₁ } fl lv ∧
      (∃ x ∈ fl, h.units bp ≤ (h.joinLower bp (pred E l₁)).units x) ∧
      ∀ a, a ≠ pred E l₁ → (h.joinLower bp (pred E l₁)).units a = h.units a := by
  have hs := hc.sorted
  rw [← List.cons_append, List.pairwise_append] at hs
  obtain ⟨-, -, hlt⟩ := hs
  have hne : ∀ y ∈ bp :: l₂, y ≠ pred E l₁ := fun y hy => (hlt _ pred_mem y hy).ne'
  have hbp : bp ≠ pred E l₁ := hne bp (List.mem_cons_self ..)
  unfold Heap.joinLower
  by_cases hL : h.stop (pred E l₁) = bp
  · -- `base` has no units, so that it does not touch `bp`.
    have hmem : pred E l₁ ∈ l₁ := by
      refine (List.mem_cons.mp pred_mem).resolve_left fun he => hbp ?_
      rw [he, Heap.stop, hc.baseSize, Nat.mul_zero, Nat.add_zero] at hL
      rw [he, hL]
    obtain ⟨m₁, m₂, hm⟩ := List.append_of_mem hmem
    have hbase : E.base ≠ pred E l₁ := by
      rintro he
      exact (List.nodup_cons.mp (hc.sorted.imp fun hlt => hlt.ne)).1
        (List.mem_append_left _ (he ▸ hmem))
    have hl₁ : l₁.Perm (pred E l₁ :: (m₁ ++ m₂)) := (List.Perm.of_eq hm).trans List.perm_middle
    have hperm : (l₁ ++ bp :: l₂ ++ lv).Perm
        (pred E l₁ :: bp :: (m₁ ++ m₂ ++ (l₂ ++ lv))) := by
      rw [List.append_assoc, List.cons_append]
      exact List.perm_middle.trans (((hl₁.append_right _).cons bp).trans (.swap ..))
    have hblocks := hc.blocks.perm hperm
    have hsum : ((h.mem (pred E l₁)).size + (h.mem bp).size).toNat =
        h.units (pred E l₁) + h.units bp := by
      rw [UInt32.toNat_add]
      exact Nat.mod_eq_of_lt (hblocks.units_add_lt hE)
    rw [if_pos hL]
    simp only [Heap.next_setSize]
    generalize hh' : (h.setSize (pred E l₁) ((h.mem (pred E l₁)).size + (h.mem bp).size)).setPtr
      (pred E l₁) (h.next bp) = h'
    have hnext (y : ℕ) : h'.next y = if y = pred E l₁ then h.next bp else h.next y := by
      simp [← hh']
    have hunits (y : ℕ) : h'.units y =
        if y = pred E l₁ then h.units (pred E l₁) + h.units bp else h.units y := by
      simp [← hh', hsum]
    have hgot : h'.got = h.got := by rw [← hh']; rfl
    have hbrk : h'.brk = h.brk := by rw [← hh']; rfl
    have hself : h'.units (pred E l₁) = h.units (pred E l₁) + h.units bp := by
      rw [hunits, if_pos rfl]
    refine ⟨l₁ ++ l₂, hc.inv (List.sublist_cons_self ..) (fun y hy => (hnext y).trans (if_neg hy))
      (fun y hy => (hunits y).trans (if_neg hy)) ?_ ?_ (fun _ => ?_) rfl ?_,
      ⟨_, List.mem_append_left _ hmem, by omega⟩, fun y hy => (hunits y).trans (if_neg hy)⟩
    · exact (hunits _).trans ((if_neg hbase).trans hc.baseSize)
    · exact hc.right.restart ((hnext _).trans (if_pos rfl)) fun y hy =>
        (hnext y).trans (if_neg (hne y (List.mem_cons_of_mem _ hy)))
    · -- The end of the block before is now the end of `bp`.
      have hne' := hc.apart₂ bp (List.mem_cons_self ..)
      have hstop : h'.stop (pred E l₁) = h.stop bp := by
        rw [Heap.stop] at hL
        rw [Heap.stop, Heap.stop, hself, Nat.mul_add]
        omega
      change h'.stop (pred E l₁) ≠ h'.next (pred E l₁)
      rwa [hstop, hnext, if_pos rfl]
    · have hjoin : Blocks E h' (pred E l₁ :: (m₁ ++ m₂ ++ (l₂ ++ lv))) := by
        refine hblocks.join hL hgot hbrk hself fun c hc' => ?_
        have hcp : c ≠ pred E l₁ := by
          rintro rfl
          exact (List.nodup_cons.mp hblocks.nodup).1 (List.mem_cons_of_mem _ hc')
        exact (hunits c).trans (if_neg hcp)
      have hperm' : (pred E l₁ :: (m₁ ++ m₂ ++ (l₂ ++ lv))).Perm (l₁ ++ l₂ ++ lv) := by
        rw [List.append_assoc l₁]
        exact (hl₁.append_right _).symm
      exact (hjoin.perm hperm').congr rfl rfl fun _ _ => rfl
  · rw [if_neg hL]
    have hnext (y : ℕ) : (h.setPtr (pred E l₁) bp).next y =
        if y = pred E l₁ then bp else h.next y := Heap.next_setPtr
    have hunits (y : ℕ) : (h.setPtr (pred E l₁) bp).units y = h.units y := Heap.units_setPtr
    refine ⟨l₁ ++ bp :: l₂, hc.inv (List.Sublist.refl _) (fun y hy => (hnext y).trans (if_neg hy))
      (fun y _ => hunits y) ?_ ?_ (fun _ => ?_) rfl ?_, ⟨bp, by simp, (hunits bp).ge⟩,
      fun y _ => hunits y⟩
    · exact (hunits _).trans hc.baseSize
    · refine ⟨(hnext _).trans (if_pos rfl), hc.right.congr fun y hy => ?_⟩
      exact (hnext y).trans (if_neg (hne y hy))
    · change (h.setPtr (pred E l₁) bp).stop (pred E l₁) ≠ (h.setPtr (pred E l₁) bp).next (pred E l₁)
      rwa [Heap.stop, hunits, hnext, if_pos rfl]
    · exact hc.blocks.congr rfl rfl fun y _ => hunits y

/-- `free` of a live block returns, and the block is free. -/
theorem Inv.free (hi : Inv E h fl (v₁ ++ bp :: v₂)) (hE : E.Ok) :
    ∃ h' fl', h.free (bp + HDR) = some h' ∧ Inv E h' fl' (v₁ ++ v₂) ∧
      (∃ x ∈ fl', h.units bp ≤ h'.units x) ∧ (∀ a ∈ v₁ ++ v₂, h'.units a = h.units a) ∧
      h'.got = h.got ∧ h'.brk = h.brk := by
  have hnd := hi.blocks.nodup
  have hbp : bp ∉ fl := fun hmem => by
    rw [List.nodup_append] at hnd
    exact hnd.2.2 bp hmem bp (by simp) rfl
  obtain ⟨l₁, l₂, rfl, hl₁, hl₂⟩ := exists_cut (List.pairwise_cons.mp hi.sorted).2 hbp
  have hbase : E.base < bp := hi.base_lt (by simp)
  obtain ⟨l, hcut, hle, hsame⟩ := hi.joinUpper hE hl₁ hl₂
  obtain ⟨fl', hinv, ⟨x, hx, hxle⟩, hsame'⟩ := hcut.joinLower hE
  refine ⟨_, fl', ?_, hinv, ⟨x, hx, hle.trans hxle⟩, fun a ha => ?_, ?_, ?_⟩
  · rw [Heap.free, Nat.add_sub_cancel, hi.follow_place hbase hl₁ hl₂, Option.map_some]
  · -- A live block is neither `bp` nor a block of the list.
    have hv : a ∈ v₁ ++ bp :: v₂ := by
      rcases List.mem_append.mp ha with ha | ha
      · exact List.mem_append_left _ ha
      · exact List.mem_append_right _ (List.mem_cons_of_mem _ ha)
    have hne : a ≠ bp := by
      rintro rfl
      have hv' := (List.nodup_append.mp hnd).2.1
      rw [List.perm_middle.nodup_iff] at hv'
      exact (List.nodup_cons.mp hv').1 ha
    have hpred : a ≠ pred E l₁ := by
      rintro rfl
      have hpm : pred E l₁ ∈ E.base :: l₁ := pred_mem
      rcases List.mem_cons.mp hpm with he | hmem
      · exact absurd (hi.base_lt (List.mem_append_right _ hv)) (by rw [he]; exact lt_irrefl _)
      · exact (List.nodup_append.mp hnd).2.2 _ (List.mem_append_left _ hmem) _ hv rfl
    exact (hsame' a hpred).trans (hsame a hne)
  · simp only [Heap.joinLower, Heap.joinUpper]
    split_ifs <;> rfl
  · simp only [Heap.joinLower, Heap.joinUpper]
    split_ifs <;> rfl

end SustainableXv6.Umalloc
