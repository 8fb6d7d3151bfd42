import SustainableXv6.Vm.Space

/-!
# Growing and copying an address space

`uvmalloc` and `uvmcopy` add pages to an address space one after the other, and both remove what
they have added when there is no memory for the next one. So both are loops with the invariant
`Grown`, whose parameter `want` says which pages they add and with which contents, and the same
argument about the way back (`Grown.restored`).
-/

namespace SustainableXv6.Vm

open Lib Radix

variable {s s' s₀ : Mem} {pt a lo hi perm f : UInt64} {R : Set UInt64} {E : Panic → Prop}
  {want : UInt64 → Option (UInt64 × Page)} {pg : Page}

/-! ## Pages have been added -/

/-- The pages from `lo` to `hi` that `want` names have been added, with its flags and contents. -/
structure Grown (pt : UInt64) (want : UInt64 → Option (UInt64 × Page)) (lo hi : UInt64)
    (s₀ s : Mem) : Prop where
  within : Within pt s₀ s
  free : ∀ f ∈ s.freelist, f ∈ s₀.freelist
  /-- A page that is wanted has a page of the free list. -/
  new : ∀ b perm pg, VirtPage b → lo ≤ b → b < hi → want b = some (perm, pg) →
    s₀.pageMap pt b = none ∧ ∃ f ∈ s₀.freelist,
      s.pageMap pt b = some (pa2pte f ||| perm ||| PTE_V) ∧ s.tree pt (leafPath b) = some f ∧
      s.page f = pg
  old : ∀ b, VirtPage b → (lo ≤ b → b < hi → want b = none) → s.pageMap pt b = s₀.pageMap pt b
  tree : ∀ p, p.length = 3 →
    (∀ b, VirtPage b → lo ≤ b → b < hi → want b ≠ none → p ≠ leafPath b) →
    s.tree pt p = s₀.tree pt p

theorem Grown.start (pt : UInt64) (want : UInt64 → Option (UInt64 × Page)) (lo : UInt64) (s : Mem) :
    Grown pt want lo lo s s where
  within := .refl pt s
  free _ hf := hf
  new _ _ _ _ hle hlt := absurd hlt (UInt64.not_lt.mpr hle)
  old _ _ _ := rfl
  tree _ _ _ := rfl

/-- The invariant depends on the pages between the bounds only. -/
theorem Grown.congr {hi' : UInt64} (h : Grown pt want lo hi s₀ s)
    (hhi : ∀ b, VirtPage b → lo ≤ b → want b ≠ none → (b < hi ↔ b < hi')) :
    Grown pt want lo hi' s₀ s where
  within := h.within
  free := h.free
  new b perm pg hb hle hlt hw :=
    h.new b perm pg hb hle ((hhi b hb hle (by simp [hw])).mpr hlt) hw
  old b hb hnone := by
    refine h.old b hb fun hle hlt => ?_
    by_contra hw
    exact hw (hnone hle ((hhi b hb hle hw).mp hlt))
  tree p hp hne := h.tree p hp fun b hb hle hlt hw => hne b hb hle ((hhi b hb hle hw).mp hlt) hw

/-- Nothing has been added. -/
theorem Grown.keep (h : Grown pt want lo hi s₀ s) (hk : Kept pt s s') (hs : Space R s pt) :
    Grown pt want lo hi s₀ s' where
  within := h.within.trans hk.within
  free f hf := h.free f (hk.free f hf)
  new b perm pg hb hle hlt hw := by
    obtain ⟨hnone, f, hf, hmap, htree, hpage⟩ := h.new b perm pg hb hle hlt hw
    refine ⟨hnone, f, hf, by rw [hk.map, hmap], by rw [hk.tree _ (length_leafPath b), htree], ?_⟩
    rw [hk.within.page f (hs.not_foot_of_tree (length_leafPath b) htree), hpage]
  old b hb hnone := by rw [hk.map, h.old b hb hnone]
  tree p hp hne := by rw [hk.tree p hp, h.tree p hp hne]

/-- The next page is not wanted. -/
theorem Grown.skip (h : Grown pt want lo a s₀ s) (ha : VirtPage a) (hw : want a = none) :
    Grown pt want lo (a + PGSIZE) s₀ s := by
  refine h.congr fun b hb _ hwb => ?_
  have hba : b ≠ a := by
    rintro rfl
    exact hwb hw
  rw [← UInt64.not_le, ← UInt64.not_le, next_le_iff ha hb]
  exact not_congr ⟨fun hle => ⟨hle, hba⟩, fun hle => hle.1⟩

/-- The next page has been added. -/
theorem Grown.add (h : Grown pt want lo a s₀ s) (hs : Space R s pt) (ha : VirtPage a)
    (hlo : lo ≤ a) (hnone : s.pageMap pt a = none) (hw : want a = some (perm, pg))
    (hperm : perm < 1024) (had : Added pt a perm pg f s s') :
    Grown pt want lo (a + PGSIZE) s₀ s' := by
  have hlt {b : UInt64} (hb : VirtPage b) (hle : b < a + PGSIZE) : b = a ∨ b < a := by
    rw [← UInt64.not_le, next_le_iff ha hb, not_and, not_not] at hle
    by_cases hab : a ≤ b
    · exact .inl (hle hab)
    · exact .inr (UInt64.not_le.mp hab)
  have hself : a < a + PGSIZE := by
    rw [← UInt64.not_le, next_le_iff ha ha]
    exact fun hn => hn.2 rfl
  refine ⟨h.within.trans had.within, fun g hg => h.free g (had.free g hg),
    fun b perm' pg' hb hle hltb hw' => ?_, fun b hb hold => ?_, fun p hp hne => ?_⟩
  · have hmap := had.map b hb
    rcases hlt hb hltb with rfl | hlt
    · rw [if_pos rfl] at hmap
      rw [hw] at hw'
      obtain ⟨rfl, rfl⟩ := Prod.mk.inj (Option.some.inj hw')
      have hframe := hs.alloc.frame f had.taken
      refine ⟨?_, f, h.free f had.taken, hmap, ?_, had.page⟩
      · rw [← h.old b hb fun _ hn => absurd hn (UInt64.lt_irrefl b), hnone]
      · rw [tree_leafPath, hmap, Option.map_some, pte2pa_leaf hframe.aligned hperm]
    · have hba : b ≠ a := UInt64.ne_of_lt hlt
      obtain ⟨hn, g, hg, hmap', htree, hpage⟩ := h.new b perm' pg' hb hle hlt hw'
      rw [if_neg hba] at hmap
      refine ⟨hn, g, hg, by rw [hmap, hmap'], ?_, ?_⟩
      · rw [had.tree _ (length_leafPath b) fun heq => hba (leafPath_injective hb ha heq), htree]
      · rw [had.within.page g (hs.not_foot_of_tree (length_leafPath b) htree), hpage]
  · have hba : b ≠ a := by
      rintro rfl
      rw [hold hlo hself] at hw
      exact absurd hw (by simp)
    rw [had.map b hb, if_neg hba]
    exact h.old b hb fun hle hlt' => hold hle (UInt64.lt_trans hlt' hself)
  · rw [had.tree p hp (hne a ha hlo hself (by simp [hw]))]
    exact h.tree p hp fun b hb hle hlt' => hne b hb hle (UInt64.lt_trans hlt' hself)

/-! ## The way back -/

/-- The leaves are as before. -/
structure Restored (pt : UInt64) (s s' : Mem) : Prop where
  within : Within pt s s'
  map : ∀ b, VirtPage b → s'.pageMap pt b = s.pageMap pt b
  tree : ∀ p, p.length = 3 → s'.tree pt p = s.tree pt p

section Restored

variable (h : Grown pt want lo hi s₀ s)
  (hnone : ∀ b, VirtPage b → lo ≤ b → b < hi → want b = none → s₀.pageMap pt b = none)
include h hnone

/-- The pages that have been added may be freed. -/
theorem Grown.owns (hs₀ : Allocator s₀) : Owns s pt {f | Foot s₀ pt f} lo hi := by
  intro b hb hle hlt pte hpte
  cases hw : want b with
  | none =>
    rw [h.old b hb fun _ _ => hw, hnone b hb hle hlt hw] at hpte
    exact absurd hpte (by simp)
  | some w =>
    obtain ⟨-, f, hf, -, htree, -⟩ := h.new b w.1 w.2 hb hle hlt hw
    rw [tree_leafPath, hpte, Option.map_some] at htree
    rw [Option.some.inj htree, h.within.kend]
    exact ⟨hs₀.frame f hf, .inl hf⟩

/-- Removing what has been added leads back. -/
theorem Grown.restored (hr : Removed pt {f | Foot s₀ pt f} lo hi s s') : Restored pt s₀ s' := by
  have hbefore (b : UInt64) (hb : VirtPage b) (hle : lo ≤ b) (hlt : b < hi) :
      s₀.pageMap pt b = none := by
    cases hw : want b with
    | none => exact hnone b hb hle hlt hw
    | some w => exact (h.new b w.1 w.2 hb hle hlt hw).1
  refine ⟨Stays.trans h.within hr.stays, fun b hb => ?_, fun p hp => ?_⟩
  · rw [hr.map b hb]
    by_cases hin : lo ≤ b ∧ b < hi
    · rw [if_pos hin, hbefore b hb hin.1 hin.2]
    · rw [if_neg hin, h.old b hb fun hle hlt => absurd ⟨hle, hlt⟩ hin]
  · by_cases hp' : ∃ b, VirtPage b ∧ lo ≤ b ∧ b < hi ∧ p = leafPath b
    · obtain ⟨b, hb, hle, hlt, rfl⟩ := hp'
      rw [tree_leafPath_eq_none.mpr (hbefore b hb hle hlt), tree_leafPath_eq_none, hr.map b hb,
        if_pos ⟨hle, hlt⟩]
    · rw [hr.tree p hp fun b hb hle hlt heq => hp' ⟨b, hb, hle, hlt, heq⟩,
        h.tree p hp fun b hb hle hlt _ heq => hp' ⟨b, hb, hle, hlt, heq⟩]

end Restored

/-- Where nothing was to be added, everything is as before. -/
theorem Grown.restored_of_empty (h : Grown pt want lo hi s₀ s)
    (hempty : ∀ b, VirtPage b → lo ≤ b → b < hi → want b = none) : Restored pt s₀ s :=
  ⟨h.within, fun b hb => h.old b hb (hempty b hb),
    fun p hp => h.tree p hp fun b hb hle hlt hw => absurd (hempty b hb hle hlt) hw⟩

/-- The pages that have been taken are free again, or they are pages of the page table. -/
theorem Restored.free_again (h : Restored pt s s') (hs : Space R s pt) (hs' : Space R s' pt)
    (hf : f ∈ s.freelist) : f ∈ s'.freelist ∨ Node child 3 s'.page pt f := by
  by_contra hn
  rw [not_or] at hn
  rcases (hs'.owned.used_iff f).mp hn.1 with hR | ⟨p, hp⟩
  · exact hs.notMem_of_free hf hR
  · by_cases hlen : p.length < 3
    · rw [tree_of_le hlen.le] at hp
      exact hn.2 ⟨p, hlen, hp⟩
    · have hlen' : p.length = 3 := by
        unfold Mem.tree at hp
        split_ifs at hp with hle
        omega
      rw [h.tree p hlen'] at hp
      exact hs.owned.used_of_loc hp hf

/-! ## `uvmalloc` -/

theorem pgroundup_eq (sz : UInt64) : pgroundup sz = pgrounddown (sz + 4095) := by
  have hsum : sz + PGSIZE - 1 = sz + 4095 := by
    simp only [PGSIZE]
    grind
  rw [pgroundup, pgrounddown, hsum]

theorem pgroundup_aligned (sz : UInt64) : pgroundup sz % PGSIZE = 0 := by
  rw [aligned_iff, pgroundup_eq, pgrounddown_toNat]
  omega

theorem pgroundup_of_aligned (ha : a % PGSIZE = 0) : pgroundup a = a := by
  have ha' := aligned_iff.mp ha
  have hlt := a.toNat_lt
  refine UInt64.toNat_inj.mp ?_
  rw [pgroundup_eq, pgrounddown_toNat, UInt64.toNat_add]
  change (a.toNat + 4095) % 2 ^ 64 / 4096 * 4096 = a.toNat
  omega

/-- A small number is the same as an `int`. -/
theorem toInt_of_lt (h : a.toNat < 2 ^ 31) : toInt a = a := by
  have hext : (toInt a).toBitVec = (a.toBitVec.setWidth 32).signExtend 64 := rfl
  refine UInt64.toBitVec_inj.mp ?_
  rw [hext, BitVec.signExtend_eq_setWidth_of_msb_false]
  · refine BitVec.eq_of_toNat_eq ?_
    simp
    omega
  · rw [BitVec.msb_eq_decide]
    simp
    omega

/-- `uvmdealloc` of the pages that `uvmalloc` has added. -/
theorem Grown.wp_uvmdealloc (h : Grown pt want lo a s₀ s) (hs₀ : Allocator s₀) (hs : Space R s pt)
    (hlo : lo % PGSIZE = 0) (ha : a % PGSIZE = 0) (hle : lo ≤ a) (hmax : a ≤ MAXVA ∨ a = lo)
    (hnone : ∀ b, VirtPage b → lo ≤ b → b < a → want b = none → s₀.pageMap pt b = none) :
    wp (uvmdealloc pt a lo) s (fun _ s' => Space R s' pt ∧ Restored pt s₀ s') E := by
  unfold uvmdealloc
  rw [wp_ite]
  refine ⟨fun hle' => ⟨hs, ?_⟩, fun hlt => ?_⟩
  · obtain rfl := UInt64.le_antisymm hle hle'
    exact h.restored_of_empty fun b _ hle hlt => absurd hlt (UInt64.not_lt.mpr hle)
  · have hlt' : lo < a := UInt64.not_le.mp hlt
    have hmax' : a ≤ MAXVA := by
      refine hmax.resolve_right ?_
      rintro rfl
      exact hlt hle
    have hamax : a.toNat ≤ 0x4000000000 := UInt64.le_iff_toNat_le.mp hmax'
    have hlo' := aligned_iff.mp hlo
    have ha' := aligned_iff.mp ha
    have hlt'' := UInt64.lt_iff_toNat_lt.mp hlt'
    have hdiff : ((a - lo) / PGSIZE).toNat = (a.toNat - lo.toNat) / 4096 := by
      rw [UInt64.toNat_div, UInt64.toNat_sub_of_le _ _ hle]
      rfl
    rw [pgroundup_of_aligned hlo, pgroundup_of_aligned ha, if_pos hlt', toInt_of_lt (by omega)]
    refine wp_call (hs.wp_uvmunmap hlo hmax' ?_ h.within.foot (h.owns hnone hs₀))
      fun _ s' hs' => ⟨hs'.1, h.restored hnone hs'.2⟩
    refine UInt64.toNat_inj.mp ?_
    rw [UInt64.toNat_add, UInt64.toNat_mul, hdiff]
    change (lo.toNat + (a.toNat - lo.toNat) / 4096 * 4096 % 2 ^ 64) % 2 ^ 64 = a.toNat
    omega

/-- `uvmalloc` adds pages of zeros. -/
def zeroed (xperm : UInt64) : UInt64 → Option (UInt64 × Page) :=
  fun _ => some (PTE_R ||| PTE_U ||| xperm, fun _ => 0)

theorem userPerm_lt {xperm : UInt64} (h : xperm < 1024) : PTE_R ||| PTE_U ||| xperm < 1024 := by
  have hlt : xperm.toNat < 2 ^ 10 := UInt64.lt_iff_toNat_lt.mp h
  refine UInt64.lt_iff_toNat_lt.mpr ?_
  rw [UInt64.toNat_or]
  exact Nat.or_lt_two_pow (by decide) hlt

/-- The pages from `lo` to `hi` can be mapped. -/
def Clear (s : Mem) (pt lo hi : UInt64) : Prop :=
  hi ≤ MAXVA ∧ ∀ b, VirtPage b → lo ≤ b → b < hi → s.pageMap pt b = none

/-- The loop of `uvmalloc`: it adds the pages up to `newsz`, or it goes back. -/
theorem Grown.wp_uvmallocLoop {newsz xperm : UInt64} (hs₀ : Allocator s₀) (hlo : lo % PGSIZE = 0)
    (hx : xperm < 1024) {fuel : ℕ} :
    ∀ {s : Mem} {a : UInt64}, Grown pt (zeroed xperm) lo a s₀ s → Space R s pt → a % PGSIZE = 0 →
      lo ≤ a → a ≤ MAXVA ∨ a = lo → a = lo ∨ a.toNat < newsz.toNat + 4096 →
      (0x4000000000 - a.toNat) / 4096 < fuel →
      wp (uvmallocLoop pt lo newsz xperm fuel a) s (fun r s' => Space R s' pt ∧
        (r = 0 ∧ Restored pt s₀ s' ∨ r = newsz ∧ Grown pt (zeroed xperm) lo newsz s₀ s'))
        fun _ => ¬ Clear s₀ pt lo newsz := by
  induction fuel with
  | zero => exact fun _ _ _ _ _ _ hfuel => absurd hfuel (Nat.not_lt_zero _)
  | succ fuel ih =>
    intro s a h hs ha hle hmax hnew hfuel
    have ha' := aligned_iff.mp ha
    have hlo' := aligned_iff.mp hlo
    -- Both ways back are the same.
    have hback (s' : Mem) (hs' : Space R s' pt) (hk : Kept pt s s') :
        wp (do let _ ← uvmdealloc pt a lo; pure 0) s' (fun r s' => Space R s' pt ∧
          (r = 0 ∧ Restored pt s₀ s' ∨ r = newsz ∧ Grown pt (zeroed xperm) lo newsz s₀ s'))
          fun _ => ¬ Clear s₀ pt lo newsz :=
      wp_call ((h.keep hk hs).wp_uvmdealloc hs₀ hs' hlo ha hle hmax
        fun _ _ _ _ hw => absurd hw (by simp [zeroed])) fun _ s'' hs'' =>
          ⟨hs''.1, .inl ⟨rfl, hs''.2⟩⟩
    unfold uvmallocLoop
    rw [wp_ite]
    refine ⟨fun hlt => ?_, fun hge => ⟨hs, .inr ⟨rfl, h.congr fun b hb hlb _ => ?_⟩⟩⟩
    · refine hs.wp_addPage (fun _ _ => 0) ha (userPerm_lt hx) (fun _ _ _ _ => rfl)
        (fun s' hs' hk _ => hback s' hs' hk) (fun s' hs' hk _ => hback s' hs' hk)
        (fun f s' hs' had hpage hnone => ?_) fun hbad p hclear => ?_
      · have hnext := toNat_next hpage.lt
        have hamax : a.toNat < 0x4000000000 := UInt64.lt_iff_toNat_lt.mp hpage.lt
        have hlt' := UInt64.lt_iff_toNat_lt.mp hlt
        refine ih (h.add hs hpage hle hnone rfl (userPerm_lt hx) had) hs'
          (aligned_next ha hpage.lt) ?_ (.inl ?_) (.inr ?_) ?_
        · have := UInt64.le_iff_toNat_le.mp hle
          refine UInt64.le_iff_toNat_le.mpr ?_
          omega
        · refine UInt64.le_iff_toNat_le.mpr ?_
          change _ ≤ 0x4000000000
          omega
        · omega
        · omega
      · have hva : a < MAXVA := UInt64.lt_of_lt_of_le hlt hclear.1
        refine hbad hva ?_
        rw [h.old a ⟨ha, hva⟩ fun _ hn => absurd hn (UInt64.lt_irrefl a)]
        exact hclear.2 a ⟨ha, hva⟩ hle hlt
    · have hb' := aligned_iff.mp hb.aligned
      have hge' := UInt64.le_iff_toNat_le.mp (UInt64.not_lt.mp hge)
      have hlb' := UInt64.le_iff_toNat_le.mp hlb
      rw [UInt64.lt_iff_toNat_lt, UInt64.lt_iff_toNat_lt]
      rcases hnew with rfl | hnew
      · omega
      · omega

/-- `uvmalloc` adds the pages, or the leaves are as before. -/
theorem Space.wp_uvmalloc {oldsz newsz xperm : UInt64} (hs : Space R s pt) (hx : xperm < 1024)
    (hle : oldsz ≤ newsz) :
    wp (uvmalloc pt oldsz newsz xperm) s (fun r s' => Space R s' pt ∧
      (r = 0 ∧ Restored pt s s' ∨
        r = newsz ∧ Grown pt (zeroed xperm) (pgroundup oldsz) newsz s s'))
      fun _ => ¬ Clear s pt (pgroundup oldsz) newsz := by
  unfold uvmalloc
  rw [if_neg (UInt64.not_lt.mpr hle)]
  refine Grown.wp_uvmallocLoop hs.alloc (pgroundup_aligned oldsz) hx (.start pt _ _ s) hs
    (pgroundup_aligned oldsz) (UInt64.le_refl _) (.inr rfl) (.inl rfl) ?_
  have : MAXPAGES = 67108865 := rfl
  omega

/-! ## `uvmcopy` -/

/-- `uvmcopy` adds copies of the pages of the parent. -/
def copied (s : Mem) (old : UInt64) : UInt64 → Option (UInt64 × Page) :=
  fun b => (s.pageMap old b).map fun pte => (pteFlags pte, s.page (pte2pa pte))

/-- The page table of the parent and its pages below `sz` belong to others than the child. -/
structure Apart (R : Set UInt64) (s : Mem) (old sz : UInt64) : Prop where
  nodes : ∀ f, Node child 3 s.page old f → f ∈ R
  frames : ∀ b pte, VirtPage b → b < sz → s.pageMap old b = some pte → pte2pa pte ∈ R

theorem pteFlags_lt (pte : UInt64) : pteFlags pte < 1024 := by
  refine UInt64.lt_iff_toNat_lt.mpr ?_
  rw [pteFlags, UInt64.toNat_and]
  exact Nat.and_lt_two_pow _ (by decide : (0x3ff : ℕ) < 2 ^ 10)

/-- A valid entry has its first bit. -/
theorem bit_valid {pte : UInt64} (hv : pte &&& PTE_V ≠ 0) : pte.toBitVec[0] = true := by
  by_contra h0
  refine hv (UInt64.toBitVec_inj.mp ?_)
  ext i hi
  by_cases hi0 : i = 0
  · subst hi0
    simpa [PTE_V] using h0
  · simp [PTE_V, hi0]

theorem flag_bit : ∀ i : Fin 64, (1023#64)[i] = decide (i.val < 10) := by decide

/-- The flags of the copy of a leaf are those of the leaf. -/
theorem pteFlags_leaf {pte : UInt64} (hv : pte &&& PTE_V ≠ 0) :
    pteFlags (pa2pte f ||| pteFlags pte ||| PTE_V) = pteFlags pte := by
  refine UInt64.toBitVec_inj.mp ?_
  ext i hi
  have hmask : (1023#64)[i] = decide (i < 10) := flag_bit ⟨i, hi⟩
  simp only [pteFlags, pa2pte, PTE_V, UInt64.toBitVec_and, UInt64.toBitVec_or,
    UInt64.toBitVec_shiftLeft]
  by_cases hi0 : i = 0
  · subst hi0
    simp [bit_valid hv]
  · by_cases hlt : i < 10
    · simp [hmask, hlt, hi0]
    · simp [hmask, hlt]

section Copy

variable {old new sz i : UInt64} (hs₀ : Space R s₀ new) (hap : Apart R s₀ old sz)
include hs₀ hap

/-- The page table of the parent stays as it is. -/
theorem Apart.agree (hw : Within new s₀ s) : Agree child 3 s₀.page old s.page :=
  fun f hf => hw.page f (hs₀.not_foot_of_mem (hap.nodes f hf))

/-- The pages of the parent stay as they are. -/
theorem Apart.page {pte : UInt64} (hw : Within new s₀ s) (hi : VirtPage i) (hlt : i < sz)
    (hmap : s₀.pageMap old i = some pte) : s.page (pte2pa pte) = s₀.page (pte2pa pte) :=
  hw.page _ (hs₀.not_foot_of_mem (hap.frames i pte hi hlt hmap))

/-- A page of the parent is copied, unless there is no memory. -/
theorem Grown.wp_copyPage (h : Grown new (copied s₀ old) 0 i s₀ s) (hs : Space R s new)
    (hi : VirtPage i) (hlt : i < sz) (hnone : s₀.pageMap new i = none) :
    wp (copyPage old new i) s (fun r s' => Space R s' new ∧
      Grown new (copied s₀ old) 0 (if r then i + PGSIZE else i) s₀ s') E := by
  have hagree := hap.agree hs₀ h.within
  have hmap := pageMap_agree hagree i
  have hskip (hw : s.pageMap old i = none) : Grown new (copied s₀ old) 0 (i + PGSIZE) s₀ s := by
    refine h.skip hi ?_
    rw [copied, ← hmap, hw, Option.map_none]
  simp only [copyPage, wp_bind]
  rw [wp_walk_false hi.lt]
  cases ht : descend child s.page old (path i) with
  | none => exact ⟨hs, hskip (pageMap_of_not_descend ht)⟩
  | some t =>
    simp only [Option.map_some, wp_bind, wp_get]
    rw [wp_ite]
    refine ⟨fun h0 => ⟨hs, hskip ?_⟩, fun hv => ?_⟩
    · rw [pageMap_of_descend ht, present_not_valid (fun hn => hn h0)]
    · have hpte : s₀.pageMap old i = some (s.page t (px 0 i)) := by
        rw [← hmap, pageMap_of_descend ht, present_valid hv]
      generalize s.page t (px 0 i) = pte at hpte
      have hR := hap.frames i pte hi hlt hpte
      have hpage := hap.page hs₀ h.within hi hlt hpte
      -- The page that is taken is not the one that is copied.
      have hfill (f : UInt64) (rest : List UInt64) (oom : ℕ → Bool)
          (hfree : s.freelist = f :: rest) :
          (s.taken f rest oom fun _ => 0x0505050505050505).page (pte2pa pte) =
            s₀.page (pte2pa pte) := by
        rw [← hpage, Mem.taken_page_of_ne]
        intro heq
        exact hs.notMem_of_free (by simp [hfree, heq]) hR
      have hback (s' : Mem) (hs' : Space R s' new) (hk : Kept new s s') :
          Space R s' new ∧
            Grown new (copied s₀ old) 0 (if false = true then i + PGSIZE else i) s₀ s' := by
        rw [if_neg (by simp)]
        exact ⟨hs', h.keep hk hs⟩
      refine hs.wp_addPage (fun s => s.page (pte2pa pte)) hi.aligned (pteFlags_lt pte) hfill
        (fun s' hs' hk _ => wp_pure.mpr (hback s' hs' hk))
        (fun s' hs' hk _ => wp_pure.mpr (hback s' hs' hk))
        (fun f s' hs' had _ hnone' => wp_pure.mpr ⟨hs', ?_⟩) fun hbad => absurd ?_ (hbad hi.lt)
      · rw [if_pos rfl]
        refine h.add hs hi (UInt64.le_iff_toNat_le.mpr (Nat.zero_le _)) hnone' ?_ (pteFlags_lt pte)
          had
        rw [copied, hpte, Option.map_some]
      · rw [h.old i hi fun _ hn => absurd hn (UInt64.lt_irrefl i), hnone]

/-- The loop of `uvmcopy`: it copies the pages below `sz`, or it goes back. -/
theorem Grown.wp_uvmcopyLoop (hsz : sz ≤ MAXVA)
    (hnone : ∀ b, VirtPage b → b < sz → s₀.pageMap new b = none) {fuel : ℕ} :
    ∀ {s : Mem} {i : UInt64}, Grown new (copied s₀ old) 0 i s₀ s → Space R s new →
      i % PGSIZE = 0 → i = 0 ∨ i.toNat < sz.toNat + 4096 → i ≤ MAXVA →
      (0x4000000000 - i.toNat) / 4096 < fuel →
      wp (uvmcopyLoop old new sz fuel i) s (fun r s' => Space R s' new ∧
        (r = false ∧ Restored new s₀ s' ∨
          r = true ∧ Grown new (copied s₀ old) 0 sz s₀ s')) E := by
  induction fuel with
  | zero => exact fun _ _ _ _ _ hfuel => absurd hfuel (Nat.not_lt_zero _)
  | succ fuel ih =>
    intro s i h hs hi hnear hmax hfuel
    have hi' := aligned_iff.mp hi
    unfold uvmcopyLoop
    rw [wp_ite]
    refine ⟨fun hlt => ?_, fun hge => ⟨hs, .inr ⟨rfl, h.congr fun b hb _ _ => ?_⟩⟩⟩
    · have hpage : VirtPage i := ⟨hi, UInt64.lt_of_lt_of_le hlt hsz⟩
      have hlt' := UInt64.lt_iff_toNat_lt.mp hlt
      have hsz' : sz.toNat ≤ 0x4000000000 := UInt64.le_iff_toNat_le.mp hsz
      have hnext := toNat_next hpage.lt
      refine wp_call (h.wp_copyPage hs₀ hap hs hpage hlt (hnone i hpage hlt)) fun r s' hs' => ?_
      obtain ⟨hs', h'⟩ := hs'
      rw [wp_ite]
      refine ⟨fun hr => ?_, fun hr => ?_⟩
      · rw [if_pos hr] at h'
        refine ih h' hs' (aligned_next hi hpage.lt) (.inr ?_) ?_ ?_
        · omega
        · refine UInt64.le_iff_toNat_le.mpr ?_
          change _ ≤ 0x4000000000
          omega
        · omega
      · rw [if_neg hr] at h'
        have hnone' (b : UInt64) (hb : VirtPage b) (_ : 0 ≤ b) (hbi : b < i)
            (_ : copied s₀ old b = none) : s₀.pageMap new b = none :=
          hnone b hb (UInt64.lt_trans hbi hlt)
        refine wp_call (hs'.wp_uvmunmap rfl hmax ?_ h'.within.foot (h'.owns hnone' hs₀.alloc))
          fun _ s'' hs'' => ⟨hs''.1, .inl ⟨rfl, h'.restored hnone' hs''.2⟩⟩
        refine UInt64.toNat_inj.mp ?_
        rw [UInt64.zero_add, UInt64.toNat_mul, UInt64.toNat_div]
        change i.toNat / 4096 * 4096 % 2 ^ 64 = i.toNat
        omega
    · have hb' := aligned_iff.mp hb.aligned
      have hge' := UInt64.le_iff_toNat_le.mp (UInt64.not_lt.mp hge)
      rw [UInt64.lt_iff_toNat_lt, UInt64.lt_iff_toNat_lt]
      rcases hnear with rfl | hnear
      · change b.toNat < 0 ↔ _
        change sz.toNat ≤ 0 at hge'
        omega
      · omega

/-- `uvmcopy` copies the pages of the parent, or the child has the leaves that it had. -/
theorem Space.wp_uvmcopy (hsz : sz ≤ MAXVA)
    (hnone : ∀ b, VirtPage b → b < sz → s₀.pageMap new b = none) :
    wp (uvmcopy old new sz) s₀ (fun r s' => Space R s' new ∧
      (r = false ∧ Restored new s₀ s' ∨
        r = true ∧ Grown new (copied s₀ old) 0 sz s₀ s')) E := by
  refine Grown.wp_uvmcopyLoop hs₀ hap hsz hnone (.start new _ 0 s₀) hs₀ rfl (.inl rfl)
    (by decide) ?_
  have : MAXPAGES = 67108865 := rfl
  omega

end Copy

/-! ## The roll-back -/

/-- The leaf of a page is as before, and so are its contents. -/
def SameLeaf (pt b : UInt64) (s s' : Mem) : Prop :=
  s'.pageMap pt b = s.pageMap pt b ∧
    ∀ pte, s.pageMap pt b = some pte → s'.page (pte2pa pte) = s.page (pte2pa pte)

/-- The pages that have been taken are free again, but for those of the page table. -/
def FreeAgain (pt : UInt64) (s s' : Mem) : Prop :=
  ∀ f ∈ s.freelist, f ∈ s'.freelist ∨ Node child 3 s'.page pt f

/-- The pages that `uvmalloc` adds. -/
def NewPage (oldsz newsz b : UInt64) : Prop := oldsz ≤ newsz ∧ pgroundup oldsz ≤ b ∧ b < newsz

theorem Within.sameLeaf {b : UInt64} (hw : Within pt s s') (hs : Space R s pt)
    (hmap : s'.pageMap pt b = s.pageMap pt b) : SameLeaf pt b s s' :=
  ⟨hmap, fun _ hpte => hw.page _ (hs.not_foot hpte)⟩

/-- A leaf that is valid. -/
theorem valid_of_pageMap {pte : UInt64} (h : s.pageMap pt a = some pte) : pte &&& PTE_V ≠ 0 := by
  cases ht : descend child s.page pt (path a) with
  | none => simp [pageMap_of_not_descend ht] at h
  | some t =>
    rw [pageMap_of_descend ht] at h
    by_cases hv : s.page t (px 0 a) &&& PTE_V ≠ 0
    · rw [present_valid hv] at h
      exact Option.some.inj h ▸ hv
    · rw [present_not_valid hv] at h
      exact absurd h (by simp)

/-- `uvmalloc` that returns 0 has changed no leaf, no contents of a page of the user, and the pages
that it took for the user are free again. Otherwise it has added the pages from `PGROUNDUP(oldsz)`
to `newsz`, with zeros, and nothing else. It returns if these pages can be mapped. `uvmcopy` always
returns. If it fails then the child has no leaf below `sz`, and the pages that it took for the user
are free again. Otherwise the child has a copy of each page of the parent below `sz`, with the same
flags, and in a page that the parent does not map. The page table of the parent stays as it is. -/
theorem growth_rolls_back (h : Space R s pt) :
    (∀ oldsz newsz xperm, xperm < 1024 →
      (∀ r s', uvmalloc pt oldsz newsz xperm s = .ok (r, s') →
        (r = 0 → (∀ b, VirtPage b → SameLeaf pt b s s') ∧ FreeAgain pt s s') ∧
        (r ≠ 0 → ∀ b, VirtPage b →
          (NewPage oldsz newsz b → s.pageMap pt b = none ∧ ∃ f ∈ s.freelist,
            s'.pageMap pt b = some (pa2pte f ||| (PTE_R ||| PTE_U ||| xperm) ||| PTE_V) ∧
            s'.page f = fun _ => 0) ∧
          (¬ NewPage oldsz newsz b → SameLeaf pt b s s'))) ∧
      (Clear s pt (pgroundup oldsz) newsz →
        ∃ r s', uvmalloc pt oldsz newsz xperm s = .ok (r, s'))) ∧
    ∀ R' old sz, Space R' s old → Apart R s old sz → sz ≤ TRAPFRAME →
      (∀ b, VirtPage b → b < sz → s.pageMap pt b = none) →
      ∃ r s', uvmcopy old pt sz s = .ok (r, s') ∧
        (∀ f, Node child 3 s.page old f → s'.page f = s.page f) ∧
        (r = false → (∀ b, VirtPage b → b < sz → s'.pageMap pt b = none) ∧ FreeAgain pt s s') ∧
        (r = true → ∀ b, VirtPage b → b < sz →
          (s.pageMap old b = none → s'.pageMap pt b = none) ∧
          ∀ pte, s.pageMap old b = some pte → ∃ pte', s'.pageMap pt b = some pte' ∧
            pteFlags pte' = pteFlags pte ∧ s'.page (pte2pa pte') = s.page (pte2pa pte) ∧
            ∀ c pte'', VirtPage c → s.pageMap old c = some pte'' → pte2pa pte'' ≠ pte2pa pte') := by
  have hrestored {s' : Mem} (hs' : Space R s' pt) (hr : Restored pt s s') :
      (∀ b, VirtPage b → SameLeaf pt b s s') ∧ FreeAgain pt s s' :=
    ⟨fun b hb => hr.within.sameLeaf h (hr.map b hb), fun f hf => hr.free_again h hs' hf⟩
  refine ⟨fun oldsz newsz xperm hx => ?_, fun R' old sz hold hap hsz hnone => ?_⟩
  · by_cases hle : oldsz ≤ newsz
    · have hwp : wp (uvmalloc pt oldsz newsz xperm) s _ _ := h.wp_uvmalloc hx hle
      refine ⟨fun r s' hok => ?_, fun hclear => ?_⟩
      · obtain ⟨hs', ⟨rfl, hr⟩ | ⟨rfl, hg⟩⟩ := hwp.of_ok hok
        · exact ⟨fun _ => hrestored hs' hr, fun h0 => absurd rfl h0⟩
        · refine ⟨?_, fun _ b hb => ⟨fun hnew => ?_, fun hnew => ?_⟩⟩
          · rintro rfl
            refine hrestored hs' (hg.restored_of_empty fun b _ _ hlt => ?_)
            exact absurd hlt (UInt64.not_lt.mpr (UInt64.le_iff_toNat_le.mpr (Nat.zero_le _)))
          · obtain ⟨hn, f, hf, hmap, -, hpage⟩ := hg.new b _ _ hb hnew.2.1 hnew.2.2 rfl
            exact ⟨hn, f, hf, hmap, hpage⟩
          · exact hg.within.sameLeaf h
              (hg.old b hb fun hlo hlt => absurd ⟨hle, hlo, hlt⟩ hnew)
      · cases hrun : uvmalloc pt oldsz newsz xperm s with
        | ok r => exact ⟨r.1, r.2, rfl⟩
        | error p => exact absurd hclear (hwp.of_error hrun)
    · have hrun : uvmalloc pt oldsz newsz xperm s = .ok (oldsz, s) := by
        rw [uvmalloc, if_pos (UInt64.not_le.mp hle)]
        rfl
      refine ⟨fun r s' hok => ?_, fun _ => ⟨oldsz, s, hrun⟩⟩
      obtain ⟨rfl, rfl⟩ := Prod.mk.inj (Except.ok.inj (hrun.symm.trans hok))
      refine ⟨?_, fun _ b hb => ⟨fun hnew => absurd hnew.1 hle, fun _ => ⟨rfl, fun _ _ => rfl⟩⟩⟩
      rintro rfl
      exact absurd (UInt64.le_iff_toNat_le.mpr (Nat.zero_le _)) hle
  · have hsz' : sz ≤ MAXVA := UInt64.le_trans hsz (by decide)
    obtain ⟨r, s', hok, hs', hres⟩ := (h.wp_uvmcopy hap hsz' hnone).exists_ok
    have hwithin : Within pt s s' := by
      rcases hres with ⟨-, hr⟩ | ⟨-, hg⟩
      · exact hr.within
      · exact hg.within
    refine ⟨r, s', hok, hap.agree h hwithin, ?_, ?_⟩
    · rintro rfl
      rcases hres with ⟨-, hr⟩ | ⟨hfalse, -⟩
      · refine ⟨fun b hb hlt => ?_, (hrestored hs' hr).2⟩
        rw [hr.map b hb, hnone b hb hlt]
      · exact absurd hfalse (by simp)
    · rintro rfl b hb hlt
      rcases hres with ⟨hfalse, -⟩ | ⟨-, hg⟩
      · exact absurd hfalse (by simp)
      · have h0 : 0 ≤ b := UInt64.le_iff_toNat_le.mpr (Nat.zero_le _)
        refine ⟨fun hmap => ?_, fun pte hmap => ?_⟩
        · rw [hg.old b hb fun _ _ => by rw [copied, hmap, Option.map_none], hnone b hb hlt]
        · obtain ⟨-, f, hf, hmap', htree, hpage⟩ :=
            hg.new b _ _ hb h0 hlt (by rw [copied, hmap, Option.map_some])
          rw [tree_leafPath, hmap', Option.map_some] at htree
          have hpa := Option.some.inj htree
          refine ⟨_, hmap', pteFlags_leaf (valid_of_pageMap hmap), by rw [hpa, hpage],
            fun c pte'' _ hc heq => ?_⟩
          rw [hpa] at heq
          exact hold.not_foot hc (.inl (heq ▸ hf))

/-- A memory as `blankMem`, with three more free pages. -/
def roomyMem : Mem :=
  { blankMem with freelist := blankMem.freelist ++ [0x80007000, 0x80008000, 0x80009000] }

/-- The free pages of the memory. -/
theorem roomyMem_allocator : Allocator roomyMem := by
  refine ⟨by decide, fun f hf => ?_, by decide⟩
  simp only [roomyMem, blankMem, List.cons_append, List.nil_append, List.mem_cons,
    List.not_mem_nil, or_false] at hf
  rcases hf with rfl | rfl | rfl | rfl | rfl | rfl | rfl
  all_goals exact ⟨by decide, by decide, by decide⟩

/-- A process gets one page, in a memory of zeros. Where the copy to a page table that is not free
has been computed, it is one to which the law applies. -/
theorem exists_copy {m : Mem} (ok : Bool) (halloc : Allocator m) (hzero : ∀ f i, m.page f i = 0)
    (hpt : (0x80001000 : UInt64) ∉ m.freelist) (hnew : (0x80006000 : UInt64) ∉ m.freelist)
    (hrun : (uvmalloc 0x80001000 0 4096 PTE_W m).toOption.any (fun r => decide (r.1 = 4096 ∧
      r.2.pageMap 0x80001000 0 ≠ none ∧ ((uvmcopy 0x80001000 0x80006000 4096 r.2).toOption.any
        fun r' => decide (r'.1 = ok)))) = true) :
    ∃ s₁ s₂ R R', uvmalloc 0x80001000 0 4096 PTE_W m = .ok (4096, s₁) ∧
      s₁.pageMap 0x80001000 0 ≠ none ∧ uvmcopy 0x80001000 0x80006000 4096 s₁ = .ok (ok, s₂) ∧
      Space R s₁ 0x80006000 ∧ Space R' s₁ 0x80001000 ∧ Apart R s₁ 0x80001000 4096 ∧
      ∀ b, s₁.pageMap 0x80006000 b = none := by
  obtain ⟨⟨r₁, s₁⟩, hok, rfl, hmap, hr₂⟩ := exists_ok _ hrun
  obtain ⟨⟨r₂, s₂⟩, hok₂, rfl⟩ := exists_ok _ hr₂
  have hspace : Space _ m 0x80001000 := halloc.space_of_empty hpt fun _ => by simp [hzero, child]
  have hroot : (0x80006000 : UInt64) ∈ {f : UInt64 | f ∉ m.freelist ∧ f ≠ (0x80001000 : UInt64)} :=
    ⟨hnew, by decide⟩
  obtain ⟨hparent, hwithin⟩ : Space {f | f ∉ m.freelist ∧ f ≠ 0x80001000} s₁ 0x80001000 ∧
      Within 0x80001000 m s₁ := by
    obtain ⟨hs, ⟨-, hr⟩ | ⟨-, hg⟩⟩ := (hspace.wp_uvmalloc (by decide) (by decide)).of_ok hok
    · exact ⟨hs, hr.within⟩
    · exact ⟨hs, hg.within⟩
  -- The page of the child has not been touched, and it is not one of the parent.
  have hempty (i : Index) : child (s₁.page 0x80006000 i) = none := by
    rw [hwithin.page 0x80006000 (hspace.not_foot_of_mem hroot)]
    simp [hzero, child]
  have hfree : (0x80006000 : UInt64) ∉ s₁.freelist := fun hn => hparent.notMem_of_free hn hroot
  refine ⟨s₁, s₂, _, _, hok, hmap, hok₂, hparent.alloc.space_of_empty hfree hempty,
    hparent, ?_, fun b => by simp [Mem.pageMap, lookup, path, descend, hempty]⟩
  refine ⟨fun f hf => ⟨fun hn => hparent.table.free f hn hf, ?_⟩, fun b pte _ _ hmap' =>
    ⟨fun hn => hparent.not_foot hmap' (.inl hn), ?_⟩⟩
  · rintro rfl
    exact hparent.not_foot_of_mem hroot (.inr hf)
  · intro heq
    refine hparent.owned.notBase (leafPath b) _ ?_ hroot
    rw [tree_leafPath, hmap', Option.map_some, heq]

/-- A process gets one page, and takes three free pages for it. With four more free pages, the copy
of the process has a page of its own with the same contents. With one more, it fails after it has
taken this one for the user, which is free again. -/
theorem growth_rolls_back_blankMem :
    (∃ s₁ s₂ pte pte', uvmalloc 0x80001000 0 4096 PTE_W roomyMem = .ok (4096, s₁) ∧
      uvmcopy 0x80001000 0x80006000 4096 s₁ = .ok (true, s₂) ∧
      s₁.pageMap 0x80001000 0 = some pte ∧ s₂.pageMap 0x80006000 0 = some pte' ∧
      s₂.page (pte2pa pte') = s₁.page (pte2pa pte) ∧ pte2pa pte ≠ pte2pa pte') ∧
    ∃ s₁ s₂, uvmalloc 0x80001000 0 4096 PTE_W blankMem = .ok (4096, s₁) ∧
      s₁.pageMap 0x80001000 0 ≠ none ∧
      uvmcopy 0x80001000 0x80006000 4096 s₁ = .ok (false, s₂) ∧
      s₂.pageMap 0x80006000 0 = none ∧ FreeAgain 0x80006000 s₁ s₂ := by
  have h0 : VirtPage 0 := ⟨by decide, by decide⟩
  constructor
  · obtain ⟨s₁, s₂, R, R', hok, hmap, hcopy, hchild, hparent, hap, hnone⟩ :=
      exists_copy true roomyMem_allocator (fun _ _ => rfl) (by decide) (by decide)
        (by decide +kernel)
    obtain ⟨r, s, hok', -, -, hres⟩ := (growth_rolls_back hchild).2 R' 0x80001000 4096 hparent hap
      (by decide) fun b _ _ => hnone b
    obtain ⟨rfl, rfl⟩ := Prod.mk.inj (Except.ok.inj (hok'.symm.trans hcopy))
    obtain ⟨pte, hpte⟩ := Option.ne_none_iff_exists'.mp hmap
    obtain ⟨pte', hpte', -, hpage, hother⟩ := (hres rfl 0 h0 (by decide)).2 pte hpte
    exact ⟨s₁, s, pte, pte', hok, hcopy, hpte, hpte', hpage, hother 0 pte h0 hpte⟩
  · obtain ⟨s₁, s₂, R, R', hok, hmap, hcopy, hchild, hparent, hap, hnone⟩ :=
      exists_copy false blankMem_table.alloc (fun _ _ => rfl) (by decide) (by decide)
        (by decide +kernel)
    obtain ⟨r, s, hok', -, hres, -⟩ := (growth_rolls_back hchild).2 R' 0x80001000 4096 hparent hap
      (by decide) fun b _ _ => hnone b
    obtain ⟨rfl, rfl⟩ := Prod.mk.inj (Except.ok.inj (hok'.symm.trans hcopy))
    exact ⟨s₁, s, hok, hmap, hcopy, (hres rfl).1 0 h0 (by decide), (hres rfl).2⟩

end SustainableXv6.Vm
