import SustainableXv6.Vm.Space

/-!
# Copies between the kernel and the user

`copyout` and `copyin` of `kernel/vm.c` go through the user memory page by page, and a page below
the size of the process that is not mapped is added on the way. `Mem.view` is the user memory as one
array of bytes in which such a page reads as zeros. So what each of them does to a range is said
without pages (`Access`), and the parts of a range add up.
-/

namespace SustainableXv6.Vm

open Function Lib Radix

/-! ## Bytes -/

/-- The byte `i` of a page. -/
def pageByte (pg : Page) (i : ℕ) : UInt8 :=
  UInt8.ofNat ((pg ⟨i / 8 % 512, Nat.mod_lt _ (Nat.zero_lt_succ 511)⟩).toNat / 256 ^ (i % 8))

/-- The number with the bytes `g 0`, `g 1`, ... -/
def packed : ℕ → (ℕ → UInt8) → ℕ
  | 0, _ => 0
  | n + 1, g => (g 0).toNat + 256 * packed n fun j => g (j + 1)

/-- The page with the bytes `g`. -/
def pageOf (g : ℕ → UInt8) : Page := fun i => UInt64.ofNat (packed 8 fun j => g (8 * i.val + j))

theorem packed_lt (n : ℕ) (g : ℕ → UInt8) : packed n g < 256 ^ n := by
  induction n generalizing g with
  | zero => exact Nat.one_pos
  | succ n ih =>
    have h0 := (g 0).toNat_lt
    have hrest := ih fun j => g (j + 1)
    rw [packed, Nat.pow_succ]
    omega

theorem packed_byte {n j : ℕ} (hj : j < n) (g : ℕ → UInt8) :
    packed n g / 256 ^ j % 256 = (g j).toNat := by
  induction j generalizing n g with
  | zero =>
    obtain ⟨n, rfl⟩ := Nat.exists_eq_add_of_lt hj
    have h0 := (g 0).toNat_lt
    rw [Nat.zero_add, packed, Nat.pow_zero, Nat.div_one]
    omega
  | succ j ih =>
    obtain ⟨n, rfl⟩ := Nat.exists_eq_add_one_of_ne_zero (Nat.ne_of_gt (Nat.zero_lt_of_lt hj))
    have h0 := (g 0).toNat_lt
    have hdiv : packed (n + 1) g / 256 = packed n fun i => g (i + 1) := by
      rw [packed]
      omega
    rw [Nat.pow_succ', ← Nat.div_div_eq_div_mul, hdiv, ih (Nat.lt_of_succ_lt_succ hj)]

/-- A page is read byte by byte as it was written. -/
theorem pageByte_pageOf (g : ℕ → UInt8) {i : ℕ} (hi : i < 4096) : pageByte (pageOf g) i = g i := by
  have hword : i / 8 % 512 = i / 8 := Nat.mod_eq_of_lt (by omega)
  have hlt := packed_lt 8 fun j => g (8 * (i / 8) + j)
  refine UInt8.toNat_inj.mp ?_
  simp only [pageByte, pageOf, hword]
  rw [UInt8.toNat_ofNat', UInt64.toNat_ofNat_of_lt' hlt, packed_byte (Nat.mod_lt i (by decide)),
    Nat.div_add_mod]

/-- The bytes of a page from `off` on. -/
def Mem.bytes (s : Mem) (pa off n : UInt64) : List UInt8 :=
  (List.range n.toNat).map fun i => pageByte (s.page pa) (off.toNat + i)

/-- `memmove` to a page. -/
def Mem.move (s : Mem) (pa off n : UInt64) (src : ℕ → UInt8) : Mem :=
  s.setPage pa (pageOf fun i =>
    if off.toNat ≤ i ∧ i < off.toNat + n.toNat then src (i - off.toNat)
    else pageByte (s.page pa) i)

theorem Mem.move_page (s : Mem) (pa off n : UInt64) (src : ℕ → UInt8) :
    (s.move pa off n src).page pa = pageOf fun i =>
      if off.toNat ≤ i ∧ i < off.toNat + n.toNat then src (i - off.toNat)
      else pageByte (s.page pa) i := update_self ..

/-! ## The programs -/

/-- The physical page of a page of the user, which is added if it has not been touched yet. -/
def userAddr (own sz pagetable va0 : UInt64) : VmM UInt64 := do
  let pa0 ← walkaddr pagetable va0
  if pa0 = 0 then vmfault own sz pagetable va0 else pure pa0

/-- The part of a copy of `len` bytes that is in one page. -/
def chunk (off len : UInt64) : UInt64 := if len < PGSIZE - off then len else PGSIZE - off

/-- The loop of `copyout`: whether it returns 0. -/
def copyoutLoop (own sz pagetable : UInt64) : ℕ → UInt64 → (ℕ → UInt8) → UInt64 → VmM Bool
  | 0, _, _, _ => throw .walk
  | fuel + 1, dstva, src, len =>
    if 0 < len then do
      let va0 := pgrounddown dstva
      if MAXVA ≤ va0 then pure false
      else do
        let pa0 ← userAddr own sz pagetable va0
        if pa0 = 0 then pure false
        else do
          match ← walk pagetable va0 false with
          | none => throw .kerneltrap
          | some (t, k) => do
            let s ← get
            if s.page t k &&& PTE_W = 0 then pure false
            else do
              let n := chunk (dstva - va0) len
              modify fun s => s.move pa0 (dstva - va0) n src
              copyoutLoop own sz pagetable fuel (va0 + PGSIZE) (fun i => src (n.toNat + i))
                (len - n)
    else pure true

/-- `copyout`, of the process with the page table `own` and the size `sz`: whether it returns 0. -/
def copyout (own sz pagetable dstva : UInt64) (src : ℕ → UInt8) (len : UInt64) : VmM Bool :=
  copyoutLoop own sz pagetable MAXPAGES dstva src len

/-- The loop of `copyin`: whether it returns 0, and the bytes that it has stored. -/
def copyinLoop (own sz pagetable : UInt64) : ℕ → UInt64 → UInt64 → VmM (Bool × List UInt8)
  | 0, _, _ => throw .walk
  | fuel + 1, srcva, len =>
    if 0 < len then do
      let va0 := pgrounddown srcva
      let pa0 ← userAddr own sz pagetable va0
      if pa0 = 0 then pure (false, [])
      else do
        let n := chunk (srcva - va0) len
        let s ← get
        let (ok, rest) ← copyinLoop own sz pagetable fuel (va0 + PGSIZE) (len - n)
        pure (ok, s.bytes pa0 (srcva - va0) n ++ rest)
    else pure (true, [])

/-- `copyin`: whether it returns 0, and the bytes that it has stored. -/
def copyin (own sz pagetable srcva len : UInt64) : VmM (Bool × List UInt8) :=
  copyinLoop own sz pagetable MAXPAGES srcva len

/-! ## The user memory -/

variable {s s' s'' : Mem} {pt sz a b va f : UInt64} {R : Set UInt64} {v x n k : ℕ}
  {E : Panic → Prop}

/-- The leaf of an address. -/
def Mem.leafAt (s : Mem) (pt : UInt64) (v : ℕ) : Option UInt64 :=
  if v < MAXVA.toNat then s.pageMap pt (UInt64.ofNat v) else none

/-- The byte at an address of the user memory. A page that has not been touched reads as zeros. -/
def Mem.view (s : Mem) (pt : UInt64) (v : ℕ) : UInt8 :=
  ((s.leafAt pt v).map fun pte => pageByte (s.page (pte2pa pte)) (v % 4096)).getD 0

/-- A virtual page ends at `MAXVA` at the latest. -/
theorem VirtPage.end_le (hb : VirtPage b) : b.toNat + 4096 ≤ MAXVA.toNat := by
  have hb' := aligned_iff.mp hb.aligned
  have hlt : b.toNat < 0x4000000000 := UInt64.lt_iff_toNat_lt.mp hb.lt
  change _ ≤ 0x4000000000
  omega

/-- The addresses of a page. -/
def InPage (b : UInt64) (v : ℕ) : Prop := b.toNat ≤ v ∧ v < b.toNat + 4096

/-- The page of an address. -/
theorem exists_inPage (hv : v < MAXVA.toNat) :
    VirtPage (pgrounddown (UInt64.ofNat v)) ∧ InPage (pgrounddown (UInt64.ofNat v)) v := by
  have hlt : v < 0x4000000000 := hv
  have hnat : (UInt64.ofNat v).toNat = v := UInt64.toNat_ofNat_of_lt' (lt_trans hlt (by decide))
  refine ⟨virtPage_pgrounddown (UInt64.lt_iff_toNat_lt.mpr (by rwa [hnat])), ?_⟩
  rw [InPage, pgrounddown_toNat, hnat]
  omega

theorem InPage.offset (hb : VirtPage b) (hv : InPage b v) : v % 4096 = v - b.toNat := by
  have hb' := aligned_iff.mp hb.aligned
  have hle := hv.1
  have hlt := hv.2
  omega

theorem InPage.leafAt (hb : VirtPage b) (hv : InPage b v) : s.leafAt pt v = s.pageMap pt b := by
  have hend := hb.end_le
  have hb' := aligned_iff.mp hb.aligned
  have hlt : v < MAXVA.toNat := lt_of_lt_of_le hv.2 hend
  have hnat : (UInt64.ofNat v).toNat = v := UInt64.toNat_ofNat_of_lt' (lt_trans hlt (by decide))
  have hpage : pgrounddown (UInt64.ofNat v) = b := by
    refine UInt64.toNat_inj.mp ?_
    have hle := hv.1
    have hlt := hv.2
    rw [pgrounddown_toNat, hnat]
    omega
  rw [Mem.leafAt, if_pos hlt, ← pageMap_pgrounddown, hpage]

/-- The byte at an address of a page that is mapped. -/
theorem InPage.view {pte : UInt64} (hb : VirtPage b) (hv : InPage b v)
    (hmap : s.pageMap pt b = some pte) :
    s.view pt v = pageByte (s.page (pte2pa pte)) (v - b.toNat) := by
  rw [Mem.view, hv.leafAt hb, hmap, Option.map_some, Option.getD_some, hv.offset hb]

theorem InPage.view_of_none (hb : VirtPage b) (hv : InPage b v) (hmap : s.pageMap pt b = none) :
    s.view pt v = 0 := by
  rw [Mem.view, hv.leafAt hb, hmap, Option.map_none, Option.getD_none]

/-- Different leaves have different pages. -/
theorem Space.leaf_injective {pte pte' : UInt64} (h : Space R s pt) (ha : VirtPage a)
    (hb : VirtPage b) (hmap : s.pageMap pt a = some pte) (hmap' : s.pageMap pt b = some pte')
    (heq : pte2pa pte = pte2pa pte') : a = b := by
  refine leafPath_injective ha hb (h.owned.inj _ _ (pte2pa pte) ?_ ?_)
  · rw [tree_leafPath, hmap, Option.map_some]
  · rw [tree_leafPath, hmap', Option.map_some, heq]

/-- The pages that the user may access are pages of the allocator. -/
def UserFrames (s : Mem) (pt : UInt64) : Prop :=
  ∀ b pte, VirtPage b → s.pageMap pt b = some pte → pte &&& PTE_U ≠ 0 → Frame s.kend (pte2pa pte)

/-! ## The page of an address -/

/-- The flags of a page that `vmfault` adds. -/
def lazyPerm : UInt64 := PTE_W ||| PTE_U ||| PTE_R

/-- What `userAddr` has found. -/
inductive Found (pt sz va0 : UInt64) (s : Mem) (r : UInt64) (s' : Mem) : Prop
  /-- The page is mapped. -/
  | mapped {pte : UInt64} (page : VirtPage va0) (map : s.pageMap pt va0 = some pte)
      (user : pte &&& PTE_U ≠ 0) (addr : r = pte2pa pte) (ne : r ≠ 0) (eq : s' = s)
  /-- The page is not one of the user. -/
  | refused (zero : r = 0) (eq : s' = s) (user : VirtPage va0 → ∀ pte,
      s.pageMap pt va0 = some pte → pte &&& PTE_U = 0)
      (size : s.pageMap pt va0 = none → sz ≤ va0)
  /-- There is no memory for the page. -/
  | short (page : VirtPage va0) (map : s.pageMap pt va0 = none) (lt : va0 < sz) (zero : r = 0)
      (kept : Kept pt s s') (supply : ¬ Supply s pt (places va0))
  /-- The page has been added. -/
  | added (page : VirtPage va0) (map : s.pageMap pt va0 = none) (lt : va0 < sz) (ne : r ≠ 0)
      (add : Added pt va0 lazyPerm (fun _ => 0) r s s')

/-- `ismapped` of a virtual page. -/
theorem wp_ismapped (ha : a < MAXVA) {Q : Bool → Mem → Prop}
    (hQ : Q (s.pageMap pt a).isSome s) : wp (ismapped pt a) s Q E := by
  simp only [ismapped, wp_bind]
  rw [wp_walk_false ha]
  cases ht : descend child s.page pt (path a) with
  | none =>
    rw [pageMap_of_not_descend ht] at hQ
    exact hQ
  | some t =>
    simp only [Option.map_some, wp_bind, wp_get, wp_pure]
    rw [pageMap_of_descend ht] at hQ
    by_cases hv : s.page t (px 0 a) &&& PTE_V ≠ 0
    · rw [present_valid hv] at hQ
      rw [bne_iff_ne.mpr hv]
      exact hQ
    · rw [present_not_valid hv] at hQ
      rw [not_not] at hv
      rw [hv]
      exact hQ

theorem wp_walkaddr {Q : UInt64 → Mem → Prop} : wp (walkaddr pt va) s Q E ↔
    Q (if va < MAXVA then userPage (s.pageMap pt (pgrounddown va)) else 0) s := by
  rw [wp, walkaddr_eq]

theorem pgrounddown_of_aligned (ha : a % PGSIZE = 0) : pgrounddown a = a := by
  have ha' := aligned_iff.mp ha
  refine UInt64.toNat_inj.mp ?_
  rw [pgrounddown_toNat]
  omega

section Fault

variable (h : Space R s pt) (hsz : sz ≤ TRAPFRAME) (ha : a % PGSIZE = 0)
include h hsz ha

/-- `vmfault` of the own page table. -/
theorem Space.wp_vmfault : wp (vmfault pt sz pt a) s (fun r s' => Space R s' pt ∧
    (r = 0 ∧ s' = s ∧ (s.pageMap pt a = none → sz ≤ a) ∨
      VirtPage a ∧ s.pageMap pt a = none ∧ a < sz ∧
        (r = 0 ∧ Kept pt s s' ∧ ¬ Supply s pt (places a) ∨
          r ≠ 0 ∧ Added pt a lazyPerm (fun _ => 0) r s s'))) E := by
  have hround := pgrounddown_of_aligned ha
  unfold vmfault
  rw [wp_ite]
  refine ⟨fun hle => ⟨h, .inl ⟨rfl, rfl, fun _ => hle⟩⟩, fun hlt => ?_⟩
  rw [UInt64.not_le] at hlt
  have hva : a < MAXVA := UInt64.lt_of_lt_of_le hlt (UInt64.le_trans hsz (by decide))
  have hpage : VirtPage a := ⟨ha, hva⟩
  simp only [hround, wp_bind]
  refine wp_ismapped hva ?_
  rw [wp_ite]
  refine ⟨fun hsome => ⟨h, .inl ⟨rfl, rfl, fun hnone => ?_⟩⟩, fun hnone => ?_⟩
  · rw [hnone] at hsome
    exact absurd hsome (by simp)
  · have hmap : s.pageMap pt a = none := by simpa using hnone
    refine h.wp_addPage (fun _ _ => 0) ha (by decide) (fun _ _ _ _ => rfl)
      (fun s' hs' hk hsup => ⟨hs', .inr ⟨hpage, hmap, hlt, .inl ⟨rfl, hk, hsup hmap⟩⟩⟩)
      (fun s' hs' hk hsup => ⟨hs', .inr ⟨hpage, hmap, hlt, .inl ⟨rfl, hk, hsup hmap⟩⟩⟩)
      (fun f s' hs' had _ _ => ⟨hs', .inr ⟨hpage, hmap, hlt, .inr ⟨?_, had⟩⟩⟩)
      fun hbad => absurd hmap (hbad hva)
    exact (h.alloc.frame f had.taken).ne_zero h.alloc.kend

/-- `userAddr` finds the page, or it adds it. -/
theorem Space.wp_userAddr (hu : UserFrames s pt) :
    wp (userAddr pt sz pt a) s (fun r s' => Space R s' pt ∧ Found pt sz a s r s') E := by
  have hround := pgrounddown_of_aligned ha
  -- Without a page of the user, `vmfault` decides.
  have hfault (huser : VirtPage a → ∀ pte, s.pageMap pt a = some pte → pte &&& PTE_U = 0) :
      wp (vmfault pt sz pt a) s (fun r s' => Space R s' pt ∧ Found pt sz a s r s') E := by
    refine (h.wp_vmfault hsz ha).imp fun r s' hs' => ⟨hs'.1, ?_⟩
    rcases hs'.2 with ⟨hr, heq, hsize⟩ | ⟨hpage, hmap, hlt, ⟨hr, hk, hsup⟩ | ⟨hr, had⟩⟩
    · exact .refused hr heq huser hsize
    · exact .short hpage hmap hlt hr hk hsup
    · exact .added hpage hmap hlt hr had
  unfold userAddr
  rw [wp_bind, wp_walkaddr, hround]
  by_cases hva : a < MAXVA
  · have hpage : VirtPage a := ⟨ha, hva⟩
    rw [if_pos hva, wp_ite]
    cases hmap : s.pageMap pt a with
    | none => exact ⟨fun _ => hfault fun _ pte hpte => by simp [hmap] at hpte,
        fun hne => absurd rfl hne⟩
    | some pte =>
      by_cases huser : pte &&& PTE_U ≠ 0
      · rw [userPage, if_pos huser]
        have hne := (hu a pte hpage hmap huser).ne_zero h.alloc.kend
        exact ⟨fun h0 => absurd h0 hne, fun _ => ⟨h, .mapped hpage hmap huser rfl hne rfl⟩⟩
      · rw [userPage, if_neg huser]
        refine ⟨fun _ => hfault fun _ pte' hpte => ?_, fun hne => absurd rfl hne⟩
        rw [hmap] at hpte
        rw [← Option.some.inj hpte]
        exact not_not.mp huser
  · rw [if_neg hva, wp_ite]
    exact ⟨fun _ => hfault fun hpage => absurd hpage.lt hva, fun hne => absurd rfl hne⟩

end Fault

/-! ## A range is accessed -/

/-- A page has an address of the range of `n` bytes from `x` on. -/
def Meets (x n : ℕ) (b : UInt64) : Prop := ∃ v, x ≤ v ∧ v < x + n ∧ InPage b v

theorem Meets.mono {x' n' : ℕ} (h : Meets x n b) (hx : x' ≤ x) (hn : x + n ≤ x' + n') :
    Meets x' n' b := by
  obtain ⟨v, hxv, hvn, hv⟩ := h
  exact ⟨v, by omega, by omega, hv⟩

/-- The entry of a page that `vmfault` adds. -/
def lazyPte (f : UInt64) : UInt64 := pa2pte f ||| lazyPerm ||| PTE_V

theorem lazyPte_user (f : UInt64) : lazyPte f &&& PTE_U ≠ 0 := by
  intro h
  have hbit := congrArg (fun w => w.toNat.testBit 4) h
  simp [lazyPte, lazyPerm, PTE_U, PTE_W, PTE_R, PTE_V, Nat.testBit_or, Nat.testBit_and] at hbit
  exact absurd (hbit (.inl (.inr (by decide)))) (by decide)

theorem lazyPte_write (f : UInt64) : lazyPte f &&& PTE_W ≠ 0 := by
  intro h
  have hbit := congrArg (fun w => w.toNat.testBit 2) h
  simp [lazyPte, lazyPerm, PTE_U, PTE_W, PTE_R, PTE_V, Nat.testBit_or, Nat.testBit_and] at hbit
  exact absurd (hbit (.inl (.inr (by decide)))) (by decide)

/-- How a range is accessed. -/
structure Mode where
  /-- The leaves that may be accessed. -/
  ok : UInt64 → Prop
  /-- The bytes that are written, by their addresses. -/
  write : Option (ℕ → UInt8)
  /-- A page that has been added may be accessed. -/
  lazy : ∀ f, ok (lazyPte f)

/-- `copyin` needs `PTE_U`. -/
def readMode : Mode := ⟨fun pte => pte &&& PTE_U ≠ 0, none, lazyPte_user⟩

/-- `copyout` needs `PTE_U` and `PTE_W`. -/
def writeMode (g : ℕ → UInt8) : Mode :=
  ⟨fun pte => pte &&& PTE_U ≠ 0 ∧ pte &&& PTE_W ≠ 0, some g,
    fun f => ⟨lazyPte_user f, lazyPte_write f⟩⟩

/-- The byte at an address after the access. -/
def Mode.byte (mode : Mode) (v : ℕ) (old : UInt8) : UInt8 := (mode.write.map (· v)).getD old

/-- A range of the user memory has been accessed. -/
structure Access (pt sz : UInt64) (mode : Mode) (x n : ℕ) (s s' : Mem) : Prop where
  bound : ∀ v, x ≤ v → v < x + n → v < MAXVA.toNat
  kend : s'.kend = s.kend
  foot : ∀ f, Foot s' pt f → Foot s pt f
  free : ∀ f ∈ s'.freelist, f ∈ s.freelist
  /-- Pages below the size of the process have been added. -/
  map : ∀ b, VirtPage b → s'.pageMap pt b = s.pageMap pt b ∨
    s.pageMap pt b = none ∧ b < sz ∧ Meets x n b ∧
      ∃ f ∈ s.freelist, s'.pageMap pt b = some (lazyPte f)
  /-- The pages of the range may be accessed. -/
  mapped : ∀ b, VirtPage b → Meets x n b → ∃ pte, s'.pageMap pt b = some pte ∧ mode.ok pte
  /-- Only pages of the range are written. -/
  page : ∀ f, ¬ Foot s pt f → s'.page f = s.page f ∨ mode.write.isSome = true ∧
    ∃ b pte, VirtPage b ∧ Meets x n b ∧ s.pageMap pt b = some pte ∧ mode.ok pte ∧ pte2pa pte = f
  view : ∀ v < MAXVA.toNat, s'.view pt v =
    if x ≤ v ∧ v < x + n then mode.byte v (s.view pt v) else s.view pt v

/-- Where there was memory for the pages of a range and for other places, there is memory for those
that are left. -/
def Supplies (pt : UInt64) (x n : ℕ) (s s' : Mem) : Prop :=
  ∀ M, (∀ b, VirtPage b → Meets x n b → places b ⊆ M) → Supply s pt M → Supply s' pt M

variable {mode : Mode}

/-- The user memory at a page that stays as it is. -/
theorem InPage.view_congr (hb : VirtPage b) (hv : InPage b v)
    (hmap : s'.pageMap pt b = s.pageMap pt b)
    (hpage : ∀ pte, s.pageMap pt b = some pte → s'.page (pte2pa pte) = s.page (pte2pa pte)) :
    s'.view pt v = s.view pt v := by
  cases hpte : s.pageMap pt b with
  | none => rw [hv.view_of_none hb hpte, hv.view_of_none hb (hmap.trans hpte)]
  | some pte => rw [hv.view hb hpte, hv.view hb (hmap.trans hpte), hpage pte hpte]

/-- Where no leaf changes, the user memory stays as it is. -/
theorem Kept.view (hk : Kept pt s s') (h : Space R s pt) (hv : v < MAXVA.toNat) :
    s'.view pt v = s.view pt v := by
  obtain ⟨hb, hin⟩ := exists_inPage hv
  exact hin.view_congr hb (hk.map _) fun pte hpte => hk.within.page _ (h.not_foot hpte)

theorem not_meets_zero : ¬ Meets x 0 b := by
  rintro ⟨v, hx, hn, -⟩
  omega

/-- Nothing has been accessed. -/
theorem Kept.access (hk : Kept pt s s') (h : Space R s pt) : Access pt sz mode x 0 s s' where
  bound v _ _ := by omega
  kend := hk.within.kend
  foot := hk.within.foot
  free := hk.free
  map b _ := .inl (hk.map b)
  mapped _ _ hm := absurd hm not_meets_zero
  page f hf := .inl (hk.within.page f hf)
  view v hv := by rw [if_neg (by omega), hk.view h hv]

/-- A range of no bytes is at any address. -/
theorem Access.of_zero {y : ℕ} (h : Access pt sz mode x 0 s s') : Access pt sz mode y 0 s s' where
  bound v _ _ := by omega
  kend := h.kend
  foot := h.foot
  free := h.free
  map b hb := (h.map b hb).imp_right fun hn => absurd hn.2.2.1 not_meets_zero
  mapped _ _ hm := absurd hm not_meets_zero
  page f hf := (h.page f hf).imp_right fun hw => by
    obtain ⟨-, b, -, -, hm, -⟩ := hw
    exact absurd hm not_meets_zero
  view v hv := by
    have hview := h.view v hv
    rw [if_neg (by omega)] at hview
    rw [if_neg (by omega), hview]

/-- A leaf that may be accessed stays. -/
theorem Access.map_some {pte : UInt64} (h : Access pt sz mode x n s s') (hb : VirtPage b)
    (hmap : s.pageMap pt b = some pte) : s'.pageMap pt b = some pte := by
  rcases h.map b hb with heq | ⟨hnone, -⟩
  · rw [heq, hmap]
  · rw [hmap] at hnone
    exact absurd hnone (by simp)

/-- What is read stays as it is. -/
theorem Access.view_read (h : Access pt sz readMode x n s s') (v : ℕ) :
    s'.view pt v = s.view pt v := by
  by_cases hv : v < MAXVA.toNat
  · rw [h.view v hv, readMode, Mode.byte, Option.map_none, Option.getD_none, ite_self]
  · rw [Mem.view, Mem.view, Mem.leafAt, Mem.leafAt, if_neg hv, if_neg hv]
    rfl

/-- The accesses of two ranges, one after the other, are the access of one range. -/
theorem Access.trans (h : Access pt sz mode x n s s') (h' : Access pt sz mode (x + n) k s' s'')
    (hs : Space R s pt) : Access pt sz mode x (n + k) s s'' where
  bound v hx hn := by
    by_cases hv : v < x + n
    · exact h.bound v hx hv
    · exact h'.bound v (by omega) (by omega)
  kend := h'.kend.trans h.kend
  foot f hf := h.foot f (h'.foot f hf)
  free f hf := h.free f (h'.free f hf)
  map b hb := by
    rcases h.map b hb with heq | ⟨hnone, hlt, hm, f, hf, hmap⟩
    · rcases h'.map b hb with heq' | ⟨hnone, hlt, hm, f, hf, hmap⟩
      · exact .inl (heq'.trans heq)
      · exact .inr ⟨heq ▸ hnone, hlt, hm.mono (by omega) (by omega), f, h.free f hf, hmap⟩
    · exact .inr ⟨hnone, hlt, hm.mono (by omega) (by omega), f, hf, h'.map_some hb hmap⟩
  mapped b hb hm := by
    obtain ⟨v, hx, hn, hv⟩ := hm
    by_cases hvn : v < x + n
    · obtain ⟨pte, hmap, hok⟩ := h.mapped b hb ⟨v, hx, hvn, hv⟩
      exact ⟨pte, h'.map_some hb hmap, hok⟩
    · exact h'.mapped b hb ⟨v, by omega, by omega, hv⟩
  page f hf := by
    rcases h'.page f (fun hn => hf (h.foot f hn)) with heq | ⟨hw, b, pte, hb, hm, hmap, hok, hpa⟩
    · rcases h.page f hf with heq' | ⟨hw, b, pte, hb, hm, hrest⟩
      · exact .inl (heq.trans heq')
      · exact .inr ⟨hw, b, pte, hb, hm.mono (by omega) (by omega), hrest⟩
    · rcases h.map b hb with heq | ⟨-, -, -, g, hg, hmap'⟩
      · exact .inr ⟨hw, b, pte, hb, hm.mono (by omega) (by omega), heq ▸ hmap, hok, hpa⟩
      · -- A page that was added in between came from the free list.
        rw [hmap] at hmap'
        obtain rfl := Option.some.inj hmap'
        refine absurd (.inl ?_) hf
        rw [← hpa, lazyPte, pte2pa_leaf (hs.alloc.frame g hg).aligned (by decide)]
        exact hg
  view v hv := by
    rw [h'.view v hv, h.view v hv]
    by_cases h₁ : x ≤ v ∧ v < x + n
    · rw [if_pos h₁, if_neg (by omega), if_pos (by omega)]
    · rw [if_neg h₁]
      refine if_congr ?_ rfl rfl
      omega

/-- The pages of the user stay pages of the allocator. -/
theorem Access.userFrames (h : Access pt sz mode x n s s') (hs : Space R s pt)
    (hu : UserFrames s pt) : UserFrames s' pt := by
  intro b pte hb hmap huser
  rw [h.kend]
  rcases h.map b hb with heq | ⟨-, -, -, f, hf, hmap'⟩
  · exact hu b pte hb (heq ▸ hmap) huser
  · rw [hmap] at hmap'
    obtain rfl := Option.some.inj hmap'
    have hframe := hs.alloc.frame f hf
    rw [lazyPte, pte2pa_leaf hframe.aligned (by decide)]
    exact hframe

/-- Two pages with one address are the same. -/
theorem InPage.unique (ha : VirtPage a) (hb : VirtPage b) (h : InPage a v) (h' : InPage b v) :
    a = b := by
  have ha' := aligned_iff.mp ha.aligned
  have hb' := aligned_iff.mp hb.aligned
  obtain ⟨h₁, h₂⟩ := h
  obtain ⟨h₃, h₄⟩ := h'
  exact UInt64.toNat_inj.mp (by omega)

/-- The page that meets a range inside of a page. -/
theorem Meets.eq_page (ha : VirtPage a) (hb : VirtPage b) (hx : a.toNat ≤ x)
    (hn : x + n ≤ a.toNat + 4096) (hm : Meets x n b) : b = a := by
  obtain ⟨v, hxv, hvn, hv⟩ := hm
  exact hv.unique hb ha ⟨by omega, by omega⟩

section Page

variable {r : UInt64} (hs : Space R s pt) (hf : Found pt sz a s r s') (hne : r ≠ 0)
  (hx : a.toNat ≤ x) (hn : x + n ≤ a.toNat + 4096) (hpos : 0 < n)
include hs hf hne hx hn hpos

/-- A range inside of a page that has been found may be read. -/
theorem Found.access : Access pt sz readMode x n s s' ∧ Supplies pt x n s s' ∧ VirtPage a ∧
    ∃ pte, s'.pageMap pt a = some pte ∧ pte &&& PTE_U ≠ 0 ∧ pte2pa pte = r := by
  cases hf with
  | refused zero => exact absurd zero hne
  | short page map lt zero => exact absurd zero hne
  | @mapped pte page map user addr ne eq =>
    subst eq
    refine ⟨⟨fun v _ _ => lt_of_lt_of_le (by omega) page.end_le, rfl, fun _ hf => hf,
      fun _ hf => hf, fun _ _ => .inl rfl, fun b hb hm => ?_, fun _ _ => .inl rfl, fun v _ => ?_⟩,
      fun _ _ hsup => hsup, page, pte, map, user, addr.symm⟩
    · rw [hm.eq_page page hb hx hn]
      exact ⟨pte, map, user⟩
    · rw [readMode, Mode.byte, Option.map_none, Option.getD_none, ite_self]
  | added page map lt ne add =>
    have hframe := hs.alloc.frame r add.taken
    have hmap : s'.pageMap pt a = some (lazyPte r) := (add.map a page).trans (if_pos rfl)
    have hmeets : Meets x n a := ⟨x, le_refl x, by omega, hx, by omega⟩
    refine ⟨⟨fun v _ _ => lt_of_lt_of_le (by omega) page.end_le, add.within.kend,
      add.within.foot, add.free, fun b hb => ?_, fun b hb hm => ?_,
      fun g hg => .inl (add.within.page g hg), fun v hv => ?_⟩, fun M hM hsup =>
      add.supply M (hM a page hmeets) hsup, page, lazyPte r, hmap, lazyPte_user r,
      pte2pa_leaf hframe.aligned (by decide)⟩
    · by_cases hba : b = a
      · subst hba
        exact .inr ⟨map, lt, hmeets, r, add.taken, hmap⟩
      · left
        rw [add.map b hb, if_neg hba]
    · rw [hm.eq_page page hb hx hn]
      exact ⟨_, hmap, lazyPte_user r⟩
    · rw [readMode, Mode.byte, Option.map_none, Option.getD_none, ite_self]
      obtain ⟨hb, hin⟩ := exists_inPage hv
      by_cases hba : pgrounddown (UInt64.ofNat v) = a
      · rw [hba] at hin
        rw [hin.view page hmap, hin.view_of_none page map, lazyPte,
          pte2pa_leaf hframe.aligned (by decide), add.page]
        simp [pageByte]
      · refine hin.view_congr hb ?_ fun pte hpte => add.within.page _ (hs.not_foot hpte)
        rw [add.map _ hb, if_neg hba]

end Page

/-- The bytes of a range inside of a page are written. -/
theorem Access.move {s₁ : Mem} {pte off len : UInt64} {g src : ℕ → UInt8}
    (hacc : Access pt sz readMode x n s s₁) (hs : Space R s pt) (hs₁ : Space R s₁ pt)
    (ha : VirtPage a) (hmap : s₁.pageMap pt a = some pte) (hok : (writeMode g).ok pte)
    (hx : x = a.toNat + off.toNat) (hlen : len.toNat = n) (hn : x + n ≤ a.toNat + 4096)
    (hpos : 0 < n) (hsrc : ∀ i, src i = g (x + i)) :
    Space R (s₁.move (pte2pa pte) off len src) pt ∧
      Access pt sz (writeMode g) x n s (s₁.move (pte2pa pte) off len src) ∧
      (Supplies pt x n s s₁ → Supplies pt x n s (s₁.move (pte2pa pte) off len src)) := by
  have hnot : ¬ Node child 3 s₁.page pt (pte2pa pte) := fun hn => hs₁.not_foot hmap (.inr hn)
  have hagree : Agree child 3 s₁.page pt (s₁.move (pte2pa pte) off len src).page :=
    agree_setPage hnot _
  have hleaf (b : UInt64) := pageMap_agree hagree b
  have hother {f : UInt64} (hf : f ≠ pte2pa pte) :
      (s₁.move (pte2pa pte) off len src).page f = s₁.page f := update_of_ne hf ..
  refine ⟨hs₁.setPage hnot _, ⟨hacc.bound, hacc.kend, fun f hf => hacc.foot f ?_, hacc.free,
    fun b hb => ?_, fun b hb hm => ?_, fun f hf => ?_, fun v hv => ?_⟩, fun hsupply M hM hsup => ?_⟩
  · exact hf.imp_right hagree.node_iff.mp
  · rw [hleaf]
    exact hacc.map b hb
  · rw [hm.eq_page ha hb (by omega) hn, hleaf]
    exact ⟨pte, hmap, hok⟩
  · have hsame : s₁.page f = s.page f :=
      (hacc.page f hf).resolve_right fun hw => absurd hw.1 (by simp [readMode])
    by_cases hfp : f = pte2pa pte
    · right
      refine ⟨rfl, a, pte, ha, ⟨x, le_refl x, by omega, by omega, by omega⟩, ?_, hok, hfp.symm⟩
      -- The page was mapped before, because it is not a free one.
      rcases hacc.map a ha with heq | ⟨-, -, -, g', hg', hmap'⟩
      · rw [← heq, hmap]
      · rw [hmap] at hmap'
        rw [Option.some.inj hmap', lazyPte,
          pte2pa_leaf (hs.alloc.frame g' hg').aligned (by decide)] at hfp
        exact absurd (.inl (hfp ▸ hg')) hf
    · left
      rw [hother hfp, hsame]
  · rw [← hacc.view_read v, writeMode, Mode.byte, Option.map_some, Option.getD_some]
    obtain ⟨hb, hin⟩ := exists_inPage hv
    by_cases hba : pgrounddown (UInt64.ofNat v) = a
    · rw [hba] at hin
      have hle := hin.1
      have hlt := hin.2
      rw [hin.view ha ((hleaf a).trans hmap), hin.view ha hmap, Mem.move_page,
        pageByte_pageOf _ (by omega)]
      by_cases hv' : x ≤ v ∧ v < x + n
      · rw [if_pos (by omega), if_pos hv', hsrc]
        congr 1
        omega
      · rw [if_neg (by omega), if_neg hv']
    · have hout : ¬ (x ≤ v ∧ v < x + n) := fun hv' =>
        hba (hin.unique hb ha ⟨by omega, by omega⟩)
      rw [if_neg hout]
      refine hin.view_congr hb (hleaf _) fun pte' hpte' => hother fun heq => ?_
      exact hba (hs₁.leaf_injective hb ha hpte' hmap heq)
  · have hsup₁ := hsupply M hM hsup
    rw [Supply, tree_agree hagree]
    exact hsup₁

/-! ## The loops -/

/-- The access of a range ends after `m` bytes: the next page is not one of the user, or it may not
be accessed, or there is no memory for it. -/
def Blocked (pt sz : UInt64) (mode : Mode) (x m : ℕ) (s : Mem) : Prop :=
  MAXVA.toNat ≤ x + m ∨ ∃ b, VirtPage b ∧ InPage b (x + m) ∧
    ((∃ pte, s.pageMap pt b = some pte ∧ ¬ mode.ok pte) ∨ (s.pageMap pt b = none ∧ sz ≤ b) ∨
      (s.pageMap pt b = none ∧
        ∀ M, (∀ c, VirtPage c → Meets x (m + 1) c → places c ⊆ M) → ¬ Supply s pt M))

theorem Blocked.of_access {m : ℕ} (hb : Blocked pt sz mode (x + n) m s')
    (h : Access pt sz mode x n s s') (hsupply : Supplies pt x n s s') :
    Blocked pt sz mode x (n + m) s := by
  rw [Blocked, ← Nat.add_assoc]
  rcases hb with hmax | ⟨b, hb, hin, hbad⟩
  · exact .inl hmax
  · refine .inr ⟨b, hb, hin, ?_⟩
    have hbefore (hnone : s'.pageMap pt b = none) : s.pageMap pt b = none := by
      rcases h.map b hb with heq | ⟨hnone', -⟩
      · exact heq ▸ hnone
      · exact hnone'
    rcases hbad with ⟨pte, hmap, hok⟩ | ⟨hnone, hle⟩ | ⟨hnone, hsup⟩
    · rcases h.map b hb with heq | ⟨-, -, -, f, -, hmap'⟩
      · exact .inl ⟨pte, heq ▸ hmap, hok⟩
      · rw [hmap] at hmap'
        rw [Option.some.inj hmap'] at hok
        exact absurd (mode.lazy f) hok
    · exact .inr (.inl ⟨hbefore hnone, hle⟩)
    · refine .inr (.inr ⟨hbefore hnone, fun M hM hs =>
        hsup M (fun c hc hm => ?_) (hsupply M (fun c hc hm => ?_) hs)⟩)
      · exact hM c hc (hm.mono (by omega) (by omega))
      · exact hM c hc (hm.mono (by omega) (by omega))

/-- A page that has not been found ends the access. -/
theorem Found.blocked {r : UInt64} (hf : Found pt sz a s r s') (hr : r = 0) (hin : InPage a x)
    (hok : ∀ pte, mode.ok pte → pte &&& PTE_U ≠ 0) (ha : a % PGSIZE = 0) :
    Blocked pt sz mode x 0 s := by
  by_cases hva : a < MAXVA
  · have hpage : VirtPage a := ⟨ha, hva⟩
    refine .inr ⟨a, hpage, hin, ?_⟩
    cases hf with
    | mapped page map user addr ne => exact absurd hr ne
    | added page map lt ne => exact absurd hr ne
    | refused zero eq user size =>
      cases hmap : s.pageMap pt a with
      | none => exact .inr (.inl ⟨rfl, size hmap⟩)
      | some pte => exact .inl ⟨pte, rfl, fun hn => hok pte hn (user hpage pte hmap)⟩
    | short page map lt zero kept supply =>
      refine .inr (.inr ⟨map, fun M hM hsup => supply ⟨?_, hsup.2⟩⟩)
      have hsub := hM a hpage ⟨x, le_refl x, by omega, hin⟩
      refine le_trans (Finset.card_le_card fun q hq => ?_) hsup.1
      rw [mem_missing] at hq ⊢
      exact ⟨hsub hq.1, hq.2⟩
  · have hge := UInt64.le_iff_toNat_le.mp (UInt64.not_lt.mp hva)
    exact .inl (le_trans hge hin.1)

/-- The result of a call that has accessed the first bytes of a range. -/
structure Result (pt sz : UInt64) (mode : Mode) (R : Set UInt64) (x n : ℕ) (ok : Bool) (m : ℕ)
    (s s' : Mem) : Prop where
  space : Space R s' pt
  frames : UserFrames s' pt
  le : m ≤ n
  access : Access pt sz mode x m s s'
  all : ok = true → m = n
  blocked : ok = false → m < n ∧ Blocked pt sz mode x m s

/-- The part of a copy that is in the first page. -/
theorem chunk_spec (va : UInt64) {len : UInt64} (hlen : 0 < len) :
    InPage (pgrounddown va) va.toNat ∧
      (va - pgrounddown va).toNat = va.toNat - (pgrounddown va).toNat ∧
      0 < (chunk (va - pgrounddown va) len).toNat ∧
      (chunk (va - pgrounddown va) len).toNat ≤ len.toNat ∧
      (len - chunk (va - pgrounddown va) len).toNat =
        len.toNat - (chunk (va - pgrounddown va) len).toNat ∧
      va.toNat + (chunk (va - pgrounddown va) len).toNat ≤ (pgrounddown va).toNat + 4096 ∧
      ((chunk (va - pgrounddown va) len).toNat = len.toNat ∨
        va.toNat + (chunk (va - pgrounddown va) len).toNat = (pgrounddown va).toNat + 4096) := by
  have hround := pgrounddown_toNat va
  have hle : pgrounddown va ≤ va := UInt64.le_iff_toNat_le.mpr (by omega)
  have hoff := UInt64.toNat_sub_of_le _ _ hle
  generalize va - pgrounddown va = off at hoff ⊢
  have hlen' : 0 < len.toNat := UInt64.lt_iff_toNat_lt.mp hlen
  have hsub : (PGSIZE - off).toNat = 4096 - off.toNat := by
    rw [UInt64.toNat_sub_of_le _ _ (UInt64.le_iff_toNat_le.mpr (by change _ ≤ 4096; omega))]
    rfl
  have hchunk : (chunk off len).toNat = min len.toNat (4096 - off.toNat) := by
    unfold chunk
    by_cases hlt : len < PGSIZE - off
    · rw [if_pos hlt]
      rw [UInt64.lt_iff_toNat_lt, hsub] at hlt
      omega
    · rw [if_neg hlt, hsub]
      rw [UInt64.lt_iff_toNat_lt, hsub] at hlt
      omega
  have hrest : (len - chunk off len).toNat = len.toNat - (chunk off len).toNat :=
    UInt64.toNat_sub_of_le _ _ (UInt64.le_iff_toNat_le.mpr (by omega))
  have hin : InPage (pgrounddown va) va.toNat := by
    rw [InPage]
    omega
  refine ⟨hin, hoff, ?_, ?_, hrest, ?_, ?_⟩
  all_goals omega

/-- The page that has not been found ends the call. -/
theorem Found.result {r : UInt64} {len : ℕ} (hf : Found pt sz a s r s') (hr : r = 0)
    (hs : Space R s pt) (hs' : Space R s' pt) (hu : UserFrames s pt) (hin : InPage a x)
    (hok : ∀ pte, mode.ok pte → pte &&& PTE_U ≠ 0) (ha : a % PGSIZE = 0) (hlen : 0 < len) :
    Result pt sz mode R x len false 0 s s' := by
  have hkept : Kept pt s s' := by
    cases hf with
    | mapped page map user addr ne => exact absurd hr ne
    | added page map lt ne => exact absurd hr ne
    | refused zero eq => exact eq ▸ .refl pt s
    | short page map lt zero kept => exact kept
  have hacc : Access pt sz mode x 0 s s' := hkept.access hs
  exact ⟨hs', hacc.userFrames hs hu, Nat.zero_le _, hacc, by simp,
    fun _ => ⟨hlen, hf.blocked hr hin hok ha⟩⟩

/-- The rest of a call after its first page. -/
theorem Result.cons {len m y : ℕ} {ok : Bool} (hr : Result pt sz mode R y (len - n) ok m s' s'')
    (hy : len - n = 0 ∨ y = x + n) (hacc : Access pt sz mode x n s s')
    (hsupply : Supplies pt x n s s') (hs : Space R s pt) (hle : n ≤ len) :
    Result pt sz mode R x len ok (n + m) s s'' := by
  have hrest : Access pt sz mode (x + n) m s' s'' := by
    rcases hy with h0 | rfl
    · have hm := hr.le
      rw [h0] at hm
      obtain rfl : m = 0 := by omega
      exact hr.access.of_zero
    · exact hr.access
  have hle' := hr.le
  refine ⟨hr.space, hr.frames, by omega, hacc.trans hrest hs, fun hok => ?_, fun hok => ?_⟩
  · have := hr.all hok
    omega
  · obtain ⟨hlt, hblocked⟩ := hr.blocked hok
    rcases hy with h0 | rfl
    · omega
    · exact ⟨by omega, hblocked.of_access hacc hsupply⟩

/-- The next page needs fewer rounds. -/
theorem fuel_next {fuel : ℕ} (ha : VirtPage a) (hround : a.toNat = va.toNat / 4096 * 4096)
    (hfuel : (0x4000000000 - va.toNat / 4096 * 4096) / 4096 < fuel + 1) :
    (0x4000000000 - (a + PGSIZE).toNat / 4096 * 4096) / 4096 < fuel := by
  have hlt : a.toNat < 0x4000000000 := UInt64.lt_iff_toNat_lt.mp ha.lt
  have ha' := aligned_iff.mp ha.aligned
  have hnext : (a.toNat + 4096) / 4096 * 4096 = a.toNat + 4096 := by omega
  rw [← hround] at hfuel
  rw [toNat_next ha.lt, hnext]
  omega

section Loops

variable (hsz : sz ≤ TRAPFRAME)
include hsz

/-- The loop of `copyin` reads the first bytes of the range, and it reads all of them unless a page
cannot be accessed. -/
theorem wp_copyinLoop {fuel : ℕ} : ∀ {s : Mem} {va len : UInt64}, Space R s pt → UserFrames s pt →
    (0x4000000000 - va.toNat / 4096 * 4096) / 4096 < fuel →
    wp (copyinLoop pt sz pt fuel va len) s (fun r s' => ∃ m,
      Result pt sz readMode R va.toNat len.toNat r.1 m s s' ∧
      r.2 = (List.range m).map fun i => s.view pt (va.toNat + i)) E := by
  induction fuel with
  | zero => exact fun _ _ hfuel => absurd hfuel (Nat.not_lt_zero _)
  | succ fuel ih =>
    intro s va len hs hu hfuel
    simp only [copyinLoop]
    rw [wp_ite]
    refine ⟨fun hlen => ?_, fun hlen => ?_⟩
    · obtain ⟨hin, hoff, hpos, hle, hrest, hend, hnext⟩ := chunk_spec va hlen
      have halign : pgrounddown va % PGSIZE = 0 := by
        rw [aligned_iff, pgrounddown_toNat]
        omega
      have hround := pgrounddown_toNat va
      generalize pgrounddown va = a at *
      generalize chunk (va - a) len = n at *
      refine wp_call (hs.wp_userAddr hsz halign hu) fun pa0 s₁ hs₁ => ?_
      obtain ⟨hs₁, hf⟩ := hs₁
      rw [wp_ite]
      refine ⟨fun hzero => ⟨0, hf.result hzero hs hs₁ hu hin (fun _ hok => hok) halign
        (UInt64.lt_iff_toNat_lt.mp hlen), rfl⟩, fun hne => ?_⟩
      obtain ⟨hacc, hsupply, hpage, pte, hmap, -, rfl⟩ :=
        hf.access hs hne hin.1 hend hpos
      have hlt : a.toNat < 0x4000000000 := UInt64.lt_iff_toNat_lt.mp hpage.lt
      have hstep := toNat_next hpage.lt
      have hfuel' := fuel_next hpage hround hfuel
      rw [wp_bind, wp_get]
      refine wp_call (ih hs₁ (hacc.userFrames hs hu) hfuel') fun r s₂ hs₂ => ?_
      obtain ⟨m, hres, hbytes⟩ := hs₂
      rw [hrest] at hres
      have hcont : len.toNat - n.toNat = 0 ∨ (a + PGSIZE).toNat = va.toNat + n.toNat := by omega
      refine ⟨n.toNat + m, hres.cons hcont hacc hsupply hs hle, ?_⟩
      rw [List.range_add, List.map_append, List.map_map]
      refine congrArg₂ (· ++ ·) (List.map_congr_left fun i hi => ?_) ?_
      · have hi' := List.mem_range.mp hi
        have hin' : InPage a (va.toNat + i) := ⟨by have := hin.1; omega, by omega⟩
        rw [← hacc.view_read, hin'.view hpage hmap, hoff, Nat.sub_add_comm hin.1]
      · rw [hbytes]
        refine List.map_congr_left fun i hi => ?_
        have hi' := List.mem_range.mp hi
        have hm := hres.le
        rw [hcont.resolve_left (by omega), hacc.view_read, Nat.add_assoc]
        rfl
    · have h0 : len.toNat = 0 := by
        rw [UInt64.lt_iff_toNat_lt] at hlen
        change ¬ 0 < len.toNat at hlen
        omega
      rw [h0]
      exact ⟨0, ⟨hs, hu, le_refl 0, (Kept.refl pt s).access hs, fun _ => rfl, by simp⟩, rfl⟩

/-- The loop of `copyout` writes the first bytes of the range, and it writes all of them unless a
page cannot be accessed. -/
theorem wp_copyoutLoop {g : ℕ → UInt8} {fuel : ℕ} : ∀ {s : Mem} {va len : UInt64}
    {src : ℕ → UInt8}, Space R s pt → UserFrames s pt →
    (0 < len → ∀ i, src i = g (va.toNat + i)) →
    (0x4000000000 - va.toNat / 4096 * 4096) / 4096 < fuel →
    wp (copyoutLoop pt sz pt fuel va src len) s (fun r s' => ∃ m,
      Result pt sz (writeMode g) R va.toNat len.toNat r m s s') E := by
  induction fuel with
  | zero => exact fun _ _ _ hfuel => absurd hfuel (Nat.not_lt_zero _)
  | succ fuel ih =>
    intro s va len src hs hu hsrc hfuel
    simp only [copyoutLoop]
    rw [wp_ite]
    refine ⟨fun hlen => ?_, fun hlen => ?_⟩
    · obtain ⟨hin, hoff, hpos, hle, hrest, hend, hnext⟩ := chunk_spec va hlen
      have halign : pgrounddown va % PGSIZE = 0 := by
        rw [aligned_iff, pgrounddown_toNat]
        omega
      have hround := pgrounddown_toNat va
      generalize pgrounddown va = a at *
      generalize chunk (va - a) len = n at *
      have hlen' : 0 < len.toNat := UInt64.lt_iff_toNat_lt.mp hlen
      rw [wp_ite]
      refine ⟨fun hmax => ⟨0, hs, hu, Nat.zero_le _, (Kept.refl pt s).access hs, by simp,
        fun _ => ⟨hlen', .inl (le_trans (UInt64.le_iff_toNat_le.mp hmax) hin.1)⟩⟩, fun hmax => ?_⟩
      refine wp_call (hs.wp_userAddr hsz halign hu) fun pa0 s₁ hs₁ => ?_
      obtain ⟨hs₁, hf⟩ := hs₁
      rw [wp_ite]
      refine ⟨fun hzero => ⟨0, hf.result hzero hs hs₁ hu hin (fun _ hok => hok.1) halign hlen'⟩,
        fun hne => ?_⟩
      obtain ⟨hacc, hsupply, hpage, pte, hmap, huser, rfl⟩ :=
        hf.access hs hne hin.1 hend hpos
      rw [wp_bind, wp_walk_false hpage.lt]
      cases ht : descend child s₁.page pt (path a) with
      | none =>
        rw [pageMap_of_not_descend ht] at hmap
        exact absurd hmap (by simp)
      | some t =>
        have hpte : s₁.page t (px 0 a) = pte := by
          rw [pageMap_of_descend ht] at hmap
          by_cases hv : s₁.page t (px 0 a) &&& PTE_V ≠ 0
          · rw [present_valid hv] at hmap
            exact Option.some.inj hmap
          · rw [present_not_valid hv] at hmap
            exact absurd hmap (by simp)
        simp only [Option.map_some, wp_bind, wp_get, hpte]
        rw [wp_ite]
        refine ⟨fun hread => ?_, fun hwrite => ?_⟩
        · -- A page that has just been added may be written, so that this one was mapped before.
          cases hf with
          | refused zero => exact absurd zero hne
          | short page map lt zero => exact absurd zero hne
          | added page map lt ne add =>
            rw [add.map a page, if_pos rfl] at hmap
            rw [← Option.some.inj hmap] at hread
            exact absurd hread (lazyPte_write _)
          | mapped page map user addr ne eq =>
            subst eq
            exact ⟨0, hs, hu, Nat.zero_le _, (Kept.refl pt s₁).access hs, by simp, fun _ =>
              ⟨hlen', .inr ⟨a, hpage, hin, .inl ⟨pte, hmap, fun hok => hok.2 hread⟩⟩⟩⟩
        · have hx : va.toNat = a.toNat + (va - a).toNat := by
            have := hin.1
            omega
          obtain ⟨hs₂, hacc₂, hsupply₂⟩ := hacc.move hs hs₁ hpage hmap ⟨huser, hwrite⟩ hx rfl hend
            hpos (hsrc hlen)
          rw [wp_bind, wp_modify]
          have hfuel' := fuel_next hpage hround hfuel
          have hstep := toNat_next hpage.lt
          have hcont : len.toNat - n.toNat = 0 ∨ (a + PGSIZE).toNat = va.toNat + n.toNat := by omega
          have hsrc' (hpos' : 0 < len - n) (i : ℕ) :
              src (n.toNat + i) = g ((a + PGSIZE).toNat + i) := by
            have : 0 < (len - n).toNat := UInt64.lt_iff_toNat_lt.mp hpos'
            rw [hsrc hlen, hcont.resolve_left (by omega), Nat.add_assoc]
          refine (ih hs₂ (hacc₂.userFrames hs hu) hsrc' hfuel').imp fun r s₃ hs₃ => ?_
          obtain ⟨m, hres⟩ := hs₃
          rw [hrest] at hres
          exact ⟨n.toNat + m, hres.cons hcont hacc₂ (hsupply₂ hsupply) hs hle⟩
    · have h0 : len.toNat = 0 := by
        rw [UInt64.lt_iff_toNat_lt] at hlen
        change ¬ 0 < len.toNat at hlen
        omega
      rw [h0]
      exact ⟨0, hs, hu, le_refl 0, (Kept.refl pt s).access hs, fun _ => rfl, by simp⟩

end Loops

section Calls

variable (h : Space R s pt) (hu : UserFrames s pt) (hsz : sz ≤ TRAPFRAME) (va len : UInt64)
include h hu hsz

/-- `copyin` reads the first bytes of its range. -/
theorem Space.wp_copyin : wp (copyin pt sz pt va len) s (fun r s' => ∃ m,
    Result pt sz readMode R va.toNat len.toNat r.1 m s s' ∧
    r.2 = (List.range m).map fun i => s.view pt (va.toNat + i)) E := by
  refine wp_copyinLoop hsz h hu ?_
  have : MAXPAGES = 67108865 := rfl
  omega

/-- `copyout` writes the first bytes of its range. -/
theorem Space.wp_copyout (src : ℕ → UInt8) : wp (copyout pt sz pt va src len) s (fun r s' => ∃ m,
    Result pt sz (writeMode fun v => src (v - va.toNat)) R va.toNat len.toNat r m s s') E := by
  refine wp_copyoutLoop hsz h hu (fun _ i => ?_) ?_
  · rw [Nat.add_sub_cancel_left]
  · have : MAXPAGES = 67108865 := rfl
    omega

end Calls

/-! ## Exact and confined -/

/-- The addresses of a range are in pages that may be accessed, or in pages below the size of the
process that have not been touched. -/
def Usable (pt sz : UInt64) (mode : Mode) (x n : ℕ) (s : Mem) : Prop :=
  ∀ v, x ≤ v → v < x + n → ∃ b, VirtPage b ∧ InPage b v ∧
    ((∃ pte, s.pageMap pt b = some pte ∧ mode.ok pte) ∨ s.pageMap pt b = none ∧ b < sz)

/-- There is memory for the pages of a range that have not been touched. -/
def Available (pt : UInt64) (x n : ℕ) (s : Mem) : Prop :=
  ∃ M, (∀ b, VirtPage b → Meets x n b → places b ⊆ M) ∧ Supply s pt M

/-- A range that is usable is not blocked. -/
theorem Usable.not_blocked {m : ℕ} (hu : Usable pt sz mode x n s) (hm : m < n)
    (havail : (∃ b, VirtPage b ∧ InPage b (x + m) ∧ s.pageMap pt b = none) →
      Available pt x n s) : ¬ Blocked pt sz mode x m s := by
  obtain ⟨b, hb, hin, hgood⟩ := hu (x + m) (by omega) (by omega)
  rintro (hmax | ⟨c, hc, hin', hbad⟩)
  · have := hb.end_le
    have := hin.2
    omega
  · obtain rfl := hin'.unique hc hb hin
    rcases hbad with ⟨pte, hmap, hok⟩ | ⟨hnone, hle⟩ | ⟨hnone, hsup⟩
    · rcases hgood with ⟨pte', hmap', hok'⟩ | ⟨hnone, -⟩
      · rw [hmap] at hmap'
        rw [Option.some.inj hmap'] at hok
        exact hok hok'
      · rw [hmap] at hnone
        exact absurd hnone (by simp)
    · rcases hgood with ⟨pte', hmap', -⟩ | ⟨-, hlt⟩
      · rw [hnone] at hmap'
        exact absurd hmap' (by simp)
      · exact absurd hle (UInt64.not_le.mpr hlt)
    · obtain ⟨M, hM, hs⟩ := havail ⟨c, hc, hin', hnone⟩
      exact hsup M (fun d hd hmeets => hM d hd (hmeets.mono (by omega) (by omega))) hs

/-- A call on a range that is usable reaches its end. -/
theorem Result.ok_of_usable {m : ℕ} {ok : Bool} (hr : Result pt sz mode R x n ok m s s')
    (hu : Usable pt sz mode x n s) (havail : Available pt x n s) : ok = true := by
  by_contra hn
  obtain ⟨hlt, hb⟩ := hr.blocked (by simpa using hn)
  exact hu.not_blocked hlt (fun _ => havail) hb

/-- What has been accessed is mapped. -/
theorem Access.not_none {m : ℕ} (h : Access pt sz mode x n s s') (hm : m < n) :
    ¬ ∃ b, VirtPage b ∧ InPage b (x + m) ∧ s'.pageMap pt b = none := by
  rintro ⟨b, hb, hin, hnone⟩
  obtain ⟨pte, hmap, -⟩ := h.mapped b hb ⟨x + m, by omega, by omega, hin⟩
  rw [hmap] at hnone
  exact absurd hnone (by simp)

/-- What has been written can be read. -/
theorem Access.usable {g : ℕ → UInt8} (h : Access pt sz (writeMode g) x n s s') :
    Usable pt sz readMode x n s' := by
  intro v hx hn
  obtain ⟨hb, hin⟩ := exists_inPage (h.bound v hx hn)
  obtain ⟨pte, hmap, hok⟩ := h.mapped _ hb ⟨v, hx, hn, hin⟩
  exact ⟨_, hb, hin, .inl ⟨pte, hmap, hok.1⟩⟩

/-- The byte at an address that the user may access. -/
def Mem.userByte (s : Mem) (pt : UInt64) (v : ℕ) : Option UInt8 :=
  (s.leafAt pt v).bind fun pte =>
    if pte &&& PTE_U ≠ 0 then some (pageByte (s.page (pte2pa pte)) (v % 4096)) else none

/-- A byte that the user may access. -/
theorem exists_of_userByte {c : UInt8} (h : s.userByte pt v = some c) :
    v < MAXVA.toNat ∧ s.view pt v = c ∧
      ∃ pte, s.leafAt pt v = some pte ∧ pte &&& PTE_U ≠ 0 := by
  unfold Mem.userByte at h
  cases hleaf : s.leafAt pt v with
  | none => simp [hleaf] at h
  | some pte =>
    rw [hleaf, Option.bind_some] at h
    split_ifs at h with huser
    refine ⟨?_, ?_, pte, rfl, huser⟩
    · by_contra hv
      simp [Mem.leafAt, hv] at hleaf
    · rw [Mem.view, hleaf, Option.map_some, Option.getD_some]
      exact Option.some.inj h

/-- A byte of the user outside of what is written stays as it is. -/
theorem Access.userByte {c : UInt8} (h : Access pt sz mode x n s s')
    (hv : mode.write = none ∨ ¬ (x ≤ v ∧ v < x + n)) (hc : s.userByte pt v = some c) :
    s'.userByte pt v = some c := by
  obtain ⟨hmax, hview, pte, hleaf, huser⟩ := exists_of_userByte hc
  obtain ⟨hb, hin⟩ := exists_inPage hmax
  have hleaf' : s'.leafAt pt v = some pte := by
    rw [hin.leafAt hb] at hleaf ⊢
    exact h.map_some hb hleaf
  have hview' : s'.view pt v = c := by
    rw [h.view v hmax, ← hview]
    rcases hv with hnone | hout
    · rw [Mode.byte, hnone, Option.map_none, Option.getD_none, ite_self]
    · rw [if_neg hout]
  rw [Mem.view, hleaf', Option.map_some, Option.getD_some] at hview'
  rw [Mem.userByte, hleaf', Option.bind_some, if_pos huser, hview']

/-- Pages below the size of the process may be added to the range, and no other leaf changes. -/
def LazilyGrown (pt sz : UInt64) (x n : ℕ) (s s' : Mem) : Prop :=
  ∀ b, VirtPage b → s'.pageMap pt b = s.pageMap pt b ∨
    s.pageMap pt b = none ∧ b < sz ∧ Meets x n b ∧
      ∃ f ∈ s.freelist, s'.pageMap pt b = some (lazyPte f)

theorem Result.lazilyGrown {m : ℕ} {ok : Bool} (hr : Result pt sz mode R x n ok m s s') :
    LazilyGrown pt sz x n s s' := fun b hb =>
  (hr.access.map b hb).imp_right fun ⟨hnone, hlt, hm, hf⟩ =>
    ⟨hnone, hlt, hm.mono (le_refl x) (Nat.add_le_add_left hr.le x), hf⟩

/-- `copyout` always returns. It writes no page but those of the range with `PTE_U` and `PTE_W`, and
pages that it adds below the size of the process. If it returns 0 then `copyin` reads the source
back, and no other byte of the user has changed. It returns 0 if the range is usable and there is
memory for the pages that have not been touched. `copyin` always returns, and it changes no byte of
the user. It returns 0 if the range is usable and there is memory, and it stores the bytes of the
range whenever it returns 0. -/
theorem user_copies_exact (h : Space R s pt) (hu : UserFrames s pt) (hsz : sz ≤ TRAPFRAME) :
    (∀ (dstva len : UInt64) (src : ℕ → UInt8),
      ∃ r s', copyout pt sz pt dstva src len s = .ok (r, s') ∧
        (∀ f, ¬ Foot s pt f → s'.page f ≠ s.page f → ∃ b pte, VirtPage b ∧
          Meets dstva.toNat len.toNat b ∧ s.pageMap pt b = some pte ∧
          pte &&& PTE_U ≠ 0 ∧ pte &&& PTE_W ≠ 0 ∧ pte2pa pte = f) ∧
        LazilyGrown pt sz dstva.toNat len.toNat s s' ∧
        (r = true →
          (∃ s'', copyin pt sz pt dstva len s' =
            .ok ((true, (List.range len.toNat).map src), s'')) ∧
          ∀ v c, ¬ (dstva.toNat ≤ v ∧ v < dstva.toNat + len.toNat) →
            s.userByte pt v = some c → s'.userByte pt v = some c) ∧
        (Usable pt sz (writeMode src) dstva.toNat len.toNat s →
          Available pt dstva.toNat len.toNat s → r = true)) ∧
    ∀ srcva len : UInt64, ∃ r bs s', copyin pt sz pt srcva len s = .ok ((r, bs), s') ∧
      (∀ f, ¬ Foot s pt f → s'.page f = s.page f) ∧
      LazilyGrown pt sz srcva.toNat len.toNat s s' ∧
      (∀ v c, s.userByte pt v = some c → s'.userByte pt v = some c) ∧
      (r = true → bs = (List.range len.toNat).map fun i => s.view pt (srcva.toNat + i)) ∧
      (Usable pt sz readMode srcva.toNat len.toNat s →
        Available pt srcva.toNat len.toNat s → r = true) := by
  refine ⟨fun dstva len src => ?_, fun srcva len => ?_⟩
  · obtain ⟨r, s', hok, m, hres⟩ := (h.wp_copyout hu hsz dstva len src).exists_ok
    refine ⟨r, s', hok, fun f hf hne => ?_, hres.lazilyGrown, fun hr => ⟨?_, fun v c hv hc => ?_⟩,
      fun husable havail => ?_⟩
    · obtain ⟨-, b, pte, hb, hm, hmap, hok', hpa⟩ := (hres.access.page f hf).resolve_left hne
      exact ⟨b, pte, hb, hm.mono (le_refl _) (Nat.add_le_add_left hres.le _), hmap, hok'.1, hok'.2,
        hpa⟩
    · obtain rfl := hres.all hr
      obtain ⟨⟨r', bs⟩, s'', hok', m', hres', hbytes⟩ :=
        (hres.space.wp_copyin hres.frames hsz dstva len).exists_ok
      obtain ⟨hr', rfl⟩ : r' = true ∧ m' = len.toNat := by
        have hr' : r' = true := by
          by_contra hn
          obtain ⟨hlt, hblocked⟩ := hres'.blocked (by simpa using hn)
          exact hres.access.usable.not_blocked hlt
            (fun hnone => absurd hnone (hres.access.not_none hlt)) hblocked
        exact ⟨hr', hres'.all hr'⟩
      refine ⟨s'', ?_⟩
      rw [hok', hr']
      congr 3
      refine hbytes.trans (List.map_congr_left fun i hi => ?_)
      have hi' := List.mem_range.mp hi
      rw [hres.access.view _ (hres.access.bound _ (by omega) (by omega)), if_pos (by omega),
        writeMode, Mode.byte, Option.map_some, Option.getD_some]
      exact congrArg src (Nat.add_sub_cancel_left ..)
    · obtain rfl := hres.all hr
      exact hres.access.userByte (.inr hv) hc
    · exact hres.ok_of_usable husable havail
  · obtain ⟨⟨r, bs⟩, s', hok, m, hres, hbytes⟩ := (h.wp_copyin hu hsz srcva len).exists_ok
    refine ⟨r, bs, s', hok, fun f hf => ?_, hres.lazilyGrown,
      fun v c hc => hres.access.userByte (.inl rfl) hc, fun hr => ?_, hres.ok_of_usable⟩
    · exact (hres.access.page f hf).resolve_right fun hw => absurd hw.1 (by simp [readMode])
    · obtain rfl := hres.all hr
      exact hbytes

/-- An address space with an empty page table. -/
theorem blankMem_space :
    Space {f | f ∉ blankMem.freelist ∧ f ≠ 0x80001000} blankMem 0x80001000 ∧
      UserFrames blankMem 0x80001000 := by
  refine ⟨blankMem_table.alloc.space_of_empty (by decide) fun _ => by simp [blankMem, child],
    fun b pte _ hmap => ?_⟩
  simp [Mem.pageMap, lookup, path, descend, blankMem, child] at hmap

/-- Four bytes are written at the end of a page and at the start of the next one. Both pages are
added, with the last free page. -/
theorem user_copies_exact_blankMem :
    ∃ s' s'', copyout 0x80001000 8192 0x80001000 4094 (fun i => UInt8.ofNat (i + 1)) 4 blankMem =
        .ok (true, s') ∧ s'.freelist = [] ∧
      copyin 0x80001000 8192 0x80001000 4094 4 s' = .ok ((true, [1, 2, 3, 4]), s'') := by
  obtain ⟨⟨r, s'⟩, hok, rfl, hfree⟩ := exists_ok
    (r := copyout 0x80001000 8192 0x80001000 4094 (fun i => UInt8.ofNat (i + 1)) 4 blankMem)
    (fun r => r.1 = true ∧ r.2.freelist = []) (by decide +kernel)
  have hsz : (8192 : UInt64) ≤ TRAPFRAME := by decide
  obtain ⟨r, s, hok', -, -, hread, -⟩ := (user_copies_exact blankMem_space.1 blankMem_space.2 hsz).1
    4094 4 fun i => UInt8.ofNat (i + 1)
  obtain ⟨rfl, rfl⟩ := Prod.mk.inj (Except.ok.inj (hok'.symm.trans hok))
  obtain ⟨s'', hok''⟩ := (hread rfl).1
  exact ⟨s, s'', hok, hfree, hok''⟩

end SustainableXv6.Vm
