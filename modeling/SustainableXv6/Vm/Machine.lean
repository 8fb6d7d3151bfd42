import SustainableXv6.Lib.Wp
import SustainableXv6.Lib.Radix

/-!
# Physical pages and page tables

The allocator of `kernel/kalloc.c` and the page tables of `kernel/vm.c`, as programs on the pages of
the physical memory. A page has 512 words, and it is named by its physical address. The free list is
a list of pages: the pointer that `kfree` leaves in a free page is not seen by anybody else.
-/

namespace SustainableXv6.Vm

open Lib

/-! ## Addresses -/

/-- `PGSIZE`. -/
def PGSIZE : UInt64 := 4096

/-- `PHYSTOP`, the end of the memory. -/
def PHYSTOP : UInt64 := 0x88000000

/-- `MAXVA`, one beyond the highest virtual address. -/
def MAXVA : UInt64 := 0x4000000000

/-- `TRAMPOLINE`. -/
def TRAMPOLINE : UInt64 := MAXVA - PGSIZE

/-- `TRAPFRAME`. -/
def TRAPFRAME : UInt64 := TRAMPOLINE - PGSIZE

/-- `PTE_V`: the entry is valid. -/
def PTE_V : UInt64 := 1

/-- `PTE_R`. -/
def PTE_R : UInt64 := 2

/-- `PTE_W`. -/
def PTE_W : UInt64 := 4

/-- `PTE_X`. -/
def PTE_X : UInt64 := 8

/-- `PTE_U`: the user may access the page. -/
def PTE_U : UInt64 := 16

/-- `PGROUNDUP`. -/
def pgroundup (sz : UInt64) : UInt64 := (sz + PGSIZE - 1) &&& ~~~(PGSIZE - 1)

/-- `PGROUNDDOWN`. -/
def pgrounddown (a : UInt64) : UInt64 := a &&& ~~~(PGSIZE - 1)

/-- `PA2PTE`. -/
def pa2pte (pa : UInt64) : UInt64 := (pa >>> 12) <<< 10

/-- `PTE2PA`. -/
def pte2pa (pte : UInt64) : UInt64 := (pte >>> 10) <<< 12

/-- `PTE_FLAGS`. -/
def pteFlags (pte : UInt64) : UInt64 := pte &&& 0x3ff

/-- An index of a page-table page. -/
abbrev Index : Type := Fin 512

/-- `PX(level, va)`. -/
def px (level : ℕ) (va : UInt64) : Index :=
  Fin.ofNat 512 ((va >>> UInt64.ofNat (12 + 9 * level)) &&& 0x1ff).toNat

/-! ## The memory -/

/-- The words of a page. -/
abbrev Page : Type := Index → UInt64

/-- The physical memory. -/
structure Mem where
  /-- The page at a physical address. -/
  page : UInt64 → Page
  /-- `kmem.freelist`. -/
  freelist : List UInt64
  /-- The first address after the kernel: `end`. -/
  kend : UInt64
  /-- Whether the next calls of `kalloc` fail, also where there is a free page. -/
  oom : ℕ → Bool

/-- Why the kernel stops. -/
inductive Panic
  /-- `kfree`. -/
  | kfree
  /-- `walk`. -/
  | walk
  /-- `mappages: va not aligned`. -/
  | vaNotAligned
  /-- `mappages: size not aligned`. -/
  | sizeNotAligned
  /-- `mappages: size`. -/
  | size
  /-- `mappages: remap`. -/
  | remap
  /-- `uvmunmap: not aligned`. -/
  | notAligned
  /-- `freewalk: leaf`. -/
  | leaf
  /-- `uvmclear`. -/
  | uvmclear
  /-- `loadseg: address should exist`. -/
  | loadseg
  /-- `freewalk` goes below the third level. -/
  | deep
  /-- `kerneltrap`: the kernel follows a null pointer. -/
  | kerneltrap
  deriving DecidableEq, Repr

/-- The programs on the memory. -/
abbrev VmM : Type → Type := Prog Mem Panic

/-- The memory with another page `pa`. -/
def Mem.setPage (s : Mem) (pa : UInt64) (pg : Page) : Mem :=
  { s with page := Function.update s.page pa pg }

/-- The memory with another word `i` of the page `pa`. -/
def Mem.store (s : Mem) (pa : UInt64) (i : Index) (w : UInt64) : Mem :=
  { s with page := Radix.store s.page pa i w }

/-! ## `kalloc` and `kfree` -/

/-- `kfree`. The page is filled with junk. -/
def kfree (pa : UInt64) : VmM Unit := do
  let s ← get
  if pa % PGSIZE ≠ 0 ∨ pa < s.kend ∨ PHYSTOP ≤ pa then throw .kfree
  else set { s.setPage pa (fun _ => 0x0101010101010101) with freelist := pa :: s.freelist }

/-- `kalloc`. It returns 0 if there is no page. -/
def kalloc : VmM UInt64 := do
  let s ← get
  let oom := fun n => s.oom (n + 1)
  match s.freelist with
  | [] => do
    set { s with oom := oom }
    pure 0
  | pa :: rest =>
    if s.oom 0 then do
      set { s with oom := oom }
      pure 0
    else do
      set { s.setPage pa (fun _ => 0x0505050505050505) with freelist := rest, oom := oom }
      pure pa

/-! ## Page tables -/

/-- A round of the loop of `walk`, with the page-table page of the next level. -/
def walkLevel (alloc : Bool) (va : UInt64) (level : ℕ) (pagetable : UInt64) :
    VmM (Option UInt64) := do
  let s ← get
  let pte := s.page pagetable (px level va)
  if pte &&& PTE_V ≠ 0 then pure (some (pte2pa pte))
  else if alloc = false then pure none
  else do
    let pa ← kalloc
    if pa = 0 then pure none
    else do
      modify fun s => s.setPage pa fun _ => 0
      modify fun s => s.store pagetable (px level va) (pa2pte pa ||| PTE_V)
      pure (some pa)

/-- The loop of `walk`. -/
def walkLoop (alloc : Bool) (va : UInt64) : ℕ → UInt64 → VmM (Option UInt64)
  | 0, pagetable => pure (some pagetable)
  | level + 1, pagetable => do
    match ← walkLevel alloc va (level + 1) pagetable with
    | none => pure none
    | some pagetable => walkLoop alloc va level pagetable

/-- `walk`, with the page and the index of the entry. -/
def walk (pagetable va : UInt64) (alloc : Bool) : VmM (Option (UInt64 × Index)) :=
  if MAXVA ≤ va then throw .walk
  else do
    match ← walkLoop alloc va 2 pagetable with
    | none => pure none
    | some pagetable => pure (some (pagetable, px 0 va))

/-- `walkaddr`. -/
def walkaddr (pagetable va : UInt64) : VmM UInt64 :=
  if MAXVA ≤ va then pure 0
  else do
    match ← walk pagetable va false with
    | none => pure 0
    | some (t, k) => do
      let s ← get
      let pte := s.page t k
      if pte &&& PTE_V = 0 then pure 0
      else if pte &&& PTE_U = 0 then pure 0
      else pure (pte2pa pte)

/-- More rounds than a loop over virtual addresses can have: `walk` does not accept the address
after as many pages. -/
def MAXPAGES : ℕ := 2 ^ 26 + 1

/-- The loop of `mappages`: whether it returns 0. -/
def mappagesLoop (pagetable perm last : UInt64) : ℕ → UInt64 → UInt64 → VmM Bool
  | 0, _, _ => throw .walk
  | fuel + 1, a, pa => do
    match ← walk pagetable a true with
    | none => pure false
    | some (t, k) => do
      let s ← get
      if s.page t k &&& PTE_V ≠ 0 then throw .remap
      else do
        modify fun s => s.store t k (pa2pte pa ||| perm ||| PTE_V)
        if a = last then pure true
        else mappagesLoop pagetable perm last fuel (a + PGSIZE) (pa + PGSIZE)

/-- `mappages`: whether it returns 0. -/
def mappages (pagetable va size pa perm : UInt64) : VmM Bool :=
  if va % PGSIZE ≠ 0 then throw .vaNotAligned
  else if size % PGSIZE ≠ 0 then throw .sizeNotAligned
  else if size = 0 then throw .size
  else mappagesLoop pagetable perm (va + size - PGSIZE) MAXPAGES va pa

/-- `uvmcreate`. It returns 0 if there is no page. -/
def uvmcreate : VmM UInt64 := do
  let pagetable ← kalloc
  if pagetable = 0 then pure 0
  else do
    modify fun s => s.setPage pagetable fun _ => 0
    pure pagetable

/-- The body of the loop of `uvmunmap`. -/
def unmapPage (pagetable : UInt64) (doFree : Bool) (a : UInt64) : VmM Unit := do
  match ← walk pagetable a false with
  | none => pure ()
  | some (t, k) => do
    let s ← get
    let pte := s.page t k
    if pte &&& PTE_V = 0 then pure ()
    else do
      if doFree then kfree (pte2pa pte) else pure ()
      modify fun s => s.store t k 0

/-- The loop of `uvmunmap`. -/
def uvmunmapLoop (pagetable : UInt64) (doFree : Bool) (stop : UInt64) : ℕ → UInt64 → VmM Unit
  | 0, _ => throw .walk
  | fuel + 1, a =>
    if a < stop then do
      unmapPage pagetable doFree a
      uvmunmapLoop pagetable doFree stop fuel (a + PGSIZE)
    else pure ()

/-- `uvmunmap`. -/
def uvmunmap (pagetable va npages : UInt64) (doFree : Bool) : VmM Unit :=
  if va % PGSIZE ≠ 0 then throw .notAligned
  else uvmunmapLoop pagetable doFree (va + npages * PGSIZE) MAXPAGES va

/-- A number as an `int`, and back. -/
def toInt (n : UInt64) : UInt64 := n.toUInt32.toInt32.toInt64.toUInt64

/-- `uvmdealloc`. -/
def uvmdealloc (pagetable oldsz newsz : UInt64) : VmM UInt64 :=
  if oldsz ≤ newsz then pure oldsz
  else do
    if pgroundup newsz < pgroundup oldsz then
      uvmunmap pagetable (pgroundup newsz)
        (toInt ((pgroundup oldsz - pgroundup newsz) / PGSIZE)) true
    else pure ()
    pure newsz

/-- The loop of `uvmalloc`. -/
def uvmallocLoop (pagetable oldsz newsz xperm : UInt64) : ℕ → UInt64 → VmM UInt64
  | 0, _ => throw .walk
  | fuel + 1, a =>
    if a < newsz then do
      let mem ← kalloc
      if mem = 0 then do
        let _ ← uvmdealloc pagetable a oldsz
        pure 0
      else do
        modify fun s => s.setPage mem fun _ => 0
        if ← mappages pagetable a PGSIZE mem (PTE_R ||| PTE_U ||| xperm) then
          uvmallocLoop pagetable oldsz newsz xperm fuel (a + PGSIZE)
        else do
          kfree mem
          let _ ← uvmdealloc pagetable a oldsz
          pure 0
    else pure newsz

/-- `uvmalloc`. It returns 0 if there is no memory. -/
def uvmalloc (pagetable oldsz newsz xperm : UInt64) : VmM UInt64 :=
  if newsz < oldsz then pure oldsz
  else uvmallocLoop pagetable (pgroundup oldsz) newsz xperm MAXPAGES (pgroundup oldsz)

/-- `freewalk`, on a table of at most so many levels. -/
def freewalk : ℕ → UInt64 → VmM Unit
  | 0, _ => throw .deep
  | level + 1, pagetable => do
    upto 512 fun i => do
      let s ← get
      let pte := s.page pagetable (Fin.ofNat 512 i)
      if pte &&& PTE_V ≠ 0 ∧ pte &&& (PTE_R ||| PTE_W ||| PTE_X) = 0 then do
        freewalk level (pte2pa pte)
        modify fun s => s.store pagetable (Fin.ofNat 512 i) 0
      else if pte &&& PTE_V ≠ 0 then throw .leaf
      else pure ()
    kfree pagetable

/-- `uvmfree`. -/
def uvmfree (pagetable sz : UInt64) : VmM Unit := do
  if 0 < sz then uvmunmap pagetable 0 (pgroundup sz / PGSIZE) true else pure ()
  freewalk 3 pagetable

/-- The body of the loop of `uvmcopy`: whether there was memory for the page. -/
def copyPage (old new i : UInt64) : VmM Bool := do
  match ← walk old i false with
  | none => pure true
  | some (t, k) => do
    let s ← get
    let pte := s.page t k
    if pte &&& PTE_V = 0 then pure true
    else do
      let mem ← kalloc
      if mem = 0 then pure false
      else do
        modify fun s => s.setPage mem (s.page (pte2pa pte))
        if ← mappages new i PGSIZE mem (pteFlags pte) then pure true
        else do
          kfree mem
          pure false

/-- The loop of `uvmcopy`: whether it returns 0. -/
def uvmcopyLoop (old new sz : UInt64) : ℕ → UInt64 → VmM Bool
  | 0, _ => throw .walk
  | fuel + 1, i =>
    if i < sz then do
      if ← copyPage old new i then uvmcopyLoop old new sz fuel (i + PGSIZE)
      else do
        uvmunmap new 0 (i / PGSIZE) true
        pure false
    else pure true

/-- `uvmcopy`: whether it returns 0. -/
def uvmcopy (old new sz : UInt64) : VmM Bool := uvmcopyLoop old new sz MAXPAGES 0

/-- `uvmclear`. -/
def uvmclear (pagetable va : UInt64) : VmM Unit := do
  match ← walk pagetable va false with
  | none => throw .uvmclear
  | some (t, k) => modify fun s => s.store t k (s.page t k &&& ~~~PTE_U)

/-- `ismapped`. -/
def ismapped (pagetable va : UInt64) : VmM Bool := do
  match ← walk pagetable va false with
  | none => pure false
  | some (t, k) => do
    let s ← get
    pure (s.page t k &&& PTE_V != 0)

/-- `vmfault`, of the process with the page table `own` and the size `sz`. It returns 0 if the page
cannot be mapped. -/
def vmfault (own sz pagetable va : UInt64) : VmM UInt64 :=
  if sz ≤ va then pure 0
  else do
    let va := pgrounddown va
    if ← ismapped pagetable va then pure 0
    else do
      let mem ← kalloc
      if mem = 0 then pure 0
      else do
        modify fun s => s.setPage mem fun _ => 0
        if ← mappages own va PGSIZE mem (PTE_W ||| PTE_U ||| PTE_R) then pure mem
        else do
          kfree mem
          pure 0

end SustainableXv6.Vm
