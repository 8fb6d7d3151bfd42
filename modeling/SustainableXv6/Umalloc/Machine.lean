import SustainableXv6.Lib.LinkedList
import SustainableXv6.Lib.Tiling
import SustainableXv6.Lib.Transition

/-!
# The allocator of `user/umalloc.c`

`malloc` and `free` keep a circular list of free blocks in the order of their addresses, which
starts at the static header `base`. A block is a header and the units after it, and `size` counts
the header. `morecore` asks the kernel for more memory by `sbrk`.

Memory is a map from addresses to the header that is there. A store to a header changes this header
only, which is right as long as no two headers in use overlap. Addresses are natural numbers: the
kernel keeps all user memory below `TRAPFRAME`, far from where a pointer would wrap. `size` is a
`uint`, and the argument of `sbrk` is an `int`, as in the source.

The field `got` is history: it has the regions by which `sbrk` has extended the memory.
-/

namespace SustainableXv6.Umalloc

open Function Lib

/-! ## The state -/

/-- `sizeof(Header)`. -/
def HDR : ℕ := 16

/-- The end of user memory: `MAXVA` without the trampoline and the trap frame. -/
def TRAPFRAME : ℕ := 2 ^ 38 - 2 * 4096

/-- `union header`. -/
structure Header where
  ptr : ℕ
  size : UInt32
  deriving DecidableEq, Repr

/-- The memory of the process. -/
structure Heap where
  mem : ℕ → Header
  /-- `freep`, which is 0 before the first call of `malloc`. -/
  freep : ℕ
  /-- The end of the memory of the process, `p->sz` in the kernel. -/
  brk : ℕ
  /-- The regions obtained from `sbrk`, with their lengths in bytes. -/
  got : List (ℕ × ℕ)

/-- What does not change: the address of `base`, and how many bytes `sbrk` gives at most. -/
structure Env where
  base : ℕ
  ram : ℕ

namespace Heap

/-- `a->s.ptr`. -/
def next (h : Heap) (a : ℕ) : ℕ := (h.mem a).ptr

/-- `a->s.size`, as a number. -/
def units (h : Heap) (a : ℕ) : ℕ := (h.mem a).size.toNat

/-- `a + a->s.size`. -/
def stop (h : Heap) (a : ℕ) : ℕ := a + HDR * h.units a

/-- `a->s.ptr = p`. -/
def setPtr (h : Heap) (a p : ℕ) : Heap :=
  { h with mem := update h.mem a { h.mem a with ptr := p } }

/-- `a->s.size = n`. -/
def setSize (h : Heap) (a : ℕ) (n : UInt32) : Heap :=
  { h with mem := update h.mem a { h.mem a with size := n } }

/-! ## `free` -/

/-- The loop of `free` ends at `p`: the block `bp` goes between `p` and the next one, or it goes
behind the last one, or before the first one. -/
def place (h : Heap) (bp p : ℕ) : Bool :=
  (p < bp && bp < h.next p) || (h.next p ≤ p && (p < bp || bp < h.next p))

/-- The block `bp` is joined with the next one, or it is made to point to it. -/
def joinUpper (h : Heap) (bp p : ℕ) : Heap :=
  if h.stop bp = h.next p then
    let h := h.setSize bp ((h.mem bp).size + (h.mem (h.next p)).size)
    h.setPtr bp (h.next (h.next p))
  else h.setPtr bp (h.next p)

/-- The block `bp` is joined with the one before, or that one is made to point to it. -/
def joinLower (h : Heap) (bp p : ℕ) : Heap :=
  if h.stop p = bp then
    let h := h.setSize p ((h.mem p).size + (h.mem bp).size)
    h.setPtr p (h.next bp)
  else h.setPtr p bp

/-- `free`. It has no result if its loop does not end. -/
def free (h : Heap) (ap : ℕ) : Option Heap :=
  let bp := ap - HDR
  (follow h.next (h.place bp) (TRAPFRAME + 2) h.freep).map fun p =>
    { (h.joinUpper bp p).joinLower bp p with freep := p }

/-! ## `morecore` -/

/-- `sbrk(n)`, which is `sys_sbrk(n, SBRK_EAGER)`: the old end of the memory, or nothing for
`SBRK_ERROR`. A positive `n` extends the memory if `growproc` finds room below `TRAPFRAME` and
enough memory, and `ok` tells whether it finds the memory below `ram`. A negative `n` shrinks it,
and `uvmdealloc` does nothing where the new end would be below 0. -/
def sbrk (E : Env) (h : Heap) (n : Int32) (ok : Bool) : Option ℕ × Heap :=
  if 0 < n.toInt then
    let m := n.toInt.toNat
    if ok ∧ h.brk + m ≤ TRAPFRAME ∧ totalLength h.got + m ≤ E.ram then
      (some h.brk, { h with brk := h.brk + m, got := (h.brk, m) :: h.got })
    else (none, h)
  else
    let m := (-n.toInt).toNat
    if m ≤ h.brk then (some h.brk, { h with brk := h.brk - m }) else (some h.brk, h)

/-- `morecore`: `freep` after it, or 0 where `sbrk` fails. -/
def morecore (E : Env) (h : Heap) (nu : UInt32) (ok : Bool) : Option (ℕ × Heap) :=
  let nu := if nu < 4096 then 4096 else nu
  -- The product has 64 bits, and the parameter of `sbrk` is an `int`.
  let r := h.sbrk E (Int32.ofNat (nu.toNat * HDR)) ok
  match r.1 with
  | none => some (0, r.2)
  | some hp => ((r.2.setSize hp nu).free (hp + HDR)).map fun h => (h.freep, h)

/-! ## `malloc` -/

/-- The block `p` after `prevp` is taken, or its last units are. -/
def take (h : Heap) (nunits : UInt32) (prevp p : ℕ) : ℕ × Heap :=
  if (h.mem p).size = nunits then
    (p + HDR, { h.setPtr prevp (h.next p) with freep := prevp })
  else
    let h := h.setSize p ((h.mem p).size - nunits)
    let q := h.stop p
    (q + HDR, { h.setSize q nunits with freep := prevp })

/-- The loop of `malloc`. It has no result if it does not end within `fuel` rounds. -/
def mallocLoop (E : Env) (nunits : UInt32) (ok : Bool) :
    ℕ → Heap → ℕ → ℕ → Option (ℕ × Heap)
  | 0, _, _, _ => none
  | fuel + 1, h, prevp, p =>
    if nunits ≤ (h.mem p).size then some (h.take nunits prevp p)
    else if p = h.freep then
      match h.morecore E nunits ok with
      | none => none
      | some (p, h) => if p = 0 then some (0, h) else mallocLoop E nunits ok fuel h p (h.next p)
    else mallocLoop E nunits ok fuel h p (h.next p)

/-- The number of units for `nbytes` bytes, with the header. The sum has 64 bits, and the result
fits into a `uint`. -/
def nunits (nbytes : UInt32) : UInt32 := UInt32.ofNat ((nbytes.toNat + HDR - 1) / HDR + 1)

/-- The list is made by the first call of `malloc`. -/
def init (E : Env) (h : Heap) : Heap :=
  if h.freep = 0 then
    { h with mem := update h.mem E.base ⟨E.base, 0⟩, freep := E.base }
  else h

/-- `malloc`, with 0 for a null pointer. The loop goes round the list twice at most, and a list has
less than `TRAPFRAME` blocks. -/
def malloc (E : Env) (h : Heap) (nbytes : UInt32) (ok : Bool) : Option (ℕ × Heap) :=
  let h := h.init E
  mallocLoop E (nunits nbytes) ok (2 * (TRAPFRAME + 2)) h h.freep (h.next h.freep)

end Heap

/-! ## The program -/

/-- The memory, and the blocks that the program has: the pointers with the numbers of bytes that it
has asked for. -/
structure State where
  heap : Heap
  live : List (ℕ × ℕ)

/-- The state of a process whose memory ends at `brk`, before the first call of `malloc`. -/
def State.start (mem : ℕ → Header) (brk : ℕ) : State :=
  { heap := { mem := mem, freep := 0, brk := brk, got := [] }, live := [] }

/-- What the program does. -/
inductive Act
  /-- `malloc(n)`, where `ok` tells whether the kernel has the memory that `sbrk` asks for. -/
  | malloc (n : UInt32) (ok : Bool)
  /-- `free(p)` of a live pointer. -/
  | free (p : ℕ)
  /-- A store into a live block, after which the bytes at `a` are those of the header `v`. -/
  | store (a : ℕ) (v : Header)
  /-- The program extends its memory by `n` bytes that are its own. -/
  | grow (n : ℕ)

/-- The state after an action, or `none` where it is not enabled or does not return. -/
def step (E : Env) (s : State) : Act → Option State
  | .malloc n ok =>
    (s.heap.malloc E n ok).map fun r =>
      if r.1 = 0 then { s with heap := r.2 }
      else { heap := r.2, live := (r.1, n.toNat) :: s.live }
  | .free p =>
    match s.live.find? (·.1 == p) with
    | none => none
    | some b => (s.heap.free p).map fun h => { heap := h, live := s.live.erase b }
  | .store a v =>
    if s.live.any fun b => a < b.1 + b.2 && b.1 < a + HDR then
      some { s with heap := { s.heap with mem := update s.heap.mem a v } }
    else none
  | .grow n =>
    if s.heap.brk + n ≤ TRAPFRAME then some { s with heap := { s.heap with brk := s.heap.brk + n } }
    else none

end SustainableXv6.Umalloc
