import SustainableXv6.Lib.LinkedList
import SustainableXv6.Bio.Machine

/-!
# The list of buffers

The buffers of `kernel/bio.c` are in a circular list through `prev` and `next`, with `bcache.head`
as its sentinel. `binit` builds it, `bget` searches it in both directions, and `brelse` moves a
buffer to its front. `bpin` and `bunpin` change reference counts and move nothing.

A step is what one of the functions does between `acquire(&bcache.lock)` and
`release(&bcache.lock)`, and the sections may come in any order: no discipline is asked of the
callers, so that also a buffer without references may be released or unpinned, and `refcnt` wraps.
The sleep locks come before and after the sections, and no section reads them.

`Listed c l` says that the list of the cache `c` is `l`. Under it the loops of `bget` end, and they
are searches of `l` (`Listed.scan_next`, `Listed.scan_prev`).
-/

namespace SustainableXv6.Bio

open Function Lib

/-! ## The functions -/

/-- The `struct buf`s of `bcache`: `head`, and those of `bcache.buf`. -/
inductive Node
  | head
  | buf (i : BufId)
  deriving DecidableEq, Repr

/-- The fields of a `struct buf` that the functions read and write, apart from the pointers. -/
structure Fields where
  valid : Bool
  dev : UInt32
  blockno : UInt32
  refcnt : UInt32
  deriving DecidableEq, Repr

/-- `bcache`. -/
structure Bcache where
  fields : Node → Fields
  links : Links Node

namespace Bcache

/-- The fields of one `struct buf` are changed. -/
@[simps -fullyApplied]
def set (c : Bcache) (b : Node) (x : Fields) : Bcache :=
  { c with fields := update c.fields b x }

/-- `binit`, with any pointers before. The other fields are zero, as `bcache` is not
initialised. -/
def binit (L : Links Node) : Bcache where
  fields := fun _ => { valid := false, dev := 0, blockno := 0, refcnt := 0 }
  links :=
    let L := { L with prev := update L.prev .head .head }
    let L := { L with next := update L.next .head .head }
    ((List.finRange NBUF).map Node.buf).foldl (Links.pushFront .head) L

/-- The test of the first loop of `bget`. -/
def isFor (c : Bcache) (dev blockno : UInt32) (b : Node) : Bool :=
  (c.fields b).dev = dev && (c.fields b).blockno = blockno

/-- The test of the second loop of `bget`. -/
def isUnused (c : Bcache) (b : Node) : Bool := (c.fields b).refcnt = 0

/-- The buffer `b` has the block already. -/
def hit (c : Bcache) (b : Node) : Bcache :=
  c.set b { c.fields b with refcnt := (c.fields b).refcnt + 1 }

/-- The buffer `b` is recycled. -/
def recycle (c : Bcache) (b : Node) (dev blockno : UInt32) : Bcache :=
  c.set b { dev := dev, blockno := blockno, valid := false, refcnt := 1 }

/-- The section of `bget`: the buffer it returns, or the call of `panic`. There is no result if a
loop does not come back to `head`. -/
def bget (c : Bcache) (dev blockno : UInt32) : Option (Except Panic (Node × Bcache)) :=
  match scan c.links.next .head (c.isFor dev blockno) (NBUF + 1) (c.links.next .head) with
  | none => none
  | some (some b) => some (.ok (b, c.hit b))
  | some none =>
    match scan c.links.prev .head c.isUnused (NBUF + 1) (c.links.prev .head) with
    | none => none
    | some (some b) => some (.ok (b, c.recycle b dev blockno))
    | some none => some (.error .noBuffers)

/-- The section of `brelse`. -/
def brelse (c : Bcache) (i : BufId) : Bcache :=
  let x := c.fields (.buf i)
  let c := c.set (.buf i) { x with refcnt := x.refcnt - 1 }
  if x.refcnt - 1 = 0 then
    { c with links := (c.links.unlink (.buf i)).pushFront .head (.buf i) }
  else c

/-- `bpin`. -/
def bpin (c : Bcache) (i : BufId) : Bcache :=
  c.set (.buf i) { c.fields (.buf i) with refcnt := (c.fields (.buf i)).refcnt + 1 }

/-- `bunpin`. -/
def bunpin (c : Bcache) (i : BufId) : Bcache :=
  c.set (.buf i) { c.fields (.buf i) with refcnt := (c.fields (.buf i)).refcnt - 1 }

/-- The sections of the four functions. -/
inductive Section
  | bget (dev blockno : UInt32)
  | brelse (i : BufId)
  | bpin (i : BufId)
  | bunpin (i : BufId)
  deriving DecidableEq, Repr

/-- The cache after a section, or `none` where `bget` does not return. -/
def step (c : Bcache) : Section → Option Bcache
  | .bget dev blockno =>
    match c.bget dev blockno with
    | some (.ok (_, c')) => some c'
    | some (.error _) => none
    | none => none
  | .brelse i => some (c.brelse i)
  | .bpin i => some (c.bpin i)
  | .bunpin i => some (c.bunpin i)

/-! ## The list -/

/-- The list of the cache from `head.next` on is `l`, and all buffers are in it. -/
structure Listed (c : Bcache) (l : List BufId) : Prop where
  all : ∀ i, i ∈ l
  circular : c.links.Circular .head (l.map .buf)

variable {c c' : Bcache} {l : List BufId} {dev blockno : UInt32} {i j : BufId}

/-- The list has every buffer once. -/
theorem Listed.nodup (h : c.Listed l) : l.Nodup :=
  (List.nodup_cons.mp h.circular.nodup).2.of_map

/-- The list has `NBUF` buffers. -/
theorem Listed.length_eq (h : c.Listed l) : l.length = NBUF := by
  have hcard := List.toFinset_card_of_nodup h.nodup
  have huniv : l.toFinset = Finset.univ :=
    Finset.eq_univ_iff_forall.mpr fun i => List.mem_toFinset.mpr (h.all i)
  rw [← hcard, huniv, Finset.card_univ, Fintype.card_fin]

/-- All nodes are on the way from `head` to `head`. -/
theorem Listed.mem (h : c.Listed l) (b : Node) : b ∈ Node.head :: l.map Node.buf := by
  cases b with
  | head => exact List.mem_cons_self ..
  | buf i => exact List.mem_cons_of_mem _ (List.mem_map_of_mem (h.all i))

/-- `binit` builds the list, the last buffer first. -/
theorem listed_binit (L : Links Node) : (binit L).Listed (List.finRange NBUF).reverse where
  all i := List.mem_reverse.mpr (List.mem_finRange i)
  circular := by
    have hempty : (Links.mk (update L.next .head .head)
        (update L.prev .head .head)).Circular Node.head [] :=
      ⟨by simp, by simp, by simp⟩
    have hnd : ((List.finRange NBUF).map Node.buf).Nodup :=
      (List.nodup_finRange NBUF).map fun _ _ => Node.buf.inj
    have h := hempty.foldl_pushFront ((List.finRange NBUF).map .buf)
      (by rw [List.append_nil]; exact List.nodup_reverse.mpr hnd) (by simp)
    rw [List.append_nil, ← List.map_reverse] at h
    exact h

/-- A search among the buffers of the list. -/
theorem find?_buf (p : Node → Bool) (l : List BufId) :
    (l.map Node.buf).find? p = (l.find? fun i => p (.buf i)).map .buf := by
  rw [List.find?_map]
  rfl

/-- The first loop of `bget` is a search of the list. -/
theorem Listed.scan_next (h : c.Listed l) (p : Node → Bool) :
    scan c.links.next .head p (NBUF + 1) (c.links.next .head) =
      some ((l.find? fun i => p (.buf i)).map .buf) := by
  rw [h.circular.next.scan (List.nodup_cons.mp h.circular.nodup).1, find?_buf]
  rw [List.length_map, h.length_eq]
  exact Nat.lt_succ_self _

/-- The second loop of `bget` is a search of the list from its end. -/
theorem Listed.scan_prev (h : c.Listed l) (p : Node → Bool) :
    scan c.links.prev .head p (NBUF + 1) (c.links.prev .head) =
      some ((l.reverse.find? fun i => p (.buf i)).map .buf) := by
  have hhead : Node.head ∉ (l.map Node.buf).reverse := by simp
  rw [h.circular.prev.scan hhead, ← List.map_reverse, find?_buf]
  rw [List.length_reverse, List.length_map, h.length_eq]
  exact Nat.lt_succ_self _

/-- `bget` of a block that a buffer has. -/
theorem Listed.bget_of_hit (h : c.Listed l)
    (hi : l.find? (fun i => c.isFor dev blockno (.buf i)) = some i) :
    c.bget dev blockno = some (.ok (.buf i, c.hit (.buf i))) := by
  simp only [bget, h.scan_next, hi, Option.map_some]

/-- `bget` of another block, where a buffer is not in use. -/
theorem Listed.bget_of_unused (h : c.Listed l)
    (hmiss : l.find? (fun i => c.isFor dev blockno (.buf i)) = none)
    (hi : l.reverse.find? (fun i => c.isUnused (.buf i)) = some i) :
    c.bget dev blockno = some (.ok (.buf i, c.recycle (.buf i) dev blockno)) := by
  simp only [bget, h.scan_next, h.scan_prev, hmiss, hi, Option.map_some, Option.map_none]

/-- `bget` of another block, where all buffers are in use. -/
theorem Listed.bget_of_none (h : c.Listed l)
    (hmiss : l.find? (fun i => c.isFor dev blockno (.buf i)) = none)
    (hnone : l.reverse.find? (fun i => c.isUnused (.buf i)) = none) :
    c.bget dev blockno = some (.error .noBuffers) := by
  simp only [bget, h.scan_next, h.scan_prev, hmiss, hnone, Option.map_none]

/-- No buffer passes the test of a search of the list that finds nothing. -/
theorem Listed.find?_eq_none (h : c.Listed l) {p : BufId → Bool} :
    l.find? p = none ↔ ∀ i, p i = false := by
  rw [List.find?_eq_none]
  exact ⟨fun hp i => Bool.eq_false_of_not_eq_true (hp i (h.all i)),
    fun hp i _ => Bool.not_eq_true _ ▸ hp i⟩

/-- Whether a buffer has a block, as a proposition. -/
theorem isFor_iff {b : Node} :
    c.isFor dev blockno b = true ↔ (c.fields b).dev = dev ∧ (c.fields b).blockno = blockno := by
  simp [isFor]

/-! ## One section -/

/-- What a section can do: it changes the fields of one buffer `i`, and moves at most this buffer.
A buffer gets another block only if it has no references, and no other buffer has the block. -/
theorem Listed.step_cases (h : c.Listed l) {a : Section} (hs : c.step a = some c') :
    ∃ (i : BufId) (x : Fields), c'.fields = update c.fields (.buf i) x ∧
      (c'.links = c.links ∨ c'.links = (c.links.unlink (.buf i)).pushFront .head (.buf i)) ∧
      (x.dev = (c.fields (.buf i)).dev ∧ x.blockno = (c.fields (.buf i)).blockno ∨
        (c.fields (.buf i)).refcnt = 0 ∧ ∀ j, c.isFor x.dev x.blockno (.buf j) = false) := by
  cases a with
  | bget dev blockno =>
    simp only [step] at hs
    cases hf : l.find? fun i => c.isFor dev blockno (.buf i) with
    | some i =>
      rw [h.bget_of_hit hf] at hs
      obtain rfl : c.hit (.buf i) = c' := by simpa using hs
      exact ⟨i, _, rfl, .inl rfl, .inl ⟨rfl, rfl⟩⟩
    | none =>
      have hmiss := h.find?_eq_none.mp hf
      cases hu : l.reverse.find? fun i => c.isUnused (.buf i) with
      | none =>
        rw [h.bget_of_none hf hu] at hs
        simp at hs
      | some i =>
        rw [h.bget_of_unused hf hu] at hs
        obtain rfl : c.recycle (.buf i) dev blockno = c' := by simpa using hs
        have hzero : (c.fields (.buf i)).refcnt = 0 := by simpa [isUnused] using List.find?_some hu
        exact ⟨i, _, rfl, .inl rfl, .inr ⟨hzero, hmiss⟩⟩
  | brelse i =>
    obtain rfl : c.brelse i = c' := by simpa [step] using hs
    refine ⟨i, { c.fields (.buf i) with refcnt := (c.fields (.buf i)).refcnt - 1 }, ?_, ?_,
      .inl ⟨rfl, rfl⟩⟩
    · simp only [brelse]
      split <;> rfl
    · simp only [brelse]
      split
      · exact .inr rfl
      · exact .inl rfl
  | bpin i =>
    obtain rfl : c.bpin i = c' := by simpa [step] using hs
    exact ⟨i, _, rfl, .inl rfl, .inl ⟨rfl, rfl⟩⟩
  | bunpin i =>
    obtain rfl : c.bunpin i = c' := by simpa [step] using hs
    exact ⟨i, _, rfl, .inl rfl, .inl ⟨rfl, rfl⟩⟩

/-- A buffer is moved to the front of the list. -/
theorem Listed.move (h : c.Listed l) (i : BufId)
    (hl : c'.links = (c.links.unlink (.buf i)).pushFront .head (.buf i)) :
    c'.Listed (i :: l.erase i) where
  all j := by
    rcases eq_or_ne j i with rfl | hji
    · exact List.mem_cons_self ..
    · exact List.mem_cons_of_mem _ ((List.mem_erase_of_ne hji).mpr (h.all j))
  circular := by
    obtain ⟨l₁, l₂, hi, rfl, herase⟩ := List.exists_erase_eq (h.all i)
    have hc := h.circular
    rw [List.map_append, List.map_cons] at hc
    rw [herase, hl, List.map_cons, List.map_append]
    exact hc.unlink.pushFront hc.not_mem_of_split

/-- Every section keeps the list, up to its order. -/
theorem Listed.step (h : c.Listed l) {a : Section} (hs : c.step a = some c') :
    ∃ l', c'.Listed l' := by
  obtain ⟨i, -, -, hlinks, -⟩ := h.step_cases hs
  rcases hlinks with hlinks | hlinks
  · exact ⟨l, h.all, hlinks ▸ h.circular⟩
  · exact ⟨_, h.move i hlinks⟩

/-- No two buffers are for one block, apart from the block that all buffers are for after
`binit`. -/
def Unique (c : Bcache) : Prop :=
  ∀ i j, (c.fields (.buf i)).dev = (c.fields (.buf j)).dev →
    (c.fields (.buf i)).blockno = (c.fields (.buf j)).blockno →
    ((c.fields (.buf i)).dev ≠ 0 ∨ (c.fields (.buf i)).blockno ≠ 0) → i = j

/-- Every section keeps the buffers apart: the search for the block and the recycling are in one
section. -/
theorem Unique.step (hu : c.Unique) (h : c.Listed l) {a : Section} (hs : c.step a = some c') :
    c'.Unique := by
  obtain ⟨k, x, hfields, -, hx⟩ := h.step_cases hs
  -- The changed buffer against another one, whose fields are as before.
  have hother : ∀ j, j ≠ k → x.dev = (c.fields (.buf j)).dev →
      x.blockno = (c.fields (.buf j)).blockno → x.dev ≠ 0 ∨ x.blockno ≠ 0 → False := by
    intro j hjk hd hb hnz
    rcases hx with ⟨hxd, hxb⟩ | ⟨-, hmiss⟩
    · rw [hxd, hxb] at hnz
      exact hjk (hu k j (hxd ▸ hd) (hxb ▸ hb) hnz).symm
    · have hj := isFor_iff.mpr ⟨hd.symm, hb.symm⟩
      rw [hmiss j] at hj
      exact Bool.false_ne_true hj
  have hfield : ∀ j, c'.fields (.buf j) = if j = k then x else c.fields (.buf j) := by
    intro j
    rw [hfields, update_apply]
    simp only [Node.buf.injEq]
  intro i j hd hb hnz
  simp only [hfield] at hd hb hnz
  by_cases hi : i = k <;> by_cases hj : j = k
  · exact hi.trans hj.symm
  · simp only [if_pos hi, if_neg hj] at hd hb hnz
    exact (hother j hj hd hb hnz).elim
  · simp only [if_neg hi, if_pos hj] at hd hb hnz
    rw [hd, hb] at hnz
    exact (hother i hi hd.symm hb.symm hnz).elim
  · simp only [if_neg hi, if_neg hj] at hd hb hnz
    exact hu i j hd hb hnz

/-- A section gives no other block to a buffer with references. -/
theorem Listed.step_keeps (h : c.Listed l) {a : Section} (hs : c.step a = some c')
    (hi : (c.fields (.buf i)).refcnt ≠ 0) :
    (c'.fields (.buf i)).dev = (c.fields (.buf i)).dev ∧
      (c'.fields (.buf i)).blockno = (c.fields (.buf i)).blockno := by
  obtain ⟨k, x, hfields, -, hx⟩ := h.step_cases hs
  rw [hfields]
  rcases eq_or_ne i k with rfl | hik
  · rw [update_self]
    rcases hx with hx | ⟨hzero, -⟩
    · exact hx
    · exact absurd hzero hi
  · rw [update_of_ne (fun he => hik (Node.buf.inj he))]
    exact ⟨rfl, rfl⟩

/-! ## Runs -/

/-- In every run from `binit` there is a list, and the buffers are for different blocks. -/
theorem reach_binit {L : Links Node} (h : Reach step (binit L) c) :
    (∃ l, c.Listed l) ∧ c.Unique := by
  refine h.invariant (I := fun c => (∃ l, c.Listed l) ∧ c.Unique) ⟨⟨_, listed_binit L⟩, ?_⟩ ?_
  · intro i j _ _ hnz
    simp [binit] at hnz
  · rintro c a c' - ⟨⟨l, hl⟩, hu⟩ - hs
    exact ⟨hl.step hs, hu.step hl hs⟩

/-- The representation of the buffer list. After `binit` and any sections of `bget`, `brelse`,
`bpin`, and `bunpin`, the pointers from `head` visit a list `l` of all the buffers, each of them
once, and `prev` is the inverse of `next`. No two buffers are for one block, apart from block 0 of
device 0. `bget` returns a buffer that has the block, if there is one. Otherwise it recycles the
buffer without references that is next to `head.prev`, and calls `panic` if there is none. And no
section gives another block to a buffer with references. -/
theorem buffer_list (L : Links Node) (c : Bcache) (h : Reach step (binit L) c) :
    (∃ l : List BufId, l.Nodup ∧ l.length = NBUF ∧ (∀ i, i ∈ l) ∧
      Chain c.links.next .head (l.map .buf) .head ∧
      (∀ dev blockno,
        ((∃ i, (c.fields (.buf i)).dev = dev ∧ (c.fields (.buf i)).blockno = blockno) →
          ∃ i, ((c.fields (.buf i)).dev = dev ∧ (c.fields (.buf i)).blockno = blockno) ∧
            c.bget dev blockno = some (.ok (.buf i, c.hit (.buf i)))) ∧
        ((∀ i, ¬ ((c.fields (.buf i)).dev = dev ∧ (c.fields (.buf i)).blockno = blockno)) →
          (∀ l₁ i l₂, l = l₁ ++ i :: l₂ → (c.fields (.buf i)).refcnt = 0 →
            (∀ j ∈ l₂, (c.fields (.buf j)).refcnt ≠ 0) →
            c.bget dev blockno = some (.ok (.buf i, c.recycle (.buf i) dev blockno))) ∧
          ((∀ i, (c.fields (.buf i)).refcnt ≠ 0) →
            c.bget dev blockno = some (.error .noBuffers))))) ∧
    (∀ b, c.links.prev (c.links.next b) = b ∧ c.links.next (c.links.prev b) = b) ∧
    (∀ i j, (c.fields (.buf i)).dev = (c.fields (.buf j)).dev →
      (c.fields (.buf i)).blockno = (c.fields (.buf j)).blockno →
      ((c.fields (.buf i)).dev ≠ 0 ∨ (c.fields (.buf i)).blockno ≠ 0) → i = j) ∧
    (∀ a c', c.step a = some c' → ∀ i, (c.fields (.buf i)).refcnt ≠ 0 →
      (c'.fields (.buf i)).dev = (c.fields (.buf i)).dev ∧
        (c'.fields (.buf i)).blockno = (c.fields (.buf i)).blockno) := by
  obtain ⟨⟨l, hl⟩, hu⟩ := reach_binit h
  refine ⟨⟨l, hl.nodup, hl.length_eq, hl.all, hl.circular.next, fun dev blockno => ⟨?_, ?_⟩⟩,
    fun b => ⟨hl.circular.prev_next (hl.mem b), hl.circular.next_prev (hl.mem b)⟩, hu,
    fun a c' hs i hi => hl.step_keeps hs hi⟩
  · rintro ⟨j, hj⟩
    cases hf : l.find? fun i => c.isFor dev blockno (.buf i) with
    | some i =>
      have hi : c.isFor dev blockno (.buf i) = true := by simpa using List.find?_some hf
      exact ⟨i, isFor_iff.mp hi, hl.bget_of_hit hf⟩
    | none =>
      have hmiss := hl.find?_eq_none.mp hf j
      rw [isFor_iff.mpr hj] at hmiss
      exact absurd hmiss.symm Bool.false_ne_true
  · intro hno
    have hmiss : l.find? (fun i => c.isFor dev blockno (.buf i)) = none :=
      hl.find?_eq_none.mpr fun i => Bool.eq_false_of_not_eq_true fun ht => hno i (isFor_iff.mp ht)
    constructor
    · rintro l₁ i l₂ rfl hi hbusy
      refine hl.bget_of_unused hmiss ?_
      have hrev : (l₁ ++ i :: l₂).reverse = l₂.reverse ++ i :: l₁.reverse := by simp
      -- The buffers after `i` in the list, which the loop sees first, are in use.
      have hskip : l₂.reverse.find? (fun j => c.isUnused (.buf j)) = none := by
        rw [List.find?_eq_none]
        intro j hj
        simpa [isUnused] using hbusy j (List.mem_reverse.mp hj)
      rw [hrev, List.find?_append, hskip, Option.none_or,
        List.find?_cons_of_pos (by simpa [isUnused] using hi)]
    · intro hbusy
      refine hl.bget_of_none hmiss (List.find?_eq_none.mpr fun j _ => ?_)
      simpa [isUnused] using hbusy j

/-- Pointers as they may be before `binit`. -/
def zeroLinks : Links Node := ⟨fun _ => .head, fun _ => .head⟩

/-- Block 36 is read and pinned, as `log_write` does. Block 37 is read after it and released, so
that its buffer moves to the front. -/
def readsTwo : List Section :=
  [.bget ROOTDEV 36, .bpin 0, .brelse 0, .bget ROOTDEV 37, .brelse 1]

/-- After these sections the buffer of block 37 is the first one of the list, that of block 36 is
still pinned, and no further section gives it away. -/
theorem buffer_list_readsTwo :
    ∃ c, Reach step (binit zeroLinks) c ∧ c.links.next .head = .buf 1 ∧
      (c.fields (.buf 0)).refcnt = 1 ∧ (c.fields (.buf 0)).blockno = 36 ∧
      (∀ b, c.links.prev (c.links.next b) = b ∧ c.links.next (c.links.prev b) = b) ∧
      ∀ a c', c.step a = some c' → (c'.fields (.buf 0)).blockno = 36 := by
  obtain ⟨c, hc, hfront, hpinned, hblock⟩ := exists_of_run step (fun _ _ => True) (binit zeroLinks)
    readsTwo
    (fun c => c.links.next .head = .buf 1 ∧ (c.fields (.buf 0)).refcnt = 1 ∧
      (c.fields (.buf 0)).blockno = 36) (by decide +kernel)
  obtain ⟨-, hinverse, -, hkeeps⟩ := buffer_list zeroLinks c hc
  refine ⟨c, hc, hfront, hpinned, hblock, hinverse, fun a c' hs => ?_⟩
  rw [(hkeeps a c' hs 0 (by simp [hpinned])).2, hblock]

/-- After `bget` of block 0 of device 0, all buffers are for this block, as after `binit`. -/
theorem zero_block_twice :
    ∃ c, step (binit zeroLinks) (.bget 0 0) = some c ∧ ∃ i j : BufId, i ≠ j ∧
      (c.fields (.buf i)).dev = 0 ∧ (c.fields (.buf j)).dev = 0 ∧
      (c.fields (.buf i)).blockno = (c.fields (.buf j)).blockno := by
  have hl := listed_binit zeroLinks
  have hf : (List.finRange NBUF).reverse.find?
      (fun i => (binit zeroLinks).isFor 0 0 (.buf i)) = some (Fin.ofNat NBUF 29) := rfl
  refine ⟨(binit zeroLinks).hit (.buf (Fin.ofNat NBUF 29)), ?_, 0, 1, by decide, ?_⟩
  · rw [step, hl.bget_of_hit hf]
  · decide +kernel

end Bcache

end SustainableXv6.Bio
