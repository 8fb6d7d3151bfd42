import SustainableXv6.Umalloc.Malloc

/-!
# Runs of the allocator

A program calls `malloc` and `free`, stores into its live blocks and may extend its memory itself.
As long as the rounded size of each request fits into a positive `int` (`Fits`), every state has a
list of free blocks which, with the live blocks, tiles the memory obtained from `sbrk`
(`free_list`). So the live blocks lie in this memory, and they overlap neither each other nor a
header (`live_apart`).

Without the condition the argument of `sbrk` is truncated, and `malloc` returns a block that is not
there (`malloc_beyond_break`).
-/

namespace SustainableXv6.Umalloc

open Function Lib

variable {E : Env} {h h' : Heap} {s s' : State} {fl lv : List ℕ} {b : ℕ × ℕ} {a p n brk : ℕ}
  {mem : ℕ → Header}

/-! ## One state -/

/-- The headers of the live blocks. -/
def State.headers (s : State) : List ℕ := s.live.map (·.1 - HDR)

/-- The block of a live pointer has room for the header and the bytes that were asked for. -/
def Sized (h : Heap) (b : ℕ × ℕ) : Prop := HDR ≤ b.1 ∧ b.2 + HDR ≤ HDR * h.units (b.1 - HDR)

/-- The list has the free blocks `fl`, and the live blocks have their sizes. -/
structure Good (E : Env) (s : State) (fl : List ℕ) : Prop where
  inv : Inv E s.heap fl s.headers
  sized : ∀ b ∈ s.live, Sized s.heap b

/-- A process that has not called `malloc` yet. -/
structure Fresh (E : Env) (s : State) : Prop where
  freep : s.heap.freep = 0
  got : s.heap.got = []
  live : s.live = []
  low : E.base + HDR ≤ s.heap.brk
  top : s.heap.brk ≤ TRAPFRAME

/-- The first call of `malloc` makes an empty list. -/
theorem Fresh.inv_init (hf : Fresh E s) : Inv E (s.heap.init E) [] s.headers := by
  have hinit : s.heap.init E =
      ⟨update s.heap.mem E.base ⟨E.base, 0⟩, E.base, s.heap.brk, s.heap.got⟩ :=
    if_pos hf.freep
  have hhead : s.headers = [] := by rw [State.headers, hf.live, List.map_nil]
  rw [hinit, hhead, hf.got]
  refine ⟨?_, List.pairwise_singleton _ _, List.mem_singleton_self _, ?_, by simp, ?_⟩
  · simp [Heap.next]
  · simp [Heap.units]
  · refine ⟨?_, rfl, by simp, Nat.zero_le _, hf.low, hf.top⟩
    have hobt : (⟨update s.heap.mem E.base ⟨E.base, 0⟩, E.base, s.heap.brk, []⟩ :
        Heap).obtained = ∅ := by
      ext x
      simp [Heap.obtained]
    rw [hobt]
    exact Tiles.nil

/-- A list that exists is not made again. -/
theorem init_init (hE : E.Ok) : (h.init E).init E = h.init E := by
  by_cases h0 : h.freep = 0
  · have hne : (h.init E).freep ≠ 0 := by
      rw [Heap.init, if_pos h0]
      exact hE.base.ne'
    exact if_neg hne
  · have hinit : h.init E = h := if_neg h0
    rw [hinit, hinit]

/-- `freep` is not null once the list exists. -/
theorem Inv.freep_ne (hi : Inv E h fl lv) (hE : E.Ok) : h.freep ≠ 0 := by
  have hpos := hE.base
  rcases List.mem_cons.mp hi.freep with he | hmem
  · omega
  · have := hi.base_lt (List.mem_append_left _ hmem)
    omega

/-- Stores elsewhere leave the list and the blocks. -/
theorem Inv.congr (hi : Inv E h fl lv) (hmem : ∀ x ∈ E.base :: (fl ++ lv), h'.mem x = h.mem x)
    (hfreep : h'.freep = h.freep) (hgot : h'.got = h.got) (hbrk : h'.brk = h.brk) :
    Inv E h' fl lv := by
  have hlist : ∀ x ∈ E.base :: fl, h'.mem x = h.mem x :=
    fun x hx => hmem x (List.cons_subset_cons _ (List.subset_append_left ..) hx)
  have hunits : ∀ x ∈ fl ++ lv, h'.units x = h.units x :=
    fun x hx => by rw [Heap.units, Heap.units, hmem x (List.mem_cons_of_mem _ hx)]
  have hnext : ∀ x ∈ E.base :: fl, h'.next x = h.next x :=
    fun x hx => by rw [Heap.next, Heap.next, hlist x hx]
  refine ⟨hi.chain.congr hnext, hi.sorted, hfreep ▸ hi.freep, ?_, fun x hx => ?_,
    hi.blocks.congr hgot hbrk hunits⟩
  · rw [Heap.units, hlist _ (List.mem_cons_self ..)]
    exact hi.baseSize
  · rw [Heap.stop, hunits x (List.mem_append_left _ hx), hnext x (List.mem_cons_of_mem _ hx)]
    exact hi.apart x hx

/-- The program extends its memory. -/
theorem Inv.grow (hi : Inv E h fl lv) (htop : h.brk + n ≤ TRAPFRAME) :
    Inv E { h with brk := h.brk + n } fl lv := by
  have hlow := hi.blocks.low
  refine ⟨hi.chain, hi.sorted, hi.freep, hi.baseSize, hi.apart, hi.blocks.tiles, hi.blocks.total,
    fun r hr => ?_, hi.blocks.ram, Nat.le_add_right_of_le hlow, htop⟩
  obtain ⟨h₁, h₂⟩ := hi.blocks.regions r hr
  exact ⟨h₁, Nat.le_add_right_of_le h₂⟩

/-- The header of a live block is a block of the tiling. -/
theorem header_mem (hb : b ∈ s.live) : b.1 - HDR ∈ fl ++ s.headers :=
  List.mem_append_right _ (List.mem_map_of_mem hb)

namespace Good

variable (hg : Good E s fl)
include hg

/-- The bytes of a live block lie in its block. -/
theorem stop_ge (hb : b ∈ s.live) :
    b.1 - HDR + HDR = b.1 ∧ b.1 + b.2 ≤ s.heap.stop (b.1 - HDR) := by
  obtain ⟨hle, hsize⟩ := hg.sized b hb
  rw [Heap.stop]
  omega

/-- A block of the tiling that is not that of a live pointer does not overlap its bytes. -/
theorem apart_of_ne (hb : b ∈ s.live) (ha : a ∈ fl ++ s.headers) (hne : a ≠ b.1 - HDR) :
    s.heap.stop a ≤ b.1 - HDR ∨ b.1 + b.2 ≤ a := by
  refine (hg.inv.blocks.apart ha (header_mem hb) hne).imp_right fun hle => ?_
  exact (hg.stop_ge hb).2.trans hle

/-- The bytes of a live block do not overlap a header. -/
theorem apart_header (hb : b ∈ s.live) (ha : a ∈ E.base :: (fl ++ s.headers)) :
    Apart b (a, HDR) := by
  have hstop := hg.stop_ge hb
  rcases List.mem_cons.mp ha with rfl | ha
  · have hr := (hg.inv.blocks.range (header_mem hb)).1
    refine .inr ?_
    change E.base + HDR ≤ b.1
    omega
  · by_cases hne : a = b.1 - HDR
    · refine .inr ?_
      change a + HDR ≤ b.1
      omega
    · refine (hg.apart_of_ne hb ha hne).symm.imp_right fun hle => ?_
      have hpos : HDR * 1 ≤ HDR * s.heap.units a :=
        Nat.mul_le_mul_left _ (hg.inv.blocks.pos ha)
      change a + HDR ≤ b.1
      rw [Heap.stop] at hle
      omega

/-- The bytes of two live blocks do not overlap. -/
theorem live_pairwise : s.live.Pairwise Apart := by
  have hnd : s.headers.Nodup := (List.nodup_append.mp hg.inv.blocks.nodup).2.1
  refine (List.pairwise_map.mp hnd).imp_of_mem fun {b c} hb hc hne => ?_
  have hc' := hg.stop_ge hc
  refine (hg.apart_of_ne hb (header_mem hc) (Ne.symm hne)).symm.imp (fun hle => ?_) fun hle => ?_
  · exact hle.trans (Nat.sub_le ..)
  · have hb' := hg.stop_ge hb
    exact (hc'.2.trans hle).trans (Nat.sub_le ..)

/-- The list from the start goes through the free blocks only. -/
theorem iterate_mem (k : ℕ) : s.heap.next^[k] E.base ∈ E.base :: fl := by
  induction k with
  | zero => exact List.mem_cons_self ..
  | succ k ih =>
    rw [iterate_succ_apply']
    exact hg.inv.chain.mem_of_mem ih

end Good

/-! ## One step -/

/-- The condition on a step: the rounded size of a request fits into a positive `int`. -/
def Fits : State → Act → Prop
  | _, .malloc n _ => (Heap.nunits n).toNat * HDR < 2 ^ 31
  | _, _ => True

instance : ∀ s a, Decidable (Fits s a)
  | _, .malloc _ _ => Nat.decLt ..
  | _, .free _ => instDecidableTrue
  | _, .store _ _ => instDecidableTrue
  | _, .grow _ => instDecidableTrue

/-- What holds in every state of a run. -/
def Kept (E : Env) (s : State) : Prop := Fresh E s ∨ ∃ fl, Good E s fl

/-- Before a call of `malloc` there is a list, which the call itself may make. -/
theorem Kept.exists_good (hk : Kept E s) (hE : E.Ok) :
    ∃ fl, Good E { s with heap := s.heap.init E } fl := by
  rcases hk with hf | ⟨fl, hg⟩
  · refine ⟨[], hf.inv_init, fun b hb => ?_⟩
    rw [hf.live] at hb
    exact absurd hb List.not_mem_nil
  · have hinit : s.heap.init E = s.heap := if_neg (hg.inv.freep_ne hE)
    rw [hinit]
    exact ⟨fl, hg⟩

/-- A block has the units for the bytes and the header. -/
theorem add_le_nunits (nbytes : UInt32) :
    nbytes.toNat + HDR ≤ HDR * (Heap.nunits nbytes).toNat := by
  rw [toNat_nunits]
  simp only [HDR]
  omega

/-- `malloc` returns, and keeps what holds. -/
theorem Kept.malloc (hk : Kept E s) (hE : E.Ok) {nbytes : UInt32} {ok : Bool}
    (hfit : Fits s (.malloc nbytes ok)) :
    ∃ r, s.heap.malloc E nbytes ok = some r ∧
      Kept E (if r.1 = 0 then { s with heap := r.2 }
        else { heap := r.2, live := (r.1, nbytes.toNat) :: s.live }) := by
  obtain ⟨fl, hg⟩ := hk.exists_good hE
  have hinit : s.heap.malloc E nbytes ok = (s.heap.init E).malloc E nbytes ok := by
    rw [Heap.malloc, Heap.malloc, init_init hE]
  rw [hinit]
  rcases hg.inv.malloc hE hfit ok with hnull | ⟨a, h', fl', hret, hinv, hunits, hsame⟩
  · exact ⟨_, hnull, .inr ⟨fl, hg⟩⟩
  · refine ⟨_, hret, .inr ⟨fl', ?_⟩⟩
    have hne : a + HDR ≠ 0 := Nat.succ_ne_zero _
    rw [if_neg hne]
    have hhead : State.headers ⟨h', (a + HDR, nbytes.toNat) :: s.live⟩ = a :: s.headers := by
      simp [State.headers]
    refine ⟨hhead ▸ hinv, List.forall_mem_cons.mpr ⟨⟨Nat.le_add_left .., ?_⟩, fun b hb => ?_⟩⟩
    · change nbytes.toNat + HDR ≤ HDR * h'.units (a + HDR - HDR)
      rw [Nat.add_sub_cancel, hunits]
      exact add_le_nunits nbytes
    · obtain ⟨hle, hsize⟩ := hg.sized b hb
      refine ⟨hle, ?_⟩
      rw [hsame _ (List.mem_map_of_mem hb)]
      exact hsize

/-- `free` of a live pointer returns, and keeps what holds. -/
theorem Good.free (hg : Good E s fl) (hE : E.Ok) (hb : b ∈ s.live) :
    ∃ h', s.heap.free b.1 = some h' ∧ ∃ fl', Good E ⟨h', s.live.erase b⟩ fl' := by
  obtain ⟨l₁, l₂, -, hl, herase⟩ := List.exists_erase_eq hb
  have hi := hg.inv
  have hhead : s.headers = l₁.map (·.1 - HDR) ++ (b.1 - HDR) :: l₂.map (·.1 - HDR) := by
    rw [State.headers, hl, List.map_append, List.map_cons]
  rw [hhead] at hi
  obtain ⟨h', fl', hret, hinv, -, hsame, -⟩ := hi.free hE
  rw [(hg.stop_ge hb).1] at hret
  refine ⟨h', hret, fl', ?_, fun c hc => ?_⟩
  · rw [State.headers, herase, List.map_append]
    exact hinv
  · obtain ⟨hle, hsize⟩ := hg.sized c (List.mem_of_mem_erase hc)
    have hcm : c.1 - HDR ∈ l₁.map (·.1 - HDR) ++ l₂.map (·.1 - HDR) := by
      rw [← List.map_append, ← herase]
      exact List.mem_map_of_mem hc
    refine ⟨hle, ?_⟩
    rw [hsame _ hcm]
    exact hsize

/-- A store into a live block changes no header. -/
theorem Good.store (hg : Good E s fl) {v : Header}
    (hb : b ∈ s.live) (hlo : a < b.1 + b.2) (hhi : b.1 < a + HDR) :
    Good E { s with heap := { s.heap with mem := update s.heap.mem a v } } fl := by
  have hsame : ∀ x ∈ E.base :: (fl ++ s.headers),
      update s.heap.mem a v x = s.heap.mem x := by
    intro x hx
    refine update_of_ne ?_ _ _
    rintro rfl
    rcases hg.apart_header hb hx with hle | hle
    · exact absurd hle (by simpa using hlo)
    · exact absurd hle (by simpa using hhi)
  refine ⟨hg.inv.congr hsame rfl rfl rfl, fun c hc => ?_⟩
  obtain ⟨hle, hsize⟩ := hg.sized c hc
  refine ⟨hle, ?_⟩
  change c.2 + HDR ≤ HDR * (update s.heap.mem a v (c.1 - HDR)).size.toNat
  rw [hsame _ (List.mem_cons_of_mem _ (header_mem hc))]
  exact hsize

/-- A step that meets the condition keeps what holds. -/
theorem Kept.step (hk : Kept E s) (hE : E.Ok) {act : Act} (hfit : Fits s act)
    (hs : step E s act = some s') : Kept E s' := by
  cases act with
  | malloc nbytes ok =>
    obtain ⟨r, hret, hk'⟩ := hk.malloc hE hfit
    rw [Umalloc.step, hret, Option.map_some, Option.some.injEq] at hs
    exact hs ▸ hk'
  | free p =>
    rw [Umalloc.step] at hs
    cases hfind : s.live.find? (·.1 == p) with
    | none => simp [hfind] at hs
    | some b =>
      have hb : b ∈ s.live := List.mem_of_find?_eq_some hfind
      obtain rfl : b.1 = p := by simpa using List.find?_some hfind
      rcases hk with hf | ⟨fl, hg⟩
      · rw [hf.live] at hb
        exact absurd hb List.not_mem_nil
      · obtain ⟨h', hret, hg'⟩ := hg.free hE hb
        simp only [hfind, hret, Option.map_some, Option.some.injEq] at hs
        exact hs ▸ .inr hg'
  | store a v =>
    simp only [Umalloc.step, Option.ite_none_right_eq_some, List.any_eq_true, Bool.and_eq_true,
      decide_eq_true_eq, Option.some.injEq] at hs
    obtain ⟨⟨b, hb, hlo, hhi⟩, rfl⟩ := hs
    rcases hk with hf | ⟨fl, hg⟩
    · rw [hf.live] at hb
      exact absurd hb List.not_mem_nil
    · exact .inr ⟨fl, hg.store hb hlo hhi⟩
  | grow n =>
    simp only [Umalloc.step, Option.ite_none_right_eq_some, Option.some.injEq] at hs
    obtain ⟨htop, rfl⟩ := hs
    rcases hk with hf | ⟨fl, hg⟩
    · exact .inl ⟨hf.freep, hf.got, hf.live, Nat.le_add_right_of_le hf.low, htop⟩
    · exact .inr ⟨fl, hg.inv.grow htop, hg.sized⟩

/-- Every state of a run keeps what holds at its start. -/
theorem kept_of_reach (hE : E.Ok) (hlow : E.base + HDR ≤ brk) (htop : brk ≤ TRAPFRAME)
    (hr : ReachVia (step E) Fits (State.start mem brk) s) : Kept E s :=
  hr.invariant (I := Kept E) (.inl ⟨rfl, rfl, rfl, hlow, htop⟩)
    fun _ _ _ _ hk hfit hs => hk.step hE hfit hs

/-! ## Live blocks -/

/-- The address `a` is that of a header: of the list, or of a live block. -/
def IsHeader (E : Env) (s : State) (a : ℕ) : Prop :=
  (∃ k, s.heap.next^[k] E.base = a) ∨ a ∈ s.headers

/-- In every run in which the rounded sizes fit into a positive `int`, the bytes of every live block
lie in memory obtained from `sbrk` and below the end of the memory, and they overlap neither the
bytes of another live block nor a header. -/
theorem live_apart (hE : E.Ok) (hlow : E.base + HDR ≤ brk) (htop : brk ≤ TRAPFRAME)
    (hr : ReachVia (step E) Fits (State.start mem brk) s) :
    (∀ b ∈ s.live, (∀ x, Within b x → x ∈ s.heap.obtained) ∧ b.1 + b.2 ≤ s.heap.brk ∧
      ∀ a, IsHeader E s a → Apart b (a, HDR)) ∧ s.live.Pairwise Apart := by
  rcases kept_of_reach hE hlow htop hr with hf | ⟨fl, hg⟩
  · rw [hf.live]
    exact ⟨by simp, List.Pairwise.nil⟩
  refine ⟨fun b hb => ⟨fun x hx => ?_, ?_, fun a ha => ?_⟩, hg.live_pairwise⟩
  · have hstop := hg.stop_ge hb
    obtain ⟨hx₁, hx₂⟩ := hx
    refine (hg.inv.blocks.tiles.cover x).mp ⟨_, List.mem_map_of_mem (header_mem hb), ?_, ?_⟩
    · change b.1 - HDR ≤ x
      omega
    · change x < s.heap.stop (b.1 - HDR)
      omega
  · exact (hg.stop_ge hb).2.trans (hg.inv.blocks.range (header_mem hb)).2
  · refine hg.apart_header hb ?_
    rcases ha with ⟨k, rfl⟩ | ha
    · exact List.cons_subset_cons _ (List.subset_append_left ..) (hg.iterate_mem k)
    · exact List.mem_cons_of_mem _ (List.mem_append_right _ ha)

/-- The memory of this machine, from `KERNBASE` to `PHYSTOP`, for a program with `base` in its
first page of data. -/
def machine : Env := ⟨0x1000, 128 * 1024 * 1024⟩

theorem machine_ok : machine.Ok := ⟨by decide, by decide⟩

/-- Three blocks are cut off the end of a region. Then the second one is freed, and the first one,
which is above it and is joined with it. -/
def splitsAndJoins : List Act :=
  [.malloc 32 true, .malloc 16 true, .malloc 16 true, .free 0x13FC0, .free 0x13FE0]

/-- The block that is left keeps away from the headers, also from that of the joined block. -/
theorem live_apart_splitsAndJoins :
    ∃ s, ReachVia (step machine) Fits (State.start (fun _ => ⟨0, 0⟩) 0x4000) s ∧
      s.live = [(0x13FA0, 16)] ∧ s.heap.units 0x13FB0 = 5 ∧
      ∀ a, IsHeader machine s a → Apart (0x13FA0, 16) (a, HDR) := by
  obtain ⟨s, hr, hlive, hunits⟩ := exists_of_run (step machine) Fits
    (State.start (fun _ => ⟨0, 0⟩) 0x4000) splitsAndJoins
    (fun s => s.live = [(0x13FA0, 16)] ∧ s.heap.units 0x13FB0 = 5) (by decide +kernel)
  have happ := (live_apart machine_ok (by decide) (by decide) hr).1 (0x13FA0, 16) (by simp [hlive])
  exact ⟨s, hr, hlive, hunits, happ.2.2⟩

/-- `malloc(0xFFFFFFF0)` after `malloc(65536)`. The product of its units with the size of a header
is `2 ^ 32`, so `morecore` calls `sbrk(0)`, takes the end of the memory for a new region and returns
a block there. The end of the memory is not at the start of a page, so that the store to the new
header goes to a page that is mapped. -/
theorem malloc_beyond_break :
    ∃ s, Reach (step machine) (State.start (fun _ => ⟨0, 0⟩) 0x4000) s ∧
      ∃ b ∈ s.live, 0 < b.2 ∧ s.heap.brk < b.1 ∧ b.1 ∉ s.heap.obtained := by
  obtain ⟨s, hr, hlive, hbrk, hgot⟩ := exists_of_run (step machine) (fun _ _ => True)
    (State.start (fun _ => ⟨0, 0⟩) 0x4000) [.malloc 65536 true, .malloc 0xFFFFFFF0 true]
    (fun s => s.live = [(0x14020, 0xFFFFFFF0), (0x4010, 65536)] ∧ s.heap.brk = 0x14010 ∧
      s.heap.got = [(0x4000, 65552)]) (by decide +kernel)
  refine ⟨s, hr, (0x14020, 0xFFFFFFF0), by simp [hlive], by decide, by simp [hbrk], ?_⟩
  rintro ⟨r, hr, hw⟩
  rw [hgot, List.mem_singleton] at hr
  subst hr
  exact absurd hw.2 (by decide)

/-! ## The list -/

/-- The list from `freep` visits the blocks from `freep` upwards, wraps once, and visits those below
`freep`. -/
theorem Inv.exists_split (hi : Inv E h fl lv) :
    ∃ lo hi, Chain h.next h.freep (hi ++ lo) h.freep ∧ lo ++ h.freep :: hi = E.base :: fl := by
  obtain ⟨l₁, l₂, hl⟩ := List.append_of_mem hi.freep
  refine ⟨l₁, l₂, ?_, hl.symm⟩
  have hc := hi.chain
  cases l₁ with
  | nil =>
    obtain ⟨hbase, hfl⟩ := List.cons.inj hl
    rw [hfl, hbase] at hc
    rwa [List.append_nil]
  | cons c l₁ =>
    obtain ⟨hbase, hfl⟩ := List.cons.inj hl
    rw [hfl, hbase] at hc
    obtain ⟨hlo, hhi⟩ := chain_append.mp hc
    exact chain_append.mpr ⟨hhi, hlo⟩

/-- Where no block is live, every contiguous region of the memory obtained from `sbrk` is one free
block. -/
theorem Good.region (hg : Good E s fl) (hlive : s.live = []) {k : ℕ} (hk : 0 < k)
    (hin : ∀ x, Within (a, k) x → x ∈ s.heap.obtained)
    (hlo : ∀ x, x + 1 = a → x ∉ s.heap.obtained) (hhi : a + k ∉ s.heap.obtained) :
    (a, k) ∈ fl.map s.heap.blk := by
  have htiles := hg.inv.blocks.tiles
  have hhead : s.headers = [] := by rw [State.headers, hlive, List.map_nil]
  rw [hhead, List.append_nil] at htiles
  refine htiles.mem_of_maximal (fun b hb c hc => ?_) hk hin hlo hhi
  obtain ⟨x, hx, rfl⟩ := List.mem_map.mp hb
  obtain ⟨y, hy, rfl⟩ := List.mem_map.mp hc
  exact hg.inv.stop_ne hx hy

/-- In every run in which the rounded sizes fit into a positive `int`, and in which the regions from
`sbrk` have together less than `2 ^ 32` units, there is no memory and no block before the first call
of `malloc`. After it,

* the list from `freep` visits `base` and the free blocks in the order of their addresses, with one
  wrap,
* the free and the live blocks tile the memory obtained from `sbrk`,
* no free block ends where another starts,
* and where no block is live, every contiguous region obtained from `sbrk` is one free block.

The loops of `malloc` and `free` end. -/
theorem free_list (hE : E.Ok) (hlow : E.base + HDR ≤ brk) (htop : brk ≤ TRAPFRAME)
    (hr : ReachVia (step E) Fits (State.start mem brk) s) :
    (s.heap.freep = 0 → s.heap.got = [] ∧ s.live = []) ∧
    (s.heap.freep ≠ 0 → ∃ lo hi fl, Chain s.heap.next s.heap.freep (hi ++ lo) s.heap.freep ∧
      lo ++ s.heap.freep :: hi = E.base :: fl ∧ (lo ++ s.heap.freep :: hi).Pairwise (· < ·) ∧
      Tiles ((fl ++ s.headers).map s.heap.blk) s.heap.obtained ∧
      (∀ a ∈ fl, ∀ b ∈ fl, s.heap.stop a ≠ b) ∧
      (s.live = [] → ∀ a k, 0 < k → (∀ x, Within (a, k) x → x ∈ s.heap.obtained) →
        (∀ x, x + 1 = a → x ∉ s.heap.obtained) → a + k ∉ s.heap.obtained →
        (a, k) ∈ fl.map s.heap.blk)) ∧
    (∀ n ok, Fits s (.malloc n ok) → (s.heap.malloc E n ok).isSome) ∧
    ∀ b ∈ s.live, (s.heap.free b.1).isSome := by
  have hk := kept_of_reach hE hlow htop hr
  have hmalloc : ∀ n ok, Fits s (.malloc n ok) → (s.heap.malloc E n ok).isSome := by
    intro n ok hfit
    obtain ⟨r, hret, -⟩ := hk.malloc hE hfit
    rw [hret, Option.isSome_some]
  rcases hk with hf | ⟨fl, hg⟩
  · refine ⟨fun _ => ⟨hf.got, hf.live⟩, fun hne => absurd hf.freep hne, hmalloc, fun b hb => ?_⟩
    rw [hf.live] at hb
    exact absurd hb List.not_mem_nil
  · refine ⟨fun h0 => absurd h0 (hg.inv.freep_ne hE), fun _ => ?_, hmalloc, fun b hb => ?_⟩
    · obtain ⟨lo, hi, hc, hsplit⟩ := hg.inv.exists_split
      exact ⟨lo, hi, fl, hc, hsplit, hsplit ▸ hg.inv.sorted, hg.inv.blocks.tiles,
        fun a ha b hb => hg.inv.stop_ne ha hb,
        fun hlive a k hk hin hlo hhi => hg.region hlive hk hin hlo hhi⟩
    · obtain ⟨h', hret, -⟩ := hg.free hE hb
      rw [hret, Option.isSome_some]

/-- The list after these calls, and after a last `free` that joins all the blocks again: nothing is
left but the region, with its 4096 units. -/
theorem free_list_splitsAndJoins :
    ∃ s, ReachVia (step machine) Fits (State.start (fun _ => ⟨0, 0⟩) 0x4000) s ∧
      s.live = [] ∧ s.heap.units 0x4000 = 4096 ∧
      ∃ fl, Tiles ((fl ++ s.headers).map s.heap.blk) s.heap.obtained ∧
        ∀ a ∈ fl, ∀ b ∈ fl, s.heap.stop a ≠ b := by
  obtain ⟨s, hr, hlive, hunits, hne⟩ := exists_of_run (step machine) Fits
    (State.start (fun _ => ⟨0, 0⟩) 0x4000) (splitsAndJoins ++ [.free 0x13FA0])
    (fun s => s.live = [] ∧ s.heap.units 0x4000 = 4096 ∧ s.heap.freep ≠ 0) (by decide +kernel)
  obtain ⟨-, hlist, -⟩ := free_list machine_ok (by decide) (by decide) hr
  obtain ⟨-, -, fl, -, -, -, htiles, hstop, -⟩ := hlist hne
  exact ⟨s, hr, hlive, hunits, fl, htiles, hstop⟩

/-- A kernel that gives more than `2 ^ 32` units. -/
def large : Env := ⟨0x1000, 2 ^ 38⟩

/-- `malloc` of `2 ^ 27 - 1` units, 33 times, and then `free` of all of them. -/
def wrapRun : List Act :=
  List.replicate 33 (.malloc 0x7FFFFFE0 true) ++
    (List.range 33).map fun i => .free (0x4010 + 0x7FFFFFF0 * i)

/-- Where the kernel gives more than `2 ^ 32` units, the size of a free block wraps, and the list
does not have all of the memory. -/
theorem size_wraps :
    ∃ s, ReachVia (step large) Fits (State.start (fun _ => ⟨0, 0⟩) 0x4000) s ∧ s.live = [] ∧
      ∀ fl, Chain s.heap.next large.base fl large.base →
        ¬ Tiles ((fl ++ s.headers).map s.heap.blk) s.heap.obtained := by
  obtain ⟨s, hr, hlive, hn₀, hn₁, hu₀, hu₁, hgot⟩ := exists_of_run (step large) Fits
    (State.start (fun _ => ⟨0, 0⟩) 0x4000) wrapRun
    (fun s => s.live = [] ∧ s.heap.next 0x1000 = 0x4000 ∧ s.heap.next 0x4000 = 0x1000 ∧
      s.heap.units 0x1000 = 0 ∧ s.heap.units 0x4000 = 2 ^ 27 - 33 ∧
      s.heap.got.head? = some (0x4000 + 32 * 0x7FFFFFF0, 0x7FFFFFF0)) (by decide +kernel)
  refine ⟨s, hr, hlive, fun fl hc htiles => ?_⟩
  have hhead : s.headers = [] := by rw [State.headers, hlive, List.map_nil]
  rw [hhead, List.append_nil] at htiles
  have hall : ∀ x ∈ fl, x = 0x1000 ∨ x = 0x4000 := by
    refine hc.forall_mem (fun x hx => ?_) (.inl rfl)
    rcases hx with rfl | rfl
    · exact .inr hn₀
    · exact .inl hn₁
  -- The first byte of the last region is obtained, and lies behind the block.
  obtain ⟨b, hb, hw⟩ := (htiles.cover (0x4000 + 32 * 0x7FFFFFF0)).mpr
    ⟨_, List.mem_of_mem_head? hgot, le_rfl, by decide⟩
  obtain ⟨x, hx, rfl⟩ := List.mem_map.mp hb
  rcases hall x hx with rfl | rfl
  · rw [Heap.blk, hu₀] at hw
    exact absurd hw.2 (by decide)
  · rw [Heap.blk, hu₁] at hw
    exact absurd hw.2 (by decide)

end SustainableXv6.Umalloc
