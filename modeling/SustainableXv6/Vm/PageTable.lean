import SustainableXv6.Vm.Machine

/-!
# Page tables are finite maps

A page table is a radix tree of three levels (`Lib.Radix`), whose indices are bit fields of the
virtual address. `pageMap` is the leaf of each page. A step of `walk` links an empty page-table page
at most (`Grows`), so that it changes no leaf. Hence `mappages` adds its pages to the map and
`uvmunmap` removes them, and nothing else changes.
-/

namespace SustainableXv6.Vm

open Function Lib Radix

variable {s s' : Mem} {pt va a b pa perm : UInt64} {E : Panic → Prop}

/-! ## Words -/

/-- The multiples of the page size. -/
theorem aligned_iff : a % PGSIZE = 0 ↔ a.toNat % 4096 = 0 := by
  rw [← UInt64.toNat_inj, UInt64.toNat_mod]
  rfl

/-- An index is a bit field of the address. -/
theorem px_val {level : ℕ} (h : level ≤ 2) (va : UInt64) :
    (px level va).val = va.toNat / 2 ^ (12 + 9 * level) % 512 := by
  have hlt : 12 + 9 * level < 64 := by omega
  simp only [px, UInt64.toNat_and, UInt64.toNat_shiftRight, Fin.ofNat]
  rw [show UInt64.toNat 0x1ff = 2 ^ 9 - 1 from rfl, Nat.and_two_pow_sub_one_eq_mod,
    Nat.shiftRight_eq_div_pow, Nat.mod_mod, UInt64.toNat_ofNat_of_lt' (lt_trans hlt (by decide)),
    Nat.mod_eq_of_lt hlt]

/-- The page that an entry points to, if it is valid. -/
def child (pte : UInt64) : Option UInt64 :=
  if pte &&& PTE_V ≠ 0 then some (pte2pa pte) else none

theorem child_of_valid {pte : UInt64} (h : pte &&& PTE_V ≠ 0) : child pte = some (pte2pa pte) :=
  if_pos h

theorem child_of_not_valid {pte : UInt64} (h : ¬ pte &&& PTE_V ≠ 0) : child pte = none := if_neg h

/-- The entries that the kernel writes are valid. -/
theorem valid_or (x : UInt64) : (x ||| PTE_V) &&& PTE_V ≠ 0 := by
  intro h
  have hbit := congrArg (fun w => w.toNat.testBit 0) h
  simp [PTE_V] at hbit

/-- The entry of a page with flags points to the page. -/
theorem pte2pa_or (hpa : pa % PGSIZE = 0) (hperm : perm < 1024) :
    pte2pa (pa2pte pa ||| perm) = pa := by
  have hmod := aligned_iff.mp hpa
  have hlt : perm.toNat < 2 ^ 10 := UInt64.lt_iff_toNat_lt.mp hperm
  have hmax := pa.toNat_lt
  refine UInt64.toNat_inj.mp ?_
  simp only [pte2pa, pa2pte, UInt64.toNat_shiftLeft, UInt64.toNat_shiftRight, UInt64.toNat_or,
    UInt64.reduceToNat, Nat.reduceMod, Nat.shiftLeft_eq, Nat.shiftRight_eq_div_pow]
  rw [Nat.mod_eq_of_lt (show pa.toNat / 2 ^ 12 * 2 ^ 10 < 2 ^ 64 by omega),
    Nat.mul_comm _ (2 ^ 10), ← Nat.two_pow_add_eq_or_of_lt hlt]
  omega

theorem child_link {f : UInt64} (h : f % PGSIZE = 0) : child (pa2pte f ||| PTE_V) = some f := by
  rw [child_of_valid (valid_or _), pte2pa_or h (by decide)]

/-! ## The map -/

/-- The indices that lead to the leaf of an address. -/
def path (va : UInt64) : List Index := [px 2 va, px 1 va]

/-- The leaf of a virtual page, if it is valid. -/
def Mem.pageMap (s : Mem) (pt va : UInt64) : Option UInt64 :=
  lookup child s.page pt (path va) (px 0 va)

/-- The page of a virtual address. -/
structure VirtPage (a : UInt64) : Prop where
  aligned : a % PGSIZE = 0
  lt : a < MAXVA

/-- Different pages have different leaves. -/
theorem VirtPage.eq_of_path (ha : VirtPage a) (hb : VirtPage b) (hpath : path a = path b)
    (hlast : px 0 a = px 0 b) : a = b := by
  simp only [path, List.cons.injEq, and_true] at hpath
  have h2 := congrArg Fin.val hpath.1
  have h1 := congrArg Fin.val hpath.2
  have h0 := congrArg Fin.val hlast
  rw [px_val (by decide), px_val (by decide)] at h0 h1 h2
  have ha' := aligned_iff.mp ha.aligned
  have hb' := aligned_iff.mp hb.aligned
  have hla : a.toNat < 0x4000000000 := UInt64.lt_iff_toNat_lt.mp ha.lt
  have hlb : b.toNat < 0x4000000000 := UInt64.lt_iff_toNat_lt.mp hb.lt
  refine UInt64.toNat_inj.mp ?_
  omega

/-! ## `walk` without allocation -/

/-- A round of `walk` that allocates nothing. -/
theorem walkLevel_false (s : Mem) (va : UInt64) (level : ℕ) (pt : UInt64) :
    walkLevel false va level pt s = .ok (child (s.page pt (px level va)), s) := by
  by_cases hv : s.page pt (px level va) &&& PTE_V ≠ 0
  · rw [child_of_valid hv]
    simp only [walkLevel, bind, StateT.bind, get, getThe, MonadStateOf.get, StateT.get, pure,
      Except.pure, Except.bind, if_pos hv, StateT.pure]
  · rw [child_of_not_valid hv]
    simp only [walkLevel, bind, StateT.bind, get, getThe, MonadStateOf.get, StateT.get, pure,
      Except.pure, Except.bind, if_neg hv, StateT.pure, if_true]

/-- The loop of `walk` that allocates nothing. -/
theorem walkLoop_false (s : Mem) (pt va : UInt64) :
    walkLoop false va 2 pt s = .ok (descend child s.page pt (path va), s) := by
  simp only [walkLoop, path, descend]
  rw [bind_of_ok (walkLevel_false s va 2 pt)]
  cases child (s.page pt (px 2 va)) with
  | none => rfl
  | some t =>
    simp only [Option.bind_some]
    rw [bind_of_ok (walkLevel_false s va 1 t)]
    cases child (s.page t (px 1 va)) with
    | none => rfl
    | some t' => rfl

/-- `walk` that allocates nothing finds the leaf. -/
theorem walk_false (hva : va < MAXVA) : walk pt va false s =
    .ok ((descend child s.page pt (path va)).map (·, px 0 va), s) := by
  have hnot : ¬ MAXVA ≤ va := UInt64.not_le.mpr hva
  rw [walk, if_neg hnot, bind_of_ok (walkLoop_false s pt va)]
  cases descend child s.page pt (path va) with
  | none => rfl
  | some t => rfl

theorem wp_walk_false (hva : va < MAXVA) {Q : Option (UInt64 × Index) → Mem → Prop} :
    wp (walk pt va false) s Q E ↔
      Q ((descend child s.page pt (path va)).map (·, px 0 va)) s := by
  rw [wp, walk_false hva]

/-! ## Well-formed tables -/

/-- A page that the allocator manages. -/
structure Frame (kend f : UInt64) : Prop where
  aligned : f % PGSIZE = 0
  ge : kend ≤ f
  lt : f < PHYSTOP

/-- The free list has different pages of the allocator. -/
structure Allocator (s : Mem) : Prop where
  kend : 0 < s.kend
  frame : ∀ f ∈ s.freelist, Frame s.kend f
  nodup : s.freelist.Nodup

/-- The pages of the page table are different, and none of them is free. -/
structure Table (s : Mem) (pt : UInt64) : Prop where
  spread : Spread child 3 s.page pt
  free : ∀ f ∈ s.freelist, ¬ Node child 3 s.page pt f
  alloc : Allocator s

theorem Frame.ne_zero {kend f : UInt64} (h : Frame kend f) (hk : 0 < kend) : f ≠ 0 := by
  rintro rfl
  exact absurd (UInt64.lt_of_lt_of_le hk h.ge) (UInt64.lt_irrefl 0)

theorem Allocator.congr (h : Allocator s) (hkend : s'.kend = s.kend)
    (hfree : s'.freelist = s.freelist) : Allocator s' := by
  refine ⟨?_, ?_, ?_⟩
  · rw [hkend]
    exact h.kend
  · rw [hkend, hfree]
    exact h.frame
  · rw [hfree]
    exact h.nodup

/-- A call of `kalloc`: there is no page, or the first page of the free list is taken. -/
theorem wp_kalloc {Q : UInt64 → Mem → Prop}
    (hfail : ∀ oom, (∀ n, oom n = s.oom (n + 1)) → s.oom 0 = true ∨ s.freelist = [] →
      Q 0 { s with oom := oom })
    (hok : ∀ f rest oom, (∀ n, oom n = s.oom (n + 1)) → s.freelist = f :: rest →
      Q f { s.setPage f (fun _ => 0x0505050505050505) with freelist := rest, oom := oom }) :
    wp kalloc s Q E := by
  simp only [kalloc, wp_bind, wp_get]
  split
  · rename_i hfree
    exact hfail _ (fun _ => rfl) (.inr hfree)
  · rename_i f rest hfree
    rw [wp_ite]
    exact ⟨fun h0 => hfail _ (fun _ => rfl) (.inl h0), fun _ => hok f rest _ (fun _ => rfl) hfree⟩

/-! ## `walk` with allocation -/

/-- A step of `walk`: there is no page, or an empty page of the free list is linked into the
table. -/
inductive Grows (pt : UInt64) (s s' : Mem) : Prop
  | refused (page : s'.page = s.page) (freelist : s'.freelist = s.freelist)
      (kend : s'.kend = s.kend)
  | linked {p : List Index} {t f : UInt64} {i : Index} (node : descend child s.page pt p = some t)
      (level : p.length + 1 < 3) (none : child (s.page t i) = none)
      (freelist : s.freelist = f :: s'.freelist) (link : Linked child s.page t i f s'.page)
      (kend : s'.kend = s.kend)

/-- A step of `walk` keeps the table well formed. -/
theorem Grows.table (hg : Grows pt s s') (h : Table s pt) : Table s' pt := by
  cases hg with
  | refused page freelist kend =>
    refine ⟨?_, ?_, h.alloc.congr kend freelist⟩
    · rw [page]
      exact h.spread
    · rw [page, freelist]
      exact h.free
  | @linked p t f i node level none freelist link kend =>
    have hf : ¬ Node child 3 s.page pt f := h.free f (by simp [freelist])
    have hnodup := h.alloc.nodup
    rw [freelist, List.nodup_cons] at hnodup
    refine ⟨link.spread h.spread node (by omega) none hf, fun g hg hnode => ?_, ?_, ?_, hnodup.2⟩
    · rcases (link.node_iff h.spread node (by omega) none hf level).mp hnode with rfl | hnode
      · exact hnodup.1 hg
      · exact h.free g (by simp [freelist, hg]) hnode
    · rw [kend]
      exact h.alloc.kend
    · rw [kend]
      exact fun g hg => h.alloc.frame g (by simp [freelist, hg])

/-- A step of `walk` changes no leaf. -/
theorem Grows.pageMap (hg : Grows pt s s') (h : Table s pt) (va : UInt64) :
    s'.pageMap pt va = s.pageMap pt va := by
  cases hg with
  | refused page freelist kend => rw [Mem.pageMap, Mem.pageMap, page]
  | @linked p t f i node level none freelist link kend =>
    exact link.lookup_eq h.spread node (by omega) none (h.free f (by simp [freelist])) rfl level

/-- The steps of `walk`. -/
def Extends (pt : UInt64) : Mem → Mem → Prop := Relation.ReflTransGen (Grows pt)

/-- What each step of `walk` keeps, `walk` keeps. -/
theorem Extends.invariant {I : Mem → Prop} (hx : Extends pt s s')
    (hstep : ∀ t t', Grows pt t t' → I t → I t') (h : I s) : I s' := by
  induction hx with
  | refl => exact h
  | tail _ hg ih => exact hstep _ _ hg ih

theorem Extends.table (hx : Extends pt s s') (h : Table s pt) : Table s' pt :=
  hx.invariant (fun _ _ hg => hg.table) h

theorem Extends.pageMap (hx : Extends pt s s') (h : Table s pt) (va : UInt64) :
    s'.pageMap pt va = s.pageMap pt va :=
  (hx.invariant (I := fun t => Table t pt ∧ t.pageMap pt va = s.pageMap pt va)
    (fun _ _ hg ht => ⟨hg.table ht.1, (hg.pageMap ht.1 va).trans ht.2⟩) ⟨h, rfl⟩).2

/-- There is no memory: a call of `kalloc` fails, or the free list is empty. -/
def Short (s s' : Mem) : Prop := (∃ n, s.oom n = true) ∨ s'.freelist = []

/-- The calls of `kalloc` that fail after a step fail before it. -/
def OomFrom (s s' : Mem) : Prop := ∀ n, s'.oom n = true → ∃ m, s.oom m = true

/-- Pages are linked into the table at the places `P` only. -/
def Fills (pt : UInt64) (P : List Index → Prop) (s s' : Mem) : Prop :=
  ∀ q, q.length ≤ 3 → descend child s'.page pt q = descend child s.page pt q ∨
    descend child s.page pt q = none ∧ P q

theorem Fills.trans {P : List Index → Prop} {s'' : Mem} (h : Fills pt P s s')
    (h' : Fills pt P s' s'') : Fills pt P s s'' := by
  intro q hq
  rcases h q hq with heq | hnew
  · rcases h' q hq with heq' | hnew
    · exact .inl (heq'.trans heq)
    · exact .inr (heq ▸ hnew)
  · exact .inr hnew

theorem Fills.mono {P P' : List Index → Prop} (h : Fills pt P s s') (hP : ∀ q, P q → P' q) :
    Fills pt P' s s' := fun q hq => (h q hq).imp_right fun hn => ⟨hn.1, hP q hn.2⟩

/-- A round of `walk` leads to the page-table page of the next level, or there is no memory. -/
theorem Table.wp_walkLevel (h : Table s pt) {p : List Index} {t : UInt64} {level : ℕ}
    (ht : descend child s.page pt p = some t) (hp : p.length + 1 < 3) (va : UInt64) :
    wp (walkLevel true va level t) s (fun r s' => Extends pt s s' ∧ OomFrom s s' ∧
      Fills pt (· = p ++ [px level va]) s s' ∧
      (∀ t', r = some t' → descend child s'.page pt (p ++ [px level va]) = some t') ∧
      (r = none → Short s s' ∧ descend child s'.page pt (p ++ [px level va]) = none)) E := by
  simp only [walkLevel, wp_bind, wp_get]
  rw [wp_ite]
  refine ⟨fun hv => ⟨.refl, fun n hn => ⟨n, hn⟩, fun _ _ => .inl rfl, ?_, by simp⟩, fun hv => ?_⟩
  · rintro t' ⟨⟩
    rw [descend_concat, ht, Option.bind_some, child_of_valid hv]
  have hnone := child_of_not_valid hv
  have hend : descend child s.page pt (p ++ [px level va]) = none := by
    rw [descend_concat, ht, Option.bind_some, hnone]
  rw [wp_ite]
  refine ⟨fun hfalse => absurd hfalse (by simp), fun _ => wp_call (wp_kalloc (Q := fun r s' =>
    OomFrom s s' ∧ (r = 0 ∧ Short s s' ∧ s'.page = s.page ∧ Extends pt s s' ∨
      ∃ rest oom, s.freelist = r :: rest ∧
        s' = { s.setPage r (fun _ => 0x0505050505050505) with freelist := rest, oom := oom }))
    (fun oom hoom hshort => ⟨fun n hn => ⟨n + 1, (hoom n).symm.trans hn⟩,
      .inl ⟨rfl, hshort.imp_left fun h0 => ⟨0, h0⟩, rfl, .single (.refused rfl rfl rfl)⟩⟩)
    fun f rest oom hoom hfree => ⟨fun n hn => ⟨n + 1, (hoom n).symm.trans hn⟩,
      .inr ⟨rest, oom, hfree, rfl⟩⟩)
    fun f s₁ hs₁ => ?_⟩
  rw [wp_ite]
  obtain ⟨hoom, ⟨rfl, hshort, hpage, hx⟩ | ⟨rest, oom, hfree, rfl⟩⟩ := hs₁
  · refine ⟨fun _ => ⟨hx, hoom, fun q _ => .inl ?_, by simp, fun _ => ⟨hshort, ?_⟩⟩,
      fun h0 => absurd rfl h0⟩
    · rw [hpage]
    · rw [hpage, hend]
  · have hframe := h.alloc.frame f (by simp [hfree])
    refine ⟨fun h0 => absurd h0 (hframe.ne_zero h.alloc.kend), fun _ => ?_⟩
    have hf : ¬ Node child 3 s.page pt f := h.free f (by simp [hfree])
    have htf : t ≠ f := by
      rintro rfl
      exact hf ⟨p, by omega, ht⟩
    simp only [wp_bind, wp_modify]
    generalize hs₂ : Mem.store _ t (px level va) (pa2pte f ||| PTE_V) = s₂
    have hlink : Linked child s.page t (px level va) f s₂.page := by
      rw [← hs₂]
      refine ⟨?_, fun k hk => ?_, fun k => ?_, fun b hbt hbf => ?_⟩
      · exact (congrArg child store_self).trans (child_link hframe.aligned)
      · refine (store_of_ne (.inr hk)).trans ?_
        simp [Mem.setPage, update_of_ne htf]
      · refine (congrArg child (store_of_ne (.inl htf.symm))).trans ?_
        simp only [Mem.setPage, update_self]
        rfl
      · funext k
        refine (store_of_ne (.inl hbt)).trans ?_
        simp [Mem.setPage, update_of_ne hbf]
    have hfree₂ : s.freelist = f :: s₂.freelist := by
      rw [← hs₂]
      exact hfree
    refine ⟨.single (.linked ht hp hnone hfree₂ hlink ?_), ?_, fun q hq => ?_, ?_, by simp⟩
    · rw [← hs₂]
      rfl
    · rw [← hs₂]
      exact hoom
    · rw [hlink.descend_eq h.spread ht (by omega) hnone hf hq]
      by_cases hqp : q = p ++ [px level va]
      · exact .inr ⟨by rw [hqp, hend], hqp⟩
      · exact .inl (if_neg hqp)
    · rintro t' ⟨⟩
      rw [hlink.descend_eq h.spread ht (by omega) hnone hf (by simpa using hp.le), if_pos rfl]

/-- `walk` leads to the leaf of the address, or there is no memory. No leaf changes. -/
theorem Table.wp_walk (h : Table s pt) (hva : va < MAXVA) :
    wp (walk pt va true) s (fun r s' => Extends pt s s' ∧ OomFrom s s' ∧
      Fills pt (fun q => q = [px 2 va] ∨ q = path va) s s' ∧
      (∀ t k, r = some (t, k) → k = px 0 va ∧ descend child s'.page pt (path va) = some t) ∧
      (r = none → Short s s' ∧ descend child s'.page pt (path va) = none)) E := by
  have hnot : ¬ MAXVA ≤ va := UInt64.not_le.mpr hva
  simp only [walk, if_neg hnot, walkLoop]
  refine wp_call (Q := fun r s' => Extends pt s s' ∧ OomFrom s s' ∧
    Fills pt (fun q => q = [px 2 va] ∨ q = path va) s s' ∧
    (∀ t, r = some t → descend child s'.page pt (path va) = some t) ∧
    (r = none → Short s s' ∧ descend child s'.page pt (path va) = none)) ?_ fun r s₂ hs₂ => ?_
  · refine wp_call (h.wp_walkLevel (p := []) rfl (by simp) va) fun r s₁ hs₁ => ?_
    obtain ⟨hx₁, hoom₁, hfill, hr₁, hn₁⟩ := hs₁
    have hfill₁ := hfill.mono fun q hq => (.inl hq : q = [px 2 va] ∨ q = path va)
    cases r with
    | none =>
      obtain ⟨hshort, hend⟩ := hn₁ rfl
      refine ⟨hx₁, hoom₁, hfill₁, by simp, fun _ => ⟨hshort, ?_⟩⟩
      rw [path, show [px 2 va, px 1 va] = ([] ++ [px 2 va]) ++ [px 1 va] from rfl, descend_concat,
        hend, Option.bind_none]
    | some t₁ =>
      refine wp_call ((hx₁.table h).wp_walkLevel (hr₁ t₁ rfl) (by simp) va) fun r s₂ hs₂ => ?_
      obtain ⟨hx₂, hoom₂, hfill₂, hr₂, hn₂⟩ := hs₂
      have hoom : OomFrom s s₂ := fun n hn => (hoom₂ n hn).elim hoom₁
      have hfills := hfill₁.trans (hfill₂.mono fun _ => .inr)
      cases r with
      | none =>
        obtain ⟨hshort, hend⟩ := hn₂ rfl
        exact ⟨hx₁.trans hx₂, hoom, hfills, by simp, fun _ =>
          ⟨hshort.imp_left fun hn => hn.elim hoom₁, hend⟩⟩
      | some t₂ =>
        refine ⟨hx₁.trans hx₂, hoom, hfills, ?_, by simp⟩
        rintro t ⟨⟩
        exact hr₂ t₂ rfl
  · obtain ⟨hx, hoom, hfills, hr, hn⟩ := hs₂
    cases r with
    | none => exact ⟨hx, hoom, hfills, by simp, fun _ => hn rfl⟩
    | some t =>
      refine ⟨hx, hoom, hfills, ?_, by simp⟩
      rintro t' k ⟨⟩
      exact ⟨rfl, hr t rfl⟩

/-! ## A leaf is written -/

section Leaf

variable {t v : UInt64} (hs : Spread child 3 s.page pt)
  (ht : descend child s.page pt (path a) = some t)
include hs ht

/-- A leaf that is written is seen at its page only. -/
theorem pageMap_store (ha : VirtPage a) (hb : VirtPage b) :
    (s.store t (px 0 a) v).pageMap pt b = if b = a then present child v else s.pageMap pt b := by
  refine (lookup_store hs ht rfl (q := path b) (l := px 0 b) (by simp [path])).trans ?_
  by_cases hba : b = a
  · subst hba
    rw [if_pos ⟨rfl, rfl⟩, if_pos rfl]
  · rw [if_neg hba, if_neg]
    · rfl
    · exact fun h => hba (hb.eq_of_path ha h.1 h.2)

theorem Table.store (h : Table s pt) (k : Index) : Table (s.store t k v) pt :=
  ⟨spread_store hs ht rfl, fun f hf hnode => h.free f hf ((node_store_iff hs ht rfl).mp hnode),
    h.alloc.congr rfl rfl⟩

end Leaf

/-- The leaf that `walk` has found. -/
theorem pageMap_of_descend {t : UInt64} (ht : descend child s.page pt (path a) = some t) :
    s.pageMap pt a = present child (s.page t (px 0 a)) := by
  rw [Mem.pageMap, lookup, ht, Option.bind_some]

theorem pageMap_of_not_descend (ht : descend child s.page pt (path a) = none) :
    s.pageMap pt a = none := by
  rw [Mem.pageMap, lookup, ht, Option.bind_none]

theorem present_valid {pte : UInt64} (h : pte &&& PTE_V ≠ 0) : present child pte = some pte :=
  present_of_some (child_of_valid h)

theorem present_not_valid {pte : UInt64} (h : ¬ pte &&& PTE_V ≠ 0) : present child pte = none :=
  present_of_none (child_of_not_valid h)

/-! ## `mappages` -/

theorem toNat_next (h : a < MAXVA) : (a + PGSIZE).toNat = a.toNat + 4096 := by
  have hlt : a.toNat < 0x4000000000 := UInt64.lt_iff_toNat_lt.mp h
  rw [UInt64.toNat_add]
  exact Nat.mod_eq_of_lt (by change a.toNat + 4096 < _; omega)

theorem aligned_next (ha : a % PGSIZE = 0) (h : a < MAXVA) : (a + PGSIZE) % PGSIZE = 0 := by
  have := aligned_iff.mp ha
  rw [aligned_iff, toNat_next h]
  omega

/-- The pages from `a` on are `a` and those from the next page on. -/
theorem next_le_iff (ha : VirtPage a) (hb : VirtPage b) : a + PGSIZE ≤ b ↔ a ≤ b ∧ b ≠ a := by
  have ha' := aligned_iff.mp ha.aligned
  have hb' := aligned_iff.mp hb.aligned
  rw [UInt64.le_iff_toNat_le, UInt64.le_iff_toNat_le, toNat_next ha.lt, Ne, ← UInt64.toNat_inj]
  omega

/-- The loop of `mappages`, from the page `a` to the page `last`. It stops the kernel only if the
pages are not all below `MAXVA`, or one of them is mapped. -/
theorem Table.wp_mappagesLoop {last : UInt64} (hlast : last % PGSIZE = 0) {fuel : ℕ} :
    ∀ {s : Mem} {a pa : UInt64}, Table s pt → a % PGSIZE = 0 →
      (0x4000000000 - a.toNat) / 4096 < fuel →
      wp (mappagesLoop pt perm last fuel a pa) s (fun r s' => Table s' pt ∧
        (r = true → (a ≤ last ∧ last < MAXVA) ∧ ∀ b, VirtPage b → s'.pageMap pt b =
          if a ≤ b ∧ b ≤ last then some (pa2pte (pa + (b - a)) ||| perm ||| PTE_V)
          else s.pageMap pt b))
        fun _ => a ≤ last ∧ last < MAXVA →
          ∃ b, VirtPage b ∧ a ≤ b ∧ b ≤ last ∧ s.pageMap pt b ≠ none := by
  induction fuel with
  | zero => exact fun _ _ hfuel => absurd hfuel (Nat.not_lt_zero _)
  | succ fuel ih =>
    intro s a pa h ha hfuel
    unfold mappagesLoop
    by_cases hmax : MAXVA ≤ a
    · -- `walk` stops the kernel.
      have hwalk : walk pt a true s = .error .walk := by
        rw [walk, if_pos hmax]
        rfl
      rw [wp_bind, wp, hwalk]
      intro hle
      exact absurd (UInt64.lt_of_le_of_lt hle.1 hle.2) (UInt64.not_lt.mpr hmax)
    · have hva : a < MAXVA := UInt64.not_le.mp hmax
      have hpage : VirtPage a := ⟨ha, hva⟩
      refine wp_call (h.wp_walk hva) fun r s₁ hs₁ => ?_
      obtain ⟨hx, -, -, hr, -⟩ := hs₁
      have h₁ := hx.table h
      cases r with
      | none => exact ⟨h₁, by simp⟩
      | some r =>
        obtain ⟨t, k⟩ := r
        obtain ⟨rfl, ht⟩ := hr t k rfl
        simp only [wp_bind, wp_get]
        rw [wp_ite]
        refine ⟨fun hv hle => ⟨a, hpage, UInt64.le_refl a, hle.1, ?_⟩, fun hv => ?_⟩
        · rw [← hx.pageMap h, pageMap_of_descend ht, present_valid hv]
          simp
        simp only [wp_bind, wp_modify]
        have h₂ := h₁.store h₁.spread ht (v := pa2pte pa ||| perm ||| PTE_V) (px 0 a)
        have hmap {b : UInt64} (hb : VirtPage b) :
            (s₁.store t (px 0 a) (pa2pte pa ||| perm ||| PTE_V)).pageMap pt b =
              if b = a then some (pa2pte pa ||| perm ||| PTE_V) else s.pageMap pt b := by
          rw [pageMap_store h₁.spread ht hpage hb, present_valid (valid_or _), hx.pageMap h]
        rw [wp_ite]
        refine ⟨?_, fun hne => ?_⟩
        · rintro rfl
          refine ⟨h₂, fun _ => ⟨⟨UInt64.le_refl a, hva⟩, fun b hb => ?_⟩⟩
          rw [hmap hb]
          by_cases hba : b = a
          · subst hba
            rw [if_pos rfl, if_pos ⟨UInt64.le_refl b, UInt64.le_refl b⟩, UInt64.sub_self,
              UInt64.add_zero]
          · rw [if_neg hba, if_neg]
            exact fun hle => hba (UInt64.le_antisymm hle.2 hle.1)
        · have hnext := toNat_next hva
          have hlt : a.toNat < 0x4000000000 := UInt64.lt_iff_toNat_lt.mp hva
          have ha' := aligned_iff.mp ha
          have hlast' := aligned_iff.mp hlast
          have hne' : a.toNat ≠ last.toNat := fun h => hne (UInt64.toNat_inj.mp h)
          have hle' : a + PGSIZE ≤ last ↔ a ≤ last := by
            rw [UInt64.le_iff_toNat_le, UInt64.le_iff_toNat_le, hnext]
            omega
          refine wp_mono (ih h₂ (aligned_next ha hva) (by rw [hnext]; omega))
            (fun r s₃ hs₃ => ⟨hs₃.1, fun hr => ?_⟩) fun p hp hle => ?_
          · obtain ⟨hbound, hmap₃⟩ := hs₃.2 hr
            rw [hle'] at hbound
            refine ⟨hbound, fun b hb => ?_⟩
            rw [hmap₃ b hb, hmap hb]
            by_cases hba : b = a
            · subst hba
              rw [if_neg fun h => ((next_le_iff hpage hb).mp h.1).2 rfl, if_pos rfl,
                if_pos ⟨UInt64.le_refl b, hbound.1⟩, UInt64.sub_self, UInt64.add_zero]
            · have hiff : a + PGSIZE ≤ b ∧ b ≤ last ↔ a ≤ b ∧ b ≤ last := by
                rw [next_le_iff hpage hb]
                exact and_congr_left fun _ => and_iff_left hba
              have hsum : pa + PGSIZE + (b - (a + PGSIZE)) = pa + (b - a) := by grind
              simp only [hiff, if_neg hba, hsum]
          · rw [← hle'] at hle
            obtain ⟨b, hb, hab, hbl, hne⟩ := hp hle
            rw [hmap hb, if_neg ((next_le_iff hpage hb).mp hab).2] at hne
            exact ⟨b, hb, ((next_le_iff hpage hb).mp hab).1, hbl, hne⟩

/-- A page of the range of `size` bytes from `va` on. -/
def InRange (va size a : UInt64) : Prop := va ≤ a ∧ a - va < size

instance (va size a : UInt64) : Decidable (InRange va size a) := inferInstanceAs (Decidable (_ ∧ _))

/-- The range ends below `MAXVA`. -/
def InBounds (va size : UInt64) : Prop := va.toNat + size.toNat ≤ MAXVA.toNat

instance (va size : UInt64) : Decidable (InBounds va size) := inferInstanceAs (Decidable (_ ≤ _))

theorem inRange_iff {size : UInt64} :
    InRange va size a ↔ va.toNat ≤ a.toNat ∧ a.toNat < va.toNat + size.toNat := by
  rw [InRange, UInt64.le_iff_toNat_le, UInt64.lt_iff_toNat_lt]
  refine and_congr_right fun hle => ?_
  rw [UInt64.toNat_sub_of_le _ _ (UInt64.le_iff_toNat_le.mpr hle)]
  omega

section Mappages

variable {size : UInt64} (h : Table s pt) (hva : va % PGSIZE = 0) (hsize : size % PGSIZE = 0)
  (hne : size ≠ 0)
include h hva hsize hne

/-- `mappages` adds the pages of the range to the map if it returns 0. Otherwise it stops the kernel
only if the range is not below `MAXVA`, or one of its pages is mapped. -/
theorem Table.wp_mappages : wp (mappages pt va size pa perm) s (fun r s' => Table s' pt ∧
      (r = true → InBounds va size ∧ ∀ a, VirtPage a → s'.pageMap pt a =
        if InRange va size a then some (pa2pte (pa + (a - va)) ||| perm ||| PTE_V)
        else s.pageMap pt a))
      fun _ => InBounds va size →
        ∃ a, VirtPage a ∧ InRange va size a ∧ s.pageMap pt a ≠ none := by
  have hva' := aligned_iff.mp hva
  have hsize' := aligned_iff.mp hsize
  have hpos : size.toNat ≠ 0 := fun h0 => hne (UInt64.toNat_inj.mp h0)
  have hsmax := size.toNat_lt
  have hvmax := va.toNat_lt
  have hmax : MAXVA.toNat = 0x4000000000 := rfl
  generalize hl : va + size - PGSIZE = last
  have hlast : last.toNat = (va.toNat + size.toNat - 4096) % 2 ^ 64 := by
    rw [← hl, UInt64.toNat_sub, UInt64.toNat_add]
    change (2 ^ 64 - 4096 + _) % 2 ^ 64 = _
    omega
  have hlast' : last % PGSIZE = 0 := by
    rw [aligned_iff, hlast]
    omega
  -- The last page is below `MAXVA` and not before the first one if the range is in bounds.
  have hbound : va ≤ last ∧ last < MAXVA ↔ InBounds va size := by
    rw [UInt64.le_iff_toNat_le, UInt64.lt_iff_toNat_lt, hlast, InBounds, hmax]
    omega
  have hrange {a : UInt64} (ha : VirtPage a) (hb : InBounds va size) :
      va ≤ a ∧ a ≤ last ↔ InRange va size a := by
    have ha' := aligned_iff.mp ha.aligned
    rw [inRange_iff, UInt64.le_iff_toNat_le, UInt64.le_iff_toNat_le, hlast]
    rw [InBounds, hmax] at hb
    omega
  have hfuel : (0x4000000000 - va.toNat) / 4096 < MAXPAGES := by
    have : MAXPAGES = 67108865 := rfl
    omega
  unfold mappages
  rw [if_neg fun hn => hn hva, if_neg fun hn => hn hsize, if_neg hne, hl]
  refine wp_mono (h.wp_mappagesLoop hlast' hva hfuel) (fun r s' hs' => ⟨hs'.1, fun hr => ?_⟩)
    fun p hp hb => ?_
  · obtain ⟨hb, hmap⟩ := hs'.2 hr
    rw [hbound] at hb
    refine ⟨hb, fun a ha => ?_⟩
    rw [hmap a ha]
    simp only [hrange ha hb]
  · obtain ⟨a, ha, hle, hle', hmapped⟩ := hp (hbound.mpr hb)
    exact ⟨a, ha, (hrange ha hb).mp ⟨hle, hle'⟩, hmapped⟩

end Mappages

/-! ## `uvmunmap` -/

/-- The memory after `kfree`. -/
def Mem.freed (s : Mem) (pa : UInt64) : Mem :=
  { s.setPage pa (fun _ => 0x0101010101010101) with freelist := pa :: s.freelist }

/-- `kfree` of a page of the allocator. -/
theorem wp_kfree {Q : Unit → Mem → Prop} (hf : Frame s.kend pa) (hQ : Q () (s.freed pa)) :
    wp (kfree pa) s Q E := by
  simp only [kfree, wp_bind, wp_get]
  rw [wp_ite]
  refine ⟨fun hbad => ?_, fun _ => hQ⟩
  rcases hbad with hbad | hbad | hbad
  · exact absurd hf.aligned hbad
  · exact absurd hf.ge (UInt64.not_le.mpr hbad)
  · exact absurd hf.lt (UInt64.not_lt.mpr hbad)

/-- The page of a leaf can be freed: it is one of the allocator, and not of the page table. -/
def Freeable (s : Mem) (pt a : UInt64) : Prop :=
  ∀ pte, s.pageMap pt a = some pte →
    Frame s.kend (pte2pa pte) ∧ ¬ Node child 3 s.page pt (pte2pa pte)

/-- The table does not change when the page is freed. -/
theorem Freeable.agree {pte : UInt64} (h : Freeable s pt a) (hmap : s.pageMap pt a = some pte) :
    Agree child 3 s.page pt (s.freed (pte2pa pte)).page := by
  intro f hnode
  refine update_of_ne ?_ ..
  rintro rfl
  exact (h pte hmap).2 hnode

/-- A page is removed from the map, and its memory is freed if `doFree` says so. -/
inductive Unmaps (pt : UInt64) (doFree : Bool) (a : UInt64) (s s' : Mem) : Prop
  | absent (map : s.pageMap pt a = none) (eq : s' = s)
  | page {t pte : UInt64} (map : s.pageMap pt a = some pte)
      (node : descend child s.page pt (path a) = some t)
      (eq : s' = (if doFree then s.freed (pte2pa pte) else s).store t (px 0 a) 0)

/-- The body of the loop of `uvmunmap`. -/
theorem wp_unmapPage {doFree : Bool} (ha : a < MAXVA) (hf : doFree = true → Freeable s pt a) :
    wp (unmapPage pt doFree a) s (fun _ s' => Unmaps pt doFree a s s') E := by
  simp only [unmapPage, wp_bind]
  rw [wp_walk_false ha]
  cases ht : descend child s.page pt (path a) with
  | none => exact .absent (pageMap_of_not_descend ht) rfl
  | some t =>
    simp only [Option.map_some, wp_bind, wp_get]
    rw [wp_ite]
    refine ⟨fun h0 => .absent ?_ rfl, fun hv => ?_⟩
    · rw [pageMap_of_descend ht, present_not_valid (fun hn => hn h0)]
    · have hmap : s.pageMap pt a = some (s.page t (px 0 a)) := by
        rw [pageMap_of_descend ht, present_valid hv]
      rw [wp_ite]
      refine ⟨fun hfree => ?_, fun hno => ?_⟩
      · rw [wp_bind]
        refine wp_kfree (hf hfree _ hmap).1 (.page hmap ht ?_)
        rw [if_pos hfree]
      · refine .page hmap ht ?_
        rw [if_neg hno]

theorem Unmaps.kend {doFree : Bool} (hu : Unmaps pt doFree a s s') : s'.kend = s.kend := by
  cases hu with
  | absent map eq => rw [eq]
  | page map node eq =>
    rw [eq]
    by_cases hfree : doFree = true
    · rw [if_pos hfree]
      rfl
    · rw [if_neg hfree]
      rfl

section Unmaps

variable {doFree : Bool} (hu : Unmaps pt doFree a s s') (hs : Spread child 3 s.page pt)
  (hf : doFree = true → Freeable s pt a)
include hu hs hf

/-- The pages of the table stay. -/
theorem Unmaps.nodes : Spread child 3 s'.page pt ∧
    ∀ f, Node child 3 s'.page pt f ↔ Node child 3 s.page pt f := by
  cases hu with
  | absent map eq =>
    rw [eq]
    exact ⟨hs, fun _ => Iff.rfl⟩
  | @page t pte map node eq =>
    rw [eq]
    by_cases hfree : doFree = true
    · have hagree := (hf hfree).agree map
      have hs' := hagree.spread hs
      have hnode : descend child (s.freed (pte2pa pte)).page pt (path a) = some t := by
        rw [hagree.descend_eq (by simp [path]), node]
      rw [if_pos hfree]
      exact ⟨spread_store hs' hnode rfl, fun f =>
        (node_store_iff hs' hnode rfl).trans hagree.node_iff⟩
    · rw [if_neg hfree]
      exact ⟨spread_store hs node rfl, fun f => node_store_iff hs node rfl⟩

/-- The page is removed, and no other page is. -/
theorem Unmaps.pageMap_eq (ha : VirtPage a) (hb : VirtPage b) :
    s'.pageMap pt b = if b = a then none else s.pageMap pt b := by
  cases hu with
  | absent map eq =>
    rw [eq]
    by_cases hba : b = a
    · rw [if_pos hba, hba, map]
    · rw [if_neg hba]
  | @page t pte map node eq =>
    have hzero : present child 0 = none := rfl
    rw [eq]
    by_cases hfree : doFree = true
    · have hagree := (hf hfree).agree map
      have hnode : descend child (s.freed (pte2pa pte)).page pt (path a) = some t := by
        rw [hagree.descend_eq (by simp [path]), node]
      rw [if_pos hfree, pageMap_store (hagree.spread hs) hnode ha hb, hzero]
      refine if_congr Iff.rfl rfl ?_
      exact hagree.lookup_eq (by simp [path])
    · rw [if_neg hfree, pageMap_store hs node ha hb, hzero]

end Unmaps

/-- The loop of `uvmunmap`, from the page `a` to the address `stop`. -/
theorem wp_uvmunmapLoop {doFree : Bool} {stop : UInt64} (hstop : stop ≤ MAXVA) {fuel : ℕ} :
    ∀ {s : Mem} {a : UInt64}, Spread child 3 s.page pt → a % PGSIZE = 0 →
      (0x4000000000 - a.toNat) / 4096 < fuel →
      (∀ b, VirtPage b → a ≤ b → b < stop → doFree = true → Freeable s pt b) →
      wp (uvmunmapLoop pt doFree stop fuel a) s (fun _ s' => Spread child 3 s'.page pt ∧
        ∀ b, VirtPage b → s'.pageMap pt b =
          if a ≤ b ∧ b < stop then none else s.pageMap pt b) E := by
  induction fuel with
  | zero => exact fun _ _ hfuel => absurd hfuel (Nat.not_lt_zero _)
  | succ fuel ih =>
    intro s a hs ha hfuel hfree
    unfold uvmunmapLoop
    rw [wp_ite]
    refine ⟨fun hlt => ?_, fun hle => ⟨hs, fun b hb => ?_⟩⟩
    · have hva : a < MAXVA := UInt64.lt_of_lt_of_le hlt hstop
      have hpage : VirtPage a := ⟨ha, hva⟩
      have hnext := toNat_next hva
      have hmax : a.toNat < 0x4000000000 := UInt64.lt_iff_toNat_lt.mp hva
      have ha' := aligned_iff.mp ha
      have hfa := hfree a hpage (UInt64.le_refl a) hlt
      refine wp_call (wp_unmapPage hva hfa) fun _ s₁ hu => ?_
      obtain ⟨hs₁, hnodes⟩ := hu.nodes hs hfa
      have hmap {b : UInt64} (hb : VirtPage b) := hu.pageMap_eq hs hfa hpage hb
      refine (ih hs₁ (aligned_next ha hva) (by rw [hnext]; omega) fun b hb hab hlt' hdo pte hpte =>
        ?_).imp fun _ s₂ hs₂ => ⟨hs₂.1, fun b hb => ?_⟩
      · obtain ⟨hab, hne⟩ := (next_le_iff hpage hb).mp hab
        rw [hmap hb, if_neg hne] at hpte
        rw [hnodes, hu.kend]
        exact hfree b hb hab hlt' hdo pte hpte
      · rw [hs₂.2 b hb, hmap hb]
        by_cases hba : b = a
        · subst hba
          rw [if_pos (rfl : b = b), if_pos (⟨UInt64.le_refl b, hlt⟩ : b ≤ b ∧ b < stop), ite_self]
        · have hiff : a + PGSIZE ≤ b ∧ b < stop ↔ a ≤ b ∧ b < stop := by
            rw [next_le_iff hpage hb]
            exact and_congr_left fun _ => and_iff_left hba
          simp only [hiff, if_neg hba]
    · rw [if_neg]
      exact fun h => hle (UInt64.lt_of_le_of_lt h.1 h.2)

/-- `uvmunmap` removes the pages of the range, and no other ones. -/
theorem wp_uvmunmap {doFree : Bool} {npages : UInt64} (hs : Spread child 3 s.page pt)
    (hva : va % PGSIZE = 0) (hb : va.toNat + npages.toNat * 4096 ≤ MAXVA.toNat)
    (hfree : ∀ a, VirtPage a → InRange va (npages * PGSIZE) a → doFree = true → Freeable s pt a) :
    wp (uvmunmap pt va npages doFree) s (fun _ s' => Spread child 3 s'.page pt ∧
      ∀ a, VirtPage a → s'.pageMap pt a =
        if InRange va (npages * PGSIZE) a then none else s.pageMap pt a) E := by
  have hmax : MAXVA.toNat = 0x4000000000 := rfl
  have hsize : (npages * PGSIZE).toNat = npages.toNat * 4096 := by
    rw [UInt64.toNat_mul]
    exact Nat.mod_eq_of_lt (by change npages.toNat * 4096 < _; omega)
  have hstop : (va + npages * PGSIZE).toNat = va.toNat + npages.toNat * 4096 := by
    rw [UInt64.toNat_add, hsize]
    exact Nat.mod_eq_of_lt (by omega)
  have hrange {a : UInt64} : va ≤ a ∧ a < va + npages * PGSIZE ↔
      InRange va (npages * PGSIZE) a := by
    rw [inRange_iff, UInt64.le_iff_toNat_le, UInt64.lt_iff_toNat_lt, hstop, hsize]
  have hfuel : (0x4000000000 - va.toNat) / 4096 < MAXPAGES := by
    have : MAXPAGES = 67108865 := rfl
    omega
  unfold uvmunmap
  rw [if_neg fun hn => hn hva]
  refine (wp_uvmunmapLoop (UInt64.le_iff_toNat_le.mpr (by omega)) hs hva hfuel
    fun b hb h₁ h₂ => hfree b hb (hrange.mp ⟨h₁, h₂⟩)).imp fun _ s' hs' =>
      ⟨hs'.1, fun a ha => ?_⟩
  rw [hs'.2 a ha]
  simp only [hrange]

/-! ## `walkaddr` -/

/-- The bits below a page are cleared. -/
theorem and_high {x : ℕ} (hx : x < 2 ^ 64) : x &&& (2 ^ 64 - 2 ^ 12) = 2 ^ 12 * (x / 2 ^ 12) := by
  rw [show (2 ^ 64 - 2 ^ 12 : ℕ) = 2 ^ 12 * (2 ^ 52 - 1) by norm_num]
  refine Nat.eq_of_testBit_eq fun j => ?_
  rw [Nat.testBit_and, Nat.testBit_two_pow_mul, Nat.testBit_two_pow_mul,
    Nat.testBit_two_pow_sub_one, Nat.testBit_div_two_pow]
  by_cases hj : 12 ≤ j
  · have hsub : j - 12 + 12 = j := by omega
    by_cases hj' : j < 64
    · have hlt : j - 12 < 52 := by omega
      simp [hj, hlt, hsub]
    · have hbit : x.testBit j = false :=
        Nat.testBit_lt_two_pow (lt_of_lt_of_le hx (Nat.pow_le_pow_right (by decide) (by omega)))
      simp [hbit, hsub]
  · simp [hj]

theorem pgrounddown_toNat (a : UInt64) : (pgrounddown a).toNat = a.toNat / 4096 * 4096 := by
  rw [pgrounddown, UInt64.toNat_and,
    show UInt64.toNat (~~~(PGSIZE - 1)) = 2 ^ 64 - 2 ^ 12 from rfl, and_high a.toNat_lt]
  omega

/-- The page of a virtual address. -/
theorem virtPage_pgrounddown (hva : va < MAXVA) : VirtPage (pgrounddown va) := by
  have hlt : va.toNat < 0x4000000000 := UInt64.lt_iff_toNat_lt.mp hva
  refine ⟨?_, UInt64.lt_iff_toNat_lt.mpr ?_⟩
  · rw [aligned_iff, pgrounddown_toNat]
    omega
  · change _ < 0x4000000000
    rw [pgrounddown_toNat]
    omega

theorem px_pgrounddown {level : ℕ} (h : level ≤ 2) (va : UInt64) :
    px level (pgrounddown va) = px level va := by
  refine Fin.ext ?_
  rw [px_val h, px_val h, pgrounddown_toNat, Nat.pow_add]
  change va.toNat / 4096 * 4096 / (4096 * _) % 512 = va.toNat / (4096 * _) % 512
  rw [← Nat.div_div_eq_div_mul, ← Nat.div_div_eq_div_mul, Nat.mul_div_cancel _ (by decide)]

theorem path_pgrounddown (va : UInt64) : path (pgrounddown va) = path va := by
  rw [path, path, px_pgrounddown (by decide), px_pgrounddown (by decide)]

theorem pageMap_pgrounddown (s : Mem) (pt va : UInt64) :
    s.pageMap pt (pgrounddown va) = s.pageMap pt va := by
  rw [Mem.pageMap, Mem.pageMap, path_pgrounddown, px_pgrounddown (by decide)]

/-- The page of a leaf that the user may access, or 0. -/
def userPage : Option UInt64 → UInt64
  | some pte => if pte &&& PTE_U ≠ 0 then pte2pa pte else 0
  | none => 0

theorem walkaddr_eq (s : Mem) (pt va : UInt64) : walkaddr pt va s =
    .ok (if va < MAXVA then userPage (s.pageMap pt (pgrounddown va)) else 0, s) := by
  unfold walkaddr
  by_cases hva : va < MAXVA
  · rw [if_neg (UInt64.not_le.mpr hva), if_pos hva, pageMap_pgrounddown,
      bind_of_ok (walk_false hva)]
    cases ht : descend child s.page pt (path va) with
    | none =>
      rw [pageMap_of_not_descend ht]
      rfl
    | some t =>
      rw [pageMap_of_descend ht]
      simp only [Option.map_some, bind, StateT.bind, get, getThe, MonadStateOf.get, StateT.get,
        pure, Except.pure, Except.bind]
      by_cases hv : s.page t (px 0 va) &&& PTE_V = 0
      · rw [if_pos hv, present_not_valid fun hn => hn hv]
        rfl
      · rw [if_neg hv, present_valid hv]
        by_cases hu : s.page t (px 0 va) &&& PTE_U = 0
        · rw [if_pos hu, userPage, if_neg fun hn => hn hu]
          rfl
        · rw [if_neg hu, userPage, if_pos hu]
          rfl
  · rw [if_pos (UInt64.not_lt.mp hva), if_neg hva]
    rfl

/-! ## The refinement -/

/-- A well-formed page table is a map from the virtual pages to their leaves. `mappages` that
returns 0 adds the pages of its range, and it stops the kernel over no range below `MAXVA` that is
not mapped. `uvmunmap` removes the pages of its range. `walk` changes no leaf, whether there is
memory or not, and `walkaddr` finds the page of a leaf that is valid and has `PTE_U`. -/
theorem page_table_is_map (h : Table s pt) :
    (∀ va size pa perm, va % PGSIZE = 0 → size % PGSIZE = 0 → size ≠ 0 →
      (∀ s', mappages pt va size pa perm s = .ok (true, s') → Table s' pt ∧ InBounds va size ∧
        ∀ a, VirtPage a → s'.pageMap pt a =
          if InRange va size a then some (pa2pte (pa + (a - va)) ||| perm ||| PTE_V)
          else s.pageMap pt a) ∧
      (InBounds va size → (∀ a, VirtPage a → InRange va size a → s.pageMap pt a = none) →
        ∃ r s', mappages pt va size pa perm s = .ok (r, s'))) ∧
    (∀ va npages doFree, va % PGSIZE = 0 → va.toNat + npages.toNat * 4096 ≤ MAXVA.toNat →
      (∀ a, VirtPage a → InRange va (npages * PGSIZE) a → doFree = true → Freeable s pt a) →
      ∃ s', uvmunmap pt va npages doFree s = .ok ((), s') ∧ Spread child 3 s'.page pt ∧
        ∀ a, VirtPage a → s'.pageMap pt a =
          if InRange va (npages * PGSIZE) a then none else s.pageMap pt a) ∧
    (∀ va, va < MAXVA → ∃ r s', walk pt va true s = .ok (r, s') ∧ Table s' pt ∧
      ∀ a, s'.pageMap pt a = s.pageMap pt a) ∧
    ∀ va, walkaddr pt va s =
      .ok (if va < MAXVA then userPage (s.pageMap pt (pgrounddown va)) else 0, s) := by
  refine ⟨fun va size pa perm hva hsize hne => ⟨fun s' hok => ?_, fun hb hfree => ?_⟩,
    fun va npages doFree hva hb hfree => ?_, fun va hva => ?_, walkaddr_eq s pt⟩
  · obtain ⟨htable, hmap⟩ := (h.wp_mappages hva hsize hne).of_ok hok
    exact ⟨htable, hmap rfl⟩
  · have hwp : wp (mappages pt va size pa perm) s _ _ := h.wp_mappages hva hsize hne
    cases hrun : mappages pt va size pa perm s with
    | ok r => exact ⟨r.1, r.2, rfl⟩
    | error p =>
      obtain ⟨a, ha, hrange, hmapped⟩ := hwp.of_error hrun hb
      exact absurd (hfree a ha hrange) hmapped
  · obtain ⟨_, s', hok, hs, hmap⟩ := (wp_uvmunmap h.spread hva hb hfree).exists_ok
    exact ⟨s', hok, hs, hmap⟩
  · obtain ⟨r, s', hok, hx, -⟩ := (h.wp_walk hva).exists_ok
    exact ⟨r, s', hok, hx.table h, hx.pageMap h⟩

/-- A memory with an empty page table and four free pages. -/
def blankMem : Mem where
  page := fun _ _ => 0
  freelist := [0x80002000, 0x80003000, 0x80004000, 0x80005000]
  kend := 0x80001000
  oom := fun _ => false

theorem blankMem_table : Table blankMem 0x80001000 := by
  have hnode {p : List Index} {f : UInt64}
      (hp : descend child blankMem.page 0x80001000 p = some f) : p = [] ∧ f = 0x80001000 := by
    cases p with
    | nil => exact ⟨rfl, (Option.some.inj hp).symm⟩
    | cons i p => exact absurd hp (by simp [descend, blankMem, child])
  refine ⟨fun p q f _ _ hp hq => ?_, fun f hf hnode' => ?_, by decide, fun f hf => ?_, by decide⟩
  · rw [(hnode hp).1, (hnode hq).1]
  · obtain ⟨p, -, hp⟩ := hnode'
    rw [(hnode hp).2] at hf
    exact absurd hf (by decide)
  · simp only [blankMem, List.mem_cons, List.not_mem_nil, or_false] at hf
    rcases hf with rfl | rfl | rfl | rfl
    all_goals exact ⟨by decide, by decide, by decide⟩

/-- The first page is mapped, and no other one. -/
theorem page_table_is_map_blankMem :
    ∃ s', mappages 0x80001000 0 PGSIZE 0x80005000 (PTE_R ||| PTE_U) blankMem = .ok (true, s') ∧
      s'.pageMap 0x80001000 0 = some 0x20001413 ∧
      ∀ a, VirtPage a → a ≠ 0 → s'.pageMap 0x80001000 a = none := by
  obtain ⟨⟨r, s'⟩, hok, rfl⟩ := exists_ok
    (r := mappages 0x80001000 0 PGSIZE 0x80005000 (PTE_R ||| PTE_U) blankMem) (fun r => r.1 = true)
    (by decide +kernel)
  obtain ⟨-, -, hmap⟩ := ((page_table_is_map blankMem_table).1 0 PGSIZE 0x80005000
    (PTE_R ||| PTE_U) (by decide) (by decide) (by decide)).1 s' hok
  have hnone (a : UInt64) : blankMem.pageMap 0x80001000 a = none := by
    simp [Mem.pageMap, lookup, path, descend, blankMem, child]
  refine ⟨s', hok, ?_, fun a ha hne => ?_⟩
  · rw [hmap 0 ⟨by decide, by decide⟩, if_pos (by decide)]
    decide
  · rw [hmap a ha, if_neg, hnone]
    intro hrange
    have hlt : a.toNat < 0 + 4096 := (inRange_iff.mp hrange).2
    have ha' := aligned_iff.mp ha.aligned
    exact hne (UInt64.toNat_inj.mp (by change a.toNat = 0; omega))

end SustainableXv6.Vm
