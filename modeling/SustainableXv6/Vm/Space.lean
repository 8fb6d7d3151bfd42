import SustainableXv6.Lib.Ownership
import SustainableXv6.Vm.PageTable

/-!
# Address spaces

The pages of an address space are those of its page table and those that its leaves point to. Both
are at the end of a path (`Mem.tree`), so that an address space owns its pages as the places of
`Lib.Owned` do, beside the pages `R` of everybody else and the free pages. A program on one address
space may write the pages of its page table and the free pages (`Foot`), and every other page stays
as it is (`Stays`).
-/

namespace SustainableXv6.Vm

open Function Lib Radix

variable {s s' s'' : Mem} {pt a b f perm : UInt64} {R F : Set UInt64} {p : List Index}
  {E : Panic → Prop}

/-! ## The pages of an address space -/

/-- The page at the end of a path: of the page table, or of a leaf. -/
def Mem.tree (s : Mem) (pt : UInt64) (p : List Index) : Option UInt64 :=
  if p.length ≤ 3 then descend child s.page pt p else none

/-- The path to the page of a virtual page. -/
def leafPath (a : UInt64) : List Index := path a ++ [px 0 a]

theorem tree_of_le (hp : p.length ≤ 3) : s.tree pt p = descend child s.page pt p := if_pos hp

theorem tree_of_node {t : UInt64} (hp : p.length < 3) (ht : descend child s.page pt p = some t) :
    s.tree pt p = some t := by
  rw [tree_of_le hp.le, ht]

theorem length_leafPath (a : UInt64) : (leafPath a).length = 3 := rfl

/-- The page of a leaf. -/
theorem tree_leafPath (s : Mem) (pt a : UInt64) :
    s.tree pt (leafPath a) = (s.pageMap pt a).map pte2pa := by
  rw [tree_of_le (length_leafPath a).le, leafPath, descend_concat]
  cases ht : descend child s.page pt (path a) with
  | none => rw [pageMap_of_not_descend ht, Option.bind_none, Option.map_none]
  | some t =>
    rw [pageMap_of_descend ht, Option.bind_some]
    by_cases hv : s.page t (px 0 a) &&& PTE_V ≠ 0
    · rw [child_of_valid hv, present_valid hv, Option.map_some]
    · rw [child_of_not_valid hv, present_not_valid hv, Option.map_none]

theorem tree_leafPath_eq_none : s.tree pt (leafPath a) = none ↔ s.pageMap pt a = none := by
  rw [tree_leafPath, Option.map_eq_none_iff]

theorem leafPath_injective (ha : VirtPage a) (hb : VirtPage b) (h : leafPath a = leafPath b) :
    a = b := by
  obtain ⟨hpath, hlast⟩ := List.append_singleton_inj.mp h
  exact ha.eq_of_path hb hpath hlast

/-- An address space owns its pages, and everybody else owns `R`. -/
structure Space (R : Set UInt64) (s : Mem) (pt : UInt64) : Prop where
  alloc : Allocator s
  owned : Owned R (s.tree pt) fun f => f ∉ s.freelist

/-- The pages that a program on an address space may write. -/
def Foot (s : Mem) (pt f : UInt64) : Prop := f ∈ s.freelist ∨ Node child 3 s.page pt f

theorem Space.table (h : Space R s pt) : Table s pt := by
  refine ⟨fun p q f hp hq hpf hqf => ?_, fun f hf hnode => ?_, h.alloc⟩
  · exact h.owned.inj p q f (tree_of_node hp hpf) (tree_of_node hq hqf)
  · obtain ⟨p, hp, hpf⟩ := hnode
    exact h.owned.used_of_loc (tree_of_node hp hpf) hf

/-- The page of a leaf is not written. -/
theorem Space.not_foot_of_tree (h : Space R s pt) (hp : p.length = 3) (hf : s.tree pt p = some f) :
    ¬ Foot s pt f := by
  rintro (hfree | ⟨q, hq, hqf⟩)
  · exact h.owned.used_of_loc hf hfree
  · have := h.owned.inj p q f hf (tree_of_node hq hqf)
    rw [this] at hp
    omega

theorem Space.not_foot (h : Space R s pt) {pte : UInt64} (hmap : s.pageMap pt a = some pte) :
    ¬ Foot s pt (pte2pa pte) := by
  refine h.not_foot_of_tree (length_leafPath a) ?_
  rw [tree_leafPath, hmap, Option.map_some]

/-- The pages of others are not written. -/
theorem Space.not_foot_of_mem (h : Space R s pt) (hf : f ∈ R) : ¬ Foot s pt f := by
  rintro (hfree | ⟨q, hq, hqf⟩)
  · exact (h.owned.used_iff f).mpr (.inl hf) hfree
  · exact h.owned.notBase q f (tree_of_node hq hqf) hf

theorem Space.notMem_of_free (h : Space R s pt) (hf : f ∈ s.freelist) : f ∉ R :=
  fun hR => h.not_foot_of_mem hR (.inl hf)

/-- An empty page table is an address space. -/
theorem Allocator.space_of_empty (h : Allocator s) (hfree : pt ∉ s.freelist)
    (hempty : ∀ i, child (s.page pt i) = none) :
    Space {f | f ∉ s.freelist ∧ f ≠ pt} s pt := by
  have htree {p : List Index} {f : UInt64} (hp : s.tree pt p = some f) : p = [] ∧ f = pt := by
    cases p with
    | nil => exact ⟨rfl, (Option.some.inj hp).symm⟩
    | cons i p =>
      unfold Mem.tree at hp
      split_ifs at hp
      simp [descend, hempty] at hp
  refine ⟨h, fun p q f hp hq => ?_, fun p f hp hf => hf.2 (htree hp).2, fun f => ?_⟩
  · rw [(htree hp).1, (htree hq).1]
  · constructor
    · intro hf
      by_cases hpt : f = pt
      · exact .inr ⟨[], by rw [hpt]; rfl⟩
      · exact .inl ⟨hf, hpt⟩
    · rintro (hf | ⟨p, hp⟩)
      · exact hf.1
      · rw [(htree hp).2]
        exact hfree

/-! ## What stays -/

/-- Only pages of `F` are written, and the pages that may be written next are pages of `F`. -/
structure Stays (pt : UInt64) (F : Set UInt64) (s s' : Mem) : Prop where
  kend : s'.kend = s.kend
  foot : ∀ f, Foot s' pt f → f ∈ F
  page : ∀ f, f ∉ F → s'.page f = s.page f

theorem Stays.trans (h : Stays pt F s s') (h' : Stays pt F s' s'') : Stays pt F s s'' :=
  ⟨h'.kend.trans h.kend, h'.foot, fun f hf => (h'.page f hf).trans (h.page f hf)⟩

theorem Stays.mono {F' : Set UInt64} (h : Stays pt F s s') (hF : F ⊆ F') : Stays pt F' s s' :=
  ⟨h.kend, fun f hf => hF (h.foot f hf), fun f hf => h.page f fun hn => hf (hF hn)⟩

/-- Only the pages of the page table and the free pages are written. -/
def Within (pt : UInt64) (s s' : Mem) : Prop := Stays pt {f | Foot s pt f} s s'

theorem Within.refl (pt : UInt64) (s : Mem) : Within pt s s := ⟨rfl, fun _ hf => hf, fun _ _ => rfl⟩

theorem Within.trans (h : Within pt s s') (h' : Within pt s' s'') : Within pt s s'' :=
  Stays.trans h (h'.mono h.foot)

/-- The leaves are as before. -/
structure Kept (pt : UInt64) (s s' : Mem) : Prop where
  within : Within pt s s'
  free : ∀ f ∈ s'.freelist, f ∈ s.freelist
  map : ∀ b, s'.pageMap pt b = s.pageMap pt b
  tree : ∀ p, p.length = 3 → s'.tree pt p = s.tree pt p

theorem Kept.refl (pt : UInt64) (s : Mem) : Kept pt s s :=
  ⟨.refl pt s, fun _ hf => hf, fun _ => rfl, fun _ _ => rfl⟩

theorem Kept.trans (h : Kept pt s s') (h' : Kept pt s' s'') : Kept pt s s'' :=
  ⟨h.within.trans h'.within, fun f hf => h.free f (h'.free f hf),
    fun b => (h'.map b).trans (h.map b), fun p hp => (h'.tree p hp).trans (h.tree p hp)⟩

/-! ## Pages that are not of the page table -/

section Agree

variable (h : Agree child 3 s.page pt s'.page)
include h

theorem tree_agree : s'.tree pt = s.tree pt := by
  funext p
  by_cases hp : p.length ≤ 3
  · rw [tree_of_le hp, tree_of_le hp, h.descend_eq hp]
  · rw [Mem.tree, Mem.tree, if_neg hp, if_neg hp]

theorem pageMap_agree (b : UInt64) : s'.pageMap pt b = s.pageMap pt b :=
  h.lookup_eq (by simp [path])

end Agree

/-- A page that is not of the page table may be written. -/
theorem agree_setPage (hf : ¬ Node child 3 s.page pt f) (pg : Page) :
    Agree child 3 s.page pt (s.setPage f pg).page := by
  intro t ht
  refine update_of_ne ?_ ..
  rintro rfl
  exact hf ht

/-- A page that is not one of the page table is written. -/
theorem Space.setPage (h : Space R s pt) (hf : ¬ Node child 3 s.page pt f) (pg : Page) :
    Space R (s.setPage f pg) pt := by
  refine ⟨h.alloc.congr rfl rfl, ?_⟩
  rw [tree_agree (agree_setPage hf pg)]
  exact h.owned

/-- The address space after a call of `kalloc` that fails. -/
theorem Space.refused (h : Space R s pt) (oom : ℕ → Bool) :
    Space R { s with oom := oom } pt := ⟨h.alloc.congr rfl rfl, h.owned⟩

theorem kept_refused (pt : UInt64) (s : Mem) (oom : ℕ → Bool) : Kept pt s { s with oom := oom } :=
  ⟨⟨rfl, fun _ hf => hf, fun _ _ => rfl⟩, fun _ hf => hf, fun _ => rfl, fun _ _ => rfl⟩

/-- The memory in which the first free page has been taken and filled. -/
def Mem.taken (s : Mem) (f : UInt64) (rest : List UInt64) (oom : ℕ → Bool) (pg : Page) : Mem :=
  { s.setPage f pg with freelist := rest, oom := oom }

theorem Mem.taken_page_of_ne {g : UInt64} (h : g ≠ f) (rest : List UInt64) (oom : ℕ → Bool)
    (pg : Page) : (s.taken f rest oom pg).page g = s.page g := update_of_ne h ..

section Taken

variable {rest : List UInt64} (h : Space R s pt) (hfree : s.freelist = f :: rest)
include h hfree

theorem Space.agree_taken (oom : ℕ → Bool) (pg : Page) :
    Agree child 3 s.page pt (s.taken f rest oom pg).page :=
  agree_setPage (h.table.free f (by simp [hfree])) pg

/-- The page that `kalloc` returns belongs to its caller. -/
theorem Space.taken (oom : ℕ → Bool) (pg : Page) :
    Space (insert f R) (s.taken f rest oom pg) pt := by
  have hnodup := h.alloc.nodup
  rw [hfree, List.nodup_cons] at hnodup
  refine ⟨⟨h.alloc.kend, fun g hg => h.alloc.frame g ?_, hnodup.2⟩, ?_⟩
  · rw [hfree]
    exact List.mem_cons_of_mem f hg
  · rw [tree_agree (h.agree_taken hfree oom pg)]
    refine h.owned.reserve (fun hn => hn (by simp [hfree])) fun g => ?_
    simp only [Mem.taken, hfree, List.mem_cons, not_or]
    by_cases hgf : g = f
    · simp [hgf, hnodup.1]
    · simp [hgf]

theorem Space.kept_taken (oom : ℕ → Bool) (pg : Page) :
    Kept pt s (s.taken f rest oom pg) := by
  have hagree := h.agree_taken hfree oom pg
  have hsub (g : UInt64) (hg : g ∈ rest) : g ∈ s.freelist := by
    rw [hfree]
    exact List.mem_cons_of_mem f hg
  refine ⟨⟨rfl, fun g hg => ?_, fun g hg => ?_⟩, hsub, pageMap_agree hagree, fun p _ => ?_⟩
  · rcases hg with hg | hg
    · exact .inl (hsub g hg)
    · exact .inr (hagree.node_iff.mp hg)
  · refine Mem.taken_page_of_ne ?_ ..
    rintro rfl
    exact hg (.inl (by simp [hfree]))
  · rw [tree_agree hagree]

end Taken

section Freed

variable (h : Space R s pt) (hf : f ∈ R)
include h hf

theorem Space.agree_freed : Agree child 3 s.page pt (s.freed f).page :=
  agree_setPage (fun hn => h.not_foot_of_mem hf (.inr hn)) _

/-- A page of others is freed. -/
theorem Space.freed (hframe : Frame s.kend f) : Space (R \ {f}) (s.freed f) pt := by
  refine ⟨⟨h.alloc.kend, fun g hg => ?_, ?_⟩, ?_⟩
  · rcases List.mem_cons.mp hg with rfl | hg
    · exact hframe
    · exact h.alloc.frame g hg
  · exact List.nodup_cons.mpr ⟨fun hn => h.notMem_of_free hn hf, h.alloc.nodup⟩
  · rw [tree_agree (h.agree_freed hf)]
    refine h.owned.discard hf fun g => ?_
    simp [Mem.freed]

end Freed

/-! ## `walk` -/

/-- The page table with one more page. -/
theorem tree_linked {t : UInt64} {i : Index} (h : Table s pt)
    (ht : descend child s.page pt p = some t) (hp : p.length + 1 < 3)
    (hnone : child (s.page t i) = none) (hf : ¬ Node child 3 s.page pt f)
    (hl : Linked child s.page t i f s'.page) :
    s'.tree pt = update (s.tree pt) (p ++ [i]) (some f) := by
  funext q
  by_cases hq : q.length ≤ 3
  · rw [tree_of_le hq, hl.descend_eq h.spread ht (by omega) hnone hf hq]
    by_cases hqp : q = p ++ [i]
    · rw [hqp, if_pos rfl, update_self]
    · rw [if_neg hqp, update_of_ne hqp, tree_of_le hq]
  · rw [update_of_ne, Mem.tree, Mem.tree, if_neg hq, if_neg hq]
    rintro rfl
    rw [List.length_append, List.length_singleton] at hq
    omega

/-- A step of `walk` takes a page for the page table. -/
theorem Grows.space (hg : Grows pt s s') (h : Space R s pt) : Space R s' pt := by
  refine ⟨(hg.table h.table).alloc, ?_⟩
  cases hg with
  | refused page freelist kend =>
    refine h.owned.congr (fun p => ?_) fun f => ?_
    · rw [Mem.tree, Mem.tree, page]
    · rw [freelist]
  | @linked p t f i node level none freelist link kend =>
    have hf : ¬ Node child 3 s.page pt f := h.table.free f (by simp [freelist])
    rw [tree_linked h.table node level none hf link]
    refine h.owned.alloc ?_ (fun hn => hn (by simp [freelist])) fun g => ?_
    · rw [tree_of_le (by simp; omega), descend_concat, node, Option.bind_some, none]
    · have hnodup := h.alloc.nodup
      rw [freelist, List.nodup_cons] at hnodup
      simp only [freelist, List.mem_cons, not_or]
      by_cases hgf : g = f
      · simp [hgf, hnodup.1]
      · simp [hgf]

theorem Grows.kept (hg : Grows pt s s') (h : Space R s pt) : Kept pt s s' := by
  refine ⟨?_, ?_, hg.pageMap h.table, ?_⟩
  · cases hg with
    | refused page freelist kend =>
      refine ⟨kend, fun f hf => ?_, fun f _ => by rw [page]⟩
      rw [Foot, page, freelist] at hf
      exact hf
    | @linked p t f i node level none freelist link kend =>
      have hf : ¬ Node child 3 s.page pt f := h.table.free f (by simp [freelist])
      refine ⟨kend, fun g hg => ?_, fun g hg => link.others g ?_ ?_⟩
      · rcases hg with hg | hg
        · exact .inl (by simp [freelist, hg])
        · rcases (link.node_iff h.table.spread node (by omega) none hf level).mp hg with rfl | hg
          · exact .inl (by simp [freelist])
          · exact .inr hg
      · rintro rfl
        exact hg (.inr ⟨p, by omega, node⟩)
      · rintro rfl
        exact hg (.inl (by simp [freelist]))
  · intro f hf
    cases hg with
    | refused page freelist kend => exact freelist ▸ hf
    | linked node level none freelist link kend => simp [freelist, hf]
  · intro q hq
    cases hg with
    | refused page freelist kend => rw [Mem.tree, Mem.tree, page]
    | @linked p t f i node level none freelist link kend =>
      rw [tree_linked h.table node level none (h.table.free f (by simp [freelist])) link,
        update_of_ne]
      rintro rfl
      rw [List.length_append, List.length_singleton] at hq
      omega

/-- `walk` takes pages for the page table. -/
theorem Extends.space (hx : Extends pt s s') (h : Space R s pt) : Space R s' pt ∧ Kept pt s s' :=
  hx.invariant (I := fun t => Space R t pt ∧ Kept pt s t)
    (fun _ _ hg ht => ⟨hg.space ht.1, ht.2.trans (hg.kept ht.1)⟩) ⟨h, .refl pt s⟩

/-! ## A leaf is written -/

theorem tree_store {t v : UInt64} (hs : Spread child 3 s.page pt)
    (ht : descend child s.page pt (path a) = some t) : (s.store t (px 0 a) v).tree pt =
      update (s.tree pt) (leafPath a) (child v) := by
  funext q
  by_cases hq : q.length ≤ 3
  · rw [tree_of_le hq]
    refine (descend_store_leaf hs ht rfl hq).trans ?_
    rw [← leafPath]
    by_cases hqa : q = leafPath a
    · rw [if_pos hqa, hqa, update_self]
    · rw [if_neg hqa, update_of_ne hqa, tree_of_le hq]
  · rw [update_of_ne, Mem.tree, Mem.tree, if_neg hq, if_neg hq]
    rintro rfl
    exact hq (length_leafPath a).le

section Leaf

variable {t v : UInt64} (h : Space R s pt) (ht : descend child s.page pt (path a) = some t)
include h ht

theorem Space.within_store : Within pt s (s.store t (px 0 a) v) := by
  refine ⟨rfl, fun g hg => ?_, fun g hg => ?_⟩
  · rcases hg with hg | hg
    · exact .inl hg
    · exact .inr ((node_store_iff h.table.spread ht rfl).mp hg)
  · funext k
    refine store_of_ne (.inl ?_)
    rintro rfl
    exact hg (.inr ⟨path a, by simp [path], ht⟩)

/-- A page of others becomes the page of a leaf. -/
theorem Space.map (hnone : s.pageMap pt a = none) (hf : f ∈ R) (hv : child v = some f) :
    Space (R \ {f}) (s.store t (px 0 a) v) pt := by
  refine ⟨h.alloc.congr rfl rfl, ?_⟩
  rw [tree_store h.table.spread ht, hv]
  exact h.owned.give (tree_leafPath_eq_none.mpr hnone) hf

end Leaf

/-- A leaf is removed, and its page is freed. -/
theorem Space.unmaps (h : Space R s pt) (hu : Unmaps pt true a s s') (ha : VirtPage a)
    (hframe : ∀ pte, s.pageMap pt a = some pte → Frame s.kend (pte2pa pte) ∧ pte2pa pte ∈ F)
    (hF : ∀ f, Foot s pt f → f ∈ F) :
    Space R s' pt ∧ Stays pt F s s' ∧
      (∀ b, VirtPage b → s'.pageMap pt b = if b = a then none else s.pageMap pt b) ∧
      ∀ p, p.length = 3 → p ≠ leafPath a → s'.tree pt p = s.tree pt p := by
  have hfreeable : Freeable s pt a := fun pte hmap =>
    ⟨(hframe pte hmap).1, fun hn => h.not_foot hmap (.inr hn)⟩
  have hmap (b : UInt64) (hb : VirtPage b) :=
    hu.pageMap_eq h.table.spread (fun _ => hfreeable) ha hb
  cases hu with
  | absent map eq =>
    subst eq
    exact ⟨h, ⟨rfl, hF, fun _ _ => rfl⟩, hmap, fun _ _ _ => rfl⟩
  | @page t pte map node eq =>
    obtain ⟨hfr, hin⟩ := hframe pte map
    rw [if_pos rfl] at eq
    have hagree := hfreeable.agree map
    have hs := hagree.spread h.table.spread
    have ht : descend child (s.freed (pte2pa pte)).page pt (path a) = some t := by
      rw [hagree.descend_eq (by simp [path]), node]
    have htree : s'.tree pt = update (s.tree pt) (leafPath a) none := by
      rw [eq, tree_store hs ht, tree_agree hagree]
      rfl
    have hleaf : s.tree pt (leafPath a) = some (pte2pa pte) := by
      rw [tree_leafPath, map, Option.map_some]
    have hfree : s'.freelist = pte2pa pte :: s.freelist := by
      rw [eq]
      rfl
    have hkend : s'.kend = s.kend := by
      rw [eq]
      rfl
    refine ⟨⟨⟨?_, fun g hg => ?_, ?_⟩, ?_⟩, ⟨hkend, fun g hg => ?_, fun g hg => ?_⟩, hmap,
      fun p _ hne => by rw [htree, update_of_ne hne]⟩
    · rw [hkend]
      exact h.alloc.kend
    · rw [hfree] at hg
      rw [hkend]
      rcases List.mem_cons.mp hg with rfl | hg
      · exact hfr
      · exact h.alloc.frame g hg
    · rw [hfree]
      exact List.nodup_cons.mpr ⟨h.owned.used_of_loc hleaf, h.alloc.nodup⟩
    · rw [htree, hfree]
      refine h.owned.free hleaf fun g => ?_
      simp
    · rcases hg with hg | hg
      · rw [hfree] at hg
        rcases List.mem_cons.mp hg with rfl | hg
        · exact hin
        · exact hF g (.inl hg)
      · rw [eq] at hg
        exact hF g (.inr (hagree.node_iff.mp ((node_store_iff hs ht rfl).mp hg)))
    · have hgt : g ≠ t := by
        rintro rfl
        exact hg (hF g (.inr ⟨path a, by simp [path], node⟩))
      have hgf : g ≠ pte2pa pte := by
        rintro rfl
        exact hg hin
      rw [eq]
      funext k
      refine (store_of_ne (.inl hgt)).trans ?_
      simp [Mem.freed, Mem.setPage, update_of_ne hgf]

/-! ## Memory -/

/-- The places that a virtual page needs: two pages of the page table, and its own page. -/
def places (a : UInt64) : Finset (List Index) := {[px 2 a], path a, leafPath a}

/-- There is memory for the places of `M` that have no page. -/
def Supply (s : Mem) (pt : UInt64) (M : Finset (List Index)) : Prop :=
  (missing (s.tree pt) M).card ≤ s.freelist.length ∧ ∀ n, s.oom n = false

/-- The free pages are those that are not in use. -/
theorem Allocator.card_unused (h : Allocator s) {U : Finset UInt64} (hU : s.freelist.toFinset ⊆ U) :
    (unused (fun f => f ∉ s.freelist) U).card = s.freelist.length := by
  rw [← List.toFinset_card_of_nodup h.nodup]
  congr 1
  ext f
  rw [mem_unused, not_not, List.mem_toFinset]
  exact ⟨fun hf => hf.2, fun hf => ⟨hU (List.mem_toFinset.mpr hf), hf⟩⟩

/-- While places of `M` are filled, the memory stays enough for those that are left. -/
theorem Space.enough {P : List Index → Prop} {M : Finset (List Index)} (h : Space R s pt)
    (h' : Space R s' pt) (hsub : ∀ f ∈ s'.freelist, f ∈ s.freelist) (hfill : Fills pt P s s')
    (hP : ∀ q, P q → q ∈ M) (hle : (missing (s.tree pt) M).card ≤ s.freelist.length) :
    (missing (s'.tree pt) M).card ≤ s'.freelist.length := by
  have hsub' : s'.freelist.toFinset ⊆ s.freelist.toFinset := fun f hf =>
    List.mem_toFinset.mpr (hsub f (List.mem_toFinset.mp hf))
  have hcases (q : List Index) : s'.tree pt q = s.tree pt q ∨ s.tree pt q = none ∧ q ∈ M := by
    by_cases hq : q.length ≤ 3
    · rw [tree_of_le hq, tree_of_le hq]
      exact (hfill q hq).imp_right fun hn => ⟨hn.1, hP q hn.2⟩
    · rw [Mem.tree, Mem.tree, if_neg hq, if_neg hq]
      exact .inl rfl
  rw [← h.alloc.card_unused (Finset.Subset.refl _)] at hle
  rw [← h'.alloc.card_unused hsub']
  refine h.owned.enough h'.owned (fun q f hq => ?_) (fun q f hq => ?_) hle
  · rcases hcases q with heq | hnew
    · rw [heq, hq]
    · rw [hnew.1] at hq
      exact absurd hq (by simp)
  · rcases hcases q with heq | hnew
    · exact .inl (heq ▸ hq)
    · exact .inr hnew.2

/-! ## A page is added -/

/-- The page of `va` is added: it has been taken from the free list, and it has been filled. -/
structure Added (pt a perm : UInt64) (pg : Page) (f : UInt64) (s s' : Mem) : Prop where
  within : Within pt s s'
  free : ∀ g ∈ s'.freelist, g ∈ s.freelist
  taken : f ∈ s.freelist
  map : ∀ b, VirtPage b → s'.pageMap pt b =
    if b = a then some (pa2pte f ||| perm ||| PTE_V) else s.pageMap pt b
  tree : ∀ p, p.length = 3 → p ≠ leafPath a → s'.tree pt p = s.tree pt p
  page : s'.page f = pg
  supply : ∀ M, places a ⊆ M → Supply s pt M → Supply s' pt M

/-- The flags of an entry. -/
theorem or_valid_lt (hperm : perm < 1024) : perm ||| PTE_V < 1024 := by
  have hlt : perm.toNat < 2 ^ 10 := UInt64.lt_iff_toNat_lt.mp hperm
  refine UInt64.lt_iff_toNat_lt.mpr ?_
  rw [UInt64.toNat_or]
  exact Nat.or_lt_two_pow hlt (by decide)

theorem pte2pa_leaf (hf : f % PGSIZE = 0) (hperm : perm < 1024) :
    pte2pa (pa2pte f ||| perm ||| PTE_V) = f := by
  rw [UInt64.or_assoc, pte2pa_or hf (or_valid_lt hperm)]

theorem child_leaf (hf : f % PGSIZE = 0) (hperm : perm < 1024) :
    child (pa2pte f ||| perm ||| PTE_V) = some f := by
  rw [child_of_valid (valid_or _), pte2pa_leaf hf hperm]

/-- `mappages` of one page. It stops the kernel only if the page is not below `MAXVA`, or it is
mapped. -/
theorem Space.wp_mapPage (h : Space R s pt) (ha : a % PGSIZE = 0) (hf : f ∈ R)
    (hf' : f % PGSIZE = 0) (hperm : perm < 1024)
    (hbad : (a < MAXVA → s.pageMap pt a ≠ none) → ∀ p, E p) :
    wp (mappages pt a PGSIZE f perm) s (fun r s' => Within pt s s' ∧ s'.page f = s.page f ∧
      OomFrom s s' ∧ (∀ g ∈ s'.freelist, g ∈ s.freelist) ∧
      (r = true → Space (R \ {f}) s' pt ∧ VirtPage a ∧ s.pageMap pt a = none ∧
        (∀ b, VirtPage b → s'.pageMap pt b =
          if b = a then some (pa2pte f ||| perm ||| PTE_V) else s.pageMap pt b) ∧
        (∀ p, p.length = 3 → p ≠ leafPath a → s'.tree pt p = s.tree pt p) ∧
        Fills pt (· ∈ places a) s s') ∧
      (r = false → Space R s' pt ∧ Kept pt s s' ∧ Short s s' ∧
        Fills pt (fun q => q = [px 2 a] ∨ q = path a) s s' ∧
        descend child s'.page pt (path a) = none)) E := by
  have hlast : a + PGSIZE - PGSIZE = a := UInt64.add_sub_cancel ..
  have hnot : ¬ PGSIZE % PGSIZE ≠ 0 := by decide
  have hnot' : PGSIZE ≠ 0 := by decide
  simp only [mappages, if_neg fun hn : a % PGSIZE ≠ 0 => hn ha, if_neg hnot, if_neg hnot', hlast]
  rw [show MAXPAGES = 2 ^ 26 + 1 from rfl, mappagesLoop]
  by_cases hva : a < MAXVA
  · have hpage : VirtPage a := ⟨ha, hva⟩
    refine wp_call (h.table.wp_walk hva) fun r s₁ hs₁ => ?_
    obtain ⟨hx, hoom, hfill, hr, hn⟩ := hs₁
    obtain ⟨h₁, hkept⟩ := hx.space h
    have hsub := hkept.free
    have hfR := h.not_foot_of_mem hf
    cases r with
    | none =>
      obtain ⟨hshort, hend⟩ := hn rfl
      exact ⟨hkept.within, hkept.within.page f hfR, hoom, hsub, by simp,
        fun _ => ⟨h₁, hkept, hshort, hfill, hend⟩⟩
    | some r =>
      obtain ⟨t, k⟩ := r
      obtain ⟨rfl, ht⟩ := hr t k rfl
      simp only [wp_bind, wp_get]
      rw [wp_ite]
      refine ⟨fun hv => hbad (fun _ hnone => ?_) _, fun hv => ?_⟩
      · rw [← hkept.map, pageMap_of_descend ht, present_valid hv] at hnone
        exact Option.some_ne_none _ hnone
      simp only [wp_bind, wp_modify, if_true, wp_pure]
      have hnone : s₁.pageMap pt a = none := by
        rw [pageMap_of_descend ht, present_not_valid hv]
      have hwithin := hkept.within.trans (h₁.within_store ht (v := pa2pte f ||| perm ||| PTE_V))
      refine ⟨hwithin, hwithin.page f hfR, hoom, hsub, fun _ =>
        ⟨h₁.map ht hnone hf (child_leaf hf' hperm), hpage, by rw [← hkept.map, hnone],
          fun b hb => ?_, fun q hq hne => ?_, fun q hq => ?_⟩, by simp⟩
      · rw [pageMap_store h₁.table.spread ht hpage hb, present_valid (valid_or _), hkept.map]
      · rw [tree_store h₁.table.spread ht, update_of_ne hne, hkept.tree q hq]
      · rw [← tree_of_le hq, ← tree_of_le hq, tree_store h₁.table.spread ht]
        by_cases hqa : q = leafPath a
        · right
          rw [hqa, tree_leafPath_eq_none, ← hkept.map]
          exact ⟨hnone, by simp [places]⟩
        · rw [update_of_ne hqa, tree_of_le hq, tree_of_le hq]
          refine (hfill q hq).imp_right fun hn => ⟨hn.1, ?_⟩
          rcases hn.2 with rfl | rfl
          · simp [places]
          · simp [places]
  · have hwalk : walk pt a true s = .error .walk := by
      rw [walk, if_pos (UInt64.not_lt.mp hva)]
      rfl
    rw [wp_bind, wp, hwalk]
    exact hbad (fun hlt => absurd hlt hva) _

/-- `kalloc`, and `mappages` of the page that it has returned. This is how `uvmalloc`, `uvmcopy`
and `vmfault` add a page, and they go on in three ways: there is no page (`none`), there is none for
the page table (`back`), or the page has been added (`ok`). -/
theorem Space.wp_addPage {α : Type} {none back : VmM α} {ok : UInt64 → VmM α} {pg : Page}
    {Q : α → Mem → Prop} (h : Space R s pt) (fill : Mem → Page) (ha : a % PGSIZE = 0)
    (hperm : perm < 1024)
    (hfill : ∀ f rest oom, s.freelist = f :: rest →
      fill (s.taken f rest oom fun _ => 0x0505050505050505) = pg)
    (hnone : ∀ s', Space R s' pt → Kept pt s s' →
      (s.pageMap pt a = .none → ¬ Supply s pt (places a)) → wp none s' Q E)
    (hback : ∀ s', Space R s' pt → Kept pt s s' →
      (s.pageMap pt a = .none → ¬ Supply s pt (places a)) → wp back s' Q E)
    (hok : ∀ f s', Space R s' pt → Added pt a perm pg f s s' → VirtPage a →
      s.pageMap pt a = .none → wp (ok f) s' Q E)
    (hbad : (a < MAXVA → s.pageMap pt a ≠ .none) → ∀ p, E p) :
    wp (do
      let mem ← kalloc
      if mem = 0 then none
      else do
        modify fun s => s.setPage mem (fill s)
        if ← mappages pt a PGSIZE mem perm then ok mem
        else do
          kfree mem
          back) s Q E := by
  have hleaf (hmap : s.pageMap pt a = .none) : leafPath a ∈ missing (s.tree pt) (places a) :=
    mem_missing.mpr ⟨by simp [places], tree_leafPath_eq_none.mpr hmap⟩
  refine wp_call (wp_kalloc (Q := fun r s' =>
      (r = 0 ∧ (s.oom 0 = true ∨ s.freelist = []) ∧ ∃ oom, s' = { s with oom := oom }) ∨
      ∃ rest oom, (∀ n, oom n = s.oom (n + 1)) ∧ s.freelist = r :: rest ∧
        s' = s.taken r rest oom fun _ => 0x0505050505050505)
    (fun oom _ hshort => .inl ⟨rfl, hshort, oom, rfl⟩)
    fun f rest oom hoom hfree => .inr ⟨rest, oom, hoom, hfree, rfl⟩) fun f s₁ hs₁ => ?_
  rw [wp_ite]
  rcases hs₁ with ⟨rfl, hshort, oom, rfl⟩ | ⟨rest, oom, hoom, hfree, rfl⟩
  · refine ⟨fun _ => hnone _ (h.refused oom) (kept_refused pt s oom) fun hmap hsup => ?_,
      fun h0 => absurd rfl h0⟩
    rcases hshort with hshort | hshort
    · rw [hsup.2] at hshort
      exact absurd hshort (by simp)
    · have hpos := Finset.card_pos.mpr ⟨_, hleaf hmap⟩
      have hle := hsup.1
      rw [hshort, List.length_nil] at hle
      omega
  have hframe := h.alloc.frame f (by simp [hfree])
  refine ⟨fun h0 => absurd h0 (hframe.ne_zero h.alloc.kend), fun _ => ?_⟩
  have hfR : f ∉ R := h.notMem_of_free (by simp [hfree])
  rw [wp_bind, wp_modify, hfill f rest oom hfree]
  have hs₂ : (s.taken f rest oom fun _ => 0x0505050505050505).setPage f pg =
      s.taken f rest oom pg := by
    simp [Mem.taken, Mem.setPage]
  rw [hs₂]
  have h₂ := h.taken hfree oom pg
  have hkept₂ := h.kept_taken hfree oom pg
  have hpage₂ : (s.taken f rest oom pg).page f = pg := update_self ..
  have htree₂ : (s.taken f rest oom pg).tree pt = s.tree pt :=
    tree_agree (h.agree_taken hfree oom pg)
  generalize hst : s.taken f rest oom pg = s₂ at h₂ hkept₂ hpage₂ htree₂ ⊢
  have hfree₂ : s₂.freelist = rest := by rw [← hst]; rfl
  have hoom₂ (n : ℕ) : s₂.oom n = s.oom (n + 1) := by rw [← hst]; exact hoom n
  refine wp_call (h₂.wp_mapPage ha (Set.mem_insert f R) hframe.aligned hperm fun hn => hbad ?_)
    fun r s₃ hs₃ => ?_
  · intro hlt
    rw [← hkept₂.map]
    exact hn hlt
  obtain ⟨hwithin, hpage, hoom₃, hsub, htrue, hfalse⟩ := hs₃
  have hmem : s.freelist = f :: s₂.freelist := by rw [hfree₂, hfree]
  rw [wp_ite]
  refine ⟨fun hr => ?_, fun hr => ?_⟩
  · obtain ⟨h₃, hva, hmap, hmap₃, htree₃, hfills⟩ := htrue hr
    rw [Set.insert_sdiff_self_of_notMem hfR] at h₃
    rw [hkept₂.map] at hmap
    have hfills' : Fills pt (· ∈ places a) s s₃ := by
      intro q hq
      have hq' := hfills q hq
      rw [← tree_of_le hq, ← tree_of_le hq, htree₂] at hq'
      rwa [← tree_of_le hq, ← tree_of_le hq]
    have hsub₃ (g : UInt64) (hg : g ∈ s₃.freelist) : g ∈ s.freelist := hkept₂.free g (hsub g hg)
    refine hok f s₃ h₃ ⟨hkept₂.within.trans hwithin, hsub₃, by simp [hfree], fun b hb => ?_,
      fun q hq hne => ?_, hpage.trans hpage₂, fun M hM hsup => ⟨h.enough h₃ hsub₃ hfills'
        (fun q hq => hM hq) hsup.1, fun n => ?_⟩⟩ hva hmap
    · rw [hmap₃ b hb, hkept₂.map]
    · rw [htree₃ q hq hne, htree₂]
    · by_contra hn
      obtain ⟨m, hm⟩ := hoom₃ n (by simpa using hn)
      rw [hoom₂, hsup.2] at hm
      exact absurd hm (by simp)
  · obtain ⟨h₃, hkept, hshort, hfills, hend⟩ := hfalse (by simpa using hr)
    have hfin : f ∈ insert f R := Set.mem_insert f R
    have hframe₃ : Frame s₃.kend f := by
      rw [hwithin.kend, hkept₂.within.kend]
      exact hframe
    rw [wp_bind]
    refine wp_kfree hframe₃ (hback _ ?_ ?_ fun hmap hsup => ?_)
    · have h₄ := h₃.freed hfin hframe₃
      rwa [Set.insert_sdiff_self_of_notMem hfR] at h₄
    · have hkept₃ := hkept₂.trans hkept
      have hagree := h₃.agree_freed hfin
      have hsub₄ (g : UInt64) (hg : g ∈ f :: s₃.freelist) : g ∈ s.freelist := by
        rcases List.mem_cons.mp hg with rfl | hg
        · simp [hfree]
        · exact hkept₃.free g hg
      refine ⟨⟨hkept₃.within.kend, fun g hg => ?_, fun g hg => ?_⟩, hsub₄, fun b => ?_,
        fun q hq => ?_⟩
      · rcases hg with hg | hg
        · exact .inl (hsub₄ g hg)
        · exact hkept₃.within.foot g (.inr (hagree.node_iff.mp hg))
      · refine (update_of_ne ?_ ..).trans (hkept₃.within.page g hg)
        rintro rfl
        exact hg (.inl (by simp [hfree]))
      · rw [pageMap_agree hagree, hkept₃.map]
      · rw [tree_agree hagree, hkept₃.tree q hq]
    · -- The page table needs a page after the page itself has been taken, so that one is left.
      have hle : (missing (s₂.tree pt) ((places a).erase (leafPath a))).card ≤
          s₂.freelist.length := by
        have hsub' : missing (s₂.tree pt) ((places a).erase (leafPath a)) =
            (missing (s.tree pt) (places a)).erase (leafPath a) := by
          ext q
          rw [htree₂, mem_missing, Finset.mem_erase, Finset.mem_erase, mem_missing, and_assoc]
        rw [hsub', Finset.card_erase_of_mem (hleaf hmap)]
        have := hsup.1
        rw [hmem, List.length_cons] at this
        omega
      have hle₃ := h₂.enough h₃ hsub hfills (fun q hq => ?_) hle
      · rcases hshort with ⟨n, hn⟩ | hnil
        · rw [hoom₂, hsup.2] at hn
          exact absurd hn (by simp)
        · have hpos : path a ∈ missing (s₃.tree pt) ((places a).erase (leafPath a)) := by
            refine mem_missing.mpr ⟨by simp [places, leafPath], ?_⟩
            rw [tree_of_le (by simp [path]), hend]
          have := Finset.card_pos.mpr ⟨_, hpos⟩
          rw [hnil, List.length_nil] at hle₃
          omega
      · rcases hq with rfl | rfl
        · simp [places, leafPath, path]
        · simp [places, leafPath]

/-! ## Pages are removed -/

/-- The leaves from `lo` to `hi` are removed, and their pages are freed. -/
structure Removed (pt : UInt64) (F : Set UInt64) (lo hi : UInt64) (s s' : Mem) : Prop where
  stays : Stays pt F s s'
  map : ∀ b, VirtPage b → s'.pageMap pt b = if lo ≤ b ∧ b < hi then none else s.pageMap pt b
  tree : ∀ p, p.length = 3 → (∀ b, VirtPage b → lo ≤ b → b < hi → p ≠ leafPath b) →
    s'.tree pt p = s.tree pt p

/-- The pages of the leaves from `lo` to `hi` may be freed. -/
def Owns (s : Mem) (pt : UInt64) (F : Set UInt64) (lo hi : UInt64) : Prop :=
  ∀ b, VirtPage b → lo ≤ b → b < hi → ∀ pte, s.pageMap pt b = some pte →
    Frame s.kend (pte2pa pte) ∧ pte2pa pte ∈ F

/-- The loop of `uvmunmap` that frees the pages. -/
theorem Space.wp_uvmunmapLoop {hi : UInt64} (hhi : hi ≤ MAXVA) {fuel : ℕ} :
    ∀ {s : Mem} {a : UInt64}, Space R s pt → a % PGSIZE = 0 →
      (0x4000000000 - a.toNat) / 4096 < fuel → (∀ f, Foot s pt f → f ∈ F) → Owns s pt F a hi →
      wp (uvmunmapLoop pt true hi fuel a) s
        (fun _ s' => Space R s' pt ∧ Removed pt F a hi s s') E := by
  induction fuel with
  | zero => exact fun _ _ hfuel => absurd hfuel (Nat.not_lt_zero _)
  | succ fuel ih =>
    intro s a h ha hfuel hF howns
    unfold uvmunmapLoop
    rw [wp_ite]
    refine ⟨fun hlt => ?_, fun hle => ⟨h, ⟨rfl, hF, fun _ _ => rfl⟩, fun b hb => ?_,
      fun _ _ _ => rfl⟩⟩
    · have hva : a < MAXVA := UInt64.lt_of_lt_of_le hlt hhi
      have hpage : VirtPage a := ⟨ha, hva⟩
      have hmax : a.toNat < 0x4000000000 := UInt64.lt_iff_toNat_lt.mp hva
      have ha' := aligned_iff.mp ha
      have hfr := howns a hpage (UInt64.le_refl a) hlt
      have hfreeable : Freeable s pt a := fun pte hmap =>
        ⟨(hfr pte hmap).1, fun hn => h.not_foot hmap (.inr hn)⟩
      refine wp_call (wp_unmapPage hva fun _ => hfreeable) fun _ s₁ hu => ?_
      obtain ⟨h₁, hstays, hmap, htree⟩ := h.unmaps hu hpage hfr hF
      have howns₁ : Owns s₁ pt F (a + PGSIZE) hi := by
        intro b hb hab hlt' pte hpte
        obtain ⟨hab, hne⟩ := (next_le_iff hpage hb).mp hab
        rw [hmap b hb, if_neg hne] at hpte
        rw [hstays.kend]
        exact howns b hb hab hlt' pte hpte
      refine (ih h₁ (aligned_next ha hva) (by rw [toNat_next hva]; omega) hstays.foot howns₁).imp
        fun _ s₂ hs₂ => ⟨hs₂.1, hstays.trans hs₂.2.stays, fun b hb => ?_, fun p hp hne => ?_⟩
      · rw [hs₂.2.map b hb, hmap b hb]
        by_cases hba : b = a
        · subst hba
          rw [if_pos (rfl : b = b), if_pos (⟨UInt64.le_refl b, hlt⟩ : b ≤ b ∧ b < hi), ite_self]
        · have hiff : a + PGSIZE ≤ b ∧ b < hi ↔ a ≤ b ∧ b < hi := by
            rw [next_le_iff hpage hb]
            exact and_congr_left fun _ => and_iff_left hba
          simp only [hiff, if_neg hba]
      · rw [hs₂.2.tree p hp fun b hb hab hlt' => hne b hb ((next_le_iff hpage hb).mp hab).1 hlt',
          htree p hp (hne a hpage (UInt64.le_refl a) hlt)]
    · rw [if_neg]
      exact fun h => hle (UInt64.lt_of_le_of_lt h.1 h.2)

/-- `uvmunmap` that frees the pages from `lo` to `hi`. -/
theorem Space.wp_uvmunmap {lo hi npages : UInt64} (h : Space R s pt) (hlo : lo % PGSIZE = 0)
    (hhi : hi ≤ MAXVA) (hn : lo + npages * PGSIZE = hi) (hF : ∀ f, Foot s pt f → f ∈ F)
    (howns : Owns s pt F lo hi) :
    wp (uvmunmap pt lo npages true) s
      (fun _ s' => Space R s' pt ∧ Removed pt F lo hi s s') E := by
  unfold uvmunmap
  rw [if_neg fun hn => hn hlo, hn]
  refine h.wp_uvmunmapLoop hhi hlo ?_ hF howns
  have : MAXPAGES = 67108865 := rfl
  omega

end SustainableXv6.Vm
