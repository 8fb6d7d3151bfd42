import SustainableXv6.Mkfs.Machine

/-!
# `iappend`

`Core` is what holds of the image at every point of `mkfs`, also in the middle of `iappend`, where
the inode that is appended to is a local variable: the blocks in use, which are those before
`freeblock`, have one owner each, and the others are zeros. A round of `iappend` is taken apart into
the choice of a block (`wp_blockFor`) and the write of its data.
-/

namespace SustainableXv6.Mkfs

open Fs Function Lib

variable {s s' : State} {dino dino' : ℕ → Dinode} {i : ℕ} {E : Fail → Prop}

/-! ## The invariant -/

/-- The blocks of the image, for the inodes `dino`. -/
structure Core (s : State) (dino : ℕ → Dinode) : Prop where
  len : s.len = FSSIZE
  owned : Owned {b : BlockNo | b.toNat < nmeta} (locs NINODES s.image dino)
    fun b => b.toNat < s.freeblock
  fresh : ∀ b : BlockNo, s.freeblock ≤ b.toNat → s.image b = fun _ => 0

/-- The number of the next free block, where it is a block of the image or the one after it. -/
theorem freeblock_toNat (h : s.freeblock ≤ FSSIZE) :
    (UInt32.ofNat s.freeblock).toNat = s.freeblock :=
  UInt32.toNat_ofNat_of_lt' (lt_of_le_of_lt h (by decide))

namespace Core

/-- The metadata is in use. -/
theorem nmeta_le (h : Core s dino) : nmeta ≤ s.freeblock := by
  have hused := (h.owned.used_iff (UInt32.ofNat (nmeta - 1))).mpr (.inl (by decide))
  have hnum : (UInt32.ofNat (nmeta - 1)).toNat = nmeta - 1 := by decide
  rw [hnum] at hused
  omega

/-- The next free block is not block 0. -/
theorem freeblock_ne_zero (h : Core s dino) (hb : s.freeblock ≤ FSSIZE) :
    UInt32.ofNat s.freeblock ≠ 0 := by
  intro h0
  have hnum := freeblock_toNat hb
  have hle := h.nmeta_le
  have hpos : 0 < nmeta := by decide
  rw [h0] at hnum
  simp only [UInt32.toNat_zero] at hnum
  omega

/-- A block that a place names is a data block, and not a free one. -/
theorem loc_range (h : Core s dino) {l : ℕ × Place} {b : BlockNo}
    (hl : locs NINODES s.image dino l = some b) : nmeta ≤ b.toNat ∧ b.toNat < s.freeblock :=
  ⟨Nat.le_of_not_lt (h.owned.notBase l b hl), h.owned.used_of_loc hl⟩

/-- A place takes the next free block. -/
theorem take (h : Core s dino) (hb : s.freeblock ≤ FSSIZE) {l : ℕ × Place}
    (hl : locs NINODES s.image dino l = none)
    (hlocs : locs NINODES s'.image dino' =
      update (locs NINODES s.image dino) l (some (UInt32.ofNat s.freeblock)))
    (hlen : s'.len = s.len) (hfree : s'.freeblock = s.freeblock + 1)
    (himage : ∀ b : BlockNo, s.freeblock < b.toNat → s'.image b = s.image b) : Core s' dino' := by
  have hnum := freeblock_toNat hb
  refine ⟨hlen.trans h.len, ?_, fun b hle => ?_⟩
  · rw [hlocs]
    refine h.owned.alloc hl (by simp [hnum]) fun c => ?_
    rw [hfree, ← UInt32.toNat_inj, hnum]
    omega
  · rw [himage b (by omega), h.fresh b (by omega)]

/-- A block at a place that is not an indirect block gets other contents. -/
theorem write (h : Core s dino) {l : ℕ × Place} {b : BlockNo}
    (hl : locs NINODES s.image dino l = some b) (hroot : l.2 ≠ .root) (hb : b.toNat < FSSIZE)
    (v : Block) :
    locs NINODES (update s.image b v) dino = locs NINODES s.image dino ∧
      Core { s with image := update s.image b v, len := max s.len (b.toNat + 1) }
        dino := by
  have hnot : ∀ j, locs NINODES s.image dino (j, .root) ≠ some b :=
    fun j hj => hroot (by rw [h.owned.inj l (j, .root) b hl hj])
  have hlocs := locs_update_disk hnot v
  refine ⟨hlocs, ?_, ?_, fun c hc => ?_⟩
  · have hlen := h.len
    simp only [hlen]
    omega
  · rw [hlocs]
    exact h.owned
  · have hlt := (h.loc_range hl).2
    have hne : c ≠ b := by
      rintro rfl
      exact absurd hc (Nat.not_le.mpr hlt)
    simp only [update_of_ne hne]
    exact h.fresh c hc

end Core

/-! ## The block for an offset -/

/-- The number of blocks that a place needs: one if it names none. -/
def vacant (s : State) (dino : ℕ → Dinode) (l : ℕ × Place) : ℕ :=
  if locs NINODES s.image dino l = none then 1 else 0

theorem vacant_of_some {l : ℕ × Place} {b : BlockNo} (h : locs NINODES s.image dino l = some b) :
    vacant s dino l = 0 := if_neg (by simp [h])

/-- The number of blocks that the choice of a block for a place takes. -/
def cost (s : State) (dino : ℕ → Dinode) (i : ℕ) : Place → ℕ
  | .direct k => vacant s dino (i, .direct k)
  | .root => vacant s dino (i, .root)
  | .entry j => vacant s dino (i, .root) + vacant s dino (i, .entry j)

/-- A file with an address in an indirect block has an indirect block. -/
theorem root_of_entry {j : Fin NINDIRECT} {b : BlockNo}
    (h : locs NINODES s.image dino (i, .entry j) = some b) :
    locs NINODES s.image dino (i, .root) ≠ none := by
  have hi := allocated_of_locs h
  rw [locs_of_allocated hi] at h ⊢
  obtain ⟨r, hr, -⟩ := Option.bind_eq_some_iff.mp h
  rw [addrOf, hr]
  exact Option.some_ne_none r

/-- A place that names a block needs none. -/
theorem cost_of_some {pl : Place} {b : BlockNo} (h : locs NINODES s.image dino (i, pl) = some b) :
    cost s dino i pl = 0 := by
  cases pl with
  | direct k => exact vacant_of_some h
  | root => exact vacant_of_some h
  | entry j =>
    obtain ⟨r, hr⟩ := Option.ne_none_iff_exists'.mp (root_of_entry h)
    rw [cost, vacant_of_some h, vacant_of_some hr]

/-- What the choice of the block `x` for the place `pl` of the inode `i` leaves. -/
structure Chosen (s : State) (dino : ℕ → Dinode) (i : ℕ) (pl : Place) (s' : State)
    (dino' : ℕ → Dinode) (x : BlockNo) : Prop where
  core : Core s' dino'
  loc : locs NINODES s'.image dino' (i, pl) = some x
  kept : ∀ b, locs NINODES s.image dino (i, pl) = some b → b = x
  fresh : locs NINODES s.image dino (i, pl) = none → s.image x = fun _ => 0
  root : ∀ b, locs NINODES s.image dino (i, .root) = some b →
    locs NINODES s'.image dino' (i, .root) = some b
  others : ∀ l, l ≠ (i, pl) → l ≠ (i, .root) →
    locs NINODES s'.image dino' l = locs NINODES s.image dino l
  image : ∀ b, locs NINODES s'.image dino' (i, .root) ≠ some b → s'.image b = s.image b
  freeinode : s'.freeinode = s.freeinode
  bound : x.toNat < FSSIZE → s'.freeblock ≤ FSSIZE
  taken : s'.freeblock = s.freeblock + cost s dino i pl

theorem Chosen.refl (h : Core s dino) (hb : s.freeblock ≤ FSSIZE) {pl : Place} {x : BlockNo}
    (hl : locs NINODES s.image dino (i, pl) = some x) : Chosen s dino i pl s dino x :=
  ⟨h, hl, fun _ hb => Option.some.inj (hb.symm.trans hl), fun hnone => by simp [hl] at hnone,
    fun _ hr => hr, fun _ _ _ => rfl, fun _ _ => rfl, rfl, fun _ => hb,
    by rw [cost_of_some hl, Nat.add_zero]⟩

/-- The choice of an address in an indirect block, after the choice of the indirect block. -/
theorem Chosen.entry {s₁ : State} {dino₁ : ℕ → Dinode} {r x : BlockNo} {j : Fin NINDIRECT}
    (h₁ : Chosen s dino i .root s₁ dino₁ r)
    (hentry : locs NINODES s.image dino (i, .entry j) = none ∨
      locs NINODES s₁.image dino₁ (i, .entry j) = locs NINODES s.image dino (i, .entry j))
    (h₂ : Chosen s₁ dino₁ i (.entry j) s' dino' x)
    (hroot : locs NINODES s'.image dino' (i, .root) = some r) :
    Chosen s dino i (.entry j) s' dino' x := by
  have hxr : locs NINODES s₁.image dino₁ (i, .root) ≠ some x := by
    intro hx
    rw [h₁.loc.symm.trans hx] at hroot
    simpa using h₂.core.owned.inj _ _ x h₂.loc hroot
  refine ⟨h₂.core, h₂.loc, fun b hb => ?_, fun hnone => ?_, fun b hb => ?_, fun l hl hr => ?_,
    fun b hb => ?_, ?_, h₂.bound, ?_⟩
  · rcases hentry with hnone | hsame
    · simp [hnone] at hb
    · exact h₂.kept b (hsame.trans hb)
  · rw [← h₁.image x hxr]
    exact h₂.fresh ((h₁.others _ (by simp) (by simp)).trans hnone)
  · exact h₂.root b (h₁.root b hb)
  · rw [h₂.others l hl hr, h₁.others l hr hr]
  · rw [h₂.image b hb, h₁.image b ?_]
    rw [h₁.loc]
    rwa [hroot] at hb
  · rw [h₂.freeinode, h₁.freeinode]
  · have hsame : vacant s₁ dino₁ (i, .entry j) = vacant s dino (i, .entry j) := by
      rw [vacant, vacant, h₁.others _ (by simp) (by simp)]
    rw [h₂.taken, h₁.taken, cost, cost, cost, vacant_of_some h₁.loc, hsame, Nat.zero_add,
      Nat.add_assoc]

variable {v din : Dinode} {fbn : ℕ}

/-- A place of the inode `i` takes the next free block, in the state in which `freeblock` has been
incremented. -/
theorem Chosen.newBlock (h : Core s dino) (hb : s.freeblock ≤ FSSIZE) {pl : Place}
    (hpl : cost s dino i pl = vacant s dino (i, pl))
    (hl : locs NINODES s.image dino (i, pl) = none)
    (hlocs : locs NINODES s.image dino' =
      update (locs NINODES s.image dino) (i, pl) (some (UInt32.ofNat s.freeblock))) :
    Chosen s dino i pl { s with freeblock := s.freeblock + 1 } dino'
      (UInt32.ofNat s.freeblock) where
  core := h.take hb hl hlocs rfl rfl fun _ _ => rfl
  loc := by simp only [hlocs, update_self]
  kept := fun b hb => by simp [hl] at hb
  fresh := fun _ => h.fresh _ (by rw [freeblock_toNat hb])
  root := fun b hr => by
    have hne : (i, Place.root) ≠ (i, pl) := by
      rintro he
      simp [← he, hr] at hl
    simp only [hlocs, update_of_ne hne, hr]
  others := fun l hne _ => by simp only [hlocs, update_of_ne hne]
  image := fun _ _ => rfl
  freeinode := rfl
  bound := fun hx => by
    rw [freeblock_toNat hb] at hx
    exact hx
  taken := by rw [hpl, vacant, if_pos hl]

/-- `indirectFor` chooses an indirect block for the file `i`. The inode `v`, in which `din` may have
another size, has the same addresses. -/
theorem wp_indirectFor (h : Core s (update dino i v)) (hb : s.freeblock ≤ FSSIZE)
    (hi : Allocated NINODES (update dino i v) i) (hv : v.addrs = din.addrs) :
    wp (indirectFor din) s (fun din' s' => din' = { din with addrs := din'.addrs } ∧
      din'.addrs (Fin.last NDIRECT) ≠ 0 ∧
      Chosen s (update dino i v) i .root s'
        (update dino i { v with addrs := din'.addrs }) (din'.addrs (Fin.last NDIRECT)) ∧
      ∀ j, locs NINODES s.image (update dino i v) (i, .entry j) = none ∨
        s' = s ∧ din' = din) E := by
  have hself : update dino i v i = v := update_self i v dino
  have hne0 := h.freeblock_ne_zero hb
  have hroot : locs NINODES s.image (update dino i v) (i, .root) =
      nonzero (din.addrs (Fin.last NDIRECT)) := by
    rw [locs_of_allocated hi, hself, addrOf, hv]
  unfold indirectFor
  rw [wp_ite]
  refine ⟨fun h0 => ?_, fun h0 => ?_⟩
  · have hval : (setAddr din (Fin.last NDIRECT) (UInt32.ofNat s.freeblock)).addrs
        (Fin.last NDIRECT) = UInt32.ofNat s.freeblock := by simp [setAddr]
    refine ⟨rfl, hval.symm ▸ hne0, ?_, fun j => .inl ?_⟩
    · rw [hval]
      refine .newBlock h hb rfl (by rw [hroot, h0, nonzero_zero]) ?_
      have hzero := h.fresh (UInt32.ofNat s.freeblock) (by rw [freeblock_toNat hb])
      have hlocs := locs_update_root (d := s.image) hi (by rw [hself, hv, h0]) hzero
      rw [update_idem, hself, nonzero_of_ne hne0, hv] at hlocs
      exact hlocs
    · rw [locs_of_allocated hi, hself, addrOf, hv, h0]
      rfl
  · refine ⟨rfl, h0, ?_, fun j => .inr ⟨rfl, rfl⟩⟩
    rw [← hv]
    exact .refl h hb (by rw [hroot, nonzero_of_ne h0, hv])

/-- `entryFor` chooses a block for the address `j` in the indirect block `r` of the file `i`. -/
theorem wp_entryFor {r : BlockNo} (h : Core s dino) (hb : r.toNat < FSSIZE → s.freeblock ≤ FSSIZE)
    (hr : din.addrs (Fin.last NDIRECT) = r) (hr0 : r ≠ 0) (hi : Allocated NINODES dino i)
    (hdin : (dino i).addrs = din.addrs) (j : Fin NINDIRECT) (hE : FSSIZE ≤ r.toNat → E .die) :
    wp (entryFor din j.val) s (fun x s' => Chosen s dino i (.entry j) s' dino x ∧
      locs NINODES s'.image dino (i, .root) = some r) E := by
  have hroot : locs NINODES s.image dino (i, .root) = some r := by
    rw [locs_of_allocated hi, addrOf, hdin, hr, nonzero_of_ne hr0]
  have hloc : locs NINODES s.image dino (i, .entry j) = nonzero (wordAt (s.image r) j.val) := by
    rw [locs_of_allocated hi, addrOf, hdin, hr, nonzero_of_ne hr0, Option.bind_some]
  unfold entryFor rsect
  simp only [wp_bind, wp_get, hr]
  rw [wp_ite, h.len]
  refine ⟨fun hlt => ?_, fun hlt => hE (Nat.le_of_not_lt hlt)⟩
  have hb := hb hlt
  rw [wp_pure, wp_ite]
  refine ⟨fun h0 => ?_, fun h0 => ?_⟩
  · have hne0 := h.freeblock_ne_zero hb
    have hlocs := locs_update_entry (d := s.image) hroot
      (fun j' hj' => by simpa using h.owned.inj _ _ r hj' hroot) j (UInt32.ofNat s.freeblock)
    rw [nonzero_of_ne hne0] at hlocs
    have hnone : locs NINODES s.image dino (i, .entry j) = none := by rw [hloc, h0, nonzero_zero]
    have hroot' : locs NINODES (update s.image r (setWord (s.image r) j.val
        (UInt32.ofNat s.freeblock))) dino (i, .root) = some r := by
      rw [hlocs, update_of_ne (by simp), hroot]
    simp only [newBlock, wsect, wp_bind, wp_get, wp_set, wp_modify, wp_pure]
    refine ⟨⟨?_, ?_, fun b hb => ?_, fun _ => ?_, fun b hb => ?_, fun l hl _ => ?_, fun b hb => ?_,
      rfl, fun hx => ?_, ?_⟩, hroot'⟩
    · refine h.take hb hnone hlocs ?_ rfl fun b hlt' => ?_
      · have hlen := h.len
        simp only [hlen]
        omega
      · have hrange := (h.loc_range hroot).2
        have hne : b ≠ r := by
          rintro rfl
          omega
        simp only [update_of_ne hne]
    · simp only [hlocs, update_self]
    · simp [hnone] at hb
    · exact h.fresh _ (by rw [freeblock_toNat ‹_›])
    · rw [← hb, hroot]
      exact hroot'
    · simp only [hlocs, update_of_ne hl]
    · have hne : b ≠ r := by
        rintro rfl
        exact hb hroot'
      simp only [update_of_ne hne]
    · rw [freeblock_toNat ‹_›] at hx
      exact hx
    · rw [cost, vacant_of_some hroot, vacant, if_pos hnone]
  · exact ⟨.refl h hb (by rw [hloc, nonzero_of_ne h0]), hroot⟩

/-- `blockFor` chooses a block for the block `fbn` of the file `i`. -/
theorem wp_blockFor (h : Core s (update dino i v)) (hb : s.freeblock ≤ FSSIZE)
    (hi : Allocated NINODES (update dino i v) i) (hv : v.addrs = din.addrs)
    (hfbn : fbn < MAXFILE)
    (hE : FSSIZE < s.freeblock + cost s (update dino i v) i (.ofIndex fbn) → E .die) :
    wp (blockFor din fbn) s (fun r s' => r.1 = { din with addrs := r.1.addrs } ∧
      Chosen s (update dino i v) i (.ofIndex fbn) s'
        (update dino i { v with addrs := r.1.addrs }) r.2) E := by
  have hself : update dino i v i = v := update_self i v dino
  unfold blockFor
  rcases Place.ofIndex_cases hfbn with ⟨hdirect, k, hk, hpl⟩ | ⟨hindirect, j, hj, hpl⟩
  · have hne0 := h.freeblock_ne_zero hb
    have hloc : locs NINODES s.image (update dino i v) (i, .direct k) =
        nonzero (din.addrs k.castSucc) := by
      rw [locs_of_allocated hi, hself, addrOf, hv]
    rw [if_pos hdirect, ← hk, hpl, wp_ite]
    refine ⟨fun h0 => ⟨rfl, .newBlock h hb rfl (by rw [hloc, h0, nonzero_zero]) ?_⟩,
      fun h0 => ⟨rfl, ?_⟩⟩
    · have hlocs := locs_update_direct (d := s.image) hi k (UInt32.ofNat s.freeblock)
      rw [update_idem, hself, nonzero_of_ne hne0, hv] at hlocs
      exact hlocs
    · rw [← hv]
      exact .refl h hb (by rw [hloc, nonzero_of_ne h0, hv])
  · rw [if_neg hindirect, hpl, ← hj]
    refine wp_call (wp_indirectFor h hb hi hv) fun din₁ s₁ hdin => ?_
    obtain ⟨hfields, hr0, hchosen, hentry⟩ := hdin
    refine wp_call (wp_entryFor hchosen.core hchosen.bound rfl hr0 (allocated_of_locs hchosen.loc)
      (by rw [update_self]) j fun hr => hE ?_) fun x s' hx => ?_
    · -- The indirect block is the next free one, behind the end of the image.
      have hlt := (hchosen.core.loc_range hchosen.loc).2
      rw [hchosen.taken, cost] at hlt
      rw [hpl, cost]
      omega
    refine ⟨hfields, hchosen.entry ((hentry j).imp_right ?_) hx.1 hx.2⟩
    rintro ⟨rfl, rfl⟩
    rw [← hv]

/-! ## A round -/

/-- The block `bn` of the inode `i` has an address exactly if it lies before the size. -/
def Exact (s : State) (dino : ℕ → Dinode) (i : ℕ) : Prop :=
  (dino i).size.toNat ≤ MAXFILE * BSIZE ∧ ∀ bn, bn < MAXFILE →
    (locs NINODES s.image dino (i, .ofIndex bn) ≠ none ↔ bn * BSIZE < (dino i).size.toNat)

/-- What a round of `iappend` at the offset `off` with the bytes `p` leaves, where `x` is the block
that it writes. -/
structure Appended (s : State) (dino : ℕ → Dinode) (i off : ℕ) (p : List UInt8) (s' : State)
    (dino' : ℕ → Dinode) (x : BlockNo) : Prop where
  core : Core s' dino'
  loc : locs NINODES s'.image dino' (i, .ofIndex (off / BSIZE)) = some x
  kept : ∀ b, locs NINODES s.image dino (i, .ofIndex (off / BSIZE)) = some b → b = x
  fresh : locs NINODES s.image dino (i, .ofIndex (off / BSIZE)) = none → s.image x = fun _ => 0
  root : ∀ b, locs NINODES s.image dino (i, .root) = some b →
    locs NINODES s'.image dino' (i, .root) = some b
  others : ∀ l, l ≠ (i, .ofIndex (off / BSIZE)) → l ≠ (i, .root) →
    locs NINODES s'.image dino' l = locs NINODES s.image dino l
  image : ∀ b, b ≠ x → locs NINODES s'.image dino' (i, .root) ≠ some b → s'.image b = s.image b
  data : s'.image x = putBytes (s.image x) (off - off / BSIZE * BSIZE) (p.take (chunkSize off p))
  freeinode : s'.freeinode = s.freeinode
  bound : s'.freeblock ≤ FSSIZE
  taken : s'.freeblock = s.freeblock + cost s dino i (.ofIndex (off / BSIZE))

/-- A round of `iappend`. It fails if the file would be too large, or if the image has not the
blocks that it takes. -/
theorem wp_appendRound (h : Core s (update dino i v)) (hb : s.freeblock ≤ FSSIZE)
    (hi : Allocated NINODES (update dino i v) i) (hv : v.addrs = din.addrs) (off : ℕ)
    (p : List UInt8) (hEa : MAXFILE ≤ off / BSIZE → E .assertion)
    (hE : off / BSIZE < MAXFILE →
      FSSIZE < s.freeblock + cost s (update dino i v) i (.ofIndex (off / BSIZE)) →
      E .die) :
    wp (appendRound din off p) s (fun din' s' => din' = { din with addrs := din'.addrs } ∧
      off / BSIZE < MAXFILE ∧ ∃ x, Appended s (update dino i v) i off p s'
        (update dino i { v with addrs := din'.addrs }) x) E := by
  unfold appendRound assert
  simp only [decide_eq_true_eq]
  rw [wp_bind, wp_ite]
  refine ⟨fun hfbn => ?_, fun hfbn => hEa (Nat.le_of_not_lt hfbn)⟩
  refine wp_call (wp_blockFor h hb hi hv hfbn (hE hfbn)) fun r s₁ hr => ?_
  obtain ⟨din₁, x⟩ := r
  obtain ⟨hfields, hchosen⟩ := hr
  simp only [rsect, wp_bind, wp_get]
  rw [wp_ite, hchosen.core.len]
  refine ⟨fun hlt => ?_, fun hlt => hE hfbn ?_⟩
  swap
  · have hx : x.toNat < _ := (hchosen.core.loc_range hchosen.loc).2
    rw [hchosen.taken] at hx
    omega
  have hxroot : locs NINODES s₁.image (update dino i { v with addrs := din₁.addrs })
      (i, .root) ≠ some x := fun hroot => Place.ofIndex_ne_root _
    (by simpa using hchosen.core.owned.inj _ _ x hchosen.loc hroot)
  obtain ⟨hlocs, hcore⟩ := hchosen.core.write hchosen.loc (Place.ofIndex_ne_root _) hlt
    (putBytes (s₁.image x) (off - off / BSIZE * BSIZE) (p.take (chunkSize off p)))
  simp only [wsect, wp_pure, wp_modify]
  refine ⟨hfields, hfbn, x, hcore, hlocs ▸ hchosen.loc, hchosen.kept, hchosen.fresh,
    fun b hr => (congrFun hlocs _).trans (hchosen.root b hr), fun l hl hroot => ?_,
    fun b hbx hroot => ?_, ?_, hchosen.freeinode, hchosen.bound hlt, hchosen.taken⟩
  · rw [← hchosen.others l hl hroot]
    exact congrFun hlocs l
  · simp only [update_of_ne hbx]
    refine hchosen.image b fun hr => hroot ?_
    rw [← hr]
    exact congrFun hlocs _
  · simp only [update_self]
    rw [hchosen.image x hxroot]

/-- What a round leaves depends on the places of the inodes only. -/
theorem Appended.congr {off : ℕ} {p : List UInt8} {x : BlockNo} {f : ℕ → Dinode}
    (h : Appended s dino i off p s' dino' x)
    (hlocs : locs NINODES s'.image f = locs NINODES s'.image dino') :
    Appended s dino i off p s' f x := by
  obtain ⟨⟨hlen, howned, hfresh⟩, h₂, h₃, h₄, h₅, h₆, h₇, h₈, h₉, h₁₀, h₁₁⟩ := h
  rw [← hlocs] at howned h₂ h₅ h₆ h₇
  exact ⟨⟨hlen, howned, hfresh⟩, h₂, h₃, h₄, h₅, h₆, h₇, h₈, h₉, h₁₀, h₁₁⟩

/-- A round appends a byte at least, and it stays in its block. -/
theorem chunkSize_pos (off : ℕ) {p : List UInt8} (hp : p ≠ []) :
    0 < chunkSize off p ∧ off + chunkSize off p ≤ (off / BSIZE + 1) * BSIZE ∧
      chunkSize off p ≤ p.length := by
  have hlen : 0 < p.length := List.length_pos_iff.mpr hp
  simp only [chunkSize, BSIZE]
  omega

/-- After a round the file has the blocks for its new size. -/
theorem Appended.exact {off : ℕ} {p : List UInt8} {x : BlockNo} {v' : Dinode}
    (h : Appended s (update dino i v) i off p s' (update dino i v') x)
    (hfbn : off / BSIZE < MAXFILE) (hp : p ≠ []) (hex : Exact s (update dino i v) i)
    (hoff : v.size.toNat = off) (hoff' : v'.size.toNat = off + chunkSize off p) :
    Exact s' (update dino i v') i := by
  obtain ⟨hpos, hle, -⟩ := chunkSize_pos off hp
  obtain ⟨-, hex⟩ := hex
  simp only [update_self] at hex
  refine ⟨?_, fun bn hbn => ?_⟩
  · rw [update_self, hoff']
    have hmul : (off / BSIZE + 1) * BSIZE ≤ MAXFILE * BSIZE := Nat.mul_le_mul_right _ hfbn
    omega
  · rw [update_self, hoff']
    by_cases hne : bn = off / BSIZE
    · rw [hne, h.loc]
      have hdiv : off / BSIZE * BSIZE ≤ off := Nat.div_mul_le_self off BSIZE
      simp only [ne_eq, reduceCtorEq, not_false_eq_true, true_iff]
      omega
    · have hother : (i, Place.ofIndex bn) ≠ (i, Place.ofIndex (off / BSIZE)) := fun hpl =>
        hne (Place.ofIndex_inj hbn hfbn (Prod.mk.inj hpl).2)
      rw [h.others _ hother (by simp [Place.ofIndex_ne_root]), hex bn hbn, hoff]
      have hdiv : off / BSIZE * BSIZE ≤ off := Nat.div_mul_le_self off BSIZE
      have hlt : bn < off / BSIZE ∨ off / BSIZE + 1 ≤ bn := by omega
      rcases hlt with hlt | hlt
      · have := Nat.mul_le_mul_right BSIZE (Nat.succ_le_of_lt hlt)
        simp only [BSIZE] at *
        omega
      · have := Nat.mul_le_mul_right BSIZE hlt
        omega

/-! ## The loop -/

/-- What the rounds of `iappend` leave: the inode `i` keeps its blocks and gets others, and the
other inodes and their blocks stay. -/
structure Grown (s : State) (dino : ℕ → Dinode) (i : ℕ) (s' : State) (dino' : ℕ → Dinode) :
    Prop where
  core : Core s' dino'
  mono : ∀ pl b, locs NINODES s.image dino (i, pl) = some b →
    locs NINODES s'.image dino' (i, pl) = some b
  others : ∀ l, l.1 ≠ i → locs NINODES s'.image dino' l = locs NINODES s.image dino l
  image : ∀ b, (∀ pl, locs NINODES s'.image dino' (i, pl) ≠ some b) → s'.image b = s.image b
  freeinode : s'.freeinode = s.freeinode
  bound : s'.freeblock ≤ FSSIZE

theorem Grown.refl (h : Core s dino) (hb : s.freeblock ≤ FSSIZE) : Grown s dino i s dino :=
  ⟨h, fun _ _ hl => hl, fun _ _ => rfl, fun _ _ => rfl, rfl, hb⟩

theorem Grown.trans {s₁ : State} {dino₁ : ℕ → Dinode} (h₁ : Grown s dino i s₁ dino₁)
    (h₂ : Grown s₁ dino₁ i s' dino') : Grown s dino i s' dino' := by
  refine ⟨h₂.core, fun pl b hl => h₂.mono pl b (h₁.mono pl b hl), fun l hl => ?_, fun b hb => ?_,
    ?_, h₂.bound⟩
  · rw [h₂.others l hl, h₁.others l hl]
  · rw [h₂.image b hb, h₁.image b fun pl hl => hb pl (h₂.mono pl b hl)]
  · rw [h₂.freeinode, h₁.freeinode]

/-- A round. -/
theorem Appended.grown {off : ℕ} {p : List UInt8} {x : BlockNo}
    (h : Appended s dino i off p s' dino' x) : Grown s dino i s' dino' := by
  refine ⟨h.core, fun pl b hl => ?_, fun l hl => ?_, fun b hb => ?_, h.freeinode, h.bound⟩
  · by_cases hpl : pl = .ofIndex (off / BSIZE)
    · subst hpl
      rw [h.kept b hl]
      exact h.loc
    · by_cases hroot : pl = .root
      · subst hroot
        exact h.root b hl
      · rw [h.others (i, pl) (by simpa using hpl) (by simpa using hroot), hl]
  · exact h.others l (fun he => hl (by rw [he])) fun he => hl (by rw [he])
  · refine h.image b ?_ (hb .root)
    rintro rfl
    exact hb _ h.loc

/-- The blocks of the file `i` satisfy `G`. -/
def Contents (G : Block → Prop) (s : State) (dino : ℕ → Dinode) (i : ℕ) : Prop :=
  ∀ bn b, bn < MAXFILE → locs NINODES s.image dino (i, .ofIndex bn) = some b → G (s.image b)

/-- A round keeps what holds of the blocks of the file, if its write does. -/
theorem Appended.contents {G : Block → Prop} {off : ℕ} {p : List UInt8} {x : BlockNo}
    (h : Appended s dino i off p s' dino' x) (hfbn : off / BSIZE < MAXFILE)
    (hzero : G fun _ => 0)
    (hG : ∀ b, G b → G (putBytes b (off - off / BSIZE * BSIZE) (p.take (chunkSize off p))))
    (hc : Contents G s dino i) : Contents G s' dino' i := by
  intro bn b hbn hl
  by_cases hne : bn = off / BSIZE
  · subst hne
    obtain rfl : x = b := Option.some.inj (h.loc.symm.trans hl)
    rw [h.data]
    refine hG _ ?_
    cases hold : locs NINODES s.image dino (i, .ofIndex (off / BSIZE)) with
    | none =>
      rw [h.fresh hold]
      exact hzero
    | some b =>
      obtain rfl := h.kept b hold
      exact hc _ b hbn hold
  · have hother : (i, Place.ofIndex bn) ≠ (i, Place.ofIndex (off / BSIZE)) := fun hpl =>
      hne (Place.ofIndex_inj hbn hfbn (Prod.mk.inj hpl).2)
    have hroot : (i, Place.ofIndex bn) ≠ (i, .root) := by simp [Place.ofIndex_ne_root]
    have hbx : b ≠ x := by
      rintro rfl
      exact hother (h.core.owned.inj _ _ b hl h.loc)
    rw [h.image b hbx fun hr => hroot (h.core.owned.inj _ _ b hl hr)]
    rw [h.others _ hother hroot] at hl
    exact hc bn b hbn hl

/-- The bytes of the file after a round: those before the offset stay, and those of `p` follow. -/
theorem Appended.fileByte {off : ℕ} {p : List UInt8} {x : BlockNo}
    (h : Appended s dino i off p s' dino' x) (hi : Allocated NINODES dino i)
    (hfbn : off / BSIZE < MAXFILE) (hp : p ≠ []) {k : ℕ} (hk : k < off + chunkSize off p) :
    Fs.fileByte s'.image (dino' i) k =
      if k < off then Fs.fileByte s.image (dino i) k else p.getD (k - off) 0 := by
  obtain ⟨-, hblock, hchunk⟩ := chunkSize_pos off hp
  have hi' : Allocated NINODES dino' i := allocated_of_locs h.loc
  have hmod : k % BSIZE < BSIZE := Nat.mod_lt _ (by decide)
  rw [Fs.fileByte, Fs.fileByte, ← locs_of_allocated hi, ← locs_of_allocated hi']
  by_cases hkb : k / BSIZE = off / BSIZE
  · -- The block that the round writes. A new one was zero, as the bytes of a file without it.
    have hold : byteAt (s.image x) (k % BSIZE) =
        ((locs NINODES s.image dino (i, .ofIndex (off / BSIZE))).map
          fun b => byteAt (s.image b) (k % BSIZE)).getD 0 := by
      cases hl : locs NINODES s.image dino (i, .ofIndex (off / BSIZE)) with
      | none => rw [h.fresh hl, byteAt_zero, Option.map_none, Option.getD_none]
      | some b => rw [h.kept b hl, Option.map_some, Option.getD_some]
    have hle : off - off / BSIZE * BSIZE ≤ k % BSIZE ↔ ¬ k < off := by
      simp only [BSIZE] at *
      omega
    rw [hkb, h.loc, Option.map_some, Option.getD_some, h.data, byteAt_putBytes _ _ _ hmod, ← hold]
    simp only [hle]
    by_cases hko : k < off
    · rw [if_neg (not_not.mpr hko), if_pos hko]
    · have hidx : k % BSIZE - (off - off / BSIZE * BSIZE) = k - off := by
        simp only [BSIZE] at *
        omega
      have hlt : k - off < chunkSize off p := by omega
      rw [if_pos hko, if_neg hko, hidx, List.getD_eq_getElem?_getD, List.getD_eq_getElem?_getD,
        List.getElem?_take_of_lt hlt, List.getElem?_eq_getElem (by omega)]
      rfl
  · have hlt : k / BSIZE < off / BSIZE := by
      simp only [BSIZE] at *
      omega
    have hko : k < off := by
      simp only [BSIZE] at *
      omega
    have hother : (i, Place.ofIndex (k / BSIZE)) ≠ (i, Place.ofIndex (off / BSIZE)) := fun hpl =>
      hkb (Place.ofIndex_inj (hlt.trans hfbn) hfbn (Prod.mk.inj hpl).2)
    have hroot : (i, Place.ofIndex (k / BSIZE)) ≠ (i, .root) := by simp [Place.ofIndex_ne_root]
    have hsame := h.others _ hother hroot
    rw [if_pos hko, hsame]
    cases hl : locs NINODES s.image dino (i, .ofIndex (k / BSIZE)) with
    | none => rfl
    | some b =>
      rw [hl] at hsame
      have hbx : b ≠ x := by
        rintro rfl
        exact hother (h.core.owned.inj _ _ b hsame h.loc)
      rw [Option.map_some, Option.map_some,
        h.image b hbx fun hr => hroot (h.core.owned.inj _ _ b hsame hr)]

/-- A round appends the bytes that go into the block. -/
theorem Appended.fileBytes {off : ℕ} {p : List UInt8} {x : BlockNo}
    (h : Appended s dino i off p s' dino' x) (hi : Allocated NINODES dino i)
    (hfbn : off / BSIZE < MAXFILE) (hp : p ≠ []) :
    Fs.fileBytes s'.image (dino' i) 0 (off + chunkSize off p) =
      Fs.fileBytes s.image (dino i) 0 off ++ p.take (chunkSize off p) := by
  obtain ⟨-, -, hchunk⟩ := chunkSize_pos off hp
  refine List.ext_getElem (by simp [Fs.fileBytes, hchunk]) fun k hk _ => ?_
  have hk : k < off + chunkSize off p := by simpa [Fs.fileBytes] using hk
  simp only [Fs.fileBytes, List.getElem_map, List.getElem_range, List.getElem_append,
    List.length_map, List.length_range, Nat.zero_add, h.fileByte hi hfbn hp hk]
  by_cases hko : k < off
  · rw [if_pos hko, dif_pos hko]
  · rw [if_neg hko, dif_neg hko, List.getElem_take,
      List.getD_eq_getElem _ _ (by omega : k - off < p.length)]

/-! ## The blocks that a file takes -/

/-- The number of blocks of a file of `n` bytes, with the indirect block. -/
def needs (n : ℕ) : ℕ := (n + BSIZE - 1) / BSIZE + if NDIRECT * BSIZE < n then 1 else 0

theorem needs_mono {m n : ℕ} (h : m ≤ n) : needs m ≤ needs n := by
  unfold needs
  have hdiv : (m + BSIZE - 1) / BSIZE ≤ (n + BSIZE - 1) / BSIZE := Nat.div_le_div_right (by omega)
  split_ifs
  · omega
  · omega
  · omega
  · omega

/-- A round takes no more blocks than the file needs for the bytes that it appends. -/
theorem Exact.cost_le {off : ℕ} {p : List UInt8} (hex : Exact s dino i)
    (hoff : (dino i).size.toNat = off) (hfbn : off / BSIZE < MAXFILE) (hp : p ≠ []) :
    cost s dino i (.ofIndex (off / BSIZE)) + needs off ≤ needs (off + chunkSize off p) := by
  obtain ⟨hpos, hblock, -⟩ := chunkSize_pos off hp
  -- The block itself is missing only at its start.
  have hdata : vacant s dino (i, .ofIndex (off / BSIZE)) + (off + BSIZE - 1) / BSIZE ≤
      (off + chunkSize off p + BSIZE - 1) / BSIZE := by
    have hiff := hex.2 _ hfbn
    rw [hoff] at hiff
    unfold vacant
    split_ifs with hnone
    · have hge : ¬ off / BSIZE * BSIZE < off := fun hlt => hiff.mpr hlt hnone
      simp only [BSIZE] at *
      omega
    · simp only [BSIZE] at *
      omega
  unfold needs
  rcases Place.ofIndex_cases hfbn with ⟨hdirect, k, hk, hpl⟩ | ⟨hindirect, j, hj, hpl⟩
  · have hsmall : ¬ NDIRECT * BSIZE < off := by
      simp only [BSIZE, NDIRECT] at *
      omega
    rw [hpl] at hdata ⊢
    rw [cost, if_neg hsmall]
    omega
  · have hlarge : NDIRECT * BSIZE < off + chunkSize off p := by
      simp only [BSIZE, NDIRECT] at *
      omega
    -- With a block behind the direct ones there is an indirect block already.
    have hroot : vacant s dino (i, .root) + (if NDIRECT * BSIZE < off then 1 else 0) ≤ 1 := by
      split_ifs with hlt
      · have hne := (hex.2 NDIRECT (by decide)).mpr (by rwa [hoff])
        obtain ⟨b, hb⟩ := Option.ne_none_iff_exists'.mp hne
        obtain ⟨r, hr⟩ := Option.ne_none_iff_exists'.mp (root_of_entry (j := 0) hb)
        rw [vacant_of_some hr]
      · unfold vacant
        split_ifs <;> omega
    rw [hpl] at hdata ⊢
    rw [cost, if_pos hlarge]
    omega

/-- The loop of `iappend` appends all bytes. `hG` says that each of its writes keeps `G`: the first
one, and the others, which are at the start of a block. -/
theorem wp_appendLoop {G : Block → Prop} (hzero : G fun _ => 0) (dino : ℕ → Dinode) (i : ℕ)
    (fuel : ℕ) :
    ∀ (s : State) (v din : Dinode) (off : ℕ) (p : List UInt8), p.length ≤ fuel →
      Core s (update dino i v) → s.freeblock ≤ FSSIZE →
      Allocated NINODES (update dino i v) i → v.addrs = din.addrs → v.size.toNat = off →
      Exact s (update dino i v) i → Contents G s (update dino i v) i →
      (∀ k b, k < p.length → k = 0 ∨ (off + k) % BSIZE = 0 → G b →
        G (putBytes b (off + k - (off + k) / BSIZE * BSIZE)
          ((p.drop k).take (chunkSize (off + k) (p.drop k))))) →
      (∀ f, MAXFILE * BSIZE < off + p.length ∨
        FSSIZE + needs off < s.freeblock + needs (off + p.length) → E f) →
      wp (appendLoop fuel din off p) s (fun r s' => r.1 = { din with addrs := r.1.addrs } ∧
        r.2 = off + p.length ∧ r.2 ≤ MAXFILE * BSIZE ∧
        ∃ v', v' = { v with addrs := r.1.addrs, size := UInt32.ofNat r.2 } ∧
          Grown s (update dino i v) i s' (update dino i v') ∧
          Exact s' (update dino i v') i ∧ Contents G s' (update dino i v') i ∧
          Fs.fileBytes s'.image v' 0 r.2 = Fs.fileBytes s.image v 0 off ++ p ∧
          s'.freeblock + needs off ≤ s.freeblock + needs r.2) E := by
  induction fuel with
  | zero =>
    intro s v din off p hfuel hcore hb hi hv hoff hex hcont hG hE
    obtain rfl : p = [] := List.length_eq_zero_iff.mp (Nat.le_zero.mp hfuel)
    have hle := hex.1
    rw [update_self, hoff] at hle
    have hsize : UInt32.ofNat off = v.size := by rw [← hoff, UInt32.ofNat_toNat]
    refine ⟨rfl, rfl, hle, v, ?_, .refl hcore hb, hex, hcont, (List.append_nil _).symm, le_rfl⟩
    simp only [← hv, hsize]
  | succ fuel ih =>
    intro s v din off p hfuel hcore hb hi hv hoff hex hcont hG hE
    have hle := hex.1
    rw [update_self, hoff] at hle
    unfold appendLoop
    rw [wp_ite]
    refine ⟨fun hp => ?_, fun hp => ?_⟩
    · subst hp
      have hsize : UInt32.ofNat off = v.size := by rw [← hoff, UInt32.ofNat_toNat]
      refine ⟨rfl, rfl, hle, v, ?_, .refl hcore hb, hex, hcont, (List.append_nil _).symm, le_rfl⟩
      simp only [← hv, hsize]
    · obtain ⟨hpos, hblock, hchunk⟩ := chunkSize_pos off hp
      have hmono : needs (off + chunkSize off p) ≤ needs (off + p.length) := needs_mono (by omega)
      have hoff' : (update dino i v i).size.toNat = off := by rwa [update_self]
      refine wp_call (wp_appendRound hcore hb hi hv off p (fun hfbn => hE _ (.inl ?_))
        fun hfbn hcost => hE _ (.inr ?_)) fun din₁ s₁ hround => ?_
      · have := Nat.mul_le_mul_right BSIZE hfbn
        have := Nat.div_mul_le_self off BSIZE
        omega
      · have := hex.cost_le hoff' hfbn hp
        omega
      obtain ⟨hfields, hfbn, x, happ⟩ := hround
      have hcost := hex.cost_le hoff' hfbn hp
      -- The inode with the size so far.
      have hbig : off + chunkSize off p ≤ MAXFILE * BSIZE :=
        hblock.trans (Nat.mul_le_mul_right _ hfbn)
      have hnum : (UInt32.ofNat (off + chunkSize off p)).toNat = off + chunkSize off p :=
        UInt32.toNat_ofNat_of_lt' (lt_of_le_of_lt hbig (by decide))
      have happ := happ.congr (f := update dino i
          { v with addrs := din₁.addrs, size := UInt32.ofNat (off + chunkSize off p) })
        (locs_update_fields Iff.rfl rfl)
      have hi₁ : Allocated NINODES (update dino i
          { v with addrs := din₁.addrs, size := UInt32.ofNat (off + chunkSize off p) }) i := by
        simpa [Allocated] using hi
      refine (ih s₁ _ din₁ _ (p.drop (chunkSize off p)) ?_ happ.core happ.bound hi₁ rfl hnum
        (happ.exact hfbn hp hex hoff hnum) (happ.contents hfbn hzero (fun b => ?_) hcont)
        (fun k b hk hstart => ?_) fun f hf => hE f ?_).imp fun r s' hr => ?_
      · rw [List.length_drop]
        omega
      · simpa using hG 0 b (List.length_pos_iff.mpr hp) (.inl rfl)
      · -- The next round is at the start of a block.
        rw [List.length_drop] at hk
        have hrest : (off / BSIZE + 1) * BSIZE - off ≤ p.length := by
          by_contra hlt
          have : chunkSize off p = p.length := min_eq_left (by omega)
          omega
        have hchunk' : off + chunkSize off p = (off / BSIZE + 1) * BSIZE := by
          have : chunkSize off p = (off / BSIZE + 1) * BSIZE - off := min_eq_right hrest
          omega
        have hk' := hG (chunkSize off p + k) b (by omega) (.inr ?_)
        · rw [← Nat.add_assoc, ← List.drop_drop] at hk'
          exact hk'
        · rcases hstart with rfl | hstart
          · rw [Nat.add_zero, hchunk', Nat.mul_mod_left]
          · rw [← Nat.add_assoc]
            exact hstart
      · rw [List.length_drop, Nat.add_assoc, Nat.add_sub_cancel' hchunk, happ.taken] at hf
        omega
      · obtain ⟨hr₁, hr₂, hr₃, v', hv', hgrown, hex', hcont', hbytes', hneeds⟩ := hr
        rw [List.length_drop] at hr₂
        rw [happ.taken] at hneeds
        have hbytes := happ.fileBytes hi hfbn hp
        simp only [update_self] at hbytes
        refine ⟨?_, by omega, hr₃, v', hv', happ.grown.trans hgrown, hex', hcont', ?_, by omega⟩
        · rw [hr₁, hfields]
        · rw [hbytes', hbytes, List.append_assoc, List.take_append_drop]

end SustainableXv6.Mkfs
