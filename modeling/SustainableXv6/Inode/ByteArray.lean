import SustainableXv6.Inode.Write
import SustainableXv6.Inode.Reserve

/-!
# Files as arrays of bytes

The contents of an inode are the bytes below its size. `writei` overwrites a part of the contents of
its inode and leaves those of the others. It writes all bytes where the free blocks are enough for
the places of the range that name none (`lacking`).
-/

namespace SustainableXv6.Inode

open Fs Lib

variable {sb : Superblock} {lim : ℕ} {s s' : State} {e : EntryId} {src : ℕ → ℕ → Copied}
  {n off tot : ℕ} {f : ℕ → Option UInt8} {l : List UInt8}

/-! ## Contents -/

/-- The disk has the copy in an entry, so that a call sees the contents on the disk. -/
theorem Inv.view_begin (h : Inv sb lim s none) (href : 0 < (s.itable e).ref)
    (hvalid : (s.itable e).valid = true) : s.view sb (some e) = s.view sb none :=
  State.view_eq (h.coherent e href hvalid (by simp)).1

theorem State.locs_of_view (h : s.view sb (some e) = s.view sb none) :
    s.locs sb (some e) = s.locs sb none := by
  rw [State.locs, h, State.locs]

theorem State.contents_of_view (h : s.view sb (some e) = s.view sb none) (j : ℕ) :
    s.contents sb (some e) j = s.contents sb none j := by
  simp only [State.contents, State.bytes, State.byte, State.locs_of_view h, h]

theorem contents_of_disk (h : s'.disk = s.disk) (j : ℕ) :
    s'.contents sb none j = s.contents sb none j := by
  simp only [State.contents, State.bytes, State.byte, State.locs, State.view, h]

theorem State.length_contents (s : State) (sb : Superblock) (o : Option EntryId) (j : ℕ) :
    (s.contents sb o j).length = (s.view sb o j).size.toNat := by
  simp [State.contents, State.bytes]

theorem State.getElem?_contents (s : State) (sb : Superblock) (o : Option EntryId) {j i : ℕ}
    (hi : i < (s.view sb o j).size.toNat) :
    (s.contents sb o j)[i]? = some ((s.byte sb o j i).getD 0) := by
  rw [State.contents, State.bytes, List.getElem?_map, List.getElem?_range hi, Option.map_some,
    Nat.zero_add]

/-- An allocated inode has a byte for every position below its size. -/
theorem Inv.exists_byte {o : Option EntryId} (h : Inv sb lim s o) {j i : ℕ}
    (hj : s.Allocated sb o j) (hi : i < (s.view sb o j).size.toNat) :
    i / BSIZE < MAXFILE ∧ ∃ v, s.byte sb o j i = some v := by
  obtain ⟨hsize, hblocks⟩ := h.noHoles j hj
  obtain ⟨a, ha⟩ := Option.ne_none_iff_exists'.mp
    (hblocks (i / BSIZE) (lt_of_le_of_lt (Nat.div_mul_le_self _ _) hi))
  refine ⟨?_, byteAt (s.disk a) (i % BSIZE), ?_⟩
  · rw [Nat.div_lt_iff_lt_mul (by decide)]
    omega
  · rw [State.byte, State.locs, locs_of_allocated hj, ha, Option.map_some]

theorem Inv.size_le (h : Inv sb lim s none) (href : 0 < (s.itable e).ref)
    (hvalid : (s.itable e).valid = true) : (s.itable e).dino.size.toNat ≤ MAXFILE * BSIZE := by
  have hopen := h.begin href hvalid
  have hno := hopen.noHoles _ (hopen.allocated href (h.coherent e href hvalid (by simp)).2)
  rw [State.view_self] at hno
  exact hno.1

/-- The disk has the copy in the entry after `writei`. -/
theorem Saved.view_end (hs : Saved sb lim s e src n off f tot s') (href : 0 < (s.itable e).ref)
    (hvalid : (s.itable e).valid = true) : s'.view sb (some e) = s'.view sb none :=
  hs.inv.view_begin (by rwa [hs.written.ref]) (by rwa [hs.written.valid])

section Saved

variable (h : Inv sb lim s none) (href : 0 < (s.itable e).ref)
  (hvalid : (s.itable e).valid = true) (hs : Saved sb lim s e src n off f tot s')
include h href hvalid hs

/-- The contents of the other inodes stay. -/
theorem Saved.contents_of_ne {j : ℕ} (hj : j < sb.ninodes.toNat) (hne : j ≠ (s.itable e).inum) :
    s'.contents sb none j = s.contents sb none j := by
  have hw := hs.written
  have hopen := h.begin href hvalid
  have hview : s'.view sb (some e) j = s.view sb (some e) j := by
    rw [State.view_of_ne hne, State.view_of_ne (by rwa [hw.inum]), hw.inodes j hj hne]
  rw [← State.contents_of_view (hs.view_end href hvalid),
    ← State.contents_of_view (h.view_begin href hvalid)]
  rw [State.contents, State.contents, hview]
  refine List.map_congr_left fun i hi => ?_
  rw [Nat.zero_add]
  by_cases hall : s.Allocated sb (some e) j
  · obtain ⟨hdiv, v, hv⟩ := hopen.exists_byte hall (List.mem_range.mp hi)
    rw [hv, hw.old j i v hdiv (fun he => absurd he hne) hv]
  · have hall' : ¬ s'.Allocated sb (some e) j := by
      rwa [State.Allocated, Fs.Allocated, hview]
    rw [State.byte, State.byte, State.locs, State.locs, locs_of_not_allocated hall,
      locs_of_not_allocated hall']
    rfl

/-- The contents of the inode are overwritten, and end at the size. -/
theorem Saved.contents_self (hoff : off ≤ (s.itable e).dino.size.toNat) {k : ℕ}
    (hk : k ≤ l.length) (htot : tot ≤ k) (hf : f = patch off (l.take k)) :
    s'.contents sb none (s.itable e).inum =
      (overwrite (s.contents sb none (s.itable e).inum) off (l.take k)).take
        (max (s.itable e).dino.size.toNat (off + tot)) := by
  have hw := hs.written
  have hopen := h.begin href hvalid
  have hall := hopen.allocated href (h.coherent e href hvalid (by simp)).2
  have hview : (s.view sb (some e) (s.itable e).inum).size = (s.itable e).dino.size := by
    rw [State.view_self]
  have hview' : (s'.view sb (some e) (s.itable e).inum).size.toNat =
      max (s.itable e).dino.size.toNat (off + tot) := by
    rw [← hw.inum, State.view_self, hs.size]
  have hlen : (l.take k).length = k := List.length_take_of_le hk
  rw [← State.contents_of_view (hs.view_end href hvalid),
    ← State.contents_of_view (h.view_begin href hvalid)]
  refine List.ext_getElem? fun i => ?_
  rw [List.getElem?_take]
  split_ifs with hi
  · rw [State.getElem?_contents _ _ _ (by rw [hview']; exact hi),
      getElem?_overwrite (by rw [State.length_contents, hview]; exact hoff), hlen]
    split_ifs with hnew
    · -- A byte of the source.
      have hlt : i - off < (l.take k).length := by omega
      have hfi : f i = some (l.take k)[i - off] := by
        rw [hf, patch, if_pos hnew.1, List.getElem?_eq_getElem hlt]
      rw [hw.new i _ hfi, List.getElem?_eq_getElem hlt, Option.getD_some]
    · -- An old byte, which is below the old size.
      have hold : i < (s.view sb (some e) (s.itable e).inum).size.toNat := by
        rw [hview]
        omega
      obtain ⟨hdiv, v, hv⟩ := hopen.exists_byte hall hold
      have hfi : f i = none := by
        rw [hf, patch]
        split_ifs with hle
        · exact List.getElem?_eq_none (by omega)
        · rfl
      rw [State.getElem?_contents _ _ _ hold, hv, hw.old _ i v hdiv (fun _ => hfi) hv]
  · rw [List.getElem?_eq_none]
    rw [State.length_contents, hview']
    exact Nat.not_lt.mp hi

end Saved

/-! ## Enough free blocks -/

/-- The way to a block that a file has. -/
theorem locs_of_pathTo {i bn : ℕ} {a : BlockNo} (hbn : bn < MAXFILE)
    (ha : s.locs sb (some e) (i, .ofIndex bn) = some a) {pl : Place} (hpl : pl ∈ pathTo bn) :
    s.locs sb (some e) (i, pl) ≠ none := by
  unfold pathTo at hpl
  rcases Place.ofIndex_cases hbn with ⟨hlt, -⟩ | ⟨hlt, j, -, hj⟩
  · rw [if_pos hlt, Finset.mem_singleton] at hpl
    rw [hpl, ha]
    simp
  · rw [if_neg hlt, Finset.mem_insert, Finset.mem_singleton] at hpl
    rcases hpl with rfl | rfl
    · have hi := allocated_of_locs ha
      rw [State.locs, locs_of_allocated hi, hj] at ha
      obtain ⟨r, hr, -⟩ := Option.bind_eq_some_iff.mp ha
      rw [State.locs, locs_of_allocated hi, addrOf, hr]
      simp
    · rw [ha]
      simp

/-- A file has no block at the place for which `writei` has found none free. So it ends before. -/
theorem size_le_of_full {f : ℕ → Option UInt8} {n off tot bn : ℕ} (h : Inv sb lim s none)
    (href : 0 < (s.itable e).ref) (hvalid : (s.itable e).valid = true)
    (hs : Saved sb lim s e src n off f tot s') (hfull : Full sb s' e (pathTo bn)) :
    (s.itable e).dino.size.toNat ≤ bn * BSIZE := by
  by_contra hlt
  obtain ⟨-, pl, hpl, hnone⟩ := hfull
  have hopen := h.begin href hvalid
  obtain ⟨hbn, a, ha⟩ := hopen.exists_locs href (h.coherent e href hvalid (by simp)).2
    (Nat.not_le.mp hlt)
  rw [Nat.mul_div_cancel _ (by decide)] at hbn ha
  obtain ⟨b, hb⟩ := Option.ne_none_iff_exists'.mp (locs_of_pathTo hbn ha hpl)
  rw [hs.written.inum, hs.written.mono _ b hb] at hnone
  simp at hnone

/-- The blocks of the image that are free. -/
def freeBlocks (sb : Superblock) (d : Disk) : Finset BlockNo :=
  unused (Used sb d) ((Finset.range sb.size.toNat).image UInt32.ofNat)

/-- The places of the inode `i` on the way to the blocks of a range that name none. -/
def lacking (sb : Superblock) (s : State) (i off n : ℕ) : Finset (ℕ × Place) :=
  missing (s.locs sb none) ((needed off n).image fun pl => (i, pl))

/-- Where no block is free, all blocks are in use. -/
theorem freeBlocks_eq_empty {d : Disk}
    (h : ∀ b : BlockNo, b.toNat < sb.size.toNat → Used sb d b) : freeBlocks sb d = ∅ := by
  refine Finset.eq_empty_of_forall_notMem fun b hb => ?_
  obtain ⟨hmem, hnot⟩ := mem_unused.mp hb
  obtain ⟨k, hk, rfl⟩ := Finset.mem_image.mp hmem
  refine hnot (h _ ?_)
  rw [UInt32.toNat_ofNat_of_lt' (lt_trans (Finset.mem_range.mp hk) sb.size.toNat_lt)]
  exact Finset.mem_range.mp hk

section Enough

variable (h : Inv sb lim s none) (href : 0 < (s.itable e).ref)
  (hvalid : (s.itable e).valid = true) (hs : Saved sb lim s e src n off f tot s')
include h href hvalid hs

/-- The free blocks stay enough for a range that `writei` writes a part of. -/
theorem Saved.enough {off₀ n₀ : ℕ} (hle : off₀ ≤ off) (hend : off + n ≤ off₀ + n₀)
    (henough : (lacking sb s (s.itable e).inum off₀ n₀).card ≤ (freeBlocks sb s.disk).card) :
    (lacking sb s' (s.itable e).inum off₀ n₀).card ≤ (freeBlocks sb s'.disk).card := by
  have hlocs := State.locs_of_view (h.view_begin href hvalid)
  have hlocs' := State.locs_of_view (hs.view_end href hvalid)
  refine h.owned.enough hs.inv.owned (fun p b hp => ?_) (fun p b hp => ?_) henough
  · rw [← hlocs']
    exact hs.written.mono p b (by rwa [hlocs])
  · rw [← hlocs'] at hp
    rw [← hlocs]
    refine (hs.grown p b hp).imp_right fun hnew => ?_
    exact Finset.mem_image.mpr ⟨p.2, needed_subset hle hend hnew.2, by rw [← hnew.1]⟩

/-- `writei` from a source with all bytes writes all where the free blocks are enough. -/
theorem Saved.total_of_enough (hdel : Delivers src l n) (hlen : n ≤ l.length)
    (henough : (lacking sb s (s.itable e).inum off n).card ≤ (freeBlocks sb s.disk).card) :
    tot = n ∧ f = patch off (l.take n) := by
  obtain ⟨k, hf, -, hended⟩ := hs.ended l hdel
  rw [Nat.zero_add] at hended
  rcases hended with ⟨htot, hk⟩ | ⟨htot, -, hfull, pl, hpl, hnone⟩ | ⟨hshort, -, -⟩
  · exact ⟨htot, by rw [hf, hk]⟩
  · -- A place of the range names no block, and no block is free.
    have hcard := hs.enough h href hvalid le_rfl le_rfl henough
    rw [freeBlocks_eq_empty hfull, Finset.card_empty, Nat.le_zero, Finset.card_eq_zero] at hcard
    have hmem : ((s.itable e).inum, pl) ∈ lacking sb s' (s.itable e).inum off n := by
      refine mem_missing.mpr ⟨Finset.mem_image.mpr ⟨pl, pathTo_subset_needed ?_ ?_ hpl, rfl⟩, ?_⟩
      · exact Nat.div_le_div_right (Nat.le_add_right _ _)
      · exact lt_of_le_of_lt (Nat.div_mul_le_self _ _) (Nat.add_lt_add_left htot off)
      · rw [← State.locs_of_view (hs.view_end href hvalid), ← hs.written.inum]
        exact hnone
    rw [hcard] at hmem
    exact absurd hmem (Finset.notMem_empty _)
  · omega

end Enough

/-! ## `writei` and `readi` -/

/-- The entries of a directory name numbers of 16 bits. -/
theorem Inv.anyEntries {o : Option EntryId} (h : Inv sb lim s o) : Inv sb (2 ^ 16) s o :=
  ⟨h.owned, h.noHoles, fun _ _ _ => entriesBelow_of_le le_rfl _ _, h.inums, h.unique, h.coherent⟩

/-- The contents of the inode `i` have been overwritten with `l` at `off`, and those of the other
inodes have stayed. -/
structure Overwrote (sb : Superblock) (s : State) (i off : ℕ) (l : List UInt8) (s' : State) :
    Prop where
  contents : s'.contents sb none i = overwrite (s.contents sb none i) off l
  others : ∀ j, j < sb.ninodes.toNat → j ≠ i → s'.contents sb none j = s.contents sb none j

/-- The size after the contents have been overwritten. -/
theorem Overwrote.size {i : ℕ} (h : Overwrote sb s i off l s')
    (hoff : off ≤ (dinodeAt sb s.disk i).size.toNat) :
    (dinodeAt sb s'.disk i).size.toNat =
      max (dinodeAt sb s.disk i).size.toNat (off + l.length) := by
  have hlen := s.length_contents sb none i
  have hlen' := s'.length_contents sb none i
  change _ = (dinodeAt sb s.disk i).size.toNat at hlen
  change _ = (dinodeAt sb s'.disk i).size.toNat at hlen'
  rw [← hlen', h.contents, length_overwrite (by rw [hlen]; exact hoff), hlen]

/-- Two writes one after the other. -/
theorem Overwrote.trans {s₁ : State} {i : ℕ} {l' : List UInt8} (h : Overwrote sb s i off l s₁)
    (h' : Overwrote sb s₁ i (off + l.length) l' s')
    (hoff : off ≤ (dinodeAt sb s.disk i).size.toNat) : Overwrote sb s i off (l ++ l') s' := by
  refine ⟨?_, fun j hj hne => (h'.others j hj hne).trans (h.others j hj hne)⟩
  rw [h'.contents, h.contents, overwrite_overwrite]
  rw [State.length_contents]
  exact hoff

/-- `writei` from a source that can be read, with enough free blocks and room in the transaction. -/
theorem Inv.wp_writei_all (h : Inv sb lim s none) (hsb : sb.Ok) (href : 0 < (s.itable e).ref)
    (hvalid : (s.itable e).valid = true) (hnodup : s.lh.Nodup) (hinside : 1 ≤ s.outstanding)
    {off n : UInt32} (hdel : Delivers src l n.toNat) (hlen : l.length = n.toNat)
    (hroom : s.lh.length + writeiBlocks n.toNat ≤ LOGBLOCKS)
    (hoff : off.toNat ≤ (dinodeAt sb s.disk (s.itable e).inum).size.toNat)
    (hmax : off.toNat + n.toNat ≤ MAXFILE * BSIZE)
    (henough : (lacking sb s (s.itable e).inum off.toNat n.toNat).card ≤
      (freeBlocks sb s.disk).card) :
    wp (writei sb e src off n) s (fun r s' => r = some n.toNat ∧
      Overwrote sb s (s.itable e).inum off.toNat l s' ∧
      ∃ f, Saved sb (2 ^ 16) s e src n.toNat off.toNat f n.toNat s') fun _ => False := by
  have hany := h.anyEntries
  have hdino := (h.coherent e href hvalid (by simp)).1
  rw [← hdino] at hoff
  have hno : NoHoles s.disk (s.itable e).dino := by
    have hi := h.begin href hvalid
    have := hi.noHoles _ (hi.allocated href (h.coherent e href hvalid (by simp)).2)
    rwa [State.view_self] at this
  refine wp_mono ((hany.wp_writei hsb href hvalid (fun _ => le_rfl) src off n).and
    (wp_writei_reserve hno hnodup hinside src off n hroom)) (fun r s' hr => ?_) fun p hp => hp.2
  obtain ⟨⟨-, -, hout⟩ | ⟨tot, f, rfl, -, -, hs⟩, -⟩ := hr
  · exact absurd ⟨hoff, hmax⟩ hout
  obtain ⟨rfl, hf⟩ := hs.total_of_enough hany href hvalid hdel hlen.ge henough
  refine ⟨rfl, ⟨?_, fun j hj hne => hs.contents_of_ne hany href hvalid hj hne⟩, f, hs⟩
  have hall : l.take n.toNat = l := List.take_of_length_le hlen.le
  have hview : (s.view sb none (s.itable e).inum).size = (s.itable e).dino.size := by
    rw [hdino]
    rfl
  rw [hs.contents_self hany href hvalid hoff hlen.ge le_rfl hf, hall, List.take_of_length_le]
  rw [length_overwrite (by rw [State.length_contents, hview]; exact hoff), State.length_contents,
    hview, hlen]

/-- `readi` of an inode that has been read from the disk. -/
theorem Inv.wp_readi_contents {E : Panic → Prop} (h : Inv sb lim s none)
    (href : 0 < (s.itable e).ref) (hvalid : (s.itable e).valid = true) (dst : ℕ → ℕ → Bool)
    (off n : UInt32) :
    wp (readi sb e dst off n) s (fun r s' => s' = s ∧ ((∀ t m, dst t m = true) → r ≠ none) ∧
      ∀ l, r = some l → l = clip (s.contents sb none (s.itable e).inum) off n) E := by
  rw [← State.contents_of_view (h.view_begin href hvalid)]
  exact (h.begin href hvalid).wp_readi href (h.coherent e href hvalid (by simp)).2 dst off n

end SustainableXv6.Inode
