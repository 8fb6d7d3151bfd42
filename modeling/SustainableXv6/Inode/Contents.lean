import SustainableXv6.Inode.Bmap

/-!
# `readi` and `writei`

A file has all blocks below its size, so that `readi` allocates none and leaves the state as it is.
`writei` works on the entry until its `iupdate`. Where its loop ends early, because there is no free
block or because the copy fails, the blocks below the offset reached are there, and the size does
not go beyond it.
-/

namespace SustainableXv6.Inode

open Fs Function Lib

variable {sb : Superblock} {lim : ℕ} {s s' s₁ : State} {e : EntryId} {E : Panic → Prop}
  {a : BlockNo}

/-! ## Blocks that a file has -/

/-- `bmap` of a block that the file has. -/
theorem wp_bmap_of_addrOf {bn : ℕ} (hbn : bn < MAXFILE)
    (ha : addrOf s.disk (s.itable e).dino (.ofIndex bn) = some a) :
    wp (bmap sb e bn) s (fun a' s' => a' = a ∧ s' = s) E := by
  have haddr {k : Fin (NDIRECT + 1)} (hk : (s.itable e).dino.addrs k ≠ 0) :
      wp (addrFor sb e k) s (fun a' s' => a' = (s.itable e).dino.addrs k ∧ s' = s) E := by
    simp only [addrFor, wp_bind, wp_get]
    rw [wp_ite]
    exact ⟨fun h0 => absurd h0 hk, fun _ => ⟨rfl, rfl⟩⟩
  unfold bmap
  rcases Place.ofIndex_cases hbn with ⟨hlt, k, hk, hpl⟩ | ⟨hlt, j, hj, hpl⟩
  · rw [hpl] at ha
    obtain ⟨rfl, hne⟩ := nonzero_eq_some.mp ha
    rw [if_pos hlt, ← hk]
    exact haddr hne
  · have hlt' : bn - NDIRECT < NINDIRECT := by
      rw [← hj]
      exact j.isLt
    rw [hpl] at ha
    obtain ⟨r, hr, hword⟩ := Option.bind_eq_some_iff.mp ha
    obtain ⟨rfl, hr0⟩ := nonzero_eq_some.mp hr
    obtain ⟨rfl, ha0⟩ := nonzero_eq_some.mp hword
    rw [if_neg hlt, if_pos hlt', ← hj]
    refine wp_call (haddr hr0) fun a' t ht => ?_
    obtain ⟨rfl, rfl⟩ := ht
    rw [wp_ite]
    refine ⟨fun h0 => absurd h0 hr0, fun _ => ?_⟩
    simp only [indirectFor, wp_bind, wp_get]
    rw [wp_ite]
    exact ⟨fun h0 => absurd h0 ha0, fun _ => ⟨rfl, rfl⟩⟩

theorem wp_bmap_of_locs {bn : ℕ} (hbn : bn < MAXFILE)
    (ha : s.locs sb (some e) ((s.itable e).inum, .ofIndex bn) = some a) :
    wp (bmap sb e bn) s (fun a' s' => a' = a ∧ s' = s) E := by
  rw [State.locs, locs_of_allocated (allocated_of_locs ha), State.view_self] at ha
  exact wp_bmap_of_addrOf hbn ha

/-- The block of an offset below the size. -/
theorem Inv.exists_locs (h : Inv sb lim s (some e)) (href : 0 < (s.itable e).ref)
    (htype : (s.itable e).dino.type ≠ 0) {off : ℕ} (hoff : off < (s.itable e).dino.size.toNat) :
    off / BSIZE < MAXFILE ∧
      ∃ a, s.locs sb (some e) ((s.itable e).inum, .ofIndex (off / BSIZE)) = some a := by
  have hi := h.allocated href htype
  have hno := h.noHoles _ hi
  rw [State.view_self] at hno
  obtain ⟨hlt, a, ha⟩ := hno.exists_addrOf hoff
  refine ⟨hlt, a, ?_⟩
  rw [State.locs, locs_of_allocated hi, State.view_self, ha]

/-- A block that starts below the size is there. -/
theorem Inv.locs_ne_none (h : Inv sb lim s (some e)) (href : 0 < (s.itable e).ref)
    (htype : (s.itable e).dino.type ≠ 0) {bn : ℕ}
    (hlt : bn * BSIZE < (s.itable e).dino.size.toNat) :
    s.locs sb (some e) ((s.itable e).inum, .ofIndex bn) ≠ none := by
  obtain ⟨-, a, ha⟩ := h.exists_locs href htype hlt
  rw [Nat.mul_div_cancel _ (by decide)] at ha
  rw [ha]
  simp

/-! ## Bytes -/

/-- The byte `i` of the inode `j`, where the inode has a block for it. -/
def State.byte (s : State) (sb : Superblock) (o : Option EntryId) (j i : ℕ) : Option UInt8 :=
  (s.locs sb o (j, .ofIndex (i / BSIZE))).map fun a => byteAt (s.disk a) (i % BSIZE)

/-- The `m` bytes of the inode `j` from `off` on. -/
def State.bytes (s : State) (sb : Superblock) (o : Option EntryId) (j off m : ℕ) : List UInt8 :=
  (List.range m).map fun i => (s.byte sb o j (off + i)).getD 0

/-- The contents of the inode `j`. -/
def State.contents (s : State) (sb : Superblock) (o : Option EntryId) (j : ℕ) : List UInt8 :=
  s.bytes sb o j 0 (s.view sb o j).size.toNat

section Bytes

variable {o : Option EntryId} {j off : ℕ}

/-- The bytes of an allocated inode are those of its file. -/
theorem State.bytes_eq (s : State) (hj : s.Allocated sb o j) (off m : ℕ) :
    s.bytes sb o j off m = fileBytes s.disk (s.view sb o j) off m :=
  List.map_congr_left fun i _ => by rw [State.byte, State.locs, locs_of_allocated hj, fileByte]

/-- The bytes in a block. -/
theorem State.bytes_block (s : State) (ha : s.locs sb o (j, .ofIndex (off / BSIZE)) = some a)
    {m : ℕ} (hm : off % BSIZE + m ≤ BSIZE) :
    s.bytes sb o j off m = bytesAt (s.disk a) (off % BSIZE) m := by
  have hj := allocated_of_locs ha
  rw [State.locs, locs_of_allocated hj] at ha
  rw [s.bytes_eq hj, fileBytes_block ha hm, bytesAt]

/-- A part of the contents. -/
theorem State.take_drop_contents (n : ℕ) : ((s.contents sb o j).drop off).take n =
    s.bytes sb o j off (min n ((s.view sb o j).size.toNat - off)) := by
  refine List.ext_getElem? fun i => ?_
  simp only [State.contents, State.bytes, List.getElem?_take, List.getElem?_drop,
    List.getElem?_map]
  split_ifs with hi
  · by_cases hlt : off + i < (s.view sb o j).size.toNat
    · rw [List.getElem?_range hlt, List.getElem?_range (by omega)]
      simp
    · rw [List.getElem?_eq_none (by simpa using hlt), List.getElem?_eq_none (by simp; omega)]
      rfl
  · rw [List.getElem?_eq_none (by simp; omega)]
    rfl

end Bytes

/-! ## `readi` -/

theorem roundSize_pos {tot off n : ℕ} (h : tot < n) : 0 < roundSize tot off n := by
  have : off % BSIZE < BSIZE := Nat.mod_lt _ (by decide)
  unfold roundSize
  omega

/-- A round stays in one block. -/
theorem mod_add_roundSize_le (tot off n : ℕ) : off % BSIZE + roundSize tot off n ≤ BSIZE := by
  have : off % BSIZE < BSIZE := Nat.mod_lt _ (by decide)
  unfold roundSize
  omega

/-- The loop of `readi`, for a file without holes. -/
theorem wp_readLoop (h : NoHoles s.disk (s.itable e).dino) (dst : ℕ → ℕ → Bool) (fuel : ℕ) :
    ∀ tot off n, off + (n - tot) ≤ (s.itable e).dino.size.toNat → n - tot ≤ fuel →
      wp (readLoop sb e dst fuel tot off n) s
        (fun r s' => s' = s ∧ ((∀ t m, dst t m = true) → r ≠ none) ∧
          ∀ l, r = some l → l = fileBytes s.disk (s.itable e).dino off (n - tot)) E := by
  have hend {tot off n : ℕ} (htot : n - tot = 0) (l : List UInt8) (hl : some [] = some l) :
      l = fileBytes s.disk (s.itable e).dino off (n - tot) := by
    rw [htot, ← Option.some.inj hl]
    rfl
  induction fuel with
  | zero =>
    intro tot off n _ hfuel
    exact ⟨rfl, fun _ => by simp, hend (by omega)⟩
  | succ fuel ih =>
    intro tot off n hle hfuel
    unfold readLoop
    rw [wp_ite]
    refine ⟨fun htot => ?_, fun _ => ⟨rfl, fun _ => by simp, hend (by omega)⟩⟩
    have hoff : off < (s.itable e).dino.size.toNat := by omega
    obtain ⟨hbn, a, ha⟩ := h.exists_addrOf hoff
    refine wp_call (wp_bmap_of_addrOf hbn ha) fun a' t ht => ?_
    obtain ⟨rfl, rfl⟩ := ht
    rw [wp_ite]
    refine ⟨fun h0 => absurd h0 (ne_zero_of_addrOf ha), fun _ => ?_⟩
    simp only [wp_bind, wp_get]
    rw [wp_ite]
    refine ⟨fun _ => ?_, fun hdst => ⟨rfl, fun hall => absurd (hall _ _) hdst, by simp⟩⟩
    rw [wp_bind]
    have hm : roundSize tot off n ≤ n - tot := Nat.min_le_left _ _
    have hpos : 0 < roundSize tot off n := roundSize_pos htot
    refine (ih (tot + roundSize tot off n) (off + roundSize tot off n) n (by omega)
      (by omega)).imp fun r t ht => ?_
    obtain ⟨rfl, hall, hbytes⟩ := ht
    refine ⟨rfl, fun hdst => by simpa using hall hdst, fun l hl => ?_⟩
    obtain ⟨l', rfl, rfl⟩ := Option.map_eq_some_iff.mp hl
    have hsplit : n - tot = roundSize tot off n + (n - (tot + roundSize tot off n)) := by omega
    rw [hbytes l' rfl, hsplit, fileBytes_add, fileBytes_block ha (mod_add_roundSize_le tot off n),
      bytesAt]

/-- What `readi` returns of the contents `l`. The end of the range must not wrap around. -/
def clip (l : List UInt8) (off n : UInt32) : List UInt8 :=
  if off.toNat + n.toNat < 2 ^ 32 then (l.drop off.toNat).take n.toNat else []

/-- The test of `readi` and `writei` for the end of the range. -/
theorem toNat_add_of_le {off n : UInt32} (h : off ≤ off + n) :
    (off + n).toNat = off.toNat + n.toNat := by
  have h₁ := UInt32.le_iff_toNat_le.mp h
  have h₂ := off.toNat_lt
  have h₃ := n.toNat_lt
  rw [UInt32.toNat_add] at h₁ ⊢
  omega

/-- The test of `readi` and `writei` finds an end that wraps around. -/
theorem toNat_add_of_lt {off n : UInt32} (h : off + n < off) : 2 ^ 32 ≤ off.toNat + n.toNat := by
  by_contra hlt
  have h₁ := UInt32.lt_iff_toNat_lt.mp h
  rw [UInt32.toNat_add, Nat.mod_eq_of_lt (by omega)] at h₁
  omega

/-- `readi` of a file without holes returns its bytes, and leaves the state as it is. -/
theorem wp_readi (h : NoHoles s.disk (s.itable e).dino) (dst : ℕ → ℕ → Bool) (off n : UInt32) :
    wp (readi sb e dst off n) s (fun r s' => s' = s ∧ ((∀ t m, dst t m = true) → r ≠ none) ∧
      ∀ l, r = some l →
        l = clip (fileBytes s.disk (s.itable e).dino 0 (s.itable e).dino.size.toNat) off n) E := by
  simp only [readi, wp_bind, wp_get]
  rw [wp_ite]
  refine ⟨fun hout => ⟨rfl, fun _ => by simp, fun l hl => ?_⟩, fun hle => ?_⟩
  · rw [← Option.some.inj hl, clip]
    split_ifs with hend
    · rcases hout with hlt | hlt
      · rw [take_drop_fileBytes, Nat.sub_eq_zero_of_le, Nat.min_zero]
        · rfl
        · exact (UInt32.lt_iff_toNat_lt.mp hlt).le
      · have := toNat_add_of_lt hlt
        omega
    · rfl
  · simp only [not_or, UInt32.not_lt] at hle
    have hoff : off.toNat ≤ (s.itable e).dino.size.toNat := UInt32.le_iff_toNat_le.mp hle.1
    have hsum := toNat_add_of_le hle.2
    have hend : off.toNat + n.toNat < 2 ^ 32 := by
      rw [← hsum]
      exact (off + n).toNat_lt
    generalize hn' : (if (s.itable e).dino.size < off + n then (s.itable e).dino.size - off
      else n) = n'
    have hmin : n'.toNat = min n.toNat ((s.itable e).dino.size.toNat - off.toNat) := by
      rw [← hn']
      split_ifs with hlt
      · rw [UInt32.lt_iff_toNat_lt, hsum] at hlt
        rw [UInt32.toNat_sub_of_le _ _ hle.1]
        omega
      · rw [UInt32.lt_iff_toNat_lt, hsum] at hlt
        omega
    refine (wp_readLoop h dst n'.toNat 0 off.toNat n'.toNat (by omega)
      (by omega)).imp fun r t ht => ⟨ht.1, ht.2.1, fun l hl => ?_⟩
    rw [ht.2.2 l hl, clip, if_pos hend, take_drop_fileBytes, Nat.sub_zero, hmin]

/-- `readi` returns the contents, and leaves the state as it is. -/
theorem Inv.wp_readi (h : Inv sb lim s (some e)) (href : 0 < (s.itable e).ref)
    (htype : (s.itable e).dino.type ≠ 0) (dst : ℕ → ℕ → Bool) (off n : UInt32) :
    wp (readi sb e dst off n) s (fun r s' => s' = s ∧ ((∀ t m, dst t m = true) → r ≠ none) ∧
      ∀ l, r = some l → l = clip (s.contents sb (some e) (s.itable e).inum) off n) E := by
  have hi := h.allocated href htype
  have hno := h.noHoles _ hi
  have hview := s.view_self sb e
  rw [hview] at hno
  rw [State.contents, s.bytes_eq hi, hview]
  exact Inode.wp_readi hno dst off n

/-! ## Entries of a directory -/

/-- The number of an inode in the bytes of an entry. -/
theorem bytesInum_bytesAt (b : Block) (off : ℕ) :
    bytesInum (bytesAt b off DIRENTSIZE) = (direntInum b off).toNat := by
  have h₀ := (byteAt b off).toNat_lt
  have h₁ := (byteAt b (off + 1)).toNat_lt
  have hget : (bytesAt b off DIRENTSIZE).getD 0 0 = byteAt b off ∧
      (bytesAt b off DIRENTSIZE).getD 1 0 = byteAt b (off + 1) := ⟨rfl, rfl⟩
  rw [bytesInum, hget.1, hget.2, direntInum, UInt16.toNat_ofNat']
  exact (Nat.mod_eq_of_lt (by omega)).symm

/-- `readi` of an entry of a directory, which lies in one block. -/
theorem Inv.wp_readi_entry (h : Inv sb lim s (some e)) (href : 0 < (s.itable e).ref)
    (htype : (s.itable e).dino.type ≠ 0) {k : ℕ}
    (ha : s.locs sb (some e) ((s.itable e).inum, .ofIndex (DIRENTSIZE * k / BSIZE)) = some a)
    (hlast : DIRENTSIZE * k + DIRENTSIZE ≤ (s.itable e).dino.size.toNat) :
    wp (readi sb e kernelDst (UInt32.ofNat (DIRENTSIZE * k)) (UInt32.ofNat DIRENTSIZE)) s
      (fun r s' => s' = s ∧ r = some (bytesAt (s.disk a) (DIRENTSIZE * k % BSIZE) DIRENTSIZE)) E :=
        by
  have hsize := (s.itable e).dino.size.toNat_lt
  have hoff : (UInt32.ofNat (DIRENTSIZE * k)).toNat = DIRENTSIZE * k :=
    UInt32.toNat_ofNat_of_lt' (lt_of_le_of_lt (Nat.le_of_add_right_le hlast) hsize)
  have hn : (UInt32.ofNat DIRENTSIZE).toNat = DIRENTSIZE := by decide
  have hblock : DIRENTSIZE * k % BSIZE + DIRENTSIZE ≤ BSIZE := by
    simp only [DIRENTSIZE, DIRSIZ, BSIZE]
    omega
  refine (h.wp_readi href htype kernelDst _ _).imp fun r s' hr => ⟨hr.1, ?_⟩
  obtain ⟨l, rfl⟩ := Option.ne_none_iff_exists'.mp (hr.2.1 fun _ _ => rfl)
  rw [hr.2.2 l rfl, clip, hoff, hn, if_pos (lt_of_le_of_lt hlast hsize), State.take_drop_contents,
    State.view_self, Nat.min_eq_left (by omega), s.bytes_block ha hblock]

/-- The entry `k` of a directory. -/
theorem Inv.wp_readEntry (h : Inv sb lim s (some e)) (href : 0 < (s.itable e).ref)
    (htype : (s.itable e).dino.type ≠ 0) {p : Panic} (hp : E p) {k : ℕ}
    (hk : DIRENTSIZE * k < (s.itable e).dino.size.toNat) :
    wp (readEntry sb e p (DIRENTSIZE * k)) s (fun l s' => s' = s ∧ ∃ a,
      s.locs sb (some e) ((s.itable e).inum, .ofIndex (DIRENTSIZE * k / BSIZE)) = some a ∧
        bytesInum l = (direntInum (s.disk a) (DIRENTSIZE * k % BSIZE)).toNat) E := by
  obtain ⟨-, a, ha⟩ := h.exists_locs href htype hk
  unfold readEntry
  by_cases hlast : DIRENTSIZE * k + DIRENTSIZE ≤ (s.itable e).dino.size.toNat
  · refine wp_call (h.wp_readi_entry href htype ha hlast) fun r t ht => ?_
    obtain ⟨rfl, rfl⟩ := ht
    change wp (if (bytesAt (t.disk a) (DIRENTSIZE * k % BSIZE) DIRENTSIZE).length = DIRENTSIZE then
      pure _ else throw p) _ _ _
    rw [if_pos (by simp [bytesAt])]
    exact ⟨rfl, a, ha, bytesInum_bytesAt _ _⟩
  · -- The end of the directory is in the middle of the entry.
    have hoff : (UInt32.ofNat (DIRENTSIZE * k)).toNat = DIRENTSIZE * k :=
      UInt32.toNat_ofNat_of_lt' (lt_trans hk (s.itable e).dino.size.toNat_lt)
    refine wp_call (h.wp_readi href htype _ _ _) fun r t ht => ?_
    cases r with
    | none => exact hp
    | some l =>
      have hlen : l.length ≤ (s.itable e).dino.size.toNat - DIRENTSIZE * k := by
        rw [ht.2.2 l rfl, clip, hoff]
        split_ifs
        · simp [State.contents, State.bytes, State.view_self]
        · simp
      change wp (if l.length = DIRENTSIZE then pure l else throw p) _ _ _
      rw [if_neg (by omega)]
      exact hp

/-! ## `writei` -/

section Data

variable (h : Inv sb lim s (some e)) (hsb : sb.Ok) {bn : ℕ}
  (ha : s.locs sb (some e) ((s.itable e).inum, .ofIndex bn) = some a) {v : Block}
  (hdisk : s'.disk = update s.disk a v) (hitable : s'.itable = s.itable)
include h hsb ha hdisk hitable

/-- The inodes do not change with a data block. -/
theorem Inv.view_write {j : ℕ} (hj : j < sb.ninodes.toNat) :
    s'.view sb (some e) j = s.view sb (some e) j := by
  by_cases hji : j = (s.itable e).inum
  · rw [hji, State.view_self, ← hitable, State.view_self]
  · rw [State.view_of_ne hji, State.view_of_ne (by rwa [hitable]), hdisk,
      dinodeAt_update hsb (h.nmeta_le ha) hj]

/-- The places do not change with a data block. -/
theorem Inv.locs_write : s'.locs sb (some e) = s.locs sb (some e) := by
  rw [State.locs, locs_congr fun j _ hj => h.view_write hsb ha hdisk hitable hj, hdisk]
  refine locs_update_disk (fun j hj => ?_) v
  exact Place.ofIndex_ne_root bn (Prod.mk.inj (h.owned.inj _ _ a ha hj)).2

/-- The bytes of the other blocks do not change with a data block. -/
theorem Inv.byte_write {i j : ℕ} (hi : i / BSIZE < MAXFILE) (hbn : bn < MAXFILE) :
    s'.byte sb (some e) j i = if j = (s.itable e).inum ∧ i / BSIZE = bn then
      some (byteAt v (i % BSIZE)) else s.byte sb (some e) j i := by
  rw [State.byte, h.locs_write hsb ha hdisk hitable]
  split_ifs with hji
  · rw [hji.1, hji.2, ha, Option.map_some, hdisk, update_self]
  · refine Option.map_congr fun b hb => ?_
    rw [hdisk, update_of_ne]
    rintro rfl
    have hl := Prod.mk.inj (h.owned.inj _ _ b hb ha)
    exact hji ⟨hl.1, Place.ofIndex_inj hi hbn hl.2⟩

/-- A data block of the entry's inode gets other contents. -/
theorem Inv.write (hdir : (s.itable e).dino.type = T_DIR →
      EntriesBelow lim s'.disk (s.itable e).dino) : Inv sb lim s' (some e) := by
  have hmeta := h.nmeta_le ha
  have hview {j : ℕ} (hj : j < sb.ninodes.toNat) := h.view_write hsb ha hdisk hitable hj
  have hlocs := h.locs_write hsb ha hdisk hitable
  have htype (j : ℕ) (hj : j < sb.ninodes.toNat) :
      (s'.view sb (some e) j).type = (s.view sb (some e) j).type := by rw [hview hj]
  have hmono (l : ℕ × Place) (b : BlockNo) (hl : s.locs sb (some e) l = some b) :
      s'.locs sb (some e) l = some b := by rw [hlocs, hl]
  refine h.of_kept ?_ (fun j hj => by rw [hview hj]) htype hmono
    (fun e' => by rw [hitable]; exact ⟨rfl, rfl, rfl⟩) (fun e' hr _ => ?_) fun i hi hi' => ?_
  · rw [hlocs]
    exact h.owned.congr (fun _ => rfl) fun b => by rw [hdisk, used_update hsb hmeta]
  · rw [hitable, hdisk, dinodeAt_update hsb hmeta (h.inums e' hr).2]
    exact ⟨rfl, rfl⟩
  · by_cases hie : i = (s.itable e).inum
    · rw [hview hi.2.1, hie, State.view_self]
      rw [hie, State.view_self] at hi'
      exact hdir hi'
    · -- The block is not one of another directory.
      refine (h.dirs i hi hi').of_mono (h.noHoles i hi) (by rw [hview hi.2.1])
        (fun bn b hb => (State.addrOf_mono htype hmono hi hb).2) fun bn' b hb => ?_
      have hl := (State.addrOf_mono htype hmono hi hb).1
      rw [hdisk, update_of_ne]
      rintro rfl
      exact hie (Prod.mk.inj (h.owned.inj _ _ b hl ha)).1

end Data

/-- The inodes, with another copy in the entry. -/
theorem State.view_setDino (s : State) (e : EntryId) (x : Dinode) :
    (s.setDino e x).view sb (some e) =
      update (dinodeAt sb s.disk) (s.itable e).inum x := by
  rw [State.view, State.setDino_self]
  rfl

/-- The places do not change where the copy in the entry keeps its addresses. -/
theorem State.locs_setDino {x : Dinode} (htype : x.type = (s.itable e).dino.type)
    (haddrs : x.addrs = (s.itable e).dino.addrs) :
    (s.setDino e x).locs sb (some e) = s.locs sb (some e) := by
  rw [State.locs, State.view_setDino]
  exact locs_update_fields (by rw [htype]) haddrs

/-- The copy in the entry gets other fields, with the same addresses. -/
theorem Inv.setDino (h : Inv sb lim s (some e)) {x : Dinode}
    (htype : x.type = (s.itable e).dino.type) (haddrs : x.addrs = (s.itable e).dino.addrs)
    (hno : NoHoles s.disk x)
    (hdir : x.type = T_DIR → EntriesBelow lim s.disk x) :
    Inv sb lim (s.setDino e x) (some e) := by
  have hself : (s.setDino e x).itable e = { s.itable e with dino := x } := update_self ..
  have hother {e' : EntryId} (he : e' ≠ e) : (s.setDino e x).itable e' = s.itable e' :=
    update_of_ne he ..
  have hview : (s.setDino e x).view sb (some e) = _ := s.view_setDino e x
  have hlocs : (s.setDino e x).locs sb (some e) = _ := State.locs_setDino htype haddrs
  have hkeep (e' : EntryId) : ((s.setDino e x).itable e').inum = (s.itable e').inum ∧
      ((s.setDino e x).itable e').ref = (s.itable e').ref ∧
        ((s.setDino e x).itable e').valid = (s.itable e').valid := by
    by_cases he : e' = e
    · rw [he, hself]
      exact ⟨rfl, rfl, rfl⟩
    · rw [hother he]
      exact ⟨rfl, rfl, rfl⟩
  have hthis : (s.setDino e x).view sb (some e) (s.itable e).inum = x := by
    rw [hview, update_self]
  have hrest {i : ℕ} (hi : i ≠ (s.itable e).inum) :
      (s.setDino e x).view sb (some e) i = s.view sb (some e) i := by
    rw [hview, update_of_ne hi, State.view_of_ne hi]
  have hallocated {i : ℕ} (hi : i ≠ (s.itable e).inum) :
      (s.setDino e x).Allocated sb (some e) i ↔ s.Allocated sb (some e) i := by
    unfold State.Allocated Fs.Allocated
    rw [hrest hi]
  refine ⟨by rw [hlocs]; exact h.owned, fun i hi => ?_, fun i hi hi' => ?_, fun e' hr => ?_,
    fun e₁ e₂ h₁ h₂ hi => ?_, fun e' hr hv ho => ?_⟩
  · by_cases hie : i = (s.itable e).inum
    · rw [hie, hthis]
      exact hno
    · rw [hrest hie]
      exact h.noHoles i ((hallocated hie).mp hi)
  · by_cases hie : i = (s.itable e).inum
    · rw [hie, hthis] at hi' ⊢
      exact hdir hi'
    · rw [hrest hie] at hi' ⊢
      exact h.dirs i ((hallocated hie).mp hi) hi'
  · rw [(hkeep e').2.1] at hr
    rw [(hkeep e').1]
    exact h.inums e' hr
  · rw [(hkeep e₁).2.1] at h₁
    rw [(hkeep e₂).2.1] at h₂
    rw [(hkeep e₁).1, (hkeep e₂).1] at hi
    exact h.unique e₁ e₂ h₁ h₂ hi
  · have he : e' ≠ e := fun he => ho (by rw [he])
    rw [hother he] at hr hv ⊢
    exact h.coherent e' hr hv ho

/-- What a round of `writei` leaves that puts the bytes `l` into the block `a`. -/
structure Stored (s : State) (a : BlockNo) (off : ℕ) (l : List UInt8) (s' : State) : Prop where
  disk : s'.disk = update s.disk a (putBytes (s.disk a) off l)
  itable : s'.itable = s.itable
  locked : s'.locked = s.locked
  outstanding : s'.outstanding = s.outstanding

/-- A round of `writei`. -/
theorem Inv.wp_writeRound (h : Inv sb lim s (some e)) (hsb : sb.Ok) (href : 0 < (s.itable e).ref)
    (htype : (s.itable e).dino.type ≠ 0) (src : ℕ → ℕ → Copied) {tot off n : ℕ}
    (hbn : off / BSIZE < MAXFILE) :
    wp (writeRound sb e src tot off n) s (fun r s' => ∃ s₁, Mapped sb lim s e s₁ ∧
      Grown sb s e (pathTo (off / BSIZE)) s₁ ∧
      (r = none ∧ s' = s₁ ∧ Full sb s₁ e (pathTo (off / BSIZE)) ∨ ∃ a l,
        s₁.locs sb (some e) ((s.itable e).inum, .ofIndex (off / BSIZE)) = some a ∧
        Stored s₁ a (off % BSIZE) (l.take (roundSize tot off n)) s' ∧
        (r = none ∧ src tot (roundSize tot off n) = .failed l ∨
          r = some (roundSize tot off n) ∧ src tot (roundSize tot off n) = .all l))) Safe := by
  unfold writeRound
  refine wp_call (h.wp_bmap hsb href htype hbn) fun a s₁ hs₁ => ?_
  obtain ⟨hm, hgrown, ⟨rfl, hfull⟩ | ha⟩ := hs₁
  · exact ⟨s₁, hm, hgrown, .inl ⟨rfl, rfl, hfull⟩⟩
  · rw [if_neg (ne_zero_of_locs ha)]
    simp only [wp_bind, wp_get]
    cases hsrc : src tot (roundSize tot off n) with
    | failed l =>
      exact ⟨s₁, hm, hgrown, .inr ⟨a, l, ha, ⟨rfl, rfl, rfl, rfl⟩, .inl ⟨rfl, rfl⟩⟩⟩
    | all l =>
      simp only [wp_bind]
      refine wp_logWrite (fun _ => ?_) (fun _ => ⟨by simp, by simp⟩) fun _ => ⟨by simp, by simp⟩
      exact ⟨s₁, hm, hgrown, .inr ⟨a, l, ha, ⟨rfl, rfl, rfl, rfl⟩, .inr ⟨rfl, rfl⟩⟩⟩

end SustainableXv6.Inode
