import SustainableXv6.Inode.Write

/-!
# `dirlookup` and the entries of a directory

A directory is written by the kernel only, one entry at a time, and an entry lies in one block.
`dirlookup` returns an inode of the file system, since the entries of a directory name such inodes.
-/

namespace SustainableXv6.Inode

open Fs Function Lib

variable {sb : Superblock} {lim : ℕ} {s s' s₁ : State} {e : EntryId} {a : BlockNo}

/-! ## An entry of a directory is written -/

/-- The blocks below the offset after a round. -/
theorem index_lt_of_round {bn tot off n : ℕ} (hbn : bn * BSIZE < off + roundSize tot off n) :
    bn * BSIZE < off ∨ bn = off / BSIZE := by
  simp only [roundSize, BSIZE] at *
  omega

/-- The entries of a directory after the entry `k` has been written to the block `a`. -/
theorem EntriesBelow.put {d d' : Disk} {x : Dinode} {k n inum : ℕ} {name : List UInt8}
    (h : EntriesBelow n d x) (haddr : ∀ pl, addrOf d' x pl = addrOf d x pl)
    (ha : addrOf d x (.ofIndex (DIRENTSIZE * k / BSIZE)) = some a)
    (hd : d' = update d a (putBytes (d a) (DIRENTSIZE * k % BSIZE)
      (dirent (UInt16.ofNat inum) name)))
    (hinum : inum < n) {size : UInt32}
    (hsize : ∀ l, DIRENTSIZE * l < size.toNat → l = k ∨ DIRENTSIZE * l < x.size.toNat) :
    EntriesBelow n d' { x with size := size } := by
  intro l hl b hb
  have hoff (j : ℕ) : DIRENTSIZE * j % BSIZE = DIRENTSIZE * (j % (BSIZE / DIRENTSIZE)) := by
    simp only [DIRENTSIZE, DIRSIZ, BSIZE]
    omega
  have hb' : addrOf d x (.ofIndex (DIRENTSIZE * l / BSIZE)) = some b := by
    rw [← haddr, ← hb]
    cases Place.ofIndex (DIRENTSIZE * l / BSIZE) with
    | direct j | root | entry j => rfl
  by_cases hba : b = a
  · subst hba
    rw [hd, update_self, hoff, hoff,
      direntInum_putBytes _ (Nat.mod_lt _ (by decide))]
    split_ifs with hlk
    · rw [UInt16.toNat_ofNat']
      exact lt_of_le_of_lt (Nat.mod_le _ _) hinum
    · have hne : l ≠ k := fun he => hlk (by rw [he])
      rw [← hoff]
      exact h l ((hsize l hl).resolve_left hne) b hb'
  · rw [hd, update_of_ne hba]
    have hne : l ≠ k := by
      rintro rfl
      exact hba (Option.some.inj (hb'.symm.trans ha))
    exact h l ((hsize l hl).resolve_left hne) b hb'

/-- The loop of `writei` ends after one round. -/
theorem writeLoop_entry {src : ℕ → ℕ → Copied} {k : ℕ} {Q : ℕ × ℕ → State → Prop}
    {E : Panic → Prop}
    (h : wp (writeRound sb e src 0 (DIRENTSIZE * k) DIRENTSIZE) s
      (fun r s' => r = none ∧ Q (0, DIRENTSIZE * k) s' ∨
        r = some DIRENTSIZE ∧ Q (DIRENTSIZE, DIRENTSIZE * k + DIRENTSIZE) s') E) :
    wp (writeLoop sb e src DIRENTSIZE 0 (DIRENTSIZE * k) DIRENTSIZE) s Q E := by
  have hnext (fuel tot off : ℕ) : writeLoop sb e src fuel (tot + DIRENTSIZE) off DIRENTSIZE =
      pure (tot + DIRENTSIZE, off) := by
    cases fuel with
    | zero => rfl
    | succ fuel => rw [writeLoop, if_neg (by omega)]
  rw [show writeLoop sb e src DIRENTSIZE = writeLoop sb e src (DIRENTSIZE - 1 + 1) from rfl,
    writeLoop, if_pos (by decide)]
  refine wp_call h fun r s₁ hs₁ => ?_
  rcases hs₁ with ⟨rfl, hQ⟩ | ⟨rfl, hQ⟩
  · exact hQ
  · change wp (writeLoop sb e src _ (0 + DIRENTSIZE) _ _) s₁ Q E
    rw [hnext]
    exact hQ

/-- The entry `l` of a directory is written to its block, and may extend the directory. -/
theorem Inv.put (h : Inv sb lim s (some e)) (hsb : sb.Ok) (hdir : (s.itable e).dino.type = T_DIR)
    {l inum : ℕ} {name : List UInt8} (hinum : inum < lim)
    (ha : s.locs sb (some e) ((s.itable e).inum, .ofIndex (DIRENTSIZE * l / BSIZE)) = some a)
    (hdisk : s₁.disk = update s.disk a (putBytes (s.disk a) (DIRENTSIZE * l % BSIZE)
      (dirent (UInt16.ofNat inum) name)))
    (hitable : s₁.itable = s.itable) :
    Inv sb lim s₁ (some e) ∧ ∀ size : UInt32,
      (∀ j, DIRENTSIZE * j < size.toNat →
        j = l ∨ DIRENTSIZE * j < (s.itable e).dino.size.toNat) →
      EntriesBelow lim s₁.disk { (s.itable e).dino with size := size } := by
  have hi := allocated_of_locs ha
  have haddr : addrOf s.disk (s.itable e).dino (.ofIndex (DIRENTSIZE * l / BSIZE)) = some a := by
    rw [← ha, State.locs, locs_of_allocated hi, State.view_self]
  have hsame (pl : Place) : addrOf s₁.disk (s.itable e).dino pl =
      addrOf s.disk (s.itable e).dino pl := by
    have hl := congrFun (h.locs_write hsb ha hdisk hitable) ((s.itable e).inum, pl)
    have hview := h.view_write hsb ha hdisk hitable hi.2.1
    have hi₁ : s₁.Allocated sb (some e) (s.itable e).inum :=
      ⟨hi.1, hi.2.1, by rw [hview]; exact hi.2.2⟩
    rwa [State.locs, State.locs, locs_of_allocated hi, locs_of_allocated hi₁, hview,
      State.view_self] at hl
  have hentries := h.dirs _ hi (by rw [State.view_self]; exact hdir)
  rw [State.view_self] at hentries
  have hput (size : UInt32) (hsize : ∀ j, DIRENTSIZE * j < size.toNat →
      j = l ∨ DIRENTSIZE * j < (s.itable e).dino.size.toNat) :
      EntriesBelow lim s₁.disk { (s.itable e).dino with size := size } :=
    hentries.put hsame haddr hdisk hinum hsize
  exact ⟨h.write hsb ha hdisk hitable fun _ => hput (s.itable e).dino.size fun j hj => .inr hj,
    hput⟩

/-- The offset of an entry, as the 32-bit number that `writei` gets. -/
theorem exists_entry_of_ofNat (k : ℕ) :
    ∃ l, (UInt32.ofNat (DIRENTSIZE * k)).toNat = DIRENTSIZE * l := by
  refine ⟨DIRENTSIZE * k % 2 ^ 32 / DIRENTSIZE, ?_⟩
  rw [UInt32.toNat_ofNat']
  simp only [DIRENTSIZE, DIRSIZ]
  omega

/-- The end of an entry, where the test of `writei` finds that the sum does not wrap around. -/
theorem toNat_add_entry {off : UInt32} {l : ℕ} (hl : off.toNat = DIRENTSIZE * l)
    (hle : off ≤ off + UInt32.ofNat DIRENTSIZE) :
    (off + UInt32.ofNat DIRENTSIZE).toNat = DIRENTSIZE * l + DIRENTSIZE := by
  have h₁ := UInt32.le_iff_toNat_le.mp hle
  have h₂ := off.toNat_lt
  have hn : (UInt32.ofNat DIRENTSIZE).toNat = DIRENTSIZE := by decide
  rw [UInt32.toNat_add, hn, hl] at h₁ ⊢
  simp only [DIRENTSIZE, DIRSIZ] at *
  omega

/-- An entry lies in one block. -/
theorem roundSize_entry (l : ℕ) : roundSize 0 (DIRENTSIZE * l) DIRENTSIZE = DIRENTSIZE := by
  simp only [roundSize, DIRENTSIZE, DIRSIZ, BSIZE]
  omega

/-- The round of `writei` for the entry `l`, and the update of the inode. -/
theorem Inv.wp_writeEntry (h : Inv sb lim s (some e)) (hsb : sb.Ok) (href : 0 < (s.itable e).ref)
    (hdir : (s.itable e).dino.type = T_DIR) (name : List UInt8) {inum l : ℕ} (hinum : inum < lim)
    (hlsize : DIRENTSIZE * l ≤ (s.itable e).dino.size.toNat)
    (hmax : DIRENTSIZE * l + DIRENTSIZE ≤ MAXFILE * BSIZE) :
    wp (writeRound sb e (kernelSrc (dirent (UInt16.ofNat inum) name)) 0 (DIRENTSIZE * l)
      DIRENTSIZE) s (fun r s₁ =>
        r = none ∧ wp (iupdate sb e) (s₁.grow e (DIRENTSIZE * l))
          (fun _ s' => Inv sb lim s' none) Safe ∨
        r = some DIRENTSIZE ∧ wp (iupdate sb e) (s₁.grow e (DIRENTSIZE * l + DIRENTSIZE))
          (fun _ s' => Inv sb lim s' none) Safe) Safe := by
  have htype : (s.itable e).dino.type ≠ 0 := by rw [hdir]; decide
  have hbn : DIRENTSIZE * l / BSIZE < MAXFILE := by
    rw [Nat.div_lt_iff_lt_mul (by decide)]
    have : 0 < DIRENTSIZE := by decide
    omega
  refine (h.wp_writeRound hsb href htype _ hbn).imp fun r s₁ hs₁ => ?_
  obtain ⟨t, hm, -, hr⟩ := hs₁
  have href' : 0 < (t.itable e).ref := by rw [hm.ref]; exact href
  have htype' : (t.itable e).dino.type ≠ 0 := by rw [hm.type]; exact htype
  have hbelow (bn : ℕ) (hlt : bn * BSIZE < DIRENTSIZE * l) :
      t.locs sb (some e) ((t.itable e).inum, .ofIndex bn) ≠ none :=
    hm.inv.locs_ne_none href' htype' (by rw [hm.size]; omega)
  rcases hr with ⟨rfl, rfl, -⟩ | ⟨a, bytes, ha, ⟨hdisk, hitable, -, -⟩, hr⟩
  · -- There is no free block.
    refine .inl ⟨rfl, ?_⟩
    refine (hm.inv.wp_finishWrite hsb href' htype' (by omega) hbelow fun _ hlt => ?_).imp
      fun _ s' hfin => hfin.inv
    rw [hm.size] at hlt
    omega
  · rcases hr with ⟨-, hsrc⟩ | ⟨rfl, hsrc⟩
    · simp [kernelSrc] at hsrc
    · refine .inr ⟨by rw [roundSize_entry], ?_⟩
      rw [roundSize_entry] at hdisk hsrc
      have hbytes : bytes.take DIRENTSIZE = dirent (UInt16.ofNat inum) name := by
        rw [← Copied.all.inj hsrc, List.drop_zero, ← dirent_length (UInt16.ofNat inum) name,
          List.take_length, List.take_length]
      rw [hbytes] at hdisk
      rw [← hm.inum] at ha
      obtain ⟨hinv, hput⟩ := hm.inv.put hsb (by rw [hm.type]; exact hdir) hinum ha hdisk hitable
      have hnum : (UInt32.ofNat (DIRENTSIZE * l + DIRENTSIZE)).toNat =
          DIRENTSIZE * l + DIRENTSIZE :=
        UInt32.toNat_ofNat_of_lt' (lt_of_le_of_lt hmax (by decide))
      refine (hinv.wp_finishWrite hsb (by rwa [hitable]) (by rwa [hitable]) hmax
        (fun bn hlt => ?_) fun _ _ => ?_).imp fun _ s' hfin => hfin.inv
      · rw [hm.inv.locs_write hsb ha hdisk hitable, hitable]
        have hlt' : bn * BSIZE < DIRENTSIZE * l + roundSize 0 (DIRENTSIZE * l) DIRENTSIZE := by
          rwa [roundSize_entry]
        rcases index_lt_of_round hlt' with hlt | rfl
        · exact hbelow bn hlt
        · rw [ha]
          simp
      · rw [hitable]
        refine hput _ fun j hj => ?_
        rw [hnum] at hj
        rw [hm.size]
        simp only [DIRENTSIZE, DIRSIZ] at *
        omega

/-- An entry of a directory is written, by `dirlink` or by `sys_unlink`. -/
theorem Inv.wp_putEntry (h : Inv sb lim s none) (hsb : sb.Ok) (href : 0 < (s.itable e).ref)
    (hvalid : (s.itable e).valid = true) (name : List UInt8) {inum : ℕ} (hinum : inum < lim)
    (k : ℕ) :
    wp (putEntry sb e name inum (DIRENTSIZE * k)) s (fun _ s' => Inv sb lim s' none) Safe := by
  unfold putEntry
  rw [wp_bind]
  by_cases hdir : (s.itable e).dino.type = T_DIR
  · obtain ⟨l, hl⟩ := exists_entry_of_ofNat k
    have hn : (UInt32.ofNat DIRENTSIZE).toNat = DIRENTSIZE := by decide
    simp only [writei, wp_bind, wp_get]
    rw [wp_ite]
    refine ⟨fun _ => h, fun hle => ?_⟩
    rw [wp_ite]
    refine ⟨fun _ => h, fun hmax => ?_⟩
    simp only [not_or, UInt32.not_lt] at hle
    have hlsize := UInt32.le_iff_toNat_le.mp hle.1
    rw [hl] at hlsize
    rw [toNat_add_entry hl hle.2] at hmax
    rw [hn, hl, wp_bind]
    simp only [wp_bind, wp_modify, wp_pure]
    exact writeLoop_entry ((h.begin href hvalid).wp_writeEntry hsb href hdir name hinum hlsize
      (Nat.not_lt.mp hmax))
  · exact (h.wp_writei_file hsb href hvalid hdir _ _ _).imp fun _ s' hs' => hs'

/-! ## `dirlookup` -/

/-- The offsets of the entries of a directory. -/
theorem exists_of_mem_entryOffs {size off : ℕ} (h : off ∈ entryOffs size) :
    ∃ k, off = DIRENTSIZE * k ∧ DIRENTSIZE * k < size := by
  obtain ⟨k, hk, rfl⟩ := List.mem_map.mp h
  refine ⟨k, rfl, ?_⟩
  have hlt := List.mem_range.mp hk
  simp only [DIRENTSIZE, DIRSIZ] at *
  omega

/-- The body of the loop of `dirlookup`. -/
theorem Inv.wp_lookupEntry (h : Inv sb lim s none) (hlim : lim ≤ sb.ninodes.toNat)
    (href : 0 < (s.itable e).ref)
    (hvalid : (s.itable e).valid = true) (hdir : (s.itable e).dino.type = T_DIR)
    (name : List UInt8) {k : ℕ} (hk : DIRENTSIZE * k < (s.itable e).dino.size.toNat) :
    wp (lookupEntry sb e name (DIRENTSIZE * k)) s (fun r s' => r = none ∧ s' = s ∨
      ∃ ip inum off, r = some (ip, off) ∧ Got s inum ip s' ∧ Inv sb lim s' none) Safe := by
  have htype := (h.coherent e href hvalid (by simp)).2
  have hopen := h.begin href hvalid
  unfold lookupEntry
  refine wp_call (hopen.wp_readEntry href htype ⟨by simp, by simp⟩ hk) fun l t ht => ?_
  obtain ⟨rfl, a, ha, hinum⟩ := ht
  rw [wp_ite]
  refine ⟨fun _ => .inl ⟨rfl, rfl⟩, fun h0 => ?_⟩
  rw [wp_ite]
  refine ⟨fun _ => ?_, fun _ => .inl ⟨rfl, rfl⟩⟩
  have hi := allocated_of_locs ha
  have hentries := hopen.dirs _ hi (by rwa [State.view_self])
  rw [State.locs, locs_of_allocated hi] at ha
  have hlt := hentries k (by rwa [State.view_self]) a ha
  rw [← hinum] at hlt
  refine wp_call (wp_iget fun _ => ⟨by simp, by simp⟩) fun ip t' hgot => ?_
  exact .inr ⟨ip, _, _, rfl, hgot, h.got hgot (by omega) (by omega)⟩

/-- `dirlookup` returns a reference to an inode of the file system, or leaves the state as it is. -/
theorem Inv.wp_dirlookup (h : Inv sb lim s none) (hlim : lim ≤ sb.ninodes.toNat)
    (href : 0 < (s.itable e).ref)
    (hvalid : (s.itable e).valid = true) (name : List UInt8) :
    wp (dirlookup sb e name) s (fun r s' => r = none ∧ s' = s ∨
      ∃ ip inum off, r = some (ip, off) ∧ Got s inum ip s' ∧ Inv sb lim s' none) Safe := by
  simp only [dirlookup, wp_bind, wp_get]
  rw [wp_ite]
  refine ⟨fun _ => ⟨by simp, by simp⟩, fun hdir => ?_⟩
  rw [not_not] at hdir
  refine wp_firstM (fun bs t => t = s ∧ ∀ off ∈ bs, ∃ k, off = DIRENTSIZE * k ∧
    DIRENTSIZE * k < (s.itable e).dino.size.toNat) (fun t ht => .inl ⟨rfl, ht.1⟩)
    (fun off bs t ht => ?_) ⟨rfl, fun off hoff => exists_of_mem_entryOffs hoff⟩
  obtain ⟨rfl, hall⟩ := ht
  obtain ⟨k, rfl, hk⟩ := hall off (List.mem_cons_self ..)
  refine (h.wp_lookupEntry hlim href hvalid hdir name hk).imp fun r t' ht' => ?_
  rcases ht' with ⟨rfl, rfl⟩ | ⟨ip, inum, off', rfl, hgot, hinv⟩
  · exact .inr ⟨rfl, rfl, fun off hoff => hall off (List.mem_cons_of_mem _ hoff)⟩
  · exact .inl ⟨_, rfl, .inr ⟨ip, inum, off', rfl, hgot, hinv⟩⟩

/-- The loop of `dirlink` leaves the state as it is, and ends with an offset of an entry. -/
theorem Inv.wp_findEmpty (h : Inv sb lim s (some e)) (href : 0 < (s.itable e).ref)
    (htype : (s.itable e).dino.type ≠ 0) :
    wp (firstM (emptyEntry sb e) (entryOffs (s.itable e).dino.size.toNat)) s
      (fun r s' => s' = s ∧ ∀ off, r = some off → ∃ k, off = DIRENTSIZE * k) Safe := by
  refine wp_firstM (fun bs t => t = s ∧ ∀ off ∈ bs, ∃ k, off = DIRENTSIZE * k ∧
    DIRENTSIZE * k < (s.itable e).dino.size.toNat) (fun t ht => ⟨ht.1, fun off h => by simp at h⟩)
    (fun off bs t ht => ?_) ⟨rfl, fun off hoff => exists_of_mem_entryOffs hoff⟩
  obtain ⟨rfl, hall⟩ := ht
  obtain ⟨k, rfl, hk⟩ := hall off (List.mem_cons_self ..)
  unfold emptyEntry
  refine wp_call (h.wp_readEntry href htype ⟨by simp, by simp⟩ hk) fun l t' ht' => ?_
  obtain ⟨rfl, -⟩ := ht'
  rw [wp_pure]
  split_ifs
  · exact .inl ⟨_, rfl, rfl, fun off hoff => ⟨k, (Option.some.inj hoff).symm⟩⟩
  · exact .inr ⟨rfl, rfl, fun off hoff => hall off (List.mem_cons_of_mem _ hoff)⟩

end SustainableXv6.Inode
