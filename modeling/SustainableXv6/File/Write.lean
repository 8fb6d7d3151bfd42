import SustainableXv6.File.Machine
import SustainableXv6.Inode.ByteArray
import SustainableXv6.Inode.Ownership

/-!
# Writes to a file

`writei` in one transaction and `filewrite` in as many as its chunks need overwrite a part of a
file, if the free blocks are enough. Then `readi` returns the new contents. It returns nothing where
the end of the range wraps around.
-/

namespace SustainableXv6.File

open Fs Inode Lib

variable {sb : Superblock} {lim : ℕ} {s s' : State} {e : EntryId} {src : ℕ → ℕ → Copied}
  {l : List UInt8} {n off : ℕ}

/-! ## What does not depend on the transaction -/

theorem lacking_of_disk (h : s'.disk = s.disk) (i off n : ℕ) :
    lacking sb s' i off n = lacking sb s i off n := by
  simp only [lacking, State.locs, State.view, h]

theorem lacking_subset {i off' n' : ℕ} (hle : off ≤ off') (hend : off' + n' ≤ off + n) :
    lacking sb s i off' n' ⊆ lacking sb s i off n := by
  intro p hp
  obtain ⟨hmem, hnone⟩ := mem_missing.mp hp
  exact mem_missing.mpr ⟨Finset.image_subset_image (needed_subset hle hend) hmem, hnone⟩

/-! ## `ilock` -/

/-- The inode of the entry is in the file system, and no call is in the transaction. -/
structure Ready (sb : Superblock) (e : EntryId) (s : State) : Prop where
  inv : Inv sb (2 ^ 16) s none
  ref : 0 < (s.itable e).ref
  type : (dinodeAt sb s.disk (s.itable e).inum).type ≠ 0
  lh : s.lh = []
  outstanding : s.outstanding = 0

/-- The contents of a file, as a process reads them that takes the lock. -/
def lockedRead (sb : Superblock) (e : EntryId) (dst : ℕ → ℕ → Bool) (off n : UInt32) :
    FsM (Option (List UInt8)) := do
  ilock sb e
  readi sb e dst off n

/-- A read returns the contents up to the size, and nothing where its end wraps around. -/
theorem wp_lockedRead (h : Inv sb lim s none) (href : 0 < (s.itable e).ref)
    (htype : (dinodeAt sb s.disk (s.itable e).inum).type ≠ 0) (dst : ℕ → ℕ → Bool)
    (hdst : ∀ t m, dst t m = true) (off n : UInt32) :
    wp (lockedRead sb e dst off n) s (fun r _ =>
      r = some (clip (s.contents sb none (s.itable e).inum) off n)) fun _ => False := by
  unfold lockedRead
  refine wp_call (wp_ilock_locks h (fun h0 => absurd h0 href.ne') fun h0 => absurd h0 htype)
    fun _ s₁ hs₁ => ?_
  obtain ⟨-, hinv, hl⟩ := hs₁
  refine (hinv.wp_readi_contents (by rwa [hl.ref]) hl.valid dst off n).imp fun r s₂ hr => ?_
  obtain ⟨bytes, rfl⟩ := Option.ne_none_iff_exists'.mp (hr.2.1 hdst)
  rw [hr.2.2 bytes rfl, contents_of_disk hl.disk, hl.inum]

/-! ## Chunks -/

/-- The source has all bytes of `l`. -/
def Readable (src : ℕ → ℕ → Copied) (l : List UInt8) : Prop :=
  ∀ tot m, tot + m ≤ l.length → src tot m = .all ((l.drop tot).take m)

theorem Readable.delivers (h : Readable src l) : Delivers src l l.length := by
  intro tot m _ hle
  rw [h tot m hle, if_pos hle]

/-- A part of the source. -/
theorem Readable.part (h : Readable src l) {i k : ℕ} (hk : i + k ≤ l.length) :
    Readable (fun tot m => src (i + tot) m) ((l.drop i).take k) := by
  intro tot m hle
  rw [List.length_take, List.length_drop] at hle
  dsimp only
  rw [h (i + tot) m (by omega), List.drop_take, List.take_take, List.drop_drop,
    Nat.min_eq_left (by omega)]

/-- A chunk has room in its transaction. -/
theorem writeiBlocks_le {k : ℕ} (h : k ≤ MAXCHUNK) : writeiBlocks k ≤ LOGBLOCKS := by
  simp only [writeiBlocks, blocksOf, MAXCHUNK, MAXOPBLOCKS, LOGBLOCKS, BSIZE] at *
  omega

/-- What a round of `filewrite` leaves. -/
structure Chunked (sb : Superblock) (s : State) (e : EntryId) (off : ℕ) (l : List UInt8)
    (s' : State) : Prop where
  ready : Ready sb e s'
  inum : (s'.itable e).inum = (s.itable e).inum
  overwrote : Overwrote sb s (s.itable e).inum off l s'
  enough : ∀ n, l.length ≤ n →
    (lacking sb s (s.itable e).inum off n).card ≤ (freeBlocks sb s.disk).card →
    (lacking sb s' (s.itable e).inum off n).card ≤ (freeBlocks sb s'.disk).card

/-- `iunlock` and `end_op` of the only call in the transaction. -/
theorem wp_iunlock_endOp {β : Type} {rest : FsM β} {Q : β → State → Prop} {E : Panic → Prop}
    (hlocked : s.locked e = true) (href : 0 < (s.itable e).ref) (hout : s.outstanding = 1)
    (hrest : ∀ t : State, t.disk = s.disk → t.itable = s.itable → t.lh = [] → t.outstanding = 0 →
      wp rest t Q E) : wp (do iunlock e; endOp; rest) s Q E := by
  rw [wp_bind, iunlock, wp_bind, wp_get, if_neg (by simp [hlocked]; omega), wp_set, wp_bind, endOp,
    wp_modify]
  exact hrest _ rfl rfl (if_pos hout) (by simp [hout])

/-- A round of `filewrite`, which writes all its bytes. -/
theorem Ready.wp_chunk {β : Type} {k : ℕ} (h : Ready sb e s) (hsb : sb.Ok) (hsrc : Readable src l)
    (hk : l.length = k) (hchunk : k ≤ MAXCHUNK) {off : UInt32}
    (hoff : off.toNat ≤ (dinodeAt sb s.disk (s.itable e).inum).size.toNat)
    (hmax : off.toNat + k ≤ MAXFILE * BSIZE)
    (henough : (lacking sb s (s.itable e).inum off.toNat k).card ≤
      (freeBlocks sb s.disk).card) {rest : Option ℕ → FsM β} {Q : β → State → Prop}
    (hrest : ∀ s', Chunked sb s e off.toNat l s' →
      wp (rest (some k)) s' Q fun _ => False) :
    wp (do
      beginOp
      ilock sb e
      let r ← writei sb e src off (UInt32.ofNat k)
      iunlock e
      endOp
      rest r) s Q fun _ => False := by
  subst hk
  have hlen : (UInt32.ofNat l.length).toNat = l.length :=
    UInt32.toNat_ofNat_of_lt' (lt_of_le_of_lt hchunk (by decide))
  rw [wp_bind, beginOp, wp_modify]
  have hinv : Inv sb (2 ^ 16) { s with outstanding := s.outstanding + 1 } none :=
    inv_of_eq h.inv rfl rfl
  refine wp_call (wp_ilock_locks hinv (fun h0 => absurd h0 h.ref.ne') fun h0 => absurd h0 h.type)
    fun _ s₁ hs₁ => ?_
  obtain ⟨-, hinv₁, hdisk, hlh, hout, hinum, href, -, hvalid, hlocked⟩ := hs₁
  dsimp only at hdisk hlh hout hinum href
  rw [h.lh] at hlh
  rw [h.outstanding] at hout
  have href₁ : 0 < (s₁.itable e).ref := by rw [href]; exact h.ref
  refine wp_call (hinv₁.wp_writei_all hsb href₁ hvalid (by rw [hlh]; simp) hout.ge
    (n := UInt32.ofNat l.length) (by rw [hlen]; exact hsrc.delivers) hlen.symm ?_ ?_ ?_ ?_)
    fun r s₂ hs₂ => ?_
  · rw [hlh, hlen, List.length_nil, Nat.zero_add]
    exact writeiBlocks_le hchunk
  · rw [hdisk, hinum]
    exact hoff
  · rw [hlen]
    exact hmax
  · rw [hlen, lacking_of_disk hdisk, hinum, hdisk]
    exact henough
  · obtain ⟨rfl, hover, f, hs⟩ := hs₂
    rw [hlen] at hs ⊢
    have hw := hs.written
    have href₂ : 0 < (s₂.itable e).ref := by rwa [hw.ref]
    refine wp_iunlock_endOp (by rw [hw.locked]; exact hlocked) href₂
      (by rw [hw.outstanding]; exact hout) fun t htdisk htable htlh htout => ?_
    have hinum₂ : (s₂.itable e).inum = (s.itable e).inum := hw.inum.trans hinum
    have htype := (hs.inv.coherent e href₂ (by rw [hw.valid]; exact hvalid) (by simp))
    rw [hinum] at hover
    refine hrest t ⟨⟨inv_of_eq hs.inv htdisk htable, by rwa [htable], ?_, htlh, htout⟩,
      by rw [htable, hinum₂], ⟨?_, fun j hj hne => ?_⟩, fun n hn hcard => ?_⟩
    · rw [htdisk, htable, ← htype.1]
      exact htype.2
    · rw [contents_of_disk htdisk, hover.contents, contents_of_disk hdisk]
    · rw [contents_of_disk htdisk, hover.others j hj hne, contents_of_disk hdisk]
    · have hend : off.toNat + l.length ≤ off.toNat + n := by omega
      have henough₂ := hs.enough hinv₁ href₁ hvalid le_rfl hend
      rw [lacking_of_disk hdisk, hinum, hdisk] at henough₂
      rw [lacking_of_disk htdisk, htdisk]
      exact henough₂ hcard

/-- The chunks of `filewrite`. -/
theorem wp_chunkLoop (hsb : sb.Ok) (hsrc : Readable src l) (fuel : ℕ) :
    ∀ (s : State) (i : ℕ) (off : UInt32), Ready sb e s → i ≤ l.length → l.length - i ≤ fuel →
      off.toNat ≤ (dinodeAt sb s.disk (s.itable e).inum).size.toNat →
      off.toNat + (l.length - i) ≤ MAXFILE * BSIZE →
      (lacking sb s (s.itable e).inum off.toNat (l.length - i)).card ≤
        (freeBlocks sb s.disk).card →
      wp (chunkLoop sb e src fuel i off l.length) s (fun r s' => r.1 = l.length ∧
        r.2.toNat = off.toNat + (l.length - i) ∧ Ready sb e s' ∧
        (s'.itable e).inum = (s.itable e).inum ∧
        Overwrote sb s (s.itable e).inum off.toNat (l.drop i) s') fun _ => False := by
  have hstop {s : State} {i : ℕ} {off : UInt32} (h : Ready sb e s) (hi : i = l.length) :
      i = l.length ∧ off.toNat = off.toNat + (l.length - i) ∧ Ready sb e s ∧
        (s.itable e).inum = (s.itable e).inum ∧
        Overwrote sb s (s.itable e).inum off.toNat (l.drop i) s := by
    refine ⟨hi, by omega, h, rfl, ?_, fun _ _ _ => rfl⟩
    rw [hi, List.drop_length, overwrite_nil]
  induction fuel with
  | zero => exact fun s i off h hi hfuel _ _ _ => hstop h (by omega)
  | succ fuel ih =>
    intro s i off h hi hfuel hoff hmax henough
    unfold chunkLoop
    rw [wp_ite]
    refine ⟨fun hlt => ?_, fun hge => hstop h (by omega)⟩
    have hpos : 0 < MAXCHUNK := by decide
    generalize hk : min (l.length - i) MAXCHUNK = k
    have hpart : ((l.drop i).take k).length = k := by
      rw [List.length_take, List.length_drop]
      omega
    refine h.wp_chunk hsb (hsrc.part (by omega)) hpart (by omega) hoff (by omega) ?_
      fun s₁ hs₁ => ?_
    · exact (Finset.card_le_card (lacking_subset le_rfl (by omega))).trans henough
    · obtain ⟨hready, hinum, hover, hleft⟩ := hs₁
      have hleft := hleft (l.length - i) (by omega) henough
      have hnext : (off + UInt32.ofNat k).toNat = off.toNat + k := by
        have hlt : MAXFILE * BSIZE < 2 ^ 32 := by decide
        rw [UInt32.toNat_add, UInt32.toNat_ofNat']
        omega
      simp only [Option.getD_some, if_true]
      refine (ih s₁ (i + k) (off + UInt32.ofNat k) hready (by omega) (by omega) ?_ ?_ ?_).imp
        fun r s₂ hs₂ => ?_
      · rw [hnext, hinum, hover.size hoff, hpart]
        omega
      · omega
      · rw [hinum, hnext]
        exact (Finset.card_le_card (lacking_subset (by omega) (by omega))).trans hleft
      · obtain ⟨hr, hr', hready', hinum', hover'⟩ := hs₂
        refine ⟨hr, by omega, hready', hinum'.trans hinum, ?_⟩
        rw [hinum, hnext] at hover'
        rw [← hpart] at hover'
        have htrans := hover.trans hover' hoff
        rwa [hpart, ← List.drop_drop, List.take_append_drop] at htrans

/-- `filewrite` of all bytes of the source to a file. -/
theorem wp_filewrite (hsb : sb.Ok) {f : OpenFile} (h : Ready sb f.ip s) (htype : f.type = .inode)
    (hwritable : f.writable = true) (hsrc : Readable src l) {n : Int32} (hn : n.toInt = l.length)
    (hoff : f.off.toNat ≤ (dinodeAt sb s.disk (s.itable f.ip).inum).size.toNat)
    (hmax : f.off.toNat + l.length ≤ MAXFILE * BSIZE)
    (henough : (lacking sb s (s.itable f.ip).inum f.off.toNat l.length).card ≤
      (freeBlocks sb s.disk).card) (other : ℤ) :
    wp (filewrite sb f src other n) s (fun r s' =>
      (∃ off, r = some (n.toInt, off) ∧ off.toNat = f.off.toNat + l.length) ∧ Ready sb f.ip s' ∧
      (s'.itable f.ip).inum = (s.itable f.ip).inum ∧
      Overwrote sb s (s.itable f.ip).inum f.off.toNat l s') fun _ => False := by
  unfold filewrite
  rw [if_neg (by simp [hwritable]), htype]
  dsimp only
  rw [hn, Int.toNat_natCast]
  refine wp_call (wp_chunkLoop hsb hsrc l.length s 0 f.off h (Nat.zero_le _) (by omega) hoff
    (by omega) henough) fun r s₁ hs₁ => ?_
  obtain ⟨i, off⟩ := r
  obtain ⟨rfl, hoff', hready, hinum, hover⟩ := hs₁
  exact ⟨⟨off, by simp, by simpa using hoff'⟩, hready, hinum, hover⟩

/-! ## Files are arrays of bytes -/

/-- The file of the entry has been overwritten with `l` at `off`, as its readers see it. -/
structure NewContents (sb : Superblock) (s : State) (e : EntryId) (off : ℕ) (l : List UInt8)
    (s' : State) : Prop where
  size : (dinodeAt sb s'.disk (s.itable e).inum).size.toNat =
    max (dinodeAt sb s.disk (s.itable e).inum).size.toNat (off + l.length)
  read : ∀ dst, (∀ t m, dst t m = true) → ∀ off₂ n₂ : UInt32,
    wp (lockedRead sb e dst off₂ n₂) s' (fun r _ => r =
      some (clip (overwrite (s.contents sb none (s.itable e).inum) off l) off₂ n₂)) fun _ => False
  others : ∀ j, j < sb.ninodes.toNat → j ≠ (s.itable e).inum →
    s'.contents sb none j = s.contents sb none j

theorem NewContents.of_overwrote (h : Overwrote sb s (s.itable e).inum off l s')
    (hoff : off ≤ (dinodeAt sb s.disk (s.itable e).inum).size.toNat) (hinv : Inv sb lim s' none)
    (href : 0 < (s'.itable e).ref) (hinum : (s'.itable e).inum = (s.itable e).inum)
    (htype : (dinodeAt sb s'.disk (s'.itable e).inum).type ≠ 0) :
    NewContents sb s e off l s' := by
  refine ⟨h.size hoff, fun dst hdst off₂ n₂ => ?_, h.others⟩
  have hread := wp_lockedRead hinv href htype dst hdst off₂ n₂
  rwa [hinum, h.contents] at hread

/-- `writei` and `filewrite` overwrite a part of a file where the source can be read and the free
blocks are enough. `writei` needs room in its transaction, and `filewrite` makes transactions of its
own. -/
theorem byte_array (hsb : sb.Ok) (h : Inv sb lim s none) (href : 0 < (s.itable e).ref)
    (htype : (dinodeAt sb s.disk (s.itable e).inum).type ≠ 0) (hsrc : Readable src l) {off : UInt32}
    (hoff : off.toNat ≤ (dinodeAt sb s.disk (s.itable e).inum).size.toNat)
    (hmax : off.toNat + l.length ≤ MAXFILE * BSIZE)
    (henough : (lacking sb s (s.itable e).inum off.toNat l.length).card ≤
      (freeBlocks sb s.disk).card) :
    (∀ n : UInt32, n.toNat = l.length → (s.itable e).valid = true → s.lh.Nodup →
      1 ≤ s.outstanding → s.lh.length + writeiBlocks l.length ≤ LOGBLOCKS →
      wp (writei sb e src off n) s (fun r s' => r = some l.length ∧
        NewContents sb s e off.toNat l s') fun _ => False) ∧
    ∀ (f : OpenFile) (n : Int32) (other : ℤ), f.type = .inode → f.writable = true → f.ip = e →
      f.off = off → n.toInt = l.length → s.lh = [] → s.outstanding = 0 →
      wp (filewrite sb f src other n) s (fun r s' =>
        (∃ off', r = some (n.toInt, off') ∧ off'.toNat = off.toNat + l.length) ∧
        NewContents sb s e off.toNat l s') fun _ => False := by
  refine ⟨fun n hn hvalid hnodup hinside hroom => ?_,
    fun f n other hinode hwritable hip hfoff hn hlh hout => ?_⟩
  · refine (h.wp_writei_all hsb href hvalid hnodup hinside (by rw [hn]; exact hsrc.delivers) hn.symm
      (by rw [hn]; exact hroom) hoff (by rw [hn]; exact hmax)
      (by rw [hn]; exact henough)).imp fun r s' hs' => ?_
    obtain ⟨rfl, hover, fn, hs⟩ := hs'
    have hw := hs.written
    have href' : 0 < (s'.itable e).ref := by rwa [hw.ref]
    have hcoherent := hs.inv.coherent e href' (by rwa [hw.valid]) (by simp)
    refine ⟨by rw [hn], .of_overwrote hover hoff hs.inv href' hw.inum ?_⟩
    rw [← hcoherent.1]
    exact hcoherent.2
  · subst hip hfoff
    have hready : Ready sb f.ip s := ⟨h.anyEntries, href, htype, hlh, hout⟩
    refine (wp_filewrite hsb hready hinode hwritable hsrc hn hoff hmax henough other).imp
      fun r s' hs' => ?_
    obtain ⟨hr, hready', hinum, hover⟩ := hs'
    exact ⟨hr, .of_overwrote hover hoff hready'.inv hready'.ref hinum hready'.type⟩

/-- A file is made, and no call is left in the transaction. -/
def opensFile : List Act :=
  [.beginOp, .iget ROOTINO, .ilock 0, .ialloc T_FILE, .ilock 1, .iupdate 1 0 0 1, .iunlock 1,
    .endOp]

/-- A file that has just been made takes two bytes. -/
theorem byte_array_opensFile :
    ∃ s, ReachVia (step tinySb) (Rules tinySb) (State.boot tinyDisk) s ∧
      wp (filewrite tinySb ⟨.inode, true, true, 1, 0, 0⟩ (kernelSrc [8, 9]) 0 2) s (fun r s' =>
        (∃ off', r = some (2, off') ∧ off'.toNat = 2) ∧
        NewContents tinySb s 1 0 [8, 9] s') fun _ => False := by
  obtain ⟨s, hs, hinv, href, htype, henough, hlh, hout⟩ := exists_tinyDisk opensFile
    (fun s => 0 < (s.itable 1).ref ∧ (dinodeAt tinySb s.disk (s.itable 1).inum).type ≠ 0 ∧
      (lacking tinySb s (s.itable 1).inum 0 2).card ≤ (freeBlocks tinySb s.disk).card ∧ s.lh = [] ∧
      s.outstanding = 0) (by decide +kernel)
  have hsrc : Readable (kernelSrc [8, 9]) [8, 9] := fun _ _ _ => rfl
  have hoff : (0 : UInt32).toNat ≤ (dinodeAt tinySb s.disk (s.itable 1).inum).size.toNat :=
    Nat.zero_le _
  have hlaw := (byte_array (by decide) hinv href htype hsrc hoff (by decide) henough).2
    ⟨.inode, true, true, 1, 0, 0⟩ 2 0 rfl rfl rfl rfl rfl hlh hout
  exact ⟨s, hs, hlaw⟩

/-- As many blocks as a transaction may have. -/
def fullLog : List BlockNo := (List.range LOGBLOCKS).map UInt32.ofNat

/-- The limits of the law. A read of a written file whose end wraps around returns nothing, although
the file has a byte at its offset. And a write without room in its transaction does not return:
where 30 blocks are logged already, `log_write` calls `panic` at the first block of the write. -/
theorem read_wraps :
    (∃ s s' t, ReachVia (step tinySb) (Rules tinySb) (State.boot tinyDisk) s ∧
      writei tinySb 1 (kernelSrc [8, 9]) 0 2 s = .ok (some 2, s') ∧
      s'.contents tinySb none 2 = [8, 9] ∧
      readi tinySb 1 kernelDst 1 0xffffffff s' = .ok (some [], t)) ∧
    ∃ lim s, Inv tinySb lim s none ∧ 0 < (s.itable 1).ref ∧ (s.itable 1).valid = true ∧
      s.lh.Nodup ∧ 1 ≤ s.outstanding ∧ s.lh.length = LOGBLOCKS ∧
      (lacking tinySb s (s.itable 1).inum 0 2).card ≤ (freeBlocks tinySb s.disk).card ∧
      writei tinySb 1 (kernelSrc [8, 9]) 0 2 s = .error .tooBig := by
  obtain ⟨s, hs, hinv, hw, href, hvalid, hinside, henough, hpanic⟩ :=
    exists_tinyDisk (opensFile.take 6)
    (fun s => ((writei tinySb 1 (kernelSrc [8, 9]) 0 2 s).toOption.any fun p =>
        decide (p.1 = some 2 ∧ p.2.contents tinySb none 2 = [8, 9] ∧
          (readi tinySb 1 kernelDst 1 0xffffffff p.2).toOption.any fun q =>
            decide (q.1 = some []))) ∧
      0 < (s.itable 1).ref ∧ (s.itable 1).valid = true ∧ 1 ≤ s.outstanding ∧
      (lacking tinySb s (s.itable 1).inum 0 2).card ≤ (freeBlocks tinySb s.disk).card ∧
      (writei tinySb 1 (kernelSrc [8, 9]) 0 2 { s with lh := fullLog }).map (fun _ => ()) =
        .error .tooBig) (by decide +kernel)
  refine ⟨?_, ?_⟩
  · obtain ⟨⟨r, s'⟩, hw, rfl, hcontents, hread⟩ := exists_ok _ hw
    obtain ⟨⟨r', t⟩, hread, rfl⟩ := exists_ok _ hread
    exact ⟨s, s', t, hs, hw, hcontents, hread⟩
  · have hinv' : Inv tinySb tinySb.ninodes.toNat { s with lh := fullLog } none :=
      ⟨hinv.owned, hinv.noHoles, hinv.dirs, hinv.inums, hinv.unique, hinv.coherent⟩
    have hnodup : fullLog.Nodup := by decide
    exact ⟨_, _, hinv', href, hvalid, hnodup, hinside, rfl, henough, error_of_map hpanic⟩

end SustainableXv6.File
