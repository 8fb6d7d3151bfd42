import SustainableXv6.File.Write

/-!
# Writes that end early

`writei` stops where no block is free, and where the source cannot be read further. In the second
case `either_copyin` has already moved the bytes up to that point into the buffer of the block, and
`brelse` leaves them there, behind the bytes that `writei` counts. A reader sees those that are
below the size. So a write that ends early changes only what it reports if these bytes are the old
ones.
-/

namespace SustainableXv6.File

open Fs Inode Lib

variable {sb : Superblock} {lim : ℕ} {s s' : State} {e : EntryId} {src : ℕ → ℕ → Copied}
  {l : List UInt8}

/-! ## What readers see -/

/-- Every `readi` of the file returns a part of `bytes`. -/
def SeenAs (sb : Superblock) (e : EntryId) (bytes : List UInt8) (s : State) : Prop :=
  ∀ dst, (∀ t m, dst t m = true) → ∀ off n : UInt32,
    wp (readi sb e dst off n) s (fun r _ => r = some (clip bytes off n)) fun _ => False

/-- The whole of a list that is not too long. -/
theorem clip_all (h : l.length < 2 ^ 32) : clip l 0 0xffffffff = l := by
  have hn : (0xffffffff : UInt32).toNat = 2 ^ 32 - 1 := rfl
  rw [clip, if_pos (by decide), UInt32.toNat_zero, List.drop_zero, hn,
    List.take_of_length_le (by omega)]

/-- Readers see the contents. -/
theorem seenAs_iff (h : Inv sb lim s none) (href : 0 < (s.itable e).ref)
    (hvalid : (s.itable e).valid = true) (hl : l.length < 2 ^ 32) :
    SeenAs sb e l s ↔ s.contents sb none (s.itable e).inum = l := by
  have hread (dst : ℕ → ℕ → Bool) (hdst : ∀ t m, dst t m = true) (off n : UInt32) :
      wp (readi sb e dst off n) s (fun r _ =>
        r = some (clip (s.contents sb none (s.itable e).inum) off n)) fun _ => False := by
    refine (h.wp_readi_contents href hvalid dst off n).imp fun r t hr => ?_
    obtain ⟨bytes, rfl⟩ := Option.ne_none_iff_exists'.mp (hr.2.1 hdst)
    rw [hr.2.2 bytes rfl]
  constructor
  · intro hseen
    obtain ⟨r, t, hrun, hr⟩ := (hread kernelDst (fun _ _ => rfl) 0 0xffffffff).exists_ok
    have hr' := (hseen kernelDst (fun _ _ => rfl) 0 0xffffffff).of_ok hrun
    have heq := Option.some.inj (hr.symm.trans hr')
    rwa [clip_all hl, clip_all] at heq
    rw [State.length_contents]
    exact UInt32.toNat_lt _
  · rintro rfl
    exact hread

/-! ## What a write reports -/

/-- A `writei` of `n` bytes of the source `l` that returns `r` reports what it changes: if it ends
early, readers see the first `r` bytes of the source in the old contents, and the size is as large
as that. -/
def Reports (sb : Superblock) (s : State) (e : EntryId) (l : List UInt8) (off n : ℕ)
    (r : Option ℕ) (s' : State) : Prop :=
  (∀ tot, r = some tot → tot < n) →
    SeenAs sb e (overwrite (s.contents sb none (s.itable e).inum) off (l.take (r.getD 0))) s' ∧
      (dinodeAt sb s'.disk (s.itable e).inum).size.toNat =
        max (dinodeAt sb s.disk (s.itable e).inum).size.toNat (off + r.getD 0)

/-- The range is refused, or the source can be read to its end, or the bytes of the round in which
it ends that are below the size are the old ones. -/
def Unseen (old l : List UInt8) (off n : ℕ) : Prop :=
  MAXFILE * BSIZE < off + n ∨ n ≤ l.length ∨
    ∀ i, max off ((off + l.length) / BSIZE * BSIZE) ≤ i → i < off + l.length → i < old.length →
      old[i]? = l[i - off]?

/-- Bytes behind the end of a write change the list unless they are the old ones. -/
theorem take_overwrite_eq_iff {old : List UInt8} {off k : ℕ} (hoff : off ≤ old.length)
    (hk : k ≤ l.length) :
    (overwrite old off l).take (max old.length (off + k)) = overwrite old off (l.take k) ↔
      ∀ i, off + k ≤ i → i < off + l.length → i < old.length → old[i]? = l[i - off]? := by
  have hlen : (l.take k).length = k := List.length_take_of_le hk
  constructor
  · intro heq i hle hlt hi
    have hget := congrArg (fun bytes => bytes[i]?) heq
    rw [List.getElem?_take, if_pos (by omega), getElem?_overwrite hoff, getElem?_overwrite hoff,
      if_pos (by omega), if_neg (by omega)] at hget
    exact hget.symm
  · intro hsame
    refine List.ext_getElem? fun i => ?_
    rw [List.getElem?_take]
    split_ifs with hi
    · rw [getElem?_overwrite hoff, getElem?_overwrite hoff, hlen]
      by_cases hin : off ≤ i ∧ i < off + k
      · rw [if_pos hin, if_pos (by omega), List.getElem?_take_of_lt (by omega)]
      · rw [if_neg hin]
        split_ifs with hmore
        · exact (hsame i (by omega) hmore.2 (by omega)).symm
        · rfl
    · rw [List.getElem?_eq_none]
      rw [length_overwrite hoff, hlen]
      omega

/-- The round in which a write ends early. -/
theorem unseen_of_ended {old : List UInt8} {k off n tot : ℕ} (hmax : off + n ≤ MAXFILE * BSIZE)
    (hfull : ∀ bn, Full sb s' e (pathTo bn) → old.length ≤ bn * BSIZE)
    (h : Ended sb e l n 0 off k (tot, off + tot) s') :
    tot ≤ k ∧ k ≤ l.length ∧ (tot < n → (Unseen old l off n ↔
      ∀ i, off + tot ≤ i → i < off + k → i < old.length → old[i]? = l[i - off]?)) ∧
      (¬ tot < n → Unseen old l off n) := by
  obtain ⟨hk, hended⟩ := h
  rw [Nat.zero_add] at hk hended
  rcases hended with ⟨htot, hkn⟩ | ⟨htot, hkt, hno⟩ | ⟨hshort, hkl, hstop⟩
  · dsimp only at htot
    exact ⟨by omega, hk, fun hlt => by omega, fun _ => .inr (.inl (by omega))⟩
  · -- There is no free block, and no byte of the rounds that are left is below the size.
    have hsize := hfull _ hno
    dsimp only at htot hkt hsize
    refine ⟨by omega, hk, fun _ => ⟨fun _ i hi hik => by omega, fun _ => ?_⟩,
      fun hlt => absurd htot hlt⟩
    refine .inr (.inr fun i hi _ hsz => ?_)
    have hmono : (off + tot) / BSIZE * BSIZE ≤ (off + l.length) / BSIZE * BSIZE :=
      Nat.mul_le_mul_right _ (Nat.div_le_div_right (by omega))
    omega
  · have hle := Nat.div_mul_le_self (off + l.length) BSIZE
    dsimp only at hstop
    subst hkl
    refine ⟨by omega, le_rfl, fun _ => ?_, fun hlt => by omega⟩
    unfold Unseen
    rw [← hstop]
    constructor
    · rintro (hbig | hlong | hsame)
      · omega
      · omega
      · exact hsame
    · exact fun hsame => .inr (.inr hsame)

/-- A write reports what it changes exactly if the bytes behind its end that it has moved cannot be
seen. -/
theorem write_reports_iff (hsb : sb.Ok) (h : Inv sb lim s none) (href : 0 < (s.itable e).ref)
    (hvalid : (s.itable e).valid = true) {off n : UInt32}
    (hoff : off.toNat ≤ (dinodeAt sb s.disk (s.itable e).inum).size.toNat)
    (hdel : Delivers src l n.toNat) {r : Option ℕ}
    (hrun : writei sb e src off n s = .ok (r, s')) :
    Reports sb s e l off.toNat n.toNat r s' ↔
      Unseen (s.contents sb none (s.itable e).inum) l off.toNat n.toNat := by
  have hany := h.anyEntries
  have hdino := (h.coherent e href hvalid (by simp)).1
  have hlen : (s.contents sb none (s.itable e).inum).length =
      (dinodeAt sb s.disk (s.itable e).inum).size.toNat := s.length_contents sb none _
  have hcases := (hany.wp_writei hsb href hvalid (fun _ => le_rfl) src off n).of_ok hrun
  rw [hdino] at hcases
  rcases hcases with ⟨rfl, rfl, hout⟩ | ⟨tot, f, rfl, -, hmax, hs⟩
  · -- The range is refused.
    have hbig : MAXFILE * BSIZE < off.toNat + n.toNat := by
      by_contra hle
      exact hout ⟨hoff, Nat.not_lt.mp hle⟩
    refine iff_of_true (fun _ => ⟨?_, ?_⟩) (.inl hbig)
    · rw [Option.getD_none, List.take_zero, overwrite_nil]
      refine (seenAs_iff h href hvalid ?_).mpr rfl
      rw [hlen]
      exact UInt32.toNat_lt _
    · rw [Option.getD_none]
      omega
  · have hw := hs.written
    have href' : 0 < (s'.itable e).ref := by rwa [hw.ref]
    have hvalid' : (s'.itable e).valid = true := by rwa [hw.valid]
    have hsize : (s.itable e).dino.size.toNat = (s.contents sb none (s.itable e).inum).length := by
      rw [hlen, ← hdino]
    rw [← hdino, hsize] at hoff
    obtain ⟨k, hf, hended⟩ := hs.ended l hdel
    have hfull (bn : ℕ) (hno : Full sb s' e (pathTo bn)) :
        (s.contents sb none (s.itable e).inum).length ≤ bn * BSIZE := by
      rw [← hsize]
      exact size_le_of_full hany href hvalid hs hno
    obtain ⟨htot, hk, hshort, hall⟩ := unseen_of_ended hmax hfull hended
    by_cases hlt : tot < n.toNat
    · have hsize' : (dinodeAt sb s'.disk (s.itable e).inum).size.toNat =
          max (dinodeAt sb s.disk (s.itable e).inum).size.toNat (off.toNat + tot) := by
        rw [← hdino, ← hs.size, (hs.inv.coherent e href' hvalid' (by simp)).1, hw.inum]
      have hnew := hs.contents_self hany href hvalid (hsize.symm ▸ hoff) hk htot hf
      have htake : (l.take k).take tot = l.take tot := by rw [List.take_take, Nat.min_eq_left htot]
      have hbound : (overwrite (s.contents sb none (s.itable e).inum) off.toNat
          (l.take tot)).length < 2 ^ 32 := by
        rw [length_overwrite hoff, List.length_take, hlen, ← hdino]
        have hmaxlt : MAXFILE * BSIZE < 2 ^ 32 := by decide
        exact max_lt (UInt32.toNat_lt _) (by omega)
      have hreports : Reports sb s e l off.toNat n.toNat (some tot) s' ↔
          SeenAs sb e (overwrite (s.contents sb none (s.itable e).inum) off.toNat (l.take tot))
            s' := by
        refine ⟨fun hrep => (hrep fun t ht => ?_).1, fun hseen _ => ⟨hseen, hsize'⟩⟩
        rwa [← Option.some.inj ht]
      rw [hreports, hshort hlt, seenAs_iff hs.inv href' hvalid' hbound, hw.inum, hnew, hsize,
        ← htake, take_overwrite_eq_iff hoff (by rw [List.length_take]; omega),
        List.length_take_of_le hk]
      refine forall_congr' fun i => forall₃_congr fun _ hik _ => ?_
      rw [List.getElem?_take_of_lt (by omega)]
    · refine iff_of_true (fun hless => absurd (hless tot rfl) hlt) (hall hlt)

/-! ## A source that ends with its page -/

/-- A file of four bytes is made. -/
def fourBytes : List Act :=
  [.beginOp, .iget ROOTINO, .ilock 0, .ialloc T_FILE, .ilock 1, .iupdate 1 0 0 1,
    .writei 1 (kernelSrc [1, 2, 3, 4]) 0 4]

/-- The memory of a process from two bytes before the end of its first page on, where `pages` are
mapped. -/
def pageEnd (pages : ℕ → Bool) : ℕ → ℕ → Copied := fun tot m =>
  copyin pages (fun _ => 9) (PGSIZE - 2 + tot) m

theorem write_reports_iff_fourBytes :
    ∃ s r s', ReachVia (step tinySb) (Rules tinySb) (State.boot tinyDisk) s ∧
      writei tinySb 1 (pageEnd fun _ => false) 0 4 s = .ok (r, s') ∧
      Reports tinySb s 1 [] 0 4 r s' := by
  obtain ⟨s, hs, hinv, href, hvalid, hok⟩ := exists_tinyDisk fourBytes
    (fun s => 0 < (s.itable 1).ref ∧ (s.itable 1).valid = true ∧
      (writei tinySb 1 (pageEnd fun _ => false) 0 4 s).toOption.any fun _ => decide True)
    (by decide +kernel)
  obtain ⟨⟨r, s'⟩, hw, -⟩ := exists_ok _ hok
  have hdel : Delivers (pageEnd fun _ => false) [] 4 :=
    copyin_delivers (fun _ => false) (fun _ => 9) (PGSIZE - 2) 4
  refine ⟨s, r, s', hs, hw, (write_reports_iff (by decide) hinv href hvalid
    (Nat.zero_le _) hdel hw).mpr (.inr (.inr fun i _ hi => ?_))⟩
  simp at hi

/-- A write of four bytes from the end of a page returns 0, and two bytes of the file have
changed. -/
theorem write_unreported :
    ∃ s s' t t', ReachVia (step tinySb) (Rules tinySb) (State.boot tinyDisk) s ∧
      readi tinySb 1 kernelDst 0 4 s = .ok (some [1, 2, 3, 4], t) ∧
      writei tinySb 1 (pageEnd fun p => p == 0) 0 4 s = .ok (some 0, s') ∧
      readi tinySb 1 kernelDst 0 4 s' = .ok (some [9, 9, 3, 4], t') := by
  obtain ⟨s, hs, -, hbefore, hw⟩ := exists_tinyDisk fourBytes
    (fun s => ((readi tinySb 1 kernelDst 0 4 s).toOption.any fun p =>
      decide (p.1 = some [1, 2, 3, 4])) ∧
      (writei tinySb 1 (pageEnd fun p => p == 0) 0 4 s).toOption.any fun p =>
        decide (p.1 = some 0 ∧ (readi tinySb 1 kernelDst 0 4 p.2).toOption.any fun q =>
          decide (q.1 = some [9, 9, 3, 4]))) (by decide +kernel)
  obtain ⟨⟨r, t⟩, hbefore, rfl⟩ := exists_ok _ hbefore
  obtain ⟨⟨r', s'⟩, hw, rfl, hafter⟩ := exists_ok _ hw
  obtain ⟨⟨r'', t'⟩, hafter, rfl⟩ := exists_ok _ hafter
  exact ⟨s, s', t, t', hs, hbefore, hw, hafter⟩

end SustainableXv6.File
