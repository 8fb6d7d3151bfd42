import SustainableXv6.Mkfs.Main
import SustainableXv6.Inode.Ownership

/-!
# The files of `mkfs`, as the kernel reads them

`iappend` of `mkfs/mkfs.c` and `bmap` of `kernel/fs.c` are two implementations of the addresses of
a file. Here `mkfs` makes inodes and appends to them in any order, `f i` is the list of the bytes
that the inode `i` should have, and `Files s f` is what holds of the image between two calls. The
calls succeed as long as no file becomes too large and the image has blocks for all of them, and
then `readi` returns the bytes.
-/

namespace SustainableXv6.Mkfs

open Fs Function Lib

variable {s s' : State} {f : ℕ → List UInt8} {i : ℕ}

/-! ## Calls -/

/-- The calls by which `mkfs` makes an inode, and by which it writes to one. -/
inductive Call
  | ialloc (type : UInt16)
  | iappend (inum : ℕ) (p : List UInt8)
  deriving DecidableEq, Repr

/-- The call is executed. -/
def Call.exec : Call → MkfsM Unit
  | .ialloc type => do
    let _ ← Mkfs.ialloc type
    pure ()
  | .iappend inum p => Mkfs.iappend inum p

/-- The bytes that a call appends to the inode `i`. -/
def Call.bytes (i : ℕ) : Call → List UInt8
  | .ialloc _ => []
  | .iappend inum p => if inum = i then p else []

/-- The bytes that the calls append to the inode `i`, one chunk after the other. -/
def written (calls : List Call) (i : ℕ) : List UInt8 := calls.flatMap (Call.bytes i)

/-- The number of inodes that the calls make. -/
def made : List Call → ℕ
  | [] => 0
  | .ialloc _ :: calls => made calls + 1
  | .iappend _ _ :: calls => made calls

/-- The calls are those of a program that makes the inodes from `n` on, which are in the image, and
that appends to inodes which it has made. -/
def Legal : ℕ → List Call → Prop
  | _, [] => True
  | n, .ialloc type :: calls => type ≠ 0 ∧ n < NINODES ∧ Legal (n + 1) calls
  | n, .iappend inum _ :: calls => (1 ≤ inum ∧ inum < n) ∧ Legal n calls

instance instDecidableLegal : ∀ (n : ℕ) (calls : List Call), Decidable (Legal n calls)
  | _, [] => isTrue trivial
  | n, .ialloc _ :: calls =>
    have := instDecidableLegal (n + 1) calls
    inferInstanceAs (Decidable (_ ≠ _ ∧ n < NINODES ∧ Legal (n + 1) calls))
  | n, .iappend inum _ :: calls =>
    have := instDecidableLegal n calls
    inferInstanceAs (Decidable ((1 ≤ inum ∧ inum < n) ∧ Legal n calls))

theorem written_cons (c : Call) (calls : List Call) (i : ℕ) :
    written (c :: calls) i = c.bytes i ++ written calls i := rfl

/-! ## The image between two calls -/

/-- The number of blocks of the files. -/
def allNeeds (f : ℕ → List UInt8) : ℕ := ∑ i ∈ Finset.range NINODES, needs (f i).length

theorem allNeeds_mono {g : ℕ → List UInt8} (h : ∀ i, (f i).length ≤ (g i).length) :
    allNeeds f ≤ allNeeds g := Finset.sum_le_sum fun i _ => needs_mono (h i)

/-- One file gets other contents. -/
theorem allNeeds_update (hi : i < NINODES) (l : List UInt8) :
    allNeeds (update f i l) + needs (f i).length = allNeeds f + needs l.length := by
  have hmem : i ∈ Finset.range NINODES := Finset.mem_range.mpr hi
  have hrest : ∑ j ∈ (Finset.range NINODES).erase i, needs (update f i l j).length =
      ∑ j ∈ (Finset.range NINODES).erase i, needs (f j).length :=
    Finset.sum_congr rfl fun j hj => by rw [update_of_ne (Finset.ne_of_mem_erase hj)]
  rw [allNeeds, allNeeds, ← Finset.add_sum_erase _ _ hmem,
    ← Finset.add_sum_erase _ (fun j => needs (f j).length) hmem, hrest, update_self]
  omega

/-- The files of the image have the bytes `f`. -/
structure Files (s : State) (f : ℕ → List UInt8) : Prop where
  core : Core s s.dino
  bound : s.freeblock ≤ FSSIZE
  inodes : s.freeinode ≤ NINODES
  allocated : ∀ i, Allocated NINODES s.dino i ↔ 1 ≤ i ∧ i < s.freeinode
  exact : ∀ i, Allocated NINODES s.dino i → Exact s s.dino i
  size : ∀ i, Allocated NINODES s.dino i → (s.dino i).size.toNat = (f i).length
  bytes : ∀ i, Allocated NINODES s.dino i →
    fileBytes s.image (s.dino i) 0 (f i).length = f i
  /-- Nothing has been appended to an inode that has not been made. -/
  fresh : ∀ i, s.freeinode ≤ i → f i = []
  taken : s.freeblock ≤ nmeta + allNeeds f

/-- A block of an allocated inode is no block of the metadata. -/
theorem Files.addr_range (h : Files s f) (hi : Allocated NINODES s.dino i) {pl : Place}
    {b : BlockNo} (hb : addrOf s.image (s.dino i) pl = some b) : nmeta ≤ b.toNat := by
  rw [← locs_of_allocated hi] at hb
  exact (h.core.loc_range hb).1

/-- There are no files after the superblock has been written. -/
theorem files_super : Files State.super fun _ => [] := by
  have hI := State.super_inv
  have hnot : ∀ i, ¬ Allocated NINODES State.super.dino i := by
    intro i hi
    obtain ⟨h1, -, hlt⟩ := (hI.allocated_iff i).mp hi
    exact absurd hlt (Nat.not_lt.mpr h1)
  have hfree : State.super.freeblock = nmeta := rfl
  refine ⟨hI.core, hI.bound, by decide, fun i => ?_, hI.exact, fun i hi => absurd hi (hnot i),
    fun i hi => absurd hi (hnot i), fun _ _ => rfl, ?_⟩
  · exact iff_of_false (hnot i) fun ⟨h1, hlt⟩ => absurd hlt (Nat.not_lt.mpr h1)
  · rw [hfree]
    exact Nat.le_add_right ..

/-- An inode is made. -/
theorem Files.wp_ialloc (h : Files s f) (hn : s.freeinode < NINODES) {t : UInt16} (ht : t ≠ 0) :
    wp (ialloc t) s (fun _ s' => Files s' f ∧ s'.freeinode = s.freeinode + 1)
      fun _ => False := by
  have hnot : ¬ Allocated NINODES s.dino s.freeinode := by
    rw [h.allocated]
    omega
  refine (Mkfs.wp_ialloc h.core hn hnot t).imp fun inum s' hs' => ?_
  obtain ⟨-, ha⟩ := hs'
  have htype : (s'.dino s.freeinode).type = t := by
    rw [ha.self]
    rfl
  have hallocated (i : ℕ) : Allocated NINODES s'.dino i ↔ 1 ≤ i ∧ i < s'.freeinode := by
    rw [ha.freeinode]
    by_cases hi : i = s.freeinode
    · subst hi
      rw [Allocated, htype]
      exact ⟨fun h' => ⟨h'.1, Nat.lt_succ_self _⟩, fun h' => ⟨h'.1, hn, ht⟩⟩
    · have hold := h.allocated i
      have hlt : i < s.freeinode + 1 ↔ i < s.freeinode := by omega
      rw [hlt, ← hold]
      unfold Allocated
      refine and_congr_right fun _ => and_congr_right fun h2 => ?_
      rw [ha.others i hi h2]
  -- An inode that is not the new one is as before, and so are its blocks.
  have hold (i : ℕ) (hi : Allocated NINODES s'.dino i) (hne : i ≠ s.freeinode) :
      Allocated NINODES s.dino i ∧ s'.dino i = s.dino i := by
    have hsame := ha.others i hne hi.2.1
    refine ⟨?_, hsame⟩
    rw [Allocated, ← hsame]
    exact hi
  have hzero : f s.freeinode = [] := h.fresh _ le_rfl
  refine ⟨⟨ha.core, ha.freeblock ▸ h.bound, ha.freeinode ▸ hn, hallocated,
    fun i hi => ha.exact hnot h.exact hi, fun i hi => ?_, fun i hi => ?_, fun i hi => h.fresh i ?_,
    ha.freeblock ▸ h.taken⟩, ha.freeinode⟩
  · by_cases hne : i = s.freeinode
    · rw [hne, ha.self, hzero]
      rfl
    · obtain ⟨hi', hsame⟩ := hold i hi hne
      rw [hsame, h.size i hi']
  · by_cases hne : i = s.freeinode
    · rw [hne, hzero]
      rfl
    · obtain ⟨hi', hsame⟩ := hold i hi hne
      refine Eq.trans ?_ (h.bytes i hi')
      rw [hsame]
      refine fileBytes_congr (fun pl b hb => ha.image b ?_) ..
      rintro rfl
      exact absurd (iblock_lt_size hn) (Nat.not_lt.mpr (h.addr_range hi' hb))
  · rw [ha.freeinode] at hi
    omega

/-- Bytes are appended, where the file does not become too large and the image has the blocks. -/
theorem Files.wp_iappend (h : Files s f) (hi : Allocated NINODES s.dino i) (p : List UInt8)
    (hlarge : (f i ++ p).length ≤ MAXFILE * BSIZE)
    (hfit : nmeta + allNeeds (update f i (f i ++ p)) ≤ FSSIZE) :
    wp (iappend i p) s (fun _ s' => Files s' (update f i (f i ++ p)) ∧
      s'.freeinode = s.freeinode) fun _ => False := by
  have hsize := h.size i hi
  have hneeds := allNeeds_update (f := f) hi.2.1 (f i ++ p)
  have htaken := h.taken
  rw [List.length_append] at hlarge hneeds
  refine (Mkfs.wp_iappend (G := fun _ => True) trivial h.core h.bound hi (h.exact i hi)
    (fun _ _ _ _ => trivial) p (fun _ _ _ _ _ => trivial) fun _ hno => ?_).imp fun _ s' hs' => ?_
  · rw [hsize] at hno
    omega
  obtain ⟨ha, -, hbytes, hfree⟩ := hs'
  rw [hsize] at hbytes hfree
  have hallocated (j : ℕ) : Allocated NINODES s'.dino j ↔ Allocated NINODES s.dino j := by
    unfold Allocated
    refine and_congr_right fun _ => and_congr_right fun hj => ?_
    by_cases hji : j = i
    · rw [hji, ha.type]
    · rw [ha.inodes j hji hj]
  refine ⟨⟨ha.core, ha.bound, ha.freeinode ▸ h.inodes, fun j => ?_, fun j hj => ?_,
    fun j hj => ?_, fun j hj => ?_, fun j hj => ?_, by omega⟩, ha.freeinode⟩
  · rw [hallocated, h.allocated, ha.freeinode]
  · by_cases hji : j = i
    · exact hji ▸ ha.exact
    · obtain ⟨hle, hbn⟩ := h.exact j ((hallocated j).mp hj)
      have hother (bn : ℕ) : Fs.locs NINODES s'.image s'.dino (j, .ofIndex bn) =
          Fs.locs NINODES s.image s.dino (j, .ofIndex bn) := ha.others _ hji
      rw [Exact, ha.inodes j hji hj.2.1]
      exact ⟨hle, fun bn hlt => by rw [hother]; exact hbn bn hlt⟩
  · by_cases hji : j = i
    · rw [hji, update_self, ha.size, hsize, List.length_append]
    · rw [update_of_ne hji, ha.inodes j hji hj.2.1, h.size j ((hallocated j).mp hj)]
  · by_cases hji : j = i
    · rw [hji, update_self, List.length_append, hbytes, h.bytes i hi]
    · -- The blocks of another file are neither written nor given to this one.
      have hj' := (hallocated j).mp hj
      rw [update_of_ne hji, ha.inodes j hji hj.2.1]
      refine Eq.trans (fileBytes_congr (fun pl b hb => ha.image b ?_ fun pl' hl => ?_) ..)
        (h.bytes j hj')
      · rintro rfl
        exact absurd (iblock_lt_size hi.2.1) (Nat.not_lt.mpr (h.addr_range hj' hb))
      · have hloc : s'.locs (j, pl) = some b := by
          rw [ha.others _ hji, State.locs, locs_of_allocated hj', hb]
        exact hji (Prod.mk.inj (ha.core.owned.inj _ _ b hloc hl)).1
  · rw [ha.freeinode] at hj
    have hji : j ≠ i := by
      rintro rfl
      have := (h.allocated j).mp hi
      omega
    rw [update_of_ne hji, h.fresh j hj]

/-! ## Sequences of calls -/

/-- The bytes of the files after one call. -/
theorem append_bytes_iappend (f : ℕ → List UInt8) (i : ℕ) (p : List UInt8) :
    (fun j => f j ++ (Call.iappend i p).bytes j) = update f i (f i ++ p) := by
  funext j
  by_cases hji : j = i
  · rw [hji, update_self, Call.bytes, if_pos rfl]
  · rw [update_of_ne hji, Call.bytes, if_neg (Ne.symm hji), List.append_nil]

/-- A sequence of calls succeeds and appends its bytes. -/
theorem Files.wp_calls (calls : List Call) :
    ∀ {s : State} {f : ℕ → List UInt8}, Files s f → Legal s.freeinode calls →
      (∀ i, (f i ++ written calls i).length ≤ MAXFILE * BSIZE) →
      nmeta + allNeeds (fun i => f i ++ written calls i) ≤ FSSIZE →
      wp (calls.forM Call.exec) s (fun _ s' => (Files s' fun i => f i ++ written calls i) ∧
        s'.freeinode = s.freeinode + made calls) fun _ => False := by
  induction calls with
  | nil =>
    intro s f h _ _ _
    have hnil : (fun i => f i ++ written [] i) = f := funext fun i => List.append_nil _
    rw [hnil]
    exact ⟨h, rfl⟩
  | cons c calls ih =>
    intro s f h hlegal hlarge hfit
    simp only [written_cons, ← List.append_assoc] at hlarge hfit ⊢
    cases c with
    | ialloc t =>
      obtain ⟨ht, hn, hlegal⟩ := hlegal
      simp only [Call.bytes, List.append_nil] at hlarge hfit ⊢
      have hexec : wp (Call.ialloc t).exec s
          (fun _ s' => Files s' f ∧ s'.freeinode = s.freeinode + 1) fun _ => False :=
        wp_call (h.wp_ialloc hn ht) fun _ s₁ hs₁ => hs₁
      refine wp_call hexec fun _ s₁ hs₁ => ?_
      refine (ih hs₁.1 (hs₁.2 ▸ hlegal) hlarge hfit).imp fun _ s₂ hs₂ => ⟨hs₂.1, ?_⟩
      rw [hs₂.2, hs₁.2, made, Nat.add_assoc, Nat.add_comm 1]
    | iappend i p =>
      obtain ⟨hi, hlegal⟩ := hlegal
      have hfun := append_bytes_iappend f i p
      have hself := congrFun hfun i
      rw [update_self] at hself
      refine wp_call (h.wp_iappend ((h.allocated i).mpr hi) p ?_ ?_) fun _ s₁ hs₁ => ?_
      · have := hlarge i
        rw [hself, List.length_append] at this
        omega
      · rw [← hfun]
        have := allNeeds_mono (f := fun j => f j ++ (Call.iappend i p).bytes j)
          (g := fun j => f j ++ (Call.iappend i p).bytes j ++ written calls j)
          fun j => by simp
        omega
      · rw [← hfun] at hs₁
        refine (ih hs₁.1 (hs₁.2 ▸ hlegal) hlarge hfit).imp fun _ s₂ hs₂ => ⟨hs₂.1, ?_⟩
        rw [hs₂.2, hs₁.2, made]

/-- A file of the image has no holes for the kernel, and the kernel sees its bytes, if the blocks
behind the metadata are those of the image. -/
theorem Files.on_disk (h : Files s f) (hi : Allocated NINODES s.dino i) {d : Disk}
    (hd : ∀ b : BlockNo, nmeta ≤ b.toNat → d b = s.image b) :
    NoHoles d (s.dino i) ∧ fileBytes d (s.dino i) 0 (s.dino i).size.toNat = f i := by
  have hsame : ∀ pl b, addrOf s.image (s.dino i) pl = some b → d b = s.image b :=
    fun pl b hb => hd b (h.addr_range hi hb)
  obtain ⟨hle, hbn⟩ := h.exact i hi
  refine ⟨⟨hle, fun bn hlt => ?_⟩, ?_⟩
  · have hbn' : bn < MAXFILE :=
      lt_of_mul_lt_mul_right (lt_of_lt_of_le hlt hle) (Nat.zero_le BSIZE)
    have hne := (hbn bn hbn').mpr hlt
    rwa [locs_of_allocated hi, ← addrOf_congr hsame] at hne
  · rw [fileBytes_congr hsame, h.size i hi, h.bytes i hi]

/-- `mkfs` and the kernel agree on the layout of files. Take any calls of `ialloc` and `iappend`,
from the image with its superblock on, with chunks of any sizes and in any order, such that no file
gets more than `MAXFILE * BSIZE` bytes and the image has the blocks that the files need. Then the
calls succeed, and each inode has the size of the bytes appended to it. A kernel whose blocks
behind the metadata are those of the image, and whose copy of the inode is the one written, reads
these bytes by `readi`, at all offsets and for all lengths. -/
theorem readi_iappend (calls : List Call) (hlegal : Legal 1 calls)
    (hlarge : ∀ i, (written calls i).length ≤ MAXFILE * BSIZE)
    (hfit : nmeta + allNeeds (written calls) ≤ FSSIZE) :
    ∃ s, calls.forM Call.exec State.super = .ok ((), s) ∧
      ∀ i, 1 ≤ i → i ≤ made calls →
        (s.dino i).size.toNat = (written calls i).length ∧
        ∀ (k : Inode.State) (e : Inode.EntryId), (k.itable e).dino = s.dino i →
          (∀ b : BlockNo, nmeta ≤ b.toNat → k.disk b = s.image b) →
          ∀ dst : ℕ → ℕ → Bool, (∀ t m, dst t m = true) → ∀ off n : UInt32,
            Inode.readi sb e dst off n k =
              .ok (some (Inode.clip (written calls i) off n), k) := by
  have hrun := files_super.wp_calls calls hlegal (by simpa using hlarge) (by simpa using hfit)
  simp only [List.nil_append] at hrun
  obtain ⟨⟨⟩, s, hs, hfiles, hmade⟩ := hrun.exists_ok
  refine ⟨s, hs, fun i h1 hle => ?_⟩
  have hstart : State.super.freeinode = 1 := rfl
  have hi : Allocated NINODES s.dino i := (hfiles.allocated i).mpr ⟨h1, by omega⟩
  refine ⟨hfiles.size i hi, fun k e hdino hdisk dst hdst off n => ?_⟩
  obtain ⟨hholes, hbytes⟩ := hfiles.on_disk hi hdisk
  rw [← hdino] at hholes hbytes
  have hwp : wp (Inode.readi sb e dst off n) k _ fun _ => False :=
    Inode.wp_readi hholes dst off n
  obtain ⟨r, k', hread, rfl, hsome, hl⟩ := hwp.exists_ok
  obtain ⟨l, rfl⟩ := Option.ne_none_iff_exists'.mp (hsome hdst)
  rw [hread, hl l rfl, hbytes]

/-- A directory and a file, to which `mkfs` appends in turns. -/
def turns : List Call :=
  [.ialloc T_DIR, .ialloc T_FILE, .iappend 2 [1, 2], .iappend 1 [7], .iappend 2 [3]]

/-- The kernel reads the three bytes of the file. -/
theorem readi_iappend_turns :
    ∃ s, turns.forM Call.exec State.super = .ok ((), s) ∧ (s.dino 2).size.toNat = 3 ∧
      ∀ (k : Inode.State) (e : Inode.EntryId), (k.itable e).dino = s.dino 2 → k.disk = s.image →
        Inode.readi sb e Inode.kernelDst 0 3 k = .ok (some [1, 2, 3], k) := by
  have hlarge : ∀ i, (written turns i).length ≤ MAXFILE * BSIZE := by
    intro i
    have hsum : (written turns i).length ≤ 4 := by
      simp only [written, turns, List.flatMap_cons, List.flatMap_nil, Call.bytes,
        List.length_append]
      split_ifs <;> simp
    exact hsum.trans (by decide)
  obtain ⟨s, hs, h⟩ := readi_iappend turns (by decide) hlarge (by decide +kernel)
  obtain ⟨hsize, hread⟩ := h 2 (by decide) (by decide)
  refine ⟨s, hs, hsize, fun k e hdino hdisk => ?_⟩
  rw [hread k e hdino (fun b _ => by rw [hdisk]) Inode.kernelDst fun _ _ => rfl]
  rfl

/-! ## The kernel on the image -/

/-- The kernel runs on what `mkfs` writes. Where the inodes suffice and the entries of the root
directory do not end with a block, the blocks have one owner each after any sequence of calls that
keep to `Inode.Rules`, and no such call frees a free block or maps a block out of range. -/
theorem kernel_on_image {args : List Arg} (h : mkfs args = .ok s) (hn : args.length + 2 ≤ NINODES)
    (hend : (args.length + 2) % (BSIZE / DIRENTSIZE) ≠ 0) {k : Inode.State}
    (hr : ReachVia (Inode.step (readSuper (s.image 1))) (Inode.Rules (readSuper (s.image 1)))
      (Inode.State.boot s.image) k) :
    Blocks sb k.disk (dinodeAt sb k.disk) (Used sb k.disk) ∧
      ∀ a, Inode.Rules sb k a → Inode.exec sb a k ≠ .error .freeingFree ∧
        Inode.exec sb a k ≠ .error .outOfRange := by
  have hwf := (wellFormed_iff_of_inodes h hn).mpr hend
  rw [hwf.super] at hr
  have hI := Inode.inv_of_reachVia sb_ok (Inode.inv_boot hwf.blocks hwf.dirs) hr
  refine ⟨⟨hI.owned, hI.noHoles⟩, fun a ha => ⟨fun hp => ?_, fun hp => ?_⟩⟩
  · exact ((hI.exec sb_ok ha).of_error hp).1 rfl
  · exact ((hI.exec sb_ok ha).of_error hp).2 rfl

/-- The kernel opens the file of the image, reads it, and overwrites its second byte. Then it makes
another inode. -/
def opensSmallFile : List Inode.Act :=
  [.beginOp, .iget 2, .ilock 0, .readi 0 Inode.kernelDst 0 2, .writei 0 (fun _ _ => .all [9]) 1 1,
    .ialloc T_FILE, .ilock 1, .iupdate 1 0 0 1, .iunlock 1]

/-- The blocks after these calls. The first byte is the one that `mkfs` has written. -/
theorem kernel_on_image_smallFile : ∃ (s : State) (k t : Inode.State), mkfs [smallFile] = .ok s ∧
    ReachVia (Inode.step (readSuper (s.image 1))) (Inode.Rules (readSuper (s.image 1)))
      (Inode.State.boot s.image) k ∧
    Inode.readi sb 0 Inode.kernelDst 0 2 k = .ok (some [1, 9], t) ∧
    (dinodeAt sb k.disk 3).nlink = 1 ∧
    Blocks sb k.disk (dinodeAt sb k.disk) (Used sb k.disk) := by
  have hrun : ((·.2) <$> fill [smallFile] State.zeroed).toOption.any (fun s => decide
      ((run (Inode.step sb) (Inode.Rules sb) (.boot s.image) opensSmallFile).any (fun k =>
        decide ((dinodeAt sb k.disk 3).nlink = 1 ∧
          (Inode.readi sb 0 Inode.kernelDst 0 2 k).toOption.any fun p =>
            decide (p.1 = some [1, 9]))) = true)) = true := by
    decide +kernel
  rw [← mkfs_eq] at hrun
  obtain ⟨s, hs, hrun⟩ := exists_ok _ hrun
  obtain ⟨k, hr, hlink, hread⟩ := exists_of_run _ _ _ _ _ hrun
  obtain ⟨⟨bytes, t⟩, hread, rfl⟩ := exists_ok _ hread
  rw [← ((wellFormed_iff_of_inodes hs (by decide)).mpr (by decide)).super] at hr
  exact ⟨s, k, t, hs, hr, hread, hlink,
    (kernel_on_image hs (by decide) (by decide) hr).1⟩

end SustainableXv6.Mkfs
