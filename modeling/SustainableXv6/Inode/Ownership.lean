import SustainableXv6.Lib.Transition
import SustainableXv6.Inode.Trunc

/-!
# The ownership of blocks over runs

The calls of the inode layer follow each other in any order. What their callers promise is in
`Rules`: an inode is locked by `ilock` before it is read or written, data are written to files only,
and directories are written by whole entries. Every call keeps the invariant (`Inv.exec`), also
where it ends early, and so it holds after any sequence of calls.
-/

namespace SustainableXv6.Inode

open Fs Function Lib

variable {sb : Superblock} {lim : ℕ} {s s' : State} {e : EntryId}

/-! ## The calls -/

/-- The calls of the inode layer. -/
inductive Act
  | beginOp
  | endOp
  | ialloc (type : UInt16)
  | iget (inum : ℕ)
  | idup (e : EntryId)
  | ilock (e : EntryId)
  | iunlock (e : EntryId)
  | iput (e : EntryId)
  /-- The caller changes the fields of an inode that are its own, and calls `iupdate`. -/
  | iupdate (e : EntryId) (major minor nlink : UInt16)
  | itrunc (e : EntryId)
  | readi (e : EntryId) (dst : ℕ → ℕ → Bool) (off n : UInt32)
  | writei (e : EntryId) (src : ℕ → ℕ → Copied) (off n : UInt32)
  | dirlookup (e : EntryId) (name : List UInt8)
  | dirlink (e : EntryId) (name : List UInt8) (inum : ℕ)
  /-- `sys_unlink` clears the entry at the offset `off`. -/
  | clearEntry (e : EntryId) (off : ℕ)

/-- The caller has locked the inode. -/
def State.Holds (s : State) (e : EntryId) : Prop :=
  s.locked e = true ∧ (s.itable e).valid = true ∧ 0 < (s.itable e).ref

instance (s : State) (e : EntryId) : Decidable (s.Holds e) := inferInstanceAs
    (Decidable (_ ∧ _ ∧ _))

/-- What the callers promise. -/
def Rules (sb : Superblock) (s : State) : Act → Prop
  | .beginOp | .endOp | .iunlock _ => True
  | .ialloc type => type ≠ 0
  | .iget inum => 1 ≤ inum ∧ inum < sb.ninodes.toNat
  | .idup e => 0 < (s.itable e).ref
  | .ilock e => s.locked e = false
  -- A process that has the lock has a reference, too.
  | .iput e => 0 < (s.itable e).ref ∧ (s.locked e = true → 1 < (s.itable e).ref)
  | .iupdate e _ _ _ | .itrunc e | .readi e _ _ _ | .dirlookup e _ => s.Holds e
  | .writei e _ _ _ => s.Holds e ∧ (s.itable e).dino.type ≠ T_DIR
  | .dirlink e _ inum => s.Holds e ∧ inum < sb.ninodes.toNat
  | .clearEntry e off => s.Holds e ∧ off % DIRENTSIZE = 0

instance (sb : Superblock) (s : State) : ∀ a, Decidable (Rules sb s a)
  | .beginOp | .endOp | .iunlock _ => .isTrue trivial
  | .ialloc type => inferInstanceAs (Decidable (type ≠ 0))
  | .iget inum => inferInstanceAs (Decidable (1 ≤ inum ∧ inum < sb.ninodes.toNat))
  | .idup e => inferInstanceAs (Decidable (0 < (s.itable e).ref))
  | .ilock e => inferInstanceAs (Decidable (s.locked e = false))
  | .iput e => inferInstanceAs (Decidable (0 < (s.itable e).ref ∧
    (s.locked e = true → 1 < (s.itable e).ref)))
  | .iupdate e _ _ _ | .itrunc e | .readi e _ _ _ | .dirlookup e _ =>
    inferInstanceAs (Decidable (s.Holds e))
  | .writei e _ _ _ => inferInstanceAs (Decidable (s.Holds e ∧ (s.itable e).dino.type ≠ T_DIR))
  | .dirlink e _ inum => inferInstanceAs (Decidable (s.Holds e ∧ inum < sb.ninodes.toNat))
  | .clearEntry e off => inferInstanceAs (Decidable (s.Holds e ∧ off % DIRENTSIZE = 0))

/-- A program whose result is not used. -/
def ignore {α : Type} (m : FsM α) : FsM Unit := do
  let _ ← m
  pure ()

/-- A call. -/
def exec (sb : Superblock) : Act → FsM Unit
  | .beginOp => beginOp
  | .endOp => endOp
  | .ialloc type => ignore (ialloc sb type)
  | .iget inum => ignore (iget inum)
  | .idup e => idup e
  | .ilock e => ilock sb e
  | .iunlock e => iunlock e
  | .iput e => iput sb e
  | .iupdate e major minor nlink => do
    modify fun s => s.setDino e
      { (s.itable e).dino with major := major, minor := minor, nlink := nlink }
    iupdate sb e
  | .itrunc e => itrunc sb e
  | .readi e dst off n => ignore (readi sb e dst off n)
  | .writei e src off n => ignore (writei sb e src off n)
  | .dirlookup e name => ignore (dirlookup sb e name)
  | .dirlink e name inum => ignore (dirlink sb e name inum)
  | .clearEntry e off => ignore (clearEntry sb e off)

/-- The state after a call that returns. -/
def step (sb : Superblock) (s : State) (a : Act) : Option State :=
  match exec sb a s with
  | .ok (_, s') => some s'
  | .error _ => none

/-- The state at boot, with an empty inode table. -/
def State.boot (d : Disk) : State where
  disk := d
  itable := fun _ => { inum := 0, ref := 0, valid := false, dino := .zero }
  locked := fun _ => false
  lh := []
  outstanding := 0

/-! ## The calls keep the invariant -/

theorem wp_ignore {α : Type} {m : FsM α} {Q : Unit → State → Prop} {E : Panic → Prop} :
    wp (ignore m) s Q E ↔ wp m s (fun _ s' => Q () s') E := wp_bind

theorem freeInode_spec {d : Disk} {i : ℕ} (h : freeInode sb d = some i) :
    1 ≤ i ∧ i < sb.ninodes.toNat ∧ (dinodeAt sb d i).type = 0 := by
  have hmem := List.mem_range.mp (List.mem_of_find?_eq_some h)
  have hprop := List.find?_some h
  simp only [Bool.and_eq_true, decide_eq_true_eq, beq_iff_eq] at hprop
  exact ⟨hprop.1, hmem, hprop.2⟩

/-- A free inode is allocated on the disk. -/
theorem Inv.allocInode (h : Inv sb lim s none) (hsb : sb.Ok) {i : ℕ} {type : UInt16}
    (hi : i < sb.ninodes.toNat) (hfree : (dinodeAt sb s.disk i).type = 0)
    (hdisk : s'.disk = putDinode sb s.disk i { Dinode.zero with type := type })
    (hitable : s'.itable = s.itable) : Inv sb lim s' none := by
  generalize hx : ({ Dinode.zero with type := type } : Dinode) = x at hdisk
  have hsize : x.size.toNat = 0 := by rw [← hx]; rfl
  have haddr (pl : Place) : addrOf s.disk x pl = none := by
    rw [← hx]
    cases pl with
    | direct k | root | entry k => rfl
  have hnot : ¬ Fs.Allocated sb.ninodes.toNat (dinodeAt sb s.disk) i := fun ha => ha.2.2 hfree
  have hlocs : s'.locs sb none = s.locs sb none := by
    have hview : Fs.locs sb.ninodes.toNat s.disk (update (dinodeAt sb s.disk) i x) =
        Fs.locs sb.ninodes.toNat s.disk (dinodeAt sb s.disk) := by
      refine locs_update_same fun pl => ?_
      rw [haddr, ite_self, locs_of_not_allocated hnot]
    change Fs.locs _ s'.disk (dinodeAt sb s'.disk) = _
    rw [hdisk, locs_putDinode hsb hi fun l b hl => ?_]
    · exact hview
    · rw [hview] at hl
      exact h.nmeta_le hl
  have hview {j : ℕ} (hj : j < sb.ninodes.toNat) :
      s'.view sb none j = update (s.view sb none) i x j := by
    change dinodeAt sb s'.disk j = _
    rw [hdisk]
    exact dinodeAt_putDinode hsb hi hj
  have hself : s'.view sb none i = x := by rw [hview hi, update_self]
  have hother {j : ℕ} (hj : j < sb.ninodes.toNat) (hji : j ≠ i) :
      s'.view sb none j = s.view sb none j := by rw [hview hj, update_of_ne hji]
  have hiblock : (iblock sb i).toNat < sb.nmeta :=
    lt_of_lt_of_le (iblock_lt hsb hi) (bmapstart_le hsb)
  have hdata {b : BlockNo} (hb : sb.nmeta ≤ b.toNat) : s'.disk b = s.disk b := by
    rw [hdisk, putDinode, update_of_ne (ne_of_nmeta_le hb hiblock).symm]
  -- The other inodes have the same blocks.
  have hkeep {j : ℕ} (hj : s'.Allocated sb none j) (hji : j ≠ i) : s.Allocated sb none j ∧
      ∀ bn b, addrOf s.disk (s.view sb none j) (.ofIndex bn) = some b →
        addrOf s'.disk (s'.view sb none j) (.ofIndex bn) = some b ∧ s'.disk b = s.disk b := by
    have hj₀ : s.Allocated sb none j := ⟨hj.1, hj.2.1, by rw [← hother hj.2.1 hji]; exact hj.2.2⟩
    refine ⟨hj₀, fun bn b hb => ?_⟩
    have hl : s.locs sb none (j, .ofIndex bn) = some b := by
      rw [State.locs, locs_of_allocated hj₀, hb]
    have hl' := hl
    rw [← hlocs, State.locs, locs_of_allocated hj] at hl'
    exact ⟨hl', hdata (h.nmeta_le hl)⟩
  refine ⟨?_, fun j hj => ?_, fun j hj hdir => ?_, by rw [hitable]; exact h.inums,
    by rw [hitable]; exact h.unique, fun e hr hv _ => ?_⟩
  · rw [hlocs]
    exact h.owned.congr (fun _ => rfl) fun b => by rw [hdisk, used_putDinode hsb hi]
  · by_cases hji : j = i
    · rw [hji, hself]
      exact ⟨by omega, fun bn hbn => by omega⟩
    · obtain ⟨hj₀, hblocks⟩ := hkeep hj hji
      exact noHoles_of_mono (h.noHoles j hj₀) (by rw [hother hj.2.1 hji]) fun bn b hb =>
        (hblocks bn b hb).1
  · by_cases hji : j = i
    · rw [hji, hself]
      exact fun k hk => by omega
    · obtain ⟨hj₀, hblocks⟩ := hkeep hj hji
      rw [hother hj.2.1 hji] at hdir
      exact (h.dirs j hj₀ hdir).of_mono (h.noHoles j hj₀) (by rw [hother hj.2.1 hji])
        (fun bn b hb => (hblocks bn b hb).1) fun bn b hb => (hblocks bn b hb).2
  · rw [hitable] at hr hv ⊢
    obtain ⟨hdino, htype⟩ := h.coherent e hr hv (by simp)
    -- The entry of a free inode has not been read.
    have hne : (s.itable e).inum ≠ i := by
      intro heq
      rw [hdino, heq] at htype
      exact htype hfree
    rw [hdisk, dinodeAt_putDinode_of_ne hsb hi (h.inums e hr).2 hne]
    exact ⟨hdino, htype⟩

/-- `ialloc` keeps the invariant. -/
theorem Inv.wp_ialloc (h : Inv sb lim s none) (hsb : sb.Ok) (type : UInt16) :
    wp (ialloc sb type) s (fun _ s' => Inv sb lim s' none) Safe := by
  simp only [ialloc, wp_bind, wp_get]
  cases hfree : freeInode sb s.disk with
  | none => exact h
  | some i =>
    obtain ⟨h1, hi, htype⟩ := freeInode_spec hfree
    simp only [wp_bind]
    refine wp_logWrite (fun _ => ?_) (fun _ => ⟨by simp, by simp⟩) fun _ => ⟨by simp, by simp⟩
    have hinv : Inv sb lim (s.logged (iblock sb i) (setDinode (s.disk (iblock sb i)) (i % IPB)
        { Dinode.zero with type := type })) none := h.allocInode hsb hi htype rfl rfl
    rw [wp_map]
    exact (wp_iget fun _ => ⟨by simp, by simp⟩).imp fun e s₁ hgot => hinv.got hgot h1 hi

/-- `dirlink` keeps the invariant. -/
theorem Inv.wp_dirlink (h : Inv sb sb.ninodes.toNat s none) (hsb : sb.Ok)
    (href : 0 < (s.itable e).ref)
    (hvalid : (s.itable e).valid = true) (name : List UInt8) {inum : ℕ}
    (hinum : inum < sb.ninodes.toNat) :
    wp (dirlink sb e name inum) s (fun _ s' => Inv sb sb.ninodes.toNat s' none) Safe := by
  have htype := (h.coherent e href hvalid (by simp)).2
  have hopen := h.begin href hvalid
  unfold dirlink
  refine wp_call (h.wp_dirlookup le_rfl href hvalid name) fun r s₁ hs₁ => ?_
  rcases hs₁ with ⟨rfl, rfl⟩ | ⟨ip, inum', off, rfl, hgot, hinv⟩
  · simp only [wp_bind, wp_get]
    refine (hopen.wp_findEmpty href htype).imp fun r s₂ hs₂ => ?_
    obtain ⟨rfl, hoff⟩ := hs₂
    cases r with
    | none => exact h.wp_putEntry hsb href hvalid name hinum _
    | some off =>
      obtain ⟨k, rfl⟩ := hoff off rfl
      exact h.wp_putEntry hsb href hvalid name hinum k
  · refine wp_call (hinv.wp_iput hsb ?_) fun _ s₂ hs₂ => hs₂
    rw [hgot.ref]
    exact Nat.succ_pos _

/-- Every call keeps the invariant, and does not panic over the ownership of blocks. -/
theorem Inv.exec (h : Inv sb sb.ninodes.toNat s none) (hsb : sb.Ok) {a : Act}
    (hrules : Rules sb s a) :
    wp (exec sb a) s (fun _ s' => Inv sb sb.ninodes.toNat s' none) Safe := by
  cases a with
  | beginOp => exact inv_of_eq h rfl rfl
  | endOp => exact inv_of_eq h rfl rfl
  | ialloc type => exact wp_ignore.mpr (h.wp_ialloc hsb type)
  | iget inum =>
    exact wp_ignore.mpr ((wp_iget fun _ => ⟨by simp, by simp⟩).imp fun e s₁ hgot =>
      h.got hgot hrules.1 hrules.2)
  | idup e => exact h.setEntry rfl (fun _ => hrules) (fun hv => hv) rfl
  | ilock e =>
    refine h.wp_ilock fun p hp => ?_
    rcases hp with rfl | rfl
    · exact ⟨by simp, by simp⟩
    · exact ⟨by simp, by simp⟩
  | iunlock e =>
    simp only [Inode.exec, iunlock, wp_bind, wp_get]
    rw [wp_ite]
    exact ⟨fun _ => ⟨by simp, by simp⟩, fun _ => inv_of_eq h rfl rfl⟩
  | iput e => exact h.wp_iput hsb hrules.1
  | iupdate e major minor nlink =>
    obtain ⟨-, hvalid, href⟩ := hrules
    have htype := (h.coherent e href hvalid (by simp)).2
    have hopen := h.begin href hvalid
    have hi := hopen.allocated href htype
    have hno := hopen.noHoles _ hi
    have hdirs := hopen.dirs _ hi
    rw [State.view_self] at hno hdirs
    have hset := hopen.setDino (x := { (s.itable e).dino with
      major := major, minor := minor, nlink := nlink }) rfl rfl
      (noHoles_of_mono hno rfl fun bn b hb => by
        rw [← hb]
        cases Place.ofIndex bn with
        | direct k | root | entry k => rfl)
      fun hd => (hdirs hd).of_mono hno rfl (fun bn b hb => by
        rw [← hb]
        cases Place.ofIndex bn with
        | direct k | root | entry k => rfl) fun _ _ _ => rfl
    simp only [Inode.exec, wp_bind, wp_modify]
    refine wp_iupdate (fun _ => ?_) (fun _ => ⟨by simp, by simp⟩) fun _ => ⟨by simp, by simp⟩
    obtain ⟨hup, hdino⟩ := hset.iupdated hsb (by rw [State.setDino_self]; exact href)
    refine hup.finish hdino fun _ => ?_
    change ((s.setDino e _).itable e).dino.type ≠ 0
    rw [State.setDino_self]
    exact htype
  | itrunc e => exact h.wp_itrunc_inv hsb hrules.2.2 hrules.2.1
  | readi e dst off n =>
    obtain ⟨-, hvalid, href⟩ := hrules
    refine wp_ignore.mpr (((h.begin href hvalid).wp_readi href
      (h.coherent e href hvalid (by simp)).2 dst off n).imp fun r s₁ hs₁ => ?_)
    rw [hs₁.1]
    exact h
  | writei e src off n =>
    exact wp_ignore.mpr (h.wp_writei_file hsb hrules.1.2.2 hrules.1.2.1 hrules.2 src off n)
  | dirlookup e name =>
    refine wp_ignore.mpr ((h.wp_dirlookup le_rfl hrules.2.2 hrules.2.1 name).imp fun r s₁ hs₁ => ?_)
    rcases hs₁ with ⟨-, rfl⟩ | ⟨ip, inum, off, -, -, hinv⟩
    · exact h
    · exact hinv
  | dirlink e name inum =>
    exact wp_ignore.mpr (h.wp_dirlink hsb hrules.1.2.2 hrules.1.2.1 name hrules.2)
  | clearEntry e off =>
    obtain ⟨⟨-, hvalid, href⟩, hoff⟩ := hrules
    obtain ⟨k, rfl⟩ := Nat.dvd_of_mod_eq_zero hoff
    refine wp_ignore.mpr (h.wp_putEntry hsb href hvalid [] ?_ k)
    exact lt_of_lt_of_le (Nat.zero_lt_one) ((h.inums e href).1.trans (h.inums e href).2.le)

/-! ## Runs -/

/-- The invariant of a well-formed image at boot. -/
theorem inv_boot {d : Disk} (hblocks : Blocks sb d (dinodeAt sb d) (Used sb d))
    (hdirs : DirsOk sb.ninodes.toNat d (dinodeAt sb d)) :
    Inv sb sb.ninodes.toNat (State.boot d) none := by
  refine ⟨hblocks.owned, hblocks.noHoles, fun i hi hdir k hk b hb => ?_, fun e he => ?_,
    fun e e' he => ?_, fun e he => ?_⟩
  · by_cases h0 : direntInum (d b) (DIRENTSIZE * k % BSIZE) = 0
    · change (direntInum (d b) (DIRENTSIZE * k % BSIZE)).toNat < _
      rw [h0]
      exact lt_of_lt_of_le Nat.zero_lt_one (hi.1.trans hi.2.1.le)
    · exact (hdirs i hi hdir k hk b hb h0).2.1
  · exact absurd he (Nat.lt_irrefl 0)
  · exact absurd he (Nat.lt_irrefl 0)
  · exact absurd he (Nat.lt_irrefl 0)

/-- The invariant holds after every sequence of calls. -/
theorem inv_of_reachVia (hsb : sb.Ok) {s₀ : State} (h₀ : Inv sb sb.ninodes.toNat s₀ none)
    (hr : ReachVia (step sb) (Rules sb) s₀ s) : Inv sb sb.ninodes.toNat s none := by
  refine hr.invariant (I := fun s => Inv sb sb.ninodes.toNat s none) h₀ fun s a s' _ h hC hs => ?_
  unfold step at hs
  cases hx : exec sb a s with
  | error p =>
    rw [hx] at hs
    simp at hs
  | ok r =>
    rw [hx] at hs
    exact Option.some.inj hs ▸ (h.exec hsb hC).of_ok hx

/-- From a well-formed image, after any sequence of calls, the blocks in use have one owner each and
the files have no holes. No call frees a free block or maps a block out of range. -/
theorem blocks_owned (hsb : sb.Ok) {d : Disk} (hblocks : Blocks sb d (dinodeAt sb d) (Used sb d))
    (hdirs : DirsOk sb.ninodes.toNat d (dinodeAt sb d))
    (hr : ReachVia (step sb) (Rules sb) (State.boot d) s) :
    Blocks sb s.disk (dinodeAt sb s.disk) (Used sb s.disk) ∧
      ∀ a, Rules sb s a → exec sb a s ≠ .error .freeingFree ∧
        exec sb a s ≠ .error .outOfRange := by
  have h := inv_of_reachVia hsb (inv_boot hblocks hdirs) hr
  refine ⟨⟨h.owned, h.noHoles⟩, fun a ha => ⟨fun hp => ?_, fun hp => ?_⟩⟩
  · exact ((h.exec hsb ha).of_error hp).1 rfl
  · exact ((h.exec hsb ha).of_error hp).2 rfl

/-- From a well-formed image, after any sequence of calls, the inode table is a coherent cache. An
inode has one entry in use at most, and a copy that has been read is the inode on the disk, which is
allocated. And the entries of the directories, also of those that are changed meanwhile, name inodes
of the file system. -/
theorem inode_table_coherent (hsb : sb.Ok) {d : Disk}
    (hblocks : Blocks sb d (dinodeAt sb d) (Used sb d))
    (hdirs : DirsOk sb.ninodes.toNat d (dinodeAt sb d))
    (hr : ReachVia (step sb) (Rules sb) (State.boot d) s) :
    (∀ e e', 0 < (s.itable e).ref → 0 < (s.itable e').ref →
      (s.itable e).inum = (s.itable e').inum → e = e') ∧
    (∀ e, 0 < (s.itable e).ref → (s.itable e).valid = true →
      (s.itable e).dino = dinodeAt sb s.disk (s.itable e).inum ∧
        s.Allocated sb none (s.itable e).inum) ∧
    ∀ i, s.Allocated sb none i → (dinodeAt sb s.disk i).type = T_DIR →
      EntriesBelow sb.ninodes.toNat s.disk (dinodeAt sb s.disk i) := by
  have h := inv_of_reachVia hsb (inv_boot hblocks hdirs) hr
  refine ⟨h.unique, fun e href hvalid => ?_, h.dirs⟩
  obtain ⟨hdino, htype⟩ := h.coherent e href hvalid (by simp)
  rw [hdino] at htype
  exact ⟨hdino, (h.inums e href).1, (h.inums e href).2, htype⟩

/-! ## A small image -/

/-- The superblock of an image with four data blocks. -/
def tinySb : Superblock where
  magic := FSMAGIC
  size := 40
  nblocks := 4
  ninodes := 32
  nlog := 31
  logstart := 2
  inodestart := 33
  bmapstart := 35

/-- An image that has an empty root directory only. -/
def tinyDisk : Disk := fun b =>
  if b = 35 then fun j => if j.val = 0 then 0xffffffff else if j.val = 1 then 0xf else 0
  else if b = 33 then setDinode (fun _ => 0) 1 { Dinode.zero with type := T_DIR, nlink := 1 }
  else fun _ => 0

theorem tinyDisk_inodes : ∀ i, i < 32 → (dinodeAt tinySb tinyDisk i).addrs = (fun _ => 0) ∧
    (dinodeAt tinySb tinyDisk i).size = 0 := by
  decide +kernel

theorem tinyDisk_bitmap : ∀ n, n < 40 →
    bitAt (tinyDisk (bblock tinySb n)) (n % BPB) = decide (n < 36) := by
  decide +kernel

theorem tinyDisk_locs (l : ℕ × Place) :
    Fs.locs tinySb.ninodes.toNat tinyDisk (dinodeAt tinySb tinyDisk) l = none := by
  obtain ⟨i, pl⟩ := l
  by_cases hi : Allocated tinySb.ninodes.toNat (dinodeAt tinySb tinyDisk) i
  · have haddrs := (tinyDisk_inodes i hi.2.1).1
    rw [locs_of_allocated hi]
    cases pl with
    | direct k | root | entry k => simp [addrOf, haddrs]
  · exact locs_of_not_allocated hi pl

theorem tinyDisk_blocks : Blocks tinySb tinyDisk (dinodeAt tinySb tinyDisk)
    (Used tinySb tinyDisk) := by
  refine ⟨⟨fun l l' b hl => ?_, fun l b hl => ?_, fun b => ?_⟩, fun i hi => ?_⟩
  · simp [tinyDisk_locs] at hl
  · simp [tinyDisk_locs] at hl
  · have hsize : tinySb.size.toNat = 40 := rfl
    have hnmeta : tinySb.nmeta = 36 := rfl
    simp only [tinyDisk_locs, reduceCtorEq, exists_false, or_false, Set.mem_ofPred_eq, hnmeta, Used,
      hsize]
    constructor
    · rintro ⟨hlt, hbit⟩
      simpa [tinyDisk_bitmap _ hlt] using hbit
    · intro hlt
      have hlt' : b.toNat < 40 := by omega
      exact ⟨hlt', by simpa [tinyDisk_bitmap _ hlt'] using hlt⟩
  · have hsize := (tinyDisk_inodes i hi.2.1).2
    exact ⟨by simp [hsize], fun bn hbn => by simp [hsize] at hbn⟩

theorem tinyDisk_dirs : DirsOk tinySb.ninodes.toNat tinyDisk (dinodeAt tinySb tinyDisk) := by
  intro i hi _ k hk
  simp [(tinyDisk_inodes i hi.2.1).2] at hk

/-- The state after calls on the image, where it passes a test. -/
theorem exists_tinyDisk (as : List Act) (P : State → Prop) [DecidablePred P]
    (h : (run (step tinySb) (Rules tinySb) (State.boot tinyDisk) as).any (fun s => decide (P s)) =
      true) :
    ∃ s, ReachVia (step tinySb) (Rules tinySb) (State.boot tinyDisk) s ∧
      Inv tinySb tinySb.ninodes.toNat s none ∧ P s := by
  obtain ⟨s, hs, hp⟩ := exists_of_run _ _ _ as P h
  exact ⟨s, hs, inv_of_reachVia (by decide) (inv_boot tinyDisk_blocks tinyDisk_dirs) hs, hp⟩

/-- A file is made in the root directory. The first copy of its data fails, and the second one does
not. -/
def makesFile : List Act :=
  [.beginOp, .iget ROOTINO, .ilock 0, .ialloc T_FILE, .ilock 1, .iupdate 1 0 0 1,
    .writei 1 (fun _ _ => .failed [7]) 0 2, .writei 1 (fun _ _ => .all [8, 9]) 0 2,
    .dirlink 0 ['a'.toUInt8] 2, .iunlock 1, .iput 1, .endOp]

/-- The file and the directory have a block each. -/
theorem blocks_owned_makesFile :
    ∃ s, ReachVia (step tinySb) (Rules tinySb) (State.boot tinyDisk) s ∧
      (dinodeAt tinySb s.disk 2).addrs 0 = 36 ∧ (dinodeAt tinySb s.disk 1).addrs 0 = 37 ∧
      Blocks tinySb s.disk (dinodeAt tinySb s.disk) (Used tinySb s.disk) := by
  obtain ⟨s, hs, -, hp⟩ := exists_tinyDisk makesFile
    (fun s => (dinodeAt tinySb s.disk 2).addrs 0 = 36 ∧ (dinodeAt tinySb s.disk 1).addrs 0 = 37)
    (by decide +kernel)
  exact ⟨s, hs, hp.1, hp.2, (blocks_owned (by decide) tinyDisk_blocks tinyDisk_dirs hs).1⟩

/-- The entry of the root directory, which is open to the end. -/
theorem inode_table_coherent_makesFile :
    ∃ s, ReachVia (step tinySb) (Rules tinySb) (State.boot tinyDisk) s ∧
      (s.itable 0).dino = dinodeAt tinySb s.disk ROOTINO := by
  obtain ⟨s, hs, -, href, hvalid, hinum⟩ := exists_tinyDisk makesFile
    (fun s => 0 < (s.itable 0).ref ∧ (s.itable 0).valid = true ∧ (s.itable 0).inum = ROOTINO)
    (by decide +kernel)
  have hcoh := inode_table_coherent (by decide) tinyDisk_blocks tinyDisk_dirs hs
  exact ⟨s, hs, hinum ▸ (hcoh.2.1 0 href hvalid).1⟩

end SustainableXv6.Inode
