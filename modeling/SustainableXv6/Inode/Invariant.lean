import SustainableXv6.Inode.Blocks

/-!
# The invariant of the inode layer

`Inv sb lim s o` says that the blocks of the disk have one owner each, that the files have no holes,
that the entries of the directories are inodes, and that the entries of the inode table agree with
the disk. In the middle of a call the entry `o` that it works on is ahead of the disk, and the
places are those of the inodes with this entry (`State.view`). `iupdate` writes it back.
-/

namespace SustainableXv6.Inode

open Fs Function Lib

variable {sb : Superblock} {lim : ℕ} {s s' : State} {o : Option EntryId} {e : EntryId}
  {E : Panic → Prop}

/-! ## The view -/

/-- The inodes, with the copy in the entry `o` that a call works on. -/
def State.view (s : State) (sb : Superblock) : Option EntryId → ℕ → Dinode
  | none => dinodeAt sb s.disk
  | some e => update (dinodeAt sb s.disk) (s.itable e).inum (s.itable e).dino

/-- The block at each place of the allocated inodes of the view. -/
def State.locs (s : State) (sb : Superblock) (o : Option EntryId) : ℕ × Place → Option BlockNo :=
  Fs.locs sb.ninodes.toNat s.disk (s.view sb o)

/-- The inode `i` is allocated in the view. -/
def State.Allocated (s : State) (sb : Superblock) (o : Option EntryId) (i : ℕ) : Prop :=
  Fs.Allocated sb.ninodes.toNat (s.view sb o) i

theorem State.view_self (s : State) (sb : Superblock) (e : EntryId) :
    s.view sb (some e) (s.itable e).inum = (s.itable e).dino :=
  update_self ..

theorem State.view_of_ne {i : ℕ} (hi : i ≠ (s.itable e).inum) :
    s.view sb (some e) i = dinodeAt sb s.disk i :=
  update_of_ne hi ..

/-- Where the disk has the copy in the entry, the view is what the disk has. -/
theorem State.view_eq (h : (s.itable e).dino = dinodeAt sb s.disk (s.itable e).inum) :
    s.view sb (some e) = s.view sb none := by
  change update (dinodeAt sb s.disk) _ _ = dinodeAt sb s.disk
  rw [h, update_eq_self]

/-- The entries of a directory name inodes below `n`, or none. -/
def EntriesBelow (n : ℕ) (d : Disk) (x : Dinode) : Prop :=
  ∀ k, DIRENTSIZE * k < x.size.toNat → ∀ b,
    addrOf d x (.ofIndex (DIRENTSIZE * k / BSIZE)) = some b →
      (direntInum (d b) (DIRENTSIZE * k % BSIZE)).toNat < n

/-! ## The invariant -/

/-- The invariant, where a call works on the entry `o` and the entries of directories name inodes
below `lim`. -/
structure Inv (sb : Superblock) (lim : ℕ) (s : State) (o : Option EntryId) : Prop where
  owned : Owned {b : BlockNo | b.toNat < sb.nmeta} (s.locs sb o) (Used sb s.disk)
  noHoles : ∀ i, s.Allocated sb o i → NoHoles s.disk (s.view sb o i)
  dirs : ∀ i, s.Allocated sb o i → (s.view sb o i).type = T_DIR →
    EntriesBelow lim s.disk (s.view sb o i)
  inums : ∀ e, 0 < (s.itable e).ref → 1 ≤ (s.itable e).inum ∧ (s.itable e).inum < sb.ninodes.toNat
  unique : ∀ e e', 0 < (s.itable e).ref → 0 < (s.itable e').ref →
    (s.itable e).inum = (s.itable e').inum → e = e'
  coherent : ∀ e, 0 < (s.itable e).ref → (s.itable e).valid = true → o ≠ some e →
    (s.itable e).dino = dinodeAt sb s.disk (s.itable e).inum ∧ (s.itable e).dino.type ≠ 0

namespace Inv

/-- A data block. -/
theorem nmeta_le (h : Inv sb lim s o) {l : ℕ × Place} {b : BlockNo} (hl : s.locs sb o l = some b) :
    sb.nmeta ≤ b.toNat :=
  Nat.le_of_not_lt (h.owned.notBase l b hl)

/-- Block 0 is in use. -/
theorem used_zero (h : Inv sb lim s o) (hsb : sb.Ok) : Used sb s.disk 0 :=
  (h.owned.used_iff 0).mpr (.inl (by simpa using zero_lt_nmeta hsb))

/-- A block that is not in use is a data block. -/
theorem nmeta_le_of_free (h : Inv sb lim s o) {b : BlockNo} (hb : ¬ Used sb s.disk b) :
    sb.nmeta ≤ b.toNat :=
  Nat.le_of_not_lt fun hlt => hb ((h.owned.used_iff b).mpr (.inl hlt))

/-- A call begins to work on an entry. -/
theorem begin (h : Inv sb lim s none) (href : 0 < (s.itable e).ref)
    (hvalid : (s.itable e).valid = true) : Inv sb lim s (some e) := by
  have hview := State.view_eq (h.coherent e href hvalid (by simp)).1
  refine ⟨?_, fun i hi => ?_, fun i hi => ?_, h.inums, h.unique,
    fun e' href' hvalid' _ => h.coherent e' href' hvalid' (by simp)⟩
  · rw [State.locs, hview]
    exact h.owned
  · rw [State.Allocated, hview] at hi
    rw [hview]
    exact h.noHoles i hi
  · rw [State.Allocated, hview] at hi
    rw [hview]
    exact h.dirs i hi

/-- A call ends its work on an entry, when the disk has the copy in the entry. -/
theorem finish (h : Inv sb lim s (some e))
    (hdino : (s.itable e).dino = dinodeAt sb s.disk (s.itable e).inum)
    (htype : (s.itable e).valid = true → (s.itable e).dino.type ≠ 0) : Inv sb lim s none := by
  have hview := State.view_eq hdino
  refine ⟨?_, fun i hi => ?_, fun i hi => ?_, h.inums, h.unique, fun e' href' hvalid' _ => ?_⟩
  · rw [State.locs, ← hview]
    exact h.owned
  · rw [State.Allocated, ← hview] at hi
    rw [← hview]
    exact h.noHoles i hi
  · rw [State.Allocated, ← hview] at hi
    rw [← hview]
    exact h.dirs i hi
  · by_cases he : e' = e
    · subst he
      exact ⟨hdino, htype hvalid'⟩
    · exact h.coherent e' href' hvalid' fun h' => he (Option.some.inj h').symm

end Inv

/-! ## The table -/

/-- The table changes where no entry in use is given another inode, and no block changes. -/
theorem Inv.of_itable (h : Inv sb lim s none) (hdisk : s'.disk = s.disk)
    (hinums : ∀ e, 0 < (s'.itable e).ref →
      1 ≤ (s'.itable e).inum ∧ (s'.itable e).inum < sb.ninodes.toNat)
    (hunique : ∀ e e', 0 < (s'.itable e).ref → 0 < (s'.itable e').ref →
      (s'.itable e).inum = (s'.itable e').inum → e = e')
    (hcoherent : ∀ e, 0 < (s'.itable e).ref → (s'.itable e).valid = true →
      (s'.itable e).dino = dinodeAt sb s'.disk (s'.itable e).inum ∧
        (s'.itable e).dino.type ≠ 0) : Inv sb lim s' none := by
  have hview : s'.view sb none = s.view sb none := by rw [State.view, State.view, hdisk]
  refine ⟨?_, fun i hi => ?_, fun i hi => ?_, hinums, hunique,
    fun e href hvalid _ => hcoherent e href hvalid⟩
  · rw [State.locs, hview, hdisk]
    exact h.owned
  · rw [State.Allocated, hview] at hi
    rw [hview, hdisk]
    exact h.noHoles i hi
  · rw [State.Allocated, hview] at hi
    rw [hview, hdisk]
    exact h.dirs i hi

/-- The entry `e` changes so that it keeps its inode and its copy. -/
theorem Inv.setEntry (h : Inv sb lim s none) {x : Entry} {f : EntryId → Bool} {l : List BlockNo}
    {n : ℕ}
    (hinum : x.inum = (s.itable e).inum) (href : 0 < x.ref → 0 < (s.itable e).ref)
    (hvalid : x.valid = true → (s.itable e).valid = true) (hdino : x.dino = (s.itable e).dino) :
    Inv sb lim { s.setEntry e x with locked := f, lh := l, outstanding := n } none := by
  have hself : (s.setEntry e x).itable e = x := update_self ..
  have hother {e' : EntryId} (he : e' ≠ e) : (s.setEntry e x).itable e' = s.itable e' :=
    update_of_ne he ..
  have hinum' (e' : EntryId) : ((s.setEntry e x).itable e').inum = (s.itable e').inum := by
    by_cases he : e' = e
    · rw [he, hself, hinum]
    · rw [hother he]
  have href' (e' : EntryId) (hr : 0 < ((s.setEntry e x).itable e').ref) :
      0 < (s.itable e').ref := by
    by_cases he : e' = e
    · rw [he, hself] at hr
      rw [he]
      exact href hr
    · rwa [hother he] at hr
  refine h.of_itable rfl (fun e' hr => ?_) (fun e₁ e₂ h₁ h₂ hi => ?_) fun e' hr hv => ?_
  · change 1 ≤ ((s.setEntry e x).itable e').inum ∧ ((s.setEntry e x).itable e').inum < _
    rw [hinum']
    exact h.inums e' (href' e' hr)
  · change ((s.setEntry e x).itable e₁).inum = ((s.setEntry e x).itable e₂).inum at hi
    rw [hinum', hinum'] at hi
    exact h.unique e₁ e₂ (href' e₁ h₁) (href' e₂ h₂) hi
  · change ((s.setEntry e x).itable e').dino =
      dinodeAt sb s.disk ((s.setEntry e x).itable e').inum ∧
        ((s.setEntry e x).itable e').dino.type ≠ 0
    rw [hinum']
    by_cases he : e' = e
    · subst he
      rw [hself, hdino]
      change ((s.setEntry e' x).itable e').valid = true at hv
      rw [hself] at hv
      exact h.coherent e' (href' e' hr) (hvalid hv) (by simp)
    · rw [hother he]
      change ((s.setEntry e x).itable e').valid = true at hv
      rw [hother he] at hv
      exact h.coherent e' (href' e' hr) hv (by simp)

theorem State.find_spec {inum : ℕ} (h : s.find inum = some e) :
    0 < (s.itable e).ref ∧ (s.itable e).inum = inum := by
  have := List.find?_some h
  simpa using this

theorem State.find_none {inum : ℕ} (h : s.find inum = none) (e : EntryId)
    (href : 0 < (s.itable e).ref) : (s.itable e).inum ≠ inum := by
  have := List.find?_eq_none.mp h e (List.mem_finRange e)
  intro hi
  exact this (by simp [href, hi])

theorem State.empty_spec (h : s.empty = some e) : (s.itable e).ref = 0 := by
  have := List.find?_some h
  simpa using this

/-- What `iget` leaves: the entry of the inode has one more reference. -/
structure Got (s : State) (inum : ℕ) (e : EntryId) (s' : State) : Prop where
  disk : s'.disk = s.disk
  lh : s'.lh = s.lh
  outstanding : s'.outstanding = s.outstanding
  locked : s'.locked = s.locked
  others : ∀ e', e' ≠ e → s'.itable e' = s.itable e'
  inode : (s'.itable e).inum = inum
  ref : (s'.itable e).ref = (s.itable e).ref + 1
  entry : 0 < (s.itable e).ref ∧ (s.itable e).inum = inum ∧
      s'.itable e = { s.itable e with ref := (s.itable e).ref + 1 } ∨
    (s.itable e).ref = 0 ∧ (s'.itable e).valid = false ∧
      ∀ e', 0 < (s.itable e').ref → (s.itable e').inum ≠ inum

theorem wp_iget {inum : ℕ} (hE : s.empty = none → E .noInodes) :
    wp (iget inum) s (fun e s' => Got s inum e s') E := by
  simp only [iget, wp_bind, wp_get]
  cases hfind : s.find inum with
  | some e =>
    obtain ⟨href, hinum⟩ := State.find_spec hfind
    have hself : (s.setEntry e { s.itable e with ref := (s.itable e).ref + 1 }).itable e =
        { s.itable e with ref := (s.itable e).ref + 1 } := update_self ..
    refine ⟨rfl, rfl, rfl, rfl, fun e' he => update_of_ne he .., ?_, ?_, .inl ?_⟩
    · rw [hself, hinum]
    · rw [hself]
    · exact ⟨href, hinum, hself⟩
  | none =>
    cases hempty : s.empty with
    | none => exact hE hempty
    | some e =>
      have hzero := State.empty_spec hempty
      have hself : (s.setEntry e { s.itable e with inum := inum, ref := 1, valid := false }).itable
          e = { s.itable e with inum := inum, ref := 1, valid := false } := update_self ..
      refine ⟨rfl, rfl, rfl, rfl, fun e' he => update_of_ne he .., ?_, ?_, .inr ?_⟩
      · rw [hself]
      · rw [hself, hzero]
      · exact ⟨hzero, by rw [hself], fun e' => State.find_none hfind e'⟩

/-- `iget` of an inode of the file system keeps the invariant. -/
theorem Inv.got {inum : ℕ} (h : Inv sb lim s none) (hg : Got s inum e s') (h1 : 1 ≤ inum)
    (hn : inum < sb.ninodes.toNat) : Inv sb lim s' none := by
  have href (e' : EntryId) (he : e' ≠ e) (hr : 0 < (s'.itable e').ref) :
      0 < (s.itable e').ref := by
    rwa [hg.others e' he] at hr
  have hnew (e' : EntryId) (he : e' ≠ e) (hr : 0 < (s'.itable e').ref) :
      (s'.itable e').inum ≠ inum := by
    rw [hg.others e' he]
    rcases hg.entry with ⟨hr', hi', -⟩ | ⟨-, -, hnone⟩
    · exact fun hi => he (h.unique e' e (href e' he hr) hr' (hi.trans hi'.symm))
    · exact hnone e' (href e' he hr)
  refine h.of_itable hg.disk (fun e' hr => ?_) (fun e₁ e₂ h₁ h₂ hi => ?_) fun e' hr hv => ?_
  · by_cases he : e' = e
    · rw [he, hg.inode]
      exact ⟨h1, hn⟩
    · rw [hg.others e' he]
      exact h.inums e' (href e' he hr)
  · by_cases he₁ : e₁ = e
    · by_cases he₂ : e₂ = e
      · rw [he₁, he₂]
      · rw [he₁, hg.inode] at hi
        exact absurd hi.symm (hnew e₂ he₂ h₂)
    · by_cases he₂ : e₂ = e
      · rw [he₂, hg.inode] at hi
        exact absurd hi (hnew e₁ he₁ h₁)
      · rw [hg.others e₁ he₁, hg.others e₂ he₂] at hi
        exact h.unique e₁ e₂ (href e₁ he₁ h₁) (href e₂ he₂ h₂) hi
  · rw [hg.disk]
    by_cases he : e' = e
    · subst he
      rcases hg.entry with ⟨hr', -, heq⟩ | ⟨-, hfalse, -⟩
      · rw [heq] at hv ⊢
        exact h.coherent e' hr' hv (by simp)
      · rw [hfalse] at hv
        exact absurd hv Bool.false_ne_true
    · rw [hg.others e' he] at hv ⊢
      exact h.coherent e' (href e' he hr) hv (by simp)

/-- `ilock` keeps the invariant. -/
theorem Inv.wp_ilock (h : Inv sb lim s none) (hE : ∀ p, p = .ilock ∨ p = .noType → E p) :
    wp (ilock sb e) s (fun _ s' => Inv sb lim s' none) E := by
  simp only [ilock, wp_bind, wp_get]
  rw [wp_ite]
  refine ⟨fun _ => hE _ (.inl rfl), fun href => ?_⟩
  rw [wp_ite]
  have href : 0 < (s.itable e).ref := by omega
  refine ⟨fun _ => ?_, fun _ => ?_⟩
  · exact ⟨h.owned, h.noHoles, h.dirs, h.inums, h.unique, h.coherent⟩
  · rw [wp_ite]
    refine ⟨fun _ => hE _ (.inr rfl), fun htype => ?_⟩
    rw [wp_set]
    generalize hx : ({ s.itable e with
      dino := dinodeAt sb s.disk (s.itable e).inum, valid := true } : Entry) = x
    have hself : (s.setEntry e x).itable e = x := update_self ..
    have hother {e' : EntryId} (he : e' ≠ e) : (s.setEntry e x).itable e' = s.itable e' :=
      update_of_ne he ..
    have hkeep (e' : EntryId) : ((s.setEntry e x).itable e').inum = (s.itable e').inum ∧
        ((s.setEntry e x).itable e').ref = (s.itable e').ref := by
      by_cases he : e' = e
      · rw [he, hself, ← hx]
        exact ⟨rfl, rfl⟩
      · rw [hother he]
        exact ⟨rfl, rfl⟩
    refine h.of_itable rfl (fun e' hr => ?_) (fun e₁ e₂ h₁ h₂ hi => ?_) fun e' hr hv => ?_
    · change 1 ≤ ((s.setEntry e x).itable e').inum ∧ ((s.setEntry e x).itable e').inum < _
      change 0 < ((s.setEntry e x).itable e').ref at hr
      rw [(hkeep e').2] at hr
      rw [(hkeep e').1]
      exact h.inums e' hr
    · change 0 < ((s.setEntry e x).itable e₁).ref at h₁
      change 0 < ((s.setEntry e x).itable e₂).ref at h₂
      change ((s.setEntry e x).itable e₁).inum = ((s.setEntry e x).itable e₂).inum at hi
      rw [(hkeep _).2] at h₁ h₂
      rw [(hkeep e₁).1, (hkeep e₂).1] at hi
      exact h.unique e₁ e₂ h₁ h₂ hi
    · change ((s.setEntry e x).itable e').dino =
        dinodeAt sb s.disk ((s.setEntry e x).itable e').inum ∧
          ((s.setEntry e x).itable e').dino.type ≠ 0
      change 0 < ((s.setEntry e x).itable e').ref at hr
      change ((s.setEntry e x).itable e').valid = true at hv
      rw [(hkeep e').2] at hr
      by_cases he : e' = e
      · subst he
        rw [hself, ← hx]
        exact ⟨rfl, htype⟩
      · rw [hother he] at hv ⊢
        exact h.coherent e' hr hv (by simp)

/-- The invariant is about the disk and the inode table. -/
theorem inv_of_eq (h : Inv sb lim s none) (hdisk : s'.disk = s.disk)
    (hitable : s'.itable = s.itable) : Inv sb lim s' none := by
  refine h.of_itable hdisk ?_ ?_ ?_
  · rw [hitable]
    exact h.inums
  · rw [hitable]
    exact h.unique
  · rw [hitable, hdisk]
    exact fun e href hvalid => h.coherent e href hvalid (by simp)

/-- What `ilock` leaves. -/
structure Locks (s : State) (e : EntryId) (s' : State) : Prop where
  disk : s'.disk = s.disk
  lh : s'.lh = s.lh
  outstanding : s'.outstanding = s.outstanding
  inum : (s'.itable e).inum = (s.itable e).inum
  ref : (s'.itable e).ref = (s.itable e).ref
  others : ∀ e', e' ≠ e → s'.itable e' = s.itable e'
  valid : (s'.itable e).valid = true
  locked : s'.locked e = true

theorem wp_ilock_locks (h : Inv sb lim s none)
    (href : (s.itable e).ref = 0 → E .ilock)
    (htype : (dinodeAt sb s.disk (s.itable e).inum).type = 0 → E .noType) :
    wp (ilock sb e) s (fun _ s' => 0 < (s.itable e).ref ∧ Inv sb lim s' none ∧ Locks s e s') E := by
  have hlocks : wp (ilock sb e) s (fun _ s' => 0 < (s.itable e).ref ∧ Locks s e s') E := by
    simp only [ilock, wp_bind, wp_get]
    rw [wp_ite]
    refine ⟨fun hzero => href (by omega), fun hpos => ?_⟩
    have hpos : 0 < (s.itable e).ref := by omega
    rw [wp_ite]
    refine ⟨fun hvalid => ?_, fun _ => ?_⟩
    · exact ⟨hpos, rfl, rfl, rfl, rfl, rfl, fun _ _ => rfl, hvalid, update_self ..⟩
    · rw [wp_ite]
      have hothers (e' : EntryId) (he : e' ≠ e) (x : Entry) :
          (s.setEntry e x).itable e' = s.itable e' := State.setEntry_of_ne s he x
      refine ⟨htype, fun _ => ⟨hpos, rfl, rfl, rfl, ?_, ?_, fun e' he => hothers e' he _, ?_,
        update_self ..⟩⟩ <;> simp [State.setEntry]
  exact wp_mono ((h.wp_ilock (E := fun _ => True) fun _ _ => trivial).and hlocks)
    (fun _ _ hs => ⟨hs.2.1, hs.1, hs.2.2⟩) fun _ hp => hp.2

end SustainableXv6.Inode
