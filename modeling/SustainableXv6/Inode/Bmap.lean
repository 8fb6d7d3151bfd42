import SustainableXv6.Inode.Invariant

/-!
# `iupdate` and `bmap`

A call that works on an entry of the inode table changes the places of its inode. `Mapped` is what
`bmap` leaves: the places of the inode grow, and all else stays, in particular the data. It holds
also where `balloc` returns 0 after the indirect block has been taken. The places that grow are
those on the way to the block (`pathTo`), and `bmap` returns 0 only where no block is free for one
of them (`Full`).
-/

namespace SustainableXv6.Inode

open Fs Function Lib

variable {sb : Superblock} {lim : ℕ} {s s' s₁ : State} {e : EntryId} {E : Panic → Prop}
  {a : BlockNo}

/-- The panics that are not about the ownership of blocks. -/
def Safe (p : Panic) : Prop := p ≠ .freeingFree ∧ p ≠ .outOfRange

/-! ## The contents of an inode -/

section Contents

variable {d d' : Disk} {x x' : Dinode} {n : ℕ}

/-- A file keeps its blocks, and gets more of them. -/
theorem noHoles_of_mono (h : NoHoles d x) (hsize : x'.size = x.size)
    (hmono : ∀ bn b, addrOf d x (.ofIndex bn) = some b → addrOf d' x' (.ofIndex bn) = some b) :
    NoHoles d' x' := by
  refine ⟨by rw [hsize]; exact h.1, fun bn hbn => ?_⟩
  rw [hsize] at hbn
  obtain ⟨b, hb⟩ := Option.ne_none_iff_exists'.mp (h.2 bn hbn)
  rw [hmono bn b hb]
  simp

/-- The block of an entry of a directory is below its size. -/
theorem index_mul_lt {k size : ℕ} (hk : DIRENTSIZE * k < size) :
    DIRENTSIZE * k / BSIZE * BSIZE < size :=
  lt_of_le_of_lt (Nat.div_mul_le_self _ _) hk

/-- A directory keeps its blocks with their contents. -/
theorem EntriesBelow.of_mono (h : EntriesBelow n d x) (hno : NoHoles d x) (hsize : x'.size = x.size)
    (hmono : ∀ bn b, addrOf d x (.ofIndex bn) = some b → addrOf d' x' (.ofIndex bn) = some b)
    (hdata : ∀ bn b, addrOf d x (.ofIndex bn) = some b → d' b = d b) : EntriesBelow n d' x' := by
  intro k hk b hb
  rw [hsize] at hk
  obtain ⟨b₀, hb₀⟩ := Option.ne_none_iff_exists'.mp (hno.2 _ (index_mul_lt hk))
  have hbb : b₀ = b := Option.some.inj ((hmono _ b₀ hb₀).symm.trans hb)
  subst hbb
  rw [hdata _ b₀ hb₀]
  exact h k hk b₀ hb₀

end Contents

/-! ## Keeping the invariant -/

section Keep

variable {o : Option EntryId} (h : Inv sb lim s o)
  (howned : Owned {b : BlockNo | b.toNat < sb.nmeta} (s'.locs sb o) (Used sb s'.disk))
  (hsize : ∀ i, i < sb.ninodes.toNat → (s'.view sb o i).size = (s.view sb o i).size)
  (htype : ∀ i, i < sb.ninodes.toNat → (s'.view sb o i).type = (s.view sb o i).type)
  (hmono : ∀ l b, s.locs sb o l = some b → s'.locs sb o l = some b)
  (hentry : ∀ e, (s'.itable e).inum = (s.itable e).inum ∧ (s'.itable e).ref = (s.itable e).ref ∧
    (s'.itable e).valid = (s.itable e).valid)
  (hcoherent : ∀ e, 0 < (s.itable e).ref → o ≠ some e → (s'.itable e).dino = (s.itable e).dino ∧
    dinodeAt sb s'.disk (s.itable e).inum = dinodeAt sb s.disk (s.itable e).inum)

include htype in
theorem State.allocated_congr (i : ℕ) : s'.Allocated sb o i ↔ s.Allocated sb o i :=
  and_congr_right fun _ => and_congr_right fun hi => by rw [htype i hi]

include htype hmono in
/-- A file keeps its blocks. -/
theorem State.addrOf_mono {i bn : ℕ} {b : BlockNo} (hi : s.Allocated sb o i)
    (hb : addrOf s.disk (s.view sb o i) (.ofIndex bn) = some b) :
    s.locs sb o (i, .ofIndex bn) = some b ∧
      addrOf s'.disk (s'.view sb o i) (.ofIndex bn) = some b := by
  have hl : s.locs sb o (i, .ofIndex bn) = some b := by
    rw [State.locs, locs_of_allocated hi, hb]
  have hl' := hmono _ b hl
  rw [State.locs, locs_of_allocated ((State.allocated_congr htype i).mpr hi)] at hl'
  exact ⟨hl, hl'⟩

include h howned hsize htype hmono hentry hcoherent

/-- Every inode keeps its size and its type, and its blocks. -/
theorem Inv.of_kept
    (hdirs : ∀ i, s.Allocated sb o i → (s.view sb o i).type = T_DIR →
      EntriesBelow lim s'.disk (s'.view sb o i)) : Inv sb lim s' o := by
  have hallocated := State.allocated_congr htype
  refine ⟨howned, fun i hi => ?_, fun i hi hdir => ?_, fun e hr => ?_, fun e₁ e₂ h₁ h₂ hi => ?_,
    fun e hr hv ho => ?_⟩
  · have hi₀ := (hallocated i).mp hi
    exact noHoles_of_mono (h.noHoles i hi₀) (hsize i hi.2.1) fun bn b hb =>
      (State.addrOf_mono htype hmono hi₀ hb).2
  · rw [htype i hi.2.1] at hdir
    exact hdirs i ((hallocated i).mp hi) hdir
  · rw [(hentry e).2.1] at hr
    rw [(hentry e).1]
    exact h.inums e hr
  · rw [(hentry e₁).2.1] at h₁
    rw [(hentry e₂).2.1] at h₂
    rw [(hentry e₁).1, (hentry e₂).1] at hi
    exact h.unique e₁ e₂ h₁ h₂ hi
  · rw [(hentry e).2.1] at hr
    rw [(hentry e).2.2] at hv
    obtain ⟨hdino, hdisk⟩ := hcoherent e hr ho
    rw [hdino, (hentry e).1, hdisk]
    exact h.coherent e hr hv ho

/-- Every inode keeps its size and its type, and its blocks with their contents. -/
theorem Inv.of_mono
    (hdata : ∀ l b, l.2 ≠ .root → s.locs sb o l = some b → s'.disk b = s.disk b) :
    Inv sb lim s' o := by
  refine h.of_kept howned hsize htype hmono hentry hcoherent fun i hi hdir => ?_
  refine (h.dirs i hi hdir).of_mono (h.noHoles i hi) (hsize i hi.2.1)
    (fun bn b hb => (State.addrOf_mono htype hmono hi hb).2) fun bn b hb => ?_
  exact hdata _ b (Place.ofIndex_ne_root bn) (State.addrOf_mono htype hmono hi hb).1

end Keep

/-! ## `iupdate` -/

/-- The state after `iupdate`. -/
def State.iupdated (s : State) (sb : Superblock) (e : EntryId) : State :=
  s.logged (iblock sb (s.itable e).inum)
    (setDinode (s.disk (iblock sb (s.itable e).inum)) ((s.itable e).inum % IPB) (s.itable e).dino)

theorem State.iupdated_disk (s : State) (sb : Superblock) (e : EntryId) :
    (s.iupdated sb e).disk = putDinode sb s.disk (s.itable e).inum (s.itable e).dino := rfl

theorem wp_iupdate {Q : Unit → State → Prop}
    (hQ : s.lh.length < LOGBLOCKS → Q () (s.iupdated sb e))
    (hbig : LOGBLOCKS ≤ s.lh.length → E .tooBig) (hout : s.outstanding = 0 → E .outsideTrans) :
    wp (iupdate sb e) s Q E := by
  simp only [iupdate, wp_bind, wp_get]
  exact wp_logWrite hQ hbig hout

section Iupdated

variable (h : Inv sb lim s (some e)) (hsb : sb.Ok) (href : 0 < (s.itable e).ref)
include h hsb href

/-- The inodes stay in `iupdate`. -/
theorem Inv.view_iupdated {j : ℕ} (hj : j < sb.ninodes.toNat) :
    (s.iupdated sb e).view sb (some e) j = s.view sb (some e) j := by
  by_cases hji : j = (s.itable e).inum
  · rw [hji, State.view_self]
    exact update_self ..
  · rw [State.view_of_ne hji, State.view_of_ne (s := s.iupdated sb e) hji, State.iupdated_disk,
      dinodeAt_putDinode_of_ne hsb (h.inums e href).2 hj hji]

/-- The blocks of the files stay in `iupdate`. -/
theorem Inv.disk_iupdated {l : ℕ × Place} {b : BlockNo} (hl : s.locs sb (some e) l = some b) :
    (s.iupdated sb e).disk b = s.disk b := by
  have hlt : (iblock sb (s.itable e).inum).toNat < sb.nmeta :=
    lt_of_lt_of_le (iblock_lt hsb (h.inums e href).2) (bmapstart_le hsb)
  rw [State.iupdated_disk, putDinode, update_of_ne]
  exact (ne_of_nmeta_le (h.nmeta_le hl) hlt).symm

/-- The places stay in `iupdate`. -/
theorem Inv.locs_iupdated : (s.iupdated sb e).locs sb (some e) = s.locs sb (some e) := by
  have hlt : (iblock sb (s.itable e).inum).toNat < sb.nmeta :=
    lt_of_lt_of_le (iblock_lt hsb (h.inums e href).2) (bmapstart_le hsb)
  rw [State.locs, locs_congr fun j _ hj => h.view_iupdated hsb href hj]
  exact locs_update_disk (fun j hj => absurd (h.nmeta_le hj) (Nat.not_le.mpr hlt)) _

/-- After `iupdate` the disk has the copy in the entry. -/
theorem Inv.iupdated : Inv sb lim (s.iupdated sb e) (some e) ∧
    (s.itable e).dino = dinodeAt sb (s.iupdated sb e).disk (s.itable e).inum := by
  have hi := (h.inums e href).2
  have hlocs := h.locs_iupdated hsb href
  refine ⟨h.of_mono ?_ (fun j hj => by rw [h.view_iupdated hsb href hj])
    (fun j hj => by rw [h.view_iupdated hsb href hj]) (fun l b hl => by rw [hlocs, hl])
    (fun e' => ⟨rfl, rfl, rfl⟩) (fun e' hr ho => ⟨rfl, ?_⟩)
    fun l b _ hl => h.disk_iupdated hsb href hl, ?_⟩
  · rw [hlocs]
    exact h.owned.congr (fun _ => rfl) fun b => used_putDinode hsb hi b
  · rw [State.iupdated_disk]
    refine dinodeAt_putDinode_of_ne hsb hi (h.inums e' hr).2 fun heq => ho ?_
    rw [h.unique e' e hr href heq]
  · rw [State.iupdated_disk, dinodeAt_putDinode_self]

end Iupdated

/-! ## `bmap` -/

/-- What `bmap` leaves. -/
structure Mapped (sb : Superblock) (lim : ℕ) (s : State) (e : EntryId) (s' : State) : Prop where
  inv : Inv sb lim s' (some e)
  others : ∀ e', e' ≠ e → s'.itable e' = s.itable e'
  entry : s'.itable e = { s.itable e with
    dino := { (s.itable e).dino with addrs := (s'.itable e).dino.addrs } }
  locked : s'.locked = s.locked
  outstanding : s'.outstanding = s.outstanding
  inodes : ∀ j, j < sb.ninodes.toNat → dinodeAt sb s'.disk j = dinodeAt sb s.disk j
  mono : ∀ l b, s.locs sb (some e) l = some b → s'.locs sb (some e) l = some b
  rest : ∀ l, l.1 ≠ (s.itable e).inum → s'.locs sb (some e) l = s.locs sb (some e) l
  data : ∀ l b, l.2 ≠ .root → s.locs sb (some e) l = some b → s'.disk b = s.disk b

theorem Mapped.refl (h : Inv sb lim s (some e)) : Mapped sb lim s e s :=
  ⟨h, fun _ _ => rfl, rfl, rfl, rfl, fun _ _ => rfl, fun _ _ hl => hl, fun _ _ => rfl,
    fun _ _ _ _ => rfl⟩

theorem Mapped.inum (h : Mapped sb lim s e s') : (s'.itable e).inum = (s.itable e).inum := by
  rw [h.entry]

theorem Mapped.ref (h : Mapped sb lim s e s') : (s'.itable e).ref = (s.itable e).ref := by
  rw [h.entry]

theorem Mapped.size (h : Mapped sb lim s e s') : (s'.itable e).dino.size = (s.itable e).dino.size :=
    by
  rw [h.entry]

theorem Mapped.type (h : Mapped sb lim s e s') : (s'.itable e).dino.type = (s.itable e).dino.type :=
    by
  rw [h.entry]

theorem Mapped.trans {s₁ : State} (h₁ : Mapped sb lim s e s₁) (h₂ : Mapped sb lim s₁ e s') :
    Mapped sb lim s e s' := by
  refine ⟨h₂.inv, fun e' he => ?_, ?_, ?_, ?_, fun j hj => ?_,
    fun l b hl => h₂.mono l b (h₁.mono l b hl), fun l hl => ?_, fun l b hroot hl => ?_⟩
  · rw [h₂.others e' he, h₁.others e' he]
  · have h := h₂.entry
    rw [h₁.entry] at h
    exact h
  · rw [h₂.locked, h₁.locked]
  · rw [h₂.outstanding, h₁.outstanding]
  · rw [h₂.inodes j hj, h₁.inodes j hj]
  · rw [h₂.rest l (by rwa [h₁.inum]), h₁.rest l hl]
  · rw [h₂.data l b hroot (h₁.mono l b hl), h₁.data l b hroot hl]

/-- The places that `s'` has and `s` has not are places of the entry's inode in `P`. -/
def Grown (sb : Superblock) (s : State) (e : EntryId) (P : Finset Place) (s' : State) : Prop :=
  ∀ l b, s'.locs sb (some e) l = some b →
    s.locs sb (some e) l = some b ∨ l.1 = (s.itable e).inum ∧ l.2 ∈ P

theorem Grown.refl {P : Finset Place} : Grown sb s e P s := fun _ _ hl => .inl hl

theorem Grown.trans {P : Finset Place} (h₁ : Grown sb s e P s₁) (h₂ : Grown sb s₁ e P s')
    (hinum : (s₁.itable e).inum = (s.itable e).inum) : Grown sb s e P s' := by
  intro l b hl
  rcases h₂ l b hl with hl₁ | hnew
  · exact h₁ l b hl₁
  · rw [hinum] at hnew
    exact .inr hnew

theorem Grown.subset {P P' : Finset Place} (h : Grown sb s e P s') (hP : P ⊆ P') :
    Grown sb s e P' s' := fun l b hl => (h l b hl).imp_right fun hnew => ⟨hnew.1, hP hnew.2⟩

theorem Grown.of_update {P : Finset Place} {pl : Place} (hpl : pl ∈ P)
    (h : s'.locs sb (some e) =
      update (s.locs sb (some e)) ((s.itable e).inum, pl) (some a)) :
    Grown sb s e P s' := by
  intro l b hl
  by_cases hlp : l = ((s.itable e).inum, pl)
  · subst hlp
    exact .inr ⟨rfl, hpl⟩
  · rw [h, update_of_ne hlp] at hl
    exact .inl hl

/-- No block is free, and a place of the entry's inode in `P` names none. -/
def Full (sb : Superblock) (s : State) (e : EntryId) (P : Finset Place) : Prop :=
  (∀ b : BlockNo, b.toNat < sb.size.toNat → Used sb s.disk b) ∧
    ∃ pl ∈ P, s.locs sb (some e) ((s.itable e).inum, pl) = none

theorem Full.subset {P P' : Finset Place} (h : Full sb s e P) (hP : P ⊆ P') : Full sb s e P' :=
  ⟨h.1, h.2.imp fun _ hpl => ⟨hP hpl.1, hpl.2⟩⟩

/-- The inode of an entry of allocated type is allocated in the view. -/
theorem Inv.allocated (h : Inv sb lim s (some e)) (href : 0 < (s.itable e).ref)
    (htype : (s.itable e).dino.type ≠ 0) : s.Allocated sb (some e) (s.itable e).inum :=
  ⟨(h.inums e href).1, (h.inums e href).2, by rwa [State.view_self]⟩

/-- A place of the inode takes the block from `balloc`. -/
theorem Inv.take (h : Inv sb lim s (some e)) (hsb : sb.Ok) (ha : Alloced sb s a s₁) {pl : Place}
    (hnone : s.locs sb (some e) ((s.itable e).inum, pl) = none)
    (hlocs : s'.locs sb (some e) =
      update (s.locs sb (some e)) ((s.itable e).inum, pl) (some a))
    (hused : ∀ c, Used sb s'.disk c ↔ Used sb s₁.disk c)
    (hinodes : ∀ j, j < sb.ninodes.toNat → dinodeAt sb s'.disk j = dinodeAt sb s₁.disk j)
    (hdata : ∀ l b, l.2 ≠ .root → s.locs sb (some e) l = some b → s'.disk b = s₁.disk b)
    (hothers : ∀ e', e' ≠ e → s'.itable e' = s.itable e')
    (hentry : s'.itable e = { s.itable e with
      dino := { (s.itable e).dino with addrs := (s'.itable e).dino.addrs } })
    (hlocked : s'.locked = s.locked) (houtstanding : s'.outstanding = s.outstanding) :
    Mapped sb lim s e s' := by
  have hfree := h.nmeta_le_of_free ha.free
  have hkeep (e' : EntryId) : (s'.itable e').inum = (s.itable e').inum ∧
      (s'.itable e').ref = (s.itable e').ref ∧ (s'.itable e').valid = (s.itable e').valid := by
    by_cases he : e' = e
    · rw [he, hentry]
      exact ⟨rfl, rfl, rfl⟩
    · rw [hothers e' he]
      exact ⟨rfl, rfl, rfl⟩
  have hdino (j : ℕ) (hj : j < sb.ninodes.toNat) : dinodeAt sb s'.disk j = dinodeAt sb s.disk j :=
    by
    rw [hinodes j hj, ha.dinodeAt hsb hfree hj]
  have hfields (j : ℕ) (hj : j < sb.ninodes.toNat) :
      (s'.view sb (some e) j).size = (s.view sb (some e) j).size ∧
        (s'.view sb (some e) j).type = (s.view sb (some e) j).type := by
    by_cases hji : j = (s.itable e).inum
    · rw [hji, State.view_self, ← (hkeep e).1, State.view_self, hentry]
      exact ⟨rfl, rfl⟩
    · rw [State.view_of_ne hji, State.view_of_ne (by rwa [(hkeep e).1]), hdino j hj]
      exact ⟨rfl, rfl⟩
  have hmono (l : ℕ × Place) (b : BlockNo) (hl : s.locs sb (some e) l = some b) :
      s'.locs sb (some e) l = some b := by
    rw [hlocs, update_of_ne, hl]
    rintro rfl
    simp [hnone] at hl
  have hdata' (l : ℕ × Place) (b : BlockNo) (hroot : l.2 ≠ .root)
      (hl : s.locs sb (some e) l = some b) : s'.disk b = s.disk b := by
    rw [hdata l b hroot hl]
    refine ha.disk_of_ne hsb (h.nmeta_le hl) fun hba => ?_
    exact h.owned.loc_ne ha.free l (hba ▸ hl)
  refine ⟨h.of_mono ?_ (fun j hj => (hfields j hj).1) (fun j hj => (hfields j hj).2) hmono hkeep
    (fun e' hr ho => ?_) hdata', hothers, hentry, hlocked, houtstanding, hdino, hmono,
    fun l hl => ?_, hdata'⟩
  · rw [hlocs]
    refine h.owned.alloc hnone ha.free fun c => ?_
    rw [hused, ha.used_iff hsb hfree]
  · rw [hothers e' fun he => ho (by rw [he]), hdino _ (h.inums e' hr).2]
    exact ⟨rfl, rfl⟩
  · rw [hlocs, update_of_ne]
    rintro rfl
    exact hl rfl

/-- The block from `balloc` is not an indirect block, and neither is the bitmap. -/
theorem Inv.locs_alloced (h : Inv sb lim s (some e)) (hsb : sb.Ok) (ha : Alloced sb s a s₁) :
    Fs.locs sb.ninodes.toNat s₁.disk (s.view sb (some e)) = s.locs sb (some e) := by
  have hmark : Fs.locs sb.ninodes.toNat (markUsed sb s.disk a.toNat) (s.view sb (some e)) =
      s.locs sb (some e) := by
    refine locs_update_disk (fun j hj => ?_) _
    exact absurd (bblock_lt hsb ha.size).2 (Nat.not_lt.mpr (h.nmeta_le hj))
  rw [ha.disk, locs_update_disk fun j hj => ?_, hmark]
  rw [hmark] at hj
  exact h.owned.loc_ne ha.free _ hj

/-- An address of the inode, direct or of the indirect block. -/
def placeOf (k : Fin (NDIRECT + 1)) : Place :=
  if hk : k.val < NDIRECT then .direct ⟨k.val, hk⟩ else .root

theorem placeOf_castSucc (k : Fin NDIRECT) : placeOf k.castSucc = .direct k :=
  dif_pos k.isLt

theorem placeOf_last : placeOf (Fin.last NDIRECT) = .root := by decide

theorem addrOf_placeOf (d : Disk) (x : Dinode) (k : Fin (NDIRECT + 1)) :
    addrOf d x (placeOf k) = nonzero (x.addrs k) := by
  induction k using Fin.lastCases with
  | last => rw [placeOf_last]; rfl
  | cast k => rw [placeOf_castSucc]; rfl

/-- An allocated inode without the address `k` gets the block `a` of zeros. -/
theorem locs_setAddr {n : ℕ} {d : Disk} {dino : ℕ → Dinode} {i : ℕ} (hi : Fs.Allocated n dino i)
    (k : Fin (NDIRECT + 1)) (hk : (dino i).addrs k = 0) (ha : a ≠ 0) (hzero : d a = fun _ => 0) :
    Fs.locs n d (update dino i (setAddr (dino i) k a)) =
      update (Fs.locs n d dino) (i, placeOf k) (some a) := by
  rw [← nonzero_of_ne ha]
  induction k using Fin.lastCases with
  | last =>
    rw [placeOf_last]
    exact locs_update_root hi hk hzero
  | cast k =>
    rw [placeOf_castSucc]
    exact locs_update_direct hi k a

/-- The address `k`, direct or of the indirect block. -/
theorem Inv.wp_addrFor (h : Inv sb lim s (some e)) (hsb : sb.Ok) (href : 0 < (s.itable e).ref)
    (htype : (s.itable e).dino.type ≠ 0) (k : Fin (NDIRECT + 1)) :
    wp (addrFor sb e k) s (fun a s' => Mapped sb lim s e s' ∧ Grown sb s e {placeOf k} s' ∧
      (a = 0 ∧ Full sb s' e {placeOf k} ∨
        s'.locs sb (some e) ((s.itable e).inum, placeOf k) = some a)) Safe := by
  have hi := h.allocated href htype
  have hloc : s.locs sb (some e) ((s.itable e).inum, placeOf k) =
      nonzero ((s.itable e).dino.addrs k) := by
    rw [State.locs, locs_of_allocated hi, State.view_self, addrOf_placeOf]
  simp only [addrFor, wp_bind, wp_get]
  rw [wp_ite]
  refine ⟨fun hk => ?_, fun hk => ?_⟩
  · refine wp_call (wp_balloc (h.used_zero hsb) ⟨by simp, by simp⟩ ⟨by simp, by simp⟩)
      fun a s₁ hs₁ => ?_
    rcases hs₁ with ⟨rfl, rfl, hfull⟩ | ⟨ha0, ha⟩
    · refine ⟨.refl h, .refl, .inl ⟨rfl, fun _ => used_of_freeBlock hfull, placeOf k,
        Finset.mem_singleton_self _, ?_⟩⟩
      rw [hloc, hk, nonzero_zero]
    · rw [wp_ite]
      refine ⟨fun h0 => absurd h0 ha0, fun _ => ?_⟩
      simp only [wp_bind, wp_modify, wp_pure]
      generalize hs' : s₁.setDino e (setAddr (s₁.itable e).dino k a) = s'
      have hfree := h.nmeta_le_of_free ha.free
      have hdisk : s'.disk = s₁.disk := by rw [← hs']; rfl
      have hentry : s'.itable e = { s.itable e with dino := setAddr (s.itable e).dino k a } := by
        rw [← hs', ← ha.itable]
        exact update_self ..
      have hview (j : ℕ) (hj : j < sb.ninodes.toNat) : s'.view sb (some e) j =
          update (s.view sb (some e)) (s.itable e).inum
            (setAddr (s.view sb (some e) (s.itable e).inum) k a) j := by
        have hinum : (s'.itable e).inum = (s.itable e).inum := by rw [hentry]
        by_cases hji : j = (s.itable e).inum
        · rw [hji, update_self, ← hinum, State.view_self, hinum, State.view_self, hentry]
        · rw [update_of_ne hji, State.view_of_ne hji, State.view_of_ne (by rwa [hinum]),
            hdisk, ha.dinodeAt hsb hfree hj]
      have hzero : s₁.disk a = fun _ => 0 := by rw [ha.disk, update_self]
      have hlocs : s'.locs sb (some e) = update (s.locs sb (some e))
          ((s.itable e).inum, placeOf k) (some a) := by
        rw [State.locs, locs_congr fun j _ hj => hview j hj, hdisk,
          locs_setAddr hi k (by rwa [State.view_self]) ha0 hzero, h.locs_alloced hsb ha]
      refine ⟨h.take hsb ha (by rw [hloc, hk, nonzero_zero]) hlocs (fun c => by rw [hdisk])
        (fun j _ => by rw [hdisk]) (fun l b _ _ => by rw [hdisk]) (fun e' he => ?_) ?_ ?_ ?_,
        .of_update (Finset.mem_singleton_self _) hlocs, .inr ?_⟩
      · rw [← hs', ← ha.itable]
        exact update_of_ne he ..
      · rw [hentry]
        rfl
      · rw [← hs']
        exact ha.locked
      · rw [← hs']
        exact ha.outstanding
      · rw [hlocs, update_self]
  · exact ⟨.refl h, .refl, .inr (by rw [hloc, nonzero_of_ne hk])⟩

/-- The address `j` in the indirect block `r`. -/
theorem Inv.wp_indirectFor (h : Inv sb lim s (some e)) (hsb : sb.Ok) {r : BlockNo}
    (hr : s.locs sb (some e) ((s.itable e).inum, .root) = some r) (j : Fin NINDIRECT) :
    wp (indirectFor sb r j.val) s (fun a s' => Mapped sb lim s e s' ∧ Grown sb s e {.entry j} s' ∧
      (a = 0 ∧ Full sb s' e {.entry j} ∨
        s'.locs sb (some e) ((s.itable e).inum, .entry j) = some a)) Safe := by
  have hi := allocated_of_locs hr
  have hloc : s.locs sb (some e) ((s.itable e).inum, .entry j) =
      nonzero (wordAt (s.disk r) j.val) := by
    rw [State.locs, locs_of_allocated hi] at hr ⊢
    simp only [addrOf] at hr ⊢
    rw [hr]
    rfl
  have hrmeta := h.nmeta_le hr
  simp only [indirectFor, wp_bind, wp_get]
  rw [wp_ite]
  refine ⟨fun hj => ?_, fun hj => ?_⟩
  · refine wp_call (wp_balloc (h.used_zero hsb) ⟨by simp, by simp⟩ ⟨by simp, by simp⟩)
      fun a s₁ hs₁ => ?_
    rcases hs₁ with ⟨rfl, rfl, hfull⟩ | ⟨ha0, ha⟩
    · refine ⟨.refl h, .refl, .inl ⟨rfl, fun _ => used_of_freeBlock hfull, .entry j,
        Finset.mem_singleton_self _, ?_⟩⟩
      rw [hloc, hj, nonzero_zero]
    · rw [wp_ite]
      refine ⟨fun h0 => absurd h0 ha0, fun _ => ?_⟩
      simp only [wp_bind, wp_get]
      refine wp_logWrite (fun _ => ?_) (fun _ => ⟨by simp, by simp⟩) fun _ => ⟨by simp, by simp⟩
      rw [wp_pure]
      generalize hs' : s₁.logged r (setWord (s₁.disk r) j.val a) = s'
      have hfree := h.nmeta_le_of_free ha.free
      have hdisk : s'.disk = update s₁.disk r (setWord (s₁.disk r) j.val a) := by
        rw [← hs']
        rfl
      have hitable : s'.itable = s.itable := by
        rw [← hs', ← ha.itable]
        rfl
      have hinodes (i : ℕ) (hi : i < sb.ninodes.toNat) :
          dinodeAt sb s'.disk i = dinodeAt sb s₁.disk i := by
        rw [hdisk, dinodeAt_update hsb hrmeta hi]
      have hview (i : ℕ) (hi : i < sb.ninodes.toNat) :
          s'.view sb (some e) i = s.view sb (some e) i := by
        by_cases hji : i = (s.itable e).inum
        · rw [hji, State.view_self, ← hitable, State.view_self]
        · rw [State.view_of_ne hji, State.view_of_ne (by rwa [hitable]), hinodes i hi,
            ha.dinodeAt hsb hfree hi]
      have hlocs₁ := h.locs_alloced hsb ha
      have hlocs : s'.locs sb (some e) = update (s.locs sb (some e))
          ((s.itable e).inum, .entry j) (some a) := by
        rw [State.locs, locs_congr fun i _ hi => hview i hi, hdisk,
          locs_update_entry (by rw [hlocs₁]; exact hr) (fun i hri => ?_) j a, hlocs₁,
          nonzero_of_ne ha0]
        rw [hlocs₁] at hri
        exact (Prod.mk.inj (h.owned.inj _ _ r hri hr)).1
      refine ⟨h.take hsb ha (by rw [hloc, hj, nonzero_zero]) hlocs
        (fun c => by rw [hdisk, used_update hsb hrmeta]) hinodes (fun l b hroot hl => ?_)
        (fun e' _ => by rw [hitable]) (by rw [hitable]) ?_ ?_,
        .of_update (Finset.mem_singleton_self _) hlocs, .inr ?_⟩
      · rw [hdisk, update_of_ne]
        rintro rfl
        exact hroot (congrArg Prod.snd (h.owned.inj _ _ b hl hr))
      · rw [← hs']
        exact ha.locked
      · rw [← hs']
        exact ha.outstanding
      · rw [hlocs, update_self]
  · exact ⟨.refl h, .refl, .inr (by rw [hloc, nonzero_of_ne hj])⟩

/-- The places on the way to the block `bn` of a file. -/
def pathTo (bn : ℕ) : Finset Place :=
  if bn < NDIRECT then {.ofIndex bn} else {.root, .ofIndex bn}

/-- `bmap` returns the block `bn` of the file, or 0. -/
theorem Inv.wp_bmap (h : Inv sb lim s (some e)) (hsb : sb.Ok) (href : 0 < (s.itable e).ref)
    (htype : (s.itable e).dino.type ≠ 0) {bn : ℕ} (hbn : bn < MAXFILE) :
    wp (bmap sb e bn) s (fun a s' => Mapped sb lim s e s' ∧ Grown sb s e (pathTo bn) s' ∧
      (a = 0 ∧ Full sb s' e (pathTo bn) ∨
        s'.locs sb (some e) ((s.itable e).inum, .ofIndex bn) = some a)) Safe := by
  unfold bmap
  rcases Place.ofIndex_cases hbn with ⟨hlt, k, hk, hpl⟩ | ⟨hlt, j, hj, hpl⟩
  · rw [if_pos hlt, pathTo, if_pos hlt, hpl, ← hk, ← placeOf_castSucc]
    exact h.wp_addrFor hsb href htype _
  · have hlt' : bn - NDIRECT < NINDIRECT := by
      rw [← hj]
      exact j.isLt
    rw [if_neg hlt, if_pos hlt', pathTo, if_neg hlt, hpl, ← hj]
    refine wp_call (h.wp_addrFor hsb href htype _) fun a s₁ hs₁ => ?_
    rw [placeOf_last] at hs₁
    obtain ⟨hm, hgrown, ha⟩ := hs₁
    have hgrown' : Grown sb s e {.root, .entry j} s₁ := hgrown.subset (by simp)
    rw [wp_ite]
    rcases ha with ⟨rfl, hfull⟩ | hroot
    · exact ⟨fun _ => ⟨hm, hgrown', .inl ⟨rfl, hfull.subset (by simp)⟩⟩, fun h0 => absurd rfl h0⟩
    · refine ⟨fun h0 => absurd h0 (ne_zero_of_locs hroot), fun _ => ?_⟩
      rw [← hm.inum] at hroot
      refine (hm.inv.wp_indirectFor hsb hroot j).imp fun a' s₂ hs₂ => ?_
      obtain ⟨hm₂, hgrown₂, ha₂⟩ := hs₂
      rw [hm.inum] at ha₂
      exact ⟨hm.trans hm₂, hgrown'.trans (hgrown₂.subset (by simp)) hm.inum,
        ha₂.imp_left fun hnone => ⟨hnone.1, hnone.2.subset (by simp)⟩⟩

end SustainableXv6.Inode
