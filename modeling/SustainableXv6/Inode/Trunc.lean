import SustainableXv6.Inode.Entries

/-!
# `itrunc` and `iput`

`itrunc` frees the blocks of an inode place by place. In its loops the addresses in the indirect
block still name blocks that have been freed, so that `Freeing` says which places have been given
up, and compares the bitmap with the one before. All that `itrunc` writes is the bitmap and the
inode, so that its transaction has as many blocks as there are blocks of the bitmap for the file,
and one.
-/

namespace SustainableXv6.Inode

open Fs Function Lib

variable {sb : Superblock} {lim : ℕ} {s s' s₀ : State} {e : EntryId} {E : Panic → Prop}
  {L : List BlockNo → Prop}

/-! ## The loops -/

/-- The blocks that `itrunc` writes: the inode, and the bitmap for the blocks of the file. -/
def TruncBlock (sb : Superblock) (s : State) (e : EntryId) (c : BlockNo) : Prop :=
  c = iblock sb (s.itable e).inum ∨
    ∃ pl b, s.locs sb (some e) ((s.itable e).inum, pl) = some b ∧ c = bblock sb b.toNat

/-- The places `F` of the entry's inode have been given up since the state `s₀`. The transaction
satisfies `L`. -/
structure Freeing (sb : Superblock) (L : List BlockNo → Prop) (s₀ : State) (e : EntryId)
    (F : Place → Prop) (s : State) : Prop where
  bitmap : ∀ b, Used sb s.disk b ↔ Used sb s₀.disk b ∧
    ∀ pl, F pl → s₀.locs sb (some e) ((s₀.itable e).inum, pl) ≠ some b
  disk : ∀ b, (∀ c, c < sb.size.toNat → b ≠ bblock sb c) → s.disk b = s₀.disk b
  others : ∀ e', e' ≠ e → s.itable e' = s₀.itable e'
  entry : s.itable e = { s₀.itable e with
    dino := { (s₀.itable e).dino with addrs := (s.itable e).dino.addrs } }
  locked : s.locked = s₀.locked
  outstanding : s.outstanding = s₀.outstanding
  log : L s.lh
  logged : ∀ pl b, F pl → s₀.locs sb (some e) ((s₀.itable e).inum, pl) = some b →
    bblock sb b.toNat ∈ s.lh

namespace Freeing

variable {F : Place → Prop} {pl : Place} {b : BlockNo}

theorem refl (h : L s.lh) : Freeing sb L s e (fun _ => False) s :=
  ⟨fun b => by simp, fun _ _ => rfl, fun _ _ => rfl, rfl, rfl, rfl, h, fun _ _ hF => hF.elim⟩

theorem congr {F' : Place → Prop} (h : Freeing sb L s₀ e F s) (hF : ∀ pl, F' pl ↔ F pl) :
    Freeing sb L s₀ e F' s := by
  obtain rfl : F' = F := funext fun pl => propext (hF pl)
  exact h

/-- A place that names no block. -/
theorem skip (h : Freeing sb L s₀ e F s)
    (hpl : s₀.locs sb (some e) ((s₀.itable e).inum, pl) = none) :
    Freeing sb L s₀ e (fun q => q = pl ∨ F q) s := by
  refine ⟨fun b => ?_, h.disk, h.others, h.entry, h.locked, h.outstanding, h.log, ?_⟩
  · rw [h.bitmap]
    refine and_congr_right fun _ => ⟨?_, fun hall q hq => hall q (.inr hq)⟩
    rintro hall q (rfl | hq)
    · simp [hpl]
    · exact hall q hq
  · rintro q b (rfl | hq) hb
    · simp [hpl] at hb
    · exact h.logged q b hq hb

/-- The addresses in the entry may change. -/
theorem setAddr (h : Freeing sb L s₀ e F s) (k : Fin (NDIRECT + 1)) (a : BlockNo) :
    Freeing sb L s₀ e F (s.setDino e (setAddr (s.itable e).dino k a)) := by
  refine ⟨h.bitmap, h.disk, fun e' he => ?_, ?_, h.locked, h.outstanding, h.log,
    h.logged⟩
  · rw [State.setDino_of_ne _ he, h.others e' he]
  · rw [State.setDino_self, h.entry]
    rfl

variable (hsb : sb.Ok) (h₀ : Inv sb lim s₀ (some e))
  (hL : ∀ l c, TruncBlock sb s₀ e c → L l → L (addLog l c))
  (hbig : ∀ l, L l → LOGBLOCKS ≤ l.length → E .tooBig)
  (hout : s₀.outstanding = 0 → E .outsideTrans)
include hsb h₀ hL hbig hout

/-- `bfree` of the block at a place that has not been given up. -/
theorem wp_bfree (h : Freeing sb L s₀ e F s)
    (hpl : s₀.locs sb (some e) ((s₀.itable e).inum, pl) = some b) (hF : ¬ F pl) :
    wp (bfree sb b) s (fun _ s' => Freeing sb L s₀ e (fun q => q = pl ∨ F q) s' ∧
      s'.itable = s.itable) E := by
  have hused₀ := h₀.owned.used_of_loc hpl
  have hused : Used sb s.disk b := by
    refine (h.bitmap b).mpr ⟨hused₀, fun q hq hqb => hF ?_⟩
    rwa [(Prod.mk.inj (h₀.owned.inj _ _ b hqb hpl)).2] at hq
  refine Inode.wp_bfree hused (fun _ => ⟨⟨fun c => ?_, fun c hc => ?_, h.others, h.entry, h.locked,
    h.outstanding, hL _ _ (.inr ⟨pl, b, hpl, rfl⟩) h.log, ?_⟩, rfl⟩) (hbig _ h.log)
    fun h0 => hout (h.outstanding ▸ h0)
  · rw [show (s.logged _ _).disk = markFree sb s.disk b.toNat from rfl, used_markFree hsb hused.1,
      h.bitmap]
    constructor
    · rintro ⟨hcb, hc, hall⟩
      refine ⟨hc, ?_⟩
      rintro q (rfl | hq)
      · rw [hpl]
        exact fun hbc => hcb (Option.some.inj hbc).symm
      · exact hall q hq
    · rintro ⟨hc, hall⟩
      refine ⟨?_, hc, fun q hq => hall q (.inr hq)⟩
      rintro rfl
      exact hall pl (.inl rfl) hpl
  · rw [State.logged_disk, update_of_ne (hc b.toNat hused.1), h.disk c hc]
  · rintro q c (rfl | hq) hqc
    · rw [Option.some.inj (hqc.symm.trans hpl)]
      exact mem_addLog.mpr (.inl rfl)
    · exact mem_addLog.mpr (.inr (h.logged q c hq hqc))

end Freeing

/-- The addresses of the entry's inode in the view. -/
theorem Inv.locs_placeOf (h : Inv sb lim s (some e)) (href : 0 < (s.itable e).ref)
    (htype : (s.itable e).dino.type ≠ 0) (k : Fin (NDIRECT + 1)) :
    s.locs sb (some e) ((s.itable e).inum, placeOf k) = nonzero ((s.itable e).dino.addrs k) := by
  rw [State.locs, locs_of_allocated (h.allocated href htype), State.view_self, addrOf_placeOf]

section Loops

variable (hsb : sb.Ok) (h₀ : Inv sb lim s₀ (some e)) (href : 0 < (s₀.itable e).ref)
  (htype : (s₀.itable e).dino.type ≠ 0) (hlog : L s₀.lh)
  (hL : ∀ l c, TruncBlock sb s₀ e c → L l → L (addLog l c))
  (hbig : ∀ l, L l → LOGBLOCKS ≤ l.length → E .tooBig)
  (hout : s₀.outstanding = 0 → E .outsideTrans)
include hsb h₀ href htype hlog hL hbig hout

omit hlog in
/-- A round of the loop over the direct addresses, after the first `n` of them have been cleared. -/
theorem Inv.wp_truncDirect_round {n : ℕ} (hn : n < NDIRECT)
    (hfree : Freeing sb L s₀ e (fun pl => ∃ k : Fin NDIRECT, k.val < n ∧ pl = .direct k) s)
    (haddrs : ∀ l : Fin (NDIRECT + 1), (s.itable e).dino.addrs l =
      if l.val < n then 0 else (s₀.itable e).dino.addrs l) :
    wp (truncDirect sb e n) s (fun _ s' =>
      Freeing sb L s₀ e (fun pl => ∃ k : Fin NDIRECT, k.val < n + 1 ∧ pl = .direct k) s' ∧
        ∀ l : Fin (NDIRECT + 1), (s'.itable e).dino.addrs l =
          if l.val < n + 1 then 0 else (s₀.itable e).dino.addrs l) E := by
  have hval : (Fin.ofNat NDIRECT n).val = n := Nat.mod_eq_of_lt hn
  have hl : (s.itable e).dino.addrs (Fin.ofNat NDIRECT n).castSucc =
      (s₀.itable e).dino.addrs (Fin.ofNat NDIRECT n).castSucc := by
    rw [haddrs, if_neg]
    rw [Fin.val_castSucc, hval]
    exact Nat.lt_irrefl n
  have hloc : s₀.locs sb (some e) ((s₀.itable e).inum, .direct (Fin.ofNat NDIRECT n)) =
      nonzero ((s₀.itable e).dino.addrs (Fin.ofNat NDIRECT n).castSucc) := by
    rw [← placeOf_castSucc]
    exact h₀.locs_placeOf href htype _
  have hstep (pl : Place) : (∃ k : Fin NDIRECT, k.val < n + 1 ∧ pl = .direct k) ↔
      pl = .direct (Fin.ofNat NDIRECT n) ∨ ∃ k : Fin NDIRECT, k.val < n ∧ pl = .direct k := by
    constructor
    · rintro ⟨k, hk, rfl⟩
      by_cases hkn : k.val = n
      · left
        exact congrArg _ (Fin.ext (hkn.trans hval.symm))
      · exact .inr ⟨k, by omega, rfl⟩
    · rintro (rfl | ⟨k, hk, rfl⟩)
      · exact ⟨_, by omega, rfl⟩
      · exact ⟨k, by omega, rfl⟩
  -- The addresses other than number `n` are as before the round.
  have hkeep {l : Fin (NDIRECT + 1)} (hne : l.val ≠ n) : (s.itable e).dino.addrs l =
      if l.val < n + 1 then 0 else (s₀.itable e).dino.addrs l := by
    have hiff : l.val < n ↔ l.val < n + 1 := by omega
    rw [haddrs]
    simp only [hiff]
  have hself {l : Fin (NDIRECT + 1)} (hln : l.val = n) : l = (Fin.ofNat NDIRECT n).castSucc :=
    Fin.ext (by rw [Fin.val_castSucc, hval, hln])
  simp only [truncDirect, wp_bind, wp_get]
  rw [wp_ite]
  refine ⟨fun h0 => ⟨(hfree.skip ?_).congr hstep, fun l => ?_⟩, fun h0 => ?_⟩
  · rw [hloc, ← hl, h0, nonzero_zero]
  · by_cases hln : l.val = n
    · rw [if_pos (by omega), hself hln, h0]
    · exact hkeep hln
  · rw [hl] at h0 ⊢
    refine wp_call (hfree.wp_bfree hsb h₀ hL hbig hout (by rw [hloc, nonzero_of_ne h0]) ?_)
      fun _ s₁ hs₁ => ?_
    · rintro ⟨k, hk, hpl⟩
      rw [← Place.direct.inj hpl, hval] at hk
      exact Nat.lt_irrefl n hk
    · obtain ⟨hfree₁, hitable⟩ := hs₁
      refine ⟨(hfree₁.setAddr _ 0).congr hstep, fun l => ?_⟩
      rw [State.setDino_self, hitable]
      change update (s.itable e).dino.addrs _ 0 l = _
      by_cases hln : l.val = n
      · rw [hself hln, update_self, if_pos]
        rw [Fin.val_castSucc, hval]
        exact Nat.lt_succ_self n
      · rw [update_of_ne, hkeep hln]
        rintro rfl
        exact hln (by rw [Fin.val_castSucc, hval])

/-- The loop over the direct addresses. -/
theorem Inv.wp_truncDirect :
    wp (upto NDIRECT (truncDirect sb e)) s₀ (fun _ s =>
      Freeing sb L s₀ e (fun pl => ∃ k, pl = .direct k) s ∧
        ∀ l : Fin (NDIRECT + 1), (s.itable e).dino.addrs l =
          if l.val < NDIRECT then 0 else (s₀.itable e).dino.addrs l) E := by
  refine (wp_upto (fun n s => Freeing sb L s₀ e (fun pl => ∃ k : Fin NDIRECT, k.val < n ∧
    pl = .direct k) s ∧ ∀ l : Fin (NDIRECT + 1), (s.itable e).dino.addrs l =
      if l.val < n then 0 else (s₀.itable e).dino.addrs l) ⟨?_, fun l => ?_⟩
    fun n s hn hs => ?_).imp fun _ s hs => ⟨hs.1.congr fun pl => ?_, hs.2⟩
  · refine (Freeing.refl hlog).congr fun pl => ?_
    simp
  · simp
  · exact h₀.wp_truncDirect_round hsb href htype hL hbig hout hn hs.1 hs.2
  · constructor
    · rintro ⟨k, rfl⟩
      exact ⟨k, k.isLt, rfl⟩
    · rintro ⟨k, -, rfl⟩
      exact ⟨k, rfl⟩

omit href htype hlog in
/-- The loop over the addresses in the indirect block. -/
theorem Inv.wp_truncEntries {s : State} {n : ℕ} {r : BlockNo} (hn : n ≤ NINDIRECT)
    (hentry : ∀ j : Fin NINDIRECT, s₀.locs sb (some e) ((s₀.itable e).inum, .entry j) =
      nonzero (wordAt (s₀.disk r) j.val))
    (hfree : Freeing sb L s₀ e (fun pl => ∃ k, pl = .direct k) s) :
    wp (upto n fun j => if wordAt (s₀.disk r) j = 0 then pure ()
        else bfree sb (wordAt (s₀.disk r) j)) s
      (fun _ s' => Freeing sb L s₀ e (fun pl => (∃ k, pl = .direct k) ∨
        ∃ j : Fin NINDIRECT, j.val < n ∧ pl = .entry j) s' ∧
          (s'.itable e).dino = (s.itable e).dino) E := by
  refine wp_upto (fun n s' => Freeing sb L s₀ e (fun pl => (∃ k, pl = .direct k) ∨
    ∃ j : Fin NINDIRECT, j.val < n ∧ pl = .entry j) s' ∧
      (s'.itable e).dino = (s.itable e).dino) ⟨hfree.congr fun pl => by simp, rfl⟩
    fun m s' hm hs' => ?_
  obtain ⟨hfree', hdino⟩ := hs'
  have hlt : m < NINDIRECT := lt_of_lt_of_le hm hn
  have hstep (pl : Place) : ((∃ k, pl = .direct k) ∨
      ∃ j : Fin NINDIRECT, j.val < m + 1 ∧ pl = .entry j) ↔ pl = .entry ⟨m, hlt⟩ ∨
      (∃ k, pl = .direct k) ∨ ∃ j : Fin NINDIRECT, j.val < m ∧ pl = .entry j := by
    constructor
    · rintro (hk | ⟨j, hj, rfl⟩)
      · exact .inr (.inl hk)
      · by_cases hjn : j.val = m
        · exact .inl (congrArg _ (Fin.ext hjn))
        · exact .inr (.inr ⟨j, by omega, rfl⟩)
    · rintro (rfl | hk | ⟨j, hj, rfl⟩)
      · exact .inr ⟨_, Nat.lt_succ_self m, rfl⟩
      · exact .inl hk
      · exact .inr ⟨j, by omega, rfl⟩
  rw [wp_ite]
  refine ⟨fun hw => ⟨(hfree'.skip ?_).congr hstep, hdino⟩, fun hw => ?_⟩
  · rw [hentry ⟨m, hlt⟩, hw, nonzero_zero]
  · have hloc : s₀.locs sb (some e) ((s₀.itable e).inum, .entry ⟨m, hlt⟩) =
        some (wordAt (s₀.disk r) m) := by rw [hentry, nonzero_of_ne hw]
    refine (hfree'.wp_bfree hsb h₀ hL hbig hout hloc ?_).imp fun _ s₁ hs₁ =>
      ⟨hs₁.1.congr hstep, by rw [hs₁.2, hdino]⟩
    rintro (⟨k, hk⟩ | ⟨j, hj, hpl⟩)
    · simp at hk
    · rw [← Place.entry.inj hpl] at hj
      exact Nat.lt_irrefl m hj

omit hlog in
/-- The indirect block, and the blocks that it names. -/
theorem Inv.wp_truncIndirect {s : State}
    (hfree : Freeing sb L s₀ e (fun pl => ∃ k, pl = .direct k) s)
    (haddrs : ∀ l : Fin (NDIRECT + 1), (s.itable e).dino.addrs l =
      if l.val < NDIRECT then 0 else (s₀.itable e).dino.addrs l) :
    wp (truncIndirect sb e) s (fun _ s' => Freeing sb L s₀ e (fun _ => True) s' ∧
      (s'.itable e).dino.addrs = fun _ => 0) E := by
  have hi := h₀.allocated href htype
  have hroot := h₀.locs_placeOf href htype (Fin.last NDIRECT)
  rw [placeOf_last] at hroot
  have hr : (s.itable e).dino.addrs (Fin.last NDIRECT) =
      (s₀.itable e).dino.addrs (Fin.last NDIRECT) := by
    rw [haddrs, if_neg (by simp)]
  have hentry (j : Fin NINDIRECT) : s₀.locs sb (some e) ((s₀.itable e).inum, .entry j) =
      (nonzero ((s₀.itable e).dino.addrs (Fin.last NDIRECT))).bind fun r =>
        nonzero (wordAt (s₀.disk r) j.val) := by
    rw [State.locs, locs_of_allocated hi, State.view_self]
    rfl
  simp only [truncIndirect, wp_bind, wp_get, hr]
  rw [wp_ite]
  refine ⟨fun h0 => ⟨?_, funext fun l => ?_⟩, fun h0 => ?_⟩
  · -- There is no indirect block.
    rw [h0, nonzero_zero] at hroot
    simp only [h0, nonzero_zero, Option.bind_none] at hentry
    refine ⟨fun b => ?_, hfree.disk, hfree.others, hfree.entry, hfree.locked, hfree.outstanding,
      hfree.log, fun pl b _ hb => ?_⟩
    · rw [hfree.bitmap]
      refine and_congr_right fun _ => ⟨fun hall pl _ => ?_, fun hall pl _ => hall pl trivial⟩
      cases pl with
      | direct k => exact hall _ ⟨k, rfl⟩
      | root => simp [hroot]
      | entry j => simp [hentry]
    · cases pl with
      | direct k => exact hfree.logged _ b ⟨k, rfl⟩ hb
      | root => simp [hroot] at hb
      | entry j => simp [hentry] at hb
  · rw [haddrs]
    by_cases hl : l.val < NDIRECT
    · rw [if_pos hl]
    · have hlast : l = Fin.last NDIRECT := Fin.eq_last_of_not_lt fun h => hl h
      rw [if_neg hl, hlast, h0]
  · generalize hrr : (s₀.itable e).dino.addrs (Fin.last NDIRECT) = r at *
    rw [nonzero_of_ne h0] at hroot
    simp only [nonzero_of_ne h0, Option.bind_some] at hentry
    have hrmeta := h₀.nmeta_le hroot
    -- The indirect block is not part of the bitmap, so that its buffer has the old addresses.
    have hblock : s.disk r = s₀.disk r :=
      hfree.disk r fun c hc hb => absurd (bblock_lt hsb hc).2 (Nat.not_lt.mpr (hb ▸ hrmeta))
    have hloop := h₀.wp_truncEntries hsb hL hbig hout le_rfl hentry hfree
    rw [← hblock] at hloop
    rw [wp_bind]
    refine hloop.imp fun _ s₁ hs₁ => ?_
    obtain ⟨hfree₁, hdino₁⟩ := hs₁
    refine wp_call (hfree₁.wp_bfree hsb h₀ hL hbig hout hroot (by simp)) fun _ s₂ hs₂ => ?_
    obtain ⟨hfree₂, hitable₂⟩ := hs₂
    refine ⟨(hfree₂.setAddr _ 0).congr fun pl => ?_, ?_⟩
    · cases pl with
      | direct k => simp
      | root => simp
      | entry j => simp
    · rw [State.setDino_self, hitable₂, hdino₁]
      change update (s.itable e).dino.addrs _ 0 = _
      funext l
      by_cases hl : l = Fin.last NDIRECT
      · rw [hl, update_self]
      · have hlt : l.val < NDIRECT := Fin.val_lt_last hl
        rw [update_of_ne hl, haddrs, if_pos hlt]

end Loops

/-! ## `itrunc` -/

/-- What `itrunc` and `iput` leave of an inode: its blocks are free, and it is the one in the entry
`x`. -/
structure Truncated (sb : Superblock) (L : List BlockNo → Prop) (s₀ : State) (e : EntryId)
    (x : Entry)
    (s : State) : Prop where
  bitmap : ∀ b, Used sb s.disk b ↔ Used sb s₀.disk b ∧
    ∀ pl, s₀.locs sb (some e) ((s₀.itable e).inum, pl) ≠ some b
  disk : ∀ b, (∀ c, c < sb.size.toNat → b ≠ bblock sb c) → b ≠ iblock sb (s₀.itable e).inum →
    s.disk b = s₀.disk b
  inodes : ∀ j, j < sb.ninodes.toNat → j ≠ (s₀.itable e).inum →
    dinodeAt sb s.disk j = dinodeAt sb s₀.disk j
  inode : dinodeAt sb s.disk (s₀.itable e).inum = x.dino
  others : ∀ e', e' ≠ e → s.itable e' = s₀.itable e'
  entry : s.itable e = x
  locked : s.locked = s₀.locked
  outstanding : s.outstanding = s₀.outstanding
  log : L s.lh
  logged : ∀ pl b, s₀.locs sb (some e) ((s₀.itable e).inum, pl) = some b →
    bblock sb b.toNat ∈ s.lh
  inodeLogged : iblock sb (s₀.itable e).inum ∈ s.lh

/-- The entry of an inode without blocks. -/
def emptied (ip : Entry) (type : UInt16) : Entry :=
  { ip with dino := { ip.dino with type := type, size := 0, addrs := fun _ => 0 } }

/-- The inode in the entry is written, where its blocks are free. -/
theorem Truncated.iupdated {x : Entry} (hsb : sb.Ok) (hi : (s₀.itable e).inum < sb.ninodes.toNat)
    (hbitmap : ∀ b, Used sb s.disk b ↔ Used sb s₀.disk b ∧
      ∀ pl, s₀.locs sb (some e) ((s₀.itable e).inum, pl) ≠ some b)
    (hdisk : ∀ b, (∀ c, c < sb.size.toNat → b ≠ bblock sb c) →
      b ≠ iblock sb (s₀.itable e).inum → s.disk b = s₀.disk b)
    (hinodes : ∀ j, j < sb.ninodes.toNat → j ≠ (s₀.itable e).inum →
      dinodeAt sb s.disk j = dinodeAt sb s₀.disk j)
    (hothers : ∀ e', e' ≠ e → s.itable e' = s₀.itable e') (hentry : s.itable e = x)
    (hinum : x.inum = (s₀.itable e).inum) (hlocked : s.locked = s₀.locked)
    (hout : s.outstanding = s₀.outstanding) (hlog : L s.lh)
    (hL : ∀ l c, TruncBlock sb s₀ e c → L l → L (addLog l c))
    (hlogged : ∀ pl b, s₀.locs sb (some e) ((s₀.itable e).inum, pl) = some b →
      bblock sb b.toNat ∈ s.lh) : Truncated sb L s₀ e x (s.iupdated sb e) := by
  have hinum' : (s.itable e).inum = (s₀.itable e).inum := by rw [hentry, hinum]
  have hput : (s.iupdated sb e).disk = putDinode sb s.disk (s₀.itable e).inum x.dino := by
    rw [State.iupdated_disk, hinum', hentry]
  refine ⟨fun b => ?_, fun b hb hbi => ?_, fun j hj hji => ?_, ?_, hothers, hentry, hlocked, hout,
    ?_, fun pl b hb => ?_, ?_⟩
  · rw [hput, used_putDinode hsb hi, hbitmap]
  · rw [hput, putDinode, update_of_ne hbi, hdisk b hb hbi]
  · rw [hput, dinodeAt_putDinode_of_ne hsb hi hj hji, hinodes j hj hji]
  · rw [hput, dinodeAt_putDinode_self]
  · exact hL _ _ (.inl (by rw [hinum'])) hlog
  · exact mem_addLog.mpr (.inr (hlogged pl b hb))
  · exact mem_addLog.mpr (.inl (by rw [hinum']))

section Trunc

variable (hsb : sb.Ok) (h₀ : Inv sb lim s₀ (some e)) (href : 0 < (s₀.itable e).ref)
  (htype : (s₀.itable e).dino.type ≠ 0) (hlog : L s₀.lh)
  (hL : ∀ l c, TruncBlock sb s₀ e c → L l → L (addLog l c))
  (hbig : ∀ l, L l → LOGBLOCKS ≤ l.length → E .tooBig)
  (hout : s₀.outstanding = 0 → E .outsideTrans)
include hsb h₀ href htype hlog hL hbig hout

theorem Inv.wp_itrunc :
    wp (itrunc sb e) s₀ (fun _ s =>
      Truncated sb L s₀ e (emptied (s₀.itable e) (s₀.itable e).dino.type) s) E := by
  have hi := (h₀.inums e href).2
  unfold itrunc
  refine wp_call (h₀.wp_truncDirect hsb href htype hlog hL hbig hout) fun _ s₁ hs₁ => ?_
  refine wp_call (h₀.wp_truncIndirect hsb href htype hL hbig hout hs₁.1 hs₁.2) fun _ s₂ hs₂ => ?_
  obtain ⟨hfree, haddrs⟩ := hs₂
  simp only [wp_bind, wp_modify]
  generalize hs₃ : s₂.setDino e { (s₂.itable e).dino with size := 0 } = s₃
  have hentry : s₃.itable e = emptied (s₀.itable e) (s₀.itable e).dino.type := by
    have hold := hfree.entry
    rw [haddrs] at hold
    rw [← hs₃, State.setDino_self, hold]
    rfl
  refine wp_iupdate (fun _ => Truncated.iupdated hsb hi (fun b => ?_) (fun b hb _ => ?_)
    (fun j hj _ => ?_) (fun e' he => ?_) hentry rfl ?_ ?_ ?_ hL fun pl b hb => ?_) (fun hlen => ?_)
    fun h0 => ?_
  · rw [← hs₃]
    refine (hfree.bitmap b).trans (and_congr_right fun _ => ?_)
    exact ⟨fun hall pl => hall pl trivial, fun hall pl _ => hall pl⟩
  · rw [← hs₃]
    exact hfree.disk b hb
  · rw [← hs₃, dinodeAt, dinodeAt]
    exact congrArg (getDinode · _) (hfree.disk _ fun c hc => iblock_ne_bblock hsb hj hc)
  · rw [← hs₃, State.setDino_of_ne _ he, hfree.others e' he]
  · rw [← hs₃]
    exact hfree.locked
  · rw [← hs₃]
    exact hfree.outstanding
  · rw [← hs₃]
    exact hfree.log
  · rw [← hs₃]
    exact hfree.logged pl b trivial hb
  · rw [← hs₃] at hlen
    exact hbig _ hfree.log hlen
  · rw [← hs₃] at h0
    exact hout (hfree.outstanding ▸ h0)

/-- The second `iupdate` finds a transaction with all blocks that `itrunc` has written, and room for
one more. -/
theorem Inv.wp_ifree :
    wp (ifree sb e) s₀ (fun _ s =>
      Truncated sb L s₀ e { emptied (s₀.itable e) 0 with valid := false } s ∧
        ∀ T : Finset BlockNo, (∀ c ∈ T, TruncBlock sb s₀ e c) → T.card < LOGBLOCKS) E := by
  have hi := (h₀.inums e href).2
  unfold ifree
  refine wp_call (h₀.wp_itrunc hsb href htype hlog hL hbig hout) fun _ s₁ hs₁ => ?_
  simp only [wp_bind, wp_modify]
  generalize hs₂ : s₁.setDino e { (s₁.itable e).dino with type := 0 } = s₂
  have hentry : s₂.itable e = emptied (s₀.itable e) 0 := by
    rw [← hs₂, State.setDino_self, hs₁.entry]
    rfl
  refine wp_iupdate (fun hlen => ?_) (fun hlen => ?_) fun h0 => ?_
  · have ht : Truncated sb L s₀ e (emptied (s₀.itable e) 0) (s₂.iupdated sb e) := by
      refine Truncated.iupdated hsb hi ?_ ?_ ?_ (fun e' he => ?_) hentry rfl ?_ ?_ ?_ hL ?_
      · rw [← hs₂]
        exact hs₁.bitmap
      · rw [← hs₂]
        exact hs₁.disk
      · rw [← hs₂]
        exact hs₁.inodes
      · rw [← hs₂, State.setDino_of_ne _ he, hs₁.others e' he]
      · rw [← hs₂]
        exact hs₁.locked
      · rw [← hs₂]
        exact hs₁.outstanding
      · rw [← hs₂]
        exact hs₁.log
      · rw [← hs₂]
        exact hs₁.logged
    refine ⟨⟨ht.bitmap, ht.disk, ht.inodes, ht.inode, fun e' he => ?_, ?_, ht.locked,
      ht.outstanding,
      ht.log, ht.logged, ht.inodeLogged⟩, fun T hT => ?_⟩
    · rw [State.setEntry_of_ne _ he, ht.others e' he]
    · rw [State.setEntry_self, ht.entry]
    · refine lt_of_le_of_lt (le_length_of_subset (l := s₁.lh) fun c hc => ?_)
        (by rwa [← hs₂] at hlen)
      rcases hT c hc with rfl | ⟨pl, b, hb, rfl⟩
      · exact hs₁.inodeLogged
      · exact hs₁.logged pl b hb
  · rw [← hs₂] at hlen
    exact hbig _ hs₁.log hlen
  · rw [← hs₂] at h0
    exact hout (hs₁.outstanding ▸ h0)

end Trunc

/-! ## The invariant -/

/-- The invariant after the blocks of an inode have been freed. -/
theorem Truncated.inv {x : Entry} (h : Truncated sb L s₀ e x s) (hsb : sb.Ok)
    (h₀ : Inv sb lim s₀ (some e)) (href : 0 < (s₀.itable e).ref)
    (hinum : x.inum = (s₀.itable e).inum)
    (href' : x.ref = (s₀.itable e).ref) (hsize : x.dino.size = 0)
    (haddrs : x.dino.addrs = fun _ => 0) (htype : x.valid = true → x.dino.type ≠ 0) :
    Inv sb lim s none := by
  have hi := (h₀.inums e href).2
  have hview {j : ℕ} (hj : j < sb.ninodes.toNat) (hji : j ≠ (s₀.itable e).inum) :
      s.view sb none j = s₀.view sb (some e) j := by
    rw [State.view_of_ne hji]
    exact h.inodes j hj hji
  have hself : s.view sb none (s₀.itable e).inum = x.dino := h.inode
  have hnone (pl : Place) : addrOf s.disk x.dino pl = none := by
    cases pl with
    | direct k | root | entry k => simp [addrOf, haddrs]
  -- A data block has not been written.
  have hdata {b : BlockNo} (hb : sb.nmeta ≤ b.toNat) : s.disk b = s₀.disk b := by
    refine h.disk b (fun c hc => ?_) ?_
    · exact (ne_of_nmeta_le hb (bblock_lt hsb hc).2).symm
    · exact (ne_of_nmeta_le hb (lt_of_lt_of_le (iblock_lt hsb hi) (bmapstart_le hsb))).symm
  have hallocated {j : ℕ} (hji : j ≠ (s₀.itable e).inum) :
      s.Allocated sb none j ↔ s₀.Allocated sb (some e) j :=
    and_congr_right fun _ => and_congr_right fun hj => by rw [hview hj hji]
  have haddr {j : ℕ} (hj : s₀.Allocated sb (some e) j) (pl : Place) :
      addrOf s.disk (s₀.view sb (some e) j) pl = addrOf s₀.disk (s₀.view sb (some e) j) pl := by
    cases pl with
    | direct k | root => rfl
    | entry k =>
      cases hr : addrOf s₀.disk (s₀.view sb (some e) j) .root with
      | none =>
        simp only [addrOf] at hr ⊢
        rw [hr]
        rfl
      | some r =>
        have hl : s₀.locs sb (some e) (j, .root) = some r := by
          rw [State.locs, locs_of_allocated hj, hr]
        simp only [addrOf] at hr ⊢
        rw [hr, Option.bind_some, Option.bind_some, hdata (h₀.nmeta_le hl)]
  have hlocs {j : ℕ} (hji : j ≠ (s₀.itable e).inum) (pl : Place) :
      s.locs sb none (j, pl) = s₀.locs sb (some e) (j, pl) := by
    by_cases hj : s₀.Allocated sb (some e) j
    · rw [State.locs, State.locs, locs_of_allocated hj, locs_of_allocated ((hallocated hji).mpr hj),
        hview hj.2.1 hji, haddr hj]
    · rw [State.locs, State.locs, locs_of_not_allocated hj,
        locs_of_not_allocated fun h' => hj ((hallocated hji).mp h')]
  have hinum' (e' : EntryId) : (s.itable e').inum = (s₀.itable e').inum := by
    by_cases he : e' = e
    · rw [he, h.entry, hinum]
    · rw [h.others e' he]
  have hr' (e' : EntryId) : (s.itable e').ref = (s₀.itable e').ref := by
    by_cases he : e' = e
    · rw [he, h.entry, href']
    · rw [h.others e' he]
  refine ⟨h₀.owned.release (fun l => l.1 = (s₀.itable e).inum) ?_ ?_ fun b => ?_, fun j hj => ?_,
    fun j hj hdir => ?_, fun e' hr => ?_, fun e₁ e₂ h₁ h₂ hie => ?_, fun e' hr hv _ => ?_⟩
  · rintro ⟨j, pl⟩ rfl
    rw [State.locs, Fs.locs]
    split_ifs
    · exact (congrArg (addrOf s.disk · pl) hself).trans (hnone pl)
    · rfl
  · rintro ⟨j, pl⟩ hji
    exact hlocs hji pl
  · rw [h.bitmap]
    refine and_congr_right fun _ => ⟨?_, fun hall pl => hall _ rfl⟩
    rintro hall ⟨j, pl⟩ rfl
    exact hall pl
  · by_cases hji : j = (s₀.itable e).inum
    · rw [hji, hself]
      refine ⟨by simp [hsize], fun bn hbn => ?_⟩
      simp [hsize] at hbn
    · have hj₀ := (hallocated hji).mp hj
      rw [hview hj₀.2.1 hji]
      exact noHoles_of_mono (h₀.noHoles j hj₀) rfl fun bn b hb => by rw [haddr hj₀, hb]
  · by_cases hji : j = (s₀.itable e).inum
    · rw [hji, hself]
      intro k hk
      simp [hsize] at hk
    · have hj₀ := (hallocated hji).mp hj
      rw [hview hj₀.2.1 hji] at hdir ⊢
      refine (h₀.dirs j hj₀ hdir).of_mono (h₀.noHoles j hj₀) rfl
        (fun bn b hb => by rw [haddr hj₀, hb]) fun bn b hb => hdata ?_
      refine h₀.nmeta_le (l := (j, .ofIndex bn)) ?_
      rw [State.locs, locs_of_allocated hj₀, hb]
  · rw [hinum' e']
    rw [hr' e'] at hr
    exact h₀.inums e' hr
  · rw [hr'] at h₁ h₂
    rw [hinum', hinum'] at hie
    exact h₀.unique e₁ e₂ h₁ h₂ hie
  · rw [hinum' e']
    rw [hr' e'] at hr
    by_cases he : e' = e
    · subst he
      rw [h.entry] at hv ⊢
      exact ⟨h.inode.symm, htype hv⟩
    · rw [h.others e' he] at hv ⊢
      have hne : (s₀.itable e').inum ≠ (s₀.itable e).inum := fun heq =>
        he (h₀.unique e' e hr href heq)
      rw [h.inodes _ (h₀.inums e' hr).2 hne]
      exact h₀.coherent e' hr hv fun he' => he (Option.some.inj he').symm

/-- `itrunc` keeps the invariant. -/
theorem Inv.wp_itrunc_inv (h : Inv sb lim s none) (hsb : sb.Ok) (href : 0 < (s.itable e).ref)
    (hvalid : (s.itable e).valid = true) :
    wp (itrunc sb e) s (fun _ s' => Inv sb lim s' none) Safe := by
  have htype := (h.coherent e href hvalid (by simp)).2
  have hopen := h.begin href hvalid
  refine (hopen.wp_itrunc (L := fun _ => True) hsb href htype trivial (fun _ _ _ _ => trivial)
    (fun _ _ _ => ⟨by simp, by simp⟩) fun _ => ⟨by simp, by simp⟩).imp fun _ s' hs' => ?_
  exact hs'.inv hsb hopen href rfl rfl rfl rfl fun _ => htype

/-- `iput` keeps the invariant. -/
theorem Inv.wp_iput (h : Inv sb lim s none) (hsb : sb.Ok) (href : 0 < (s.itable e).ref) :
    wp (iput sb e) s (fun _ s' => Inv sb lim s' none) Safe := by
  have hdrop {t : State} (ht : Inv sb lim t none) :
      wp (dropRef e) t (fun _ s' => Inv sb lim s' none) Safe :=
    ht.setEntry rfl (fun hr => Nat.lt_of_lt_of_le hr (Nat.sub_le _ _)) (fun hv => hv) rfl
  simp only [iput, wp_bind, wp_get]
  rw [wp_ite]
  refine ⟨fun hlast => ?_, fun _ => hdrop h⟩
  have htype := (h.coherent e href hlast.2.1 (by simp)).2
  have hopen := h.begin href hlast.2.1
  refine wp_call (hopen.wp_ifree (L := fun _ => True) hsb href htype trivial
    (fun _ _ _ _ => trivial) (fun _ _ _ => ⟨by simp, by simp⟩) fun _ => ⟨by simp, by simp⟩)
    fun _ t ht => hdrop (ht.1.inv hsb hopen href rfl rfl rfl rfl ?_)
  simp

end SustainableXv6.Inode
