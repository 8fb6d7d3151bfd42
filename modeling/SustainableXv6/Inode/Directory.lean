import SustainableXv6.Lib.Slots
import SustainableXv6.Inode.ByteArray
import SustainableXv6.Inode.Ownership

/-!
# Directories are finite maps

The contents of a directory are slots of a finite map from names to inodes (`slots`). The first
`DIRSIZ` bytes of a name up to a NUL are its key (`cname`), which `strncmp` compares. `dirlookup` is
a lookup in the map, `dirlink` puts a name into a free slot or behind the end, and the zeros that
`sys_unlink` writes free the slot of a name.
-/

namespace SustainableXv6.Inode

open Fs Lib

variable {sb : Superblock} {s s' : State} {e : EntryId}

/-! ## `strncmp` and `strncpy` -/

/-- `strncmp`. A string is read as zeros behind its end. -/
def strncmp : List UInt8 → List UInt8 → ℕ → ℤ
  | _, _, 0 => 0
  | p, q, n + 1 =>
    if p.headD 0 ≠ 0 ∧ p.headD 0 = q.headD 0 then strncmp p.tail q.tail n
    else (p.headD 0).toNat - (q.headD 0).toNat

/-- `namecmp`. -/
def namecmp (p q : List UInt8) : ℤ := strncmp p q DIRSIZ

/-- `strncpy`, with the `n` bytes that it stores. -/
def strncpy : List UInt8 → ℕ → List UInt8
  | _, 0 => []
  | t, n + 1 => if t.headD 0 ≠ 0 then t.headD 0 :: strncpy t.tail n else List.replicate (n + 1) 0

/-- The bytes of a string up to a NUL, `n` of them at most. -/
theorem takeWhile_take_succ (p : List UInt8) (n : ℕ) :
    (p.take (n + 1)).takeWhile (· ≠ 0) =
      if p.headD 0 ≠ 0 then p.headD 0 :: (p.tail.take n).takeWhile (· ≠ 0) else [] := by
  cases p with
  | nil => rfl
  | cons c p =>
    rw [List.take_succ_cons, List.takeWhile_cons, List.headD_cons, List.tail_cons]
    by_cases hc : c = 0
    · simp [hc]
    · simp [hc]

theorem strncmp_eq_zero_iff (n : ℕ) : ∀ p q : List UInt8, strncmp p q n = 0 ↔
    (p.take n).takeWhile (· ≠ 0) = (q.take n).takeWhile (· ≠ 0) := by
  induction n with
  | zero => exact fun p q => iff_of_true rfl rfl
  | succ n ih =>
    intro p q
    rw [strncmp, takeWhile_take_succ, takeWhile_take_succ]
    generalize p.headD 0 = c, q.headD 0 = d
    by_cases hc : c = 0
    · -- The first string ends.
      rw [if_neg (by simp [hc]), if_neg (by simp [hc]), hc]
      by_cases hd : d = 0
      · simp [hd]
      · have hne : d.toNat ≠ 0 := fun h0 => hd (UInt8.toNat_inj.mp h0)
        rw [if_pos hd, UInt8.toNat_zero]
        exact iff_of_false (by omega) (by simp)
    · by_cases hcd : c = d
      · rw [if_pos ⟨hc, hcd⟩, if_pos hc, if_pos (hcd ▸ hc), hcd, List.cons.injEq, ih]
        simp
      · have hne : c.toNat ≠ d.toNat := fun heq => hcd (UInt8.toNat_inj.mp heq)
        rw [if_neg (by simp [hcd]), if_pos hc]
        refine iff_of_false (by omega) fun heq => ?_
        split_ifs at heq
        exact hcd (List.cons.inj heq).1

/-- `namecmp` compares the keys of names. -/
theorem namecmp_eq_zero_iff {p q : List UInt8} : namecmp p q = 0 ↔ cname p = cname q :=
  strncmp_eq_zero_iff DIRSIZ p q

/-- The bytes that `strncpy` stores of a string without a NUL. -/
theorem strncpy_eq (n : ℕ) : ∀ t : List UInt8, 0 ∉ t →
    strncpy t n = (List.range n).map fun i => t.getD i 0 := by
  induction n with
  | zero => exact fun t _ => rfl
  | succ n ih =>
    intro t ht
    rw [strncpy, List.range_succ_eq_map, List.map_cons, List.map_map]
    cases t with
    | nil =>
      have hzeros : (List.range n).map (fun _ => (0 : UInt8)) = List.replicate n 0 := by
        rw [List.map_const', List.length_range]
      rw [if_neg (by simp), List.replicate_succ, ← hzeros]
      rfl
    | cons c t =>
      rw [List.mem_cons, not_or] at ht
      rw [List.headD_cons, if_pos fun h0 => ht.1 h0.symm, List.tail_cons, ih t ht.2]
      rfl

/-- The name in an entry is what `strncpy` stores. -/
theorem dirent_eq {inum : UInt16} {name : List UInt8} (h : 0 ∉ name) : dirent inum name =
    [UInt8.ofNat inum.toNat, UInt8.ofNat (inum.toNat / 256)] ++ strncpy name DIRSIZ := by
  rw [strncpy_eq DIRSIZ name h]
  rfl

/-- The name in an entry has the key of the name. -/
theorem cname_pad (name : List UInt8) :
    cname ((List.range DIRSIZ).map fun i => name.getD i 0) = cname name := by
  have hpad (n : ℕ) : ∀ t : List UInt8, (((List.range n).map fun i => t.getD i 0).take n).takeWhile
      (· ≠ 0) = (t.take n).takeWhile (· ≠ 0) := by
    induction n with
    | zero => exact fun t => rfl
    | succ n ih =>
      intro t
      rw [takeWhile_take_succ, takeWhile_take_succ, List.range_succ_eq_map, List.map_cons,
        List.map_map, List.headD_cons, List.tail_cons]
      cases t with
      | nil => simp
      | cons c t => exact if_congr Iff.rfl (congrArg _ (ih t)) rfl
  exact hpad DIRSIZ name

/-! ## Slots -/

/-- The slot that the bytes of an entry are. -/
def slotOf (l : List UInt8) : Option (List UInt8 × ℕ) :=
  if bytesInum l = 0 then none else some (cname (l.drop 2), bytesInum l)

/-- The entry `k` of the contents of a directory. -/
def entryAt (c : List UInt8) (k : ℕ) : List UInt8 := (c.drop (DIRENTSIZE * k)).take DIRENTSIZE

/-- The slots that the contents of a directory are. -/
def slots (c : List UInt8) : Slots (List UInt8) ℕ :=
  (List.range (c.length / DIRENTSIZE)).map fun k => slotOf (entryAt c k)

theorem length_slots (c : List UInt8) : (slots c).length = c.length / DIRENTSIZE := by
  simp [slots]

theorem getElem?_slots {c : List UInt8} {k : ℕ} (hk : DIRENTSIZE * k + DIRENTSIZE ≤ c.length) :
    (slots c)[k]? = some (slotOf (entryAt c k)) := by
  have hlt : k < c.length / DIRENTSIZE := by
    simp only [DIRENTSIZE, DIRSIZ] at *
    omega
  rw [slots, List.getElem?_map, List.getElem?_range hlt, Option.map_some]

/-- The bytes of the entries after one of them has been written. -/
theorem entryAt_overwrite {c b : List UInt8} {k : ℕ} (hk : DIRENTSIZE * k ≤ c.length)
    (hb : b.length = DIRENTSIZE) (j : ℕ) :
    entryAt (overwrite c (DIRENTSIZE * k) b) j = if j = k then b else entryAt c j := by
  refine List.ext_getElem? fun i => ?_
  unfold entryAt
  rw [List.getElem?_take, List.getElem?_drop, getElem?_overwrite hk, hb]
  by_cases hj : j = k
  · subst hj
    rw [if_pos rfl]
    split_ifs with hi hin
    · rw [Nat.add_sub_cancel_left]
    · omega
    · rw [List.getElem?_eq_none (by omega)]
  · rw [if_neg hj, List.getElem?_take, List.getElem?_drop]
    split_ifs with hi hin
    · simp only [DIRENTSIZE, DIRSIZ] at *
      omega
    · rfl
    · rfl

/-- An entry is written over a slot, or behind the end. -/
theorem slots_overwrite {c b : List UInt8} {k : ℕ} (hc : DIRENTSIZE ∣ c.length)
    (hk : DIRENTSIZE * k ≤ c.length) (hb : b.length = DIRENTSIZE) :
    slots (overwrite c (DIRENTSIZE * k) b) = overwrite (slots c) k [slotOf b] := by
  obtain ⟨n, hn⟩ := hc
  have hpos : 0 < DIRENTSIZE := by decide
  have hkn : k ≤ n := by rw [hn] at hk; exact Nat.le_of_mul_le_mul_left hk hpos
  have hlen : (slots c).length = n := by rw [length_slots, hn, Nat.mul_div_cancel_left _ hpos]
  have hlen' : (overwrite c (DIRENTSIZE * k) b).length / DIRENTSIZE = max n (k + 1) := by
    rw [length_overwrite hk, hn, hb]
    simp only [DIRENTSIZE, DIRSIZ]
    omega
  refine List.ext_getElem? fun j => ?_
  rw [getElem?_overwrite (by omega), List.length_singleton, slots, hlen', List.getElem?_map]
  by_cases hj : j < max n (k + 1)
  · rw [List.getElem?_range hj, Option.map_some, entryAt_overwrite hk hb]
    by_cases hjk : j = k
    · rw [if_pos hjk, if_pos (by omega), hjk, Nat.sub_self]
      rfl
    · rw [if_neg hjk, if_neg (by omega), getElem?_slots]
      rw [hn]
      simp only [DIRENTSIZE, DIRSIZ]
      omega
  · rw [List.getElem?_eq_none (by simpa using hj), if_neg (by omega),
      List.getElem?_eq_none (by omega)]
    rfl

/-- The slot of an entry that `dirlink` writes. -/
theorem slotOf_dirent {inum : ℕ} (h1 : 1 ≤ inum) (hlt : inum < 2 ^ 16) (name : List UInt8) :
    slotOf (dirent (UInt16.ofNat inum) name) = some (cname name, inum) := by
  have hnum : bytesInum (dirent (UInt16.ofNat inum) name) = inum := by
    change (UInt8.ofNat (UInt16.ofNat inum).toNat).toNat +
      256 * (UInt8.ofNat ((UInt16.ofNat inum).toNat / 256)).toNat = inum
    rw [UInt16.toNat_ofNat_of_lt' hlt, UInt8.toNat_ofNat', UInt8.toNat_ofNat']
    omega
  rw [slotOf, if_neg (by omega), hnum]
  congr 2
  exact cname_pad name

/-- The slot of an entry that `sys_unlink` writes. -/
theorem slotOf_zero : slotOf (dirent (UInt16.ofNat 0) []) = none := by decide

/-! ## `dirlookup` -/

/-- An inode that has been read from the disk and is a directory of whole entries. -/
structure OpenDir (sb : Superblock) (s : State) (e : EntryId) : Prop where
  inv : Inv sb (2 ^ 16) s none
  ref : 0 < (s.itable e).ref
  valid : (s.itable e).valid = true
  type : (s.itable e).dino.type = T_DIR
  size : DIRENTSIZE ∣ (s.itable e).dino.size.toNat

/-- The slots of the directory of an entry. -/
def State.slots (s : State) (sb : Superblock) (e : EntryId) : Slots (List UInt8) ℕ :=
  Inode.slots (s.contents sb none (s.itable e).inum)

namespace OpenDir

variable (h : OpenDir sb s e)
include h

theorem length_contents :
    (s.contents sb none (s.itable e).inum).length = (s.itable e).dino.size.toNat := by
  rw [State.length_contents, (h.inv.coherent e h.ref h.valid (by simp)).1]
  rfl

/-- The bytes of an entry. -/
theorem wp_readEntry {p : Panic} {E : Panic → Prop} {k : ℕ}
    (hk : DIRENTSIZE * k < (s.itable e).dino.size.toNat) :
    wp (readEntry sb e p (DIRENTSIZE * k)) s (fun l s' => s' = s ∧
      l = entryAt (s.contents sb none (s.itable e).inum) k ∧
      (s.slots sb e)[k]? = some (slotOf l)) E := by
  obtain ⟨n, hn⟩ := h.size
  have hlen := h.length_contents
  have hend : DIRENTSIZE * k + DIRENTSIZE ≤ (s.itable e).dino.size.toNat := by
    rw [hn, ← Nat.mul_succ]
    rw [hn] at hk
    exact Nat.mul_le_mul_left _ (Nat.lt_of_mul_lt_mul_left hk)
  have hsize := (s.itable e).dino.size.toNat_lt
  have hoff : (UInt32.ofNat (DIRENTSIZE * k)).toNat = DIRENTSIZE * k :=
    UInt32.toNat_ofNat_of_lt' (lt_trans hk hsize)
  have hlast : (UInt32.ofNat DIRENTSIZE).toNat = DIRENTSIZE := by decide
  unfold readEntry
  refine wp_call (h.inv.wp_readi_contents h.ref h.valid kernelDst _ _) fun r t ht => ?_
  obtain ⟨rfl, hsome, hclip⟩ := ht
  obtain ⟨l, rfl⟩ := Option.ne_none_iff_exists'.mp (hsome fun _ _ => rfl)
  have hl : l = entryAt (t.contents sb none (t.itable e).inum) k := by
    rw [hclip l rfl, clip, hoff, hlast, if_pos (lt_of_le_of_lt hend hsize)]
    rfl
  have hlength : l.length = DIRENTSIZE := by
    rw [hl, entryAt, List.length_take, List.length_drop]
    omega
  change wp (if l.length = DIRENTSIZE then pure l else throw p) _ _ _
  rw [if_pos hlength]
  refine ⟨rfl, hl, ?_⟩
  rw [State.slots, getElem?_slots (by omega), hl]

end OpenDir

/-- What `dirlookup` returns: nothing, or the entry of the inode table and the offset of the slot
that has the name. -/
def Looked (sb : Superblock) (s : State) (e : EntryId) (name : List UInt8)
    (r : Option (EntryId × ℕ)) (s' : State) : Prop :=
  r = none ∧ s' = s ∧ (∀ inum k, ¬ (s.slots sb e).Has (cname name) inum k) ∨
    ∃ ip inum k, r = some (ip, DIRENTSIZE * k) ∧ (s.slots sb e).Has (cname name) inum k ∧
      Got s inum ip s'

/-- The body of the loop of `dirlookup`. -/
theorem OpenDir.wp_lookupEntry (h : OpenDir sb s e) (name : List UInt8) {k : ℕ}
    (hk : DIRENTSIZE * k < (s.itable e).dino.size.toNat) :
    wp (lookupEntry sb e name (DIRENTSIZE * k)) s (fun r s' =>
      r = none ∧ s' = s ∧ (∀ inum, ¬ (s.slots sb e).Has (cname name) inum k) ∨
        ∃ ip inum, r = some (ip, DIRENTSIZE * k) ∧ (s.slots sb e).Has (cname name) inum k ∧
          Got s inum ip s') fun p => p = .noInodes := by
  unfold lookupEntry
  refine wp_call (h.wp_readEntry hk) fun l t ht => ?_
  obtain ⟨rfl, -, hslot⟩ := ht
  rw [wp_ite]
  refine ⟨fun h0 => .inl ⟨rfl, rfl, fun inum hhas => ?_⟩, fun h0 => ?_⟩
  · rw [Slots.Has, hslot, slotOf, if_pos h0] at hhas
    simp at hhas
  · rw [slotOf, if_neg h0] at hslot
    rw [wp_ite]
    refine ⟨fun heq => ?_, fun hne => .inl ⟨rfl, rfl, fun inum hhas => ?_⟩⟩
    · refine wp_call (wp_iget fun _ => rfl) fun ip t' hgot => ?_
      refine .inr ⟨ip, _, rfl, ?_, hgot⟩
      rw [Slots.Has, hslot, heq]
    · rw [Slots.Has, hslot] at hhas
      exact hne (Prod.mk.inj (Option.some.inj (Option.some.inj hhas))).1.symm

theorem mem_entryOffs {size k : ℕ} (hk : DIRENTSIZE * k < size) :
    DIRENTSIZE * k ∈ entryOffs size := by
  refine List.mem_map.mpr ⟨k, List.mem_range.mpr ?_, rfl⟩
  simp only [DIRENTSIZE, DIRSIZ] at *
  omega

/-- A slot that has a pair is below the size. -/
theorem OpenDir.lt_of_has (h : OpenDir sb s e) {name : List UInt8} {inum k : ℕ}
    (hhas : (s.slots sb e).Has name inum k) :
    DIRENTSIZE * k < (s.itable e).dino.size.toNat := by
  have hlt := (List.getElem?_eq_some_iff.mp hhas).1
  rw [State.slots, length_slots, h.length_contents] at hlt
  simp only [DIRENTSIZE, DIRSIZ] at *
  omega

/-- `dirlookup` is a lookup in the slots. -/
theorem OpenDir.wp_dirlookup (h : OpenDir sb s e) (name : List UInt8) :
    wp (dirlookup sb e name) s (Looked sb s e name) fun p => p = .noInodes := by
  simp only [dirlookup, wp_bind, wp_get]
  rw [if_neg (not_not.mpr h.type)]
  -- No slot has the name whose offset has been left behind.
  refine wp_firstM (fun bs t => t = s ∧ (∀ off ∈ bs, ∃ k, off = DIRENTSIZE * k ∧
    DIRENTSIZE * k < (s.itable e).dino.size.toNat) ∧
    ∀ inum k, (s.slots sb e).Has (cname name) inum k → DIRENTSIZE * k ∈ bs) (fun t ht => ?_)
    (fun off bs t ht => ?_) ⟨rfl, fun off hoff => exists_of_mem_entryOffs hoff,
      fun inum k hhas => mem_entryOffs (h.lt_of_has hhas)⟩
  · exact .inl ⟨rfl, ht.1, fun inum k hhas => List.not_mem_nil (ht.2.2 inum k hhas)⟩
  · obtain ⟨rfl, hall, hleft⟩ := ht
    obtain ⟨k, rfl, hk⟩ := hall off (List.mem_cons_self ..)
    refine (h.wp_lookupEntry name hk).imp fun r t' ht' => ?_
    rcases ht' with ⟨rfl, rfl, hno⟩ | ⟨ip, inum, rfl, hhas, hgot⟩
    · refine .inr ⟨rfl, rfl, fun off hoff => hall off (List.mem_cons_of_mem _ hoff),
        fun inum j hhas => ?_⟩
      rcases List.mem_cons.mp (hleft inum j hhas) with heq | hmem
      · obtain rfl : j = k := Nat.eq_of_mul_eq_mul_left (by decide) heq
        exact absurd hhas (hno inum)
      · exact hmem
    · exact .inl ⟨_, rfl, .inr ⟨ip, inum, k, rfl, hhas, hgot⟩⟩

/-! ## `dirlink` -/

/-- A reference that `dirlookup` has given is dropped: no entry in use changes. -/
structure Released (s s' : State) : Prop where
  disk : s'.disk = s.disk
  entry : ∀ e, s'.itable e = s.itable e ∨ (s.itable e).ref = 0 ∧ (s'.itable e).ref = 0

/-- `iput` after `iget` frees no inode. -/
theorem Got.wp_iput {inum : ℕ} {ip : EntryId} {t : State} {E : Panic → Prop}
    (h : Got s inum ip t) : wp (iput sb ip) t (fun _ s' => Released s s') E := by
  simp only [iput, wp_bind, wp_get]
  have hmore : ¬ ((t.itable ip).ref = 1 ∧ (t.itable ip).valid = true ∧
      (t.itable ip).dino.nlink = 0) := by
    rintro ⟨hone, hvalid, -⟩
    rw [h.ref] at hone
    rcases h.entry with ⟨hpos, -⟩ | ⟨-, hnot, -⟩
    · omega
    · rw [hnot] at hvalid
      exact Bool.noConfusion hvalid
  rw [if_neg hmore, dropRef, wp_modify]
  refine ⟨h.disk, fun e => ?_⟩
  by_cases he : e = ip
  · subst he
    rw [State.setEntry_self, h.ref]
    rcases h.entry with ⟨-, -, hentry⟩ | ⟨hzero, -⟩
    · rw [hentry]
      exact .inl rfl
    · exact .inr ⟨hzero, by rw [hzero]⟩
  · rw [State.setEntry_of_ne _ he]
    exact .inl (h.others e he)

theorem Released.openDir (hr : Released s s') (h : OpenDir sb s e) :
    OpenDir sb s' e ∧ s'.slots sb e = s.slots sb e := by
  have hsame (e : EntryId) (href : 0 < (s.itable e).ref ∨ 0 < (s'.itable e).ref) :
      s'.itable e = s.itable e :=
    (hr.entry e).resolve_right fun hzero => by omega
  have he := hsame e (.inl h.ref)
  refine ⟨⟨h.inv.of_itable hr.disk (fun e href => ?_) (fun e e' href href' hinum => ?_)
    fun e href hvalid => ?_, by rw [he]; exact h.ref, by rw [he]; exact h.valid,
    by rw [he]; exact h.type, by rw [he]; exact h.size⟩, ?_⟩
  · have hold := hsame e (.inr href)
    rw [hold] at href ⊢
    exact h.inv.inums e href
  · rw [hsame e (.inr href), hsame e' (.inr href')] at hinum
    exact h.inv.unique e e' (hsame e (.inr href) ▸ href) (hsame e' (.inr href') ▸ href') hinum
  · have hold := hsame e (.inr href)
    rw [hold] at href hvalid ⊢
    rw [hr.disk]
    exact h.inv.coherent e href hvalid (by simp)
  · rw [State.slots, State.slots, he, contents_of_disk hr.disk]

/-- The loop of `dirlink` finds a free slot. -/
theorem OpenDir.wp_findEmpty (h : OpenDir sb s e) {E : Panic → Prop} :
    wp (firstM (emptyEntry sb e) (entryOffs (s.itable e).dino.size.toNat)) s (fun r s' => s' = s ∧
      ∀ off, r = some off → ∃ k, off = DIRENTSIZE * k ∧
        DIRENTSIZE * k < (s.itable e).dino.size.toNat ∧
        ∀ name inum, ¬ (s.slots sb e).Has name inum k) E := by
  refine wp_firstM (fun bs t => t = s ∧ ∀ off ∈ bs, ∃ k, off = DIRENTSIZE * k ∧
    DIRENTSIZE * k < (s.itable e).dino.size.toNat) (fun t ht => ⟨ht.1, fun off h => by simp at h⟩)
    (fun off bs t ht => ?_) ⟨rfl, fun off hoff => exists_of_mem_entryOffs hoff⟩
  obtain ⟨rfl, hall⟩ := ht
  obtain ⟨k, rfl, hk⟩ := hall off (List.mem_cons_self ..)
  unfold emptyEntry
  refine wp_call (h.wp_readEntry hk) fun l t' ht' => ?_
  obtain ⟨rfl, -, hslot⟩ := ht'
  rw [wp_pure]
  split_ifs with h0
  · refine .inl ⟨_, rfl, rfl, fun off hoff => ⟨k, (Option.some.inj hoff).symm, hk,
      fun name inum hhas => ?_⟩⟩
    rw [Slots.Has, hslot, slotOf, if_pos h0] at hhas
    simp at hhas
  · exact .inr ⟨rfl, rfl, fun off hoff => hall off (List.mem_cons_of_mem _ hoff)⟩

/-- What the write of an entry leaves: the slot `k` is `o`, or there was no room for a new slot. -/
structure Put (sb : Superblock) (s : State) (e : EntryId) (k : ℕ) (o : Option (List UInt8 × ℕ))
    (r : Bool) (s' : State) : Prop where
  dir : OpenDir sb s' e
  done : r = true → s'.slots sb e = overwrite (s.slots sb e) k [o]
  failed : r = false → s'.slots sb e = s.slots sb e ∧
    ¬ DIRENTSIZE * k < (s.itable e).dino.size.toNat

/-- A copy inside the kernel delivers all bytes. -/
theorem kernelSrc_delivers (l : List UInt8) : Delivers (kernelSrc l) l l.length := by
  intro tot m _ hle
  rw [if_pos hle]
  rfl

/-- The round of `writei` for an entry is done, or it finds no free block. -/
theorem OpenDir.put_of_saved (h : OpenDir sb s e) {k tot : ℕ} {b : List UInt8}
    (hb : b.length = DIRENTSIZE) (hk : DIRENTSIZE * k ≤ (s.itable e).dino.size.toNat)
    (hmax : DIRENTSIZE * k + DIRENTSIZE ≤ MAXFILE * BSIZE) {f : ℕ → Option UInt8}
    (hs : Saved sb (2 ^ 16) s e (kernelSrc b) DIRENTSIZE (DIRENTSIZE * k) f tot s') :
    Put sb s e k (slotOf b) (some tot == some DIRENTSIZE) s' := by
  have hw := hs.written
  have hlen := h.length_contents
  have hdvd : DIRENTSIZE ∣ (s.contents sb none (s.itable e).inum).length := hlen ▸ h.size
  have hsize' := hs.size
  obtain ⟨j, hf, hj, hended⟩ := hs.ended b (hb ▸ kernelSrc_delivers b)
  rw [Nat.zero_add] at hj hended
  have hdir (hmult : DIRENTSIZE ∣ (s'.itable e).dino.size.toNat) : OpenDir sb s' e :=
    ⟨hs.inv, by rw [hw.ref]; exact h.ref, by rw [hw.valid]; exact h.valid,
      by rw [hw.type]; exact h.type, hmult⟩
  rcases hended with ⟨rfl, rfl⟩ | ⟨htot, rfl, hfull⟩ | ⟨hshort, -, -⟩
  · -- All bytes have been written.
    have hcontents := hs.contents_self h.inv h.ref h.valid hk hj le_rfl hf
    rw [List.take_of_length_le hb.le, List.take_of_length_le] at hcontents
    · refine ⟨hdir ?_, fun _ => ?_, fun hno => by simp at hno⟩
      · rw [hsize']
        rcases max_choice (s.itable e).dino.size.toNat (DIRENTSIZE * k + DIRENTSIZE) with hm | hm
        · rw [hm]
          exact h.size
        · rw [hm, ← Nat.mul_succ]
          exact Dvd.intro _ rfl
      · rw [State.slots, hw.inum, hcontents, slots_overwrite hdvd (hlen ▸ hk) hb]
        rfl
    · rw [length_overwrite (hlen ▸ hk), hlen, hb]
  · -- An entry lies in one block, so that no byte has been written.
    dsimp only at htot hfull
    have hblock : (DIRENTSIZE * k + j) / BSIZE = DIRENTSIZE * k / BSIZE := by
      simp only [DIRENTSIZE, DIRSIZ, BSIZE] at *
      omega
    rw [hblock] at hfull
    obtain rfl : j = 0 := by
      by_contra h0
      have hlt : 0 < (b.take j).length := by
        rw [List.length_take]
        omega
      have hnew := hw.new (DIRENTSIZE * k) _ (by
        rw [hf, patch, if_pos le_rfl, Nat.sub_self, List.getElem?_eq_getElem hlt])
      obtain ⟨a, ha, -⟩ := Option.map_eq_some_iff.mp hnew
      obtain ⟨-, pl, hpl, hnone⟩ := hfull
      rw [hw.inum] at hnone
      refine locs_of_pathTo ?_ ha hpl hnone
      simp only [DIRENTSIZE, DIRSIZ, BSIZE] at *
      omega
    have hcontents := hs.contents_self h.inv h.ref h.valid hk (Nat.zero_le _) le_rfl hf
    rw [List.take_zero, overwrite_nil, Nat.add_zero, Nat.max_eq_left hk, ← hlen,
      List.take_length] at hcontents
    refine ⟨hdir ?_, fun hyes => ?_, fun _ => ⟨?_, fun hlt => ?_⟩⟩
    · rw [hsize', Nat.add_zero, Nat.max_eq_left hk]
      exact h.size
    · exact absurd hyes (by decide)
    · rw [State.slots, State.slots, hw.inum, hcontents]
    · have hle := size_le_of_full h.inv h.ref h.valid hs hfull
      have := Nat.div_mul_le_self (DIRENTSIZE * k) BSIZE
      omega
  · omega

/-- `putEntry` at a slot, or behind the last one. -/
theorem OpenDir.wp_putEntry (h : OpenDir sb s e) (hsb : sb.Ok) (name : List UInt8) (inum : ℕ)
    {k : ℕ} (hk : DIRENTSIZE * k ≤ (s.itable e).dino.size.toNat) :
    wp (putEntry sb e name inum (DIRENTSIZE * k)) s
      (Put sb s e k (slotOf (dirent (UInt16.ofNat inum) name))) fun _ => True := by
  have hoff : (UInt32.ofNat (DIRENTSIZE * k)).toNat = DIRENTSIZE * k :=
    UInt32.toNat_ofNat_of_lt' (lt_of_le_of_lt hk (UInt32.toNat_lt _))
  have hlast : (UInt32.ofNat DIRENTSIZE).toNat = DIRENTSIZE := by decide
  unfold putEntry
  refine wp_call (wp_mono (h.inv.wp_writei hsb h.ref h.valid (fun _ => le_rfl) _ _ _)
    (fun _ _ hr => hr) fun _ _ => trivial) fun r s₁ hs₁ => ?_
  rw [hoff, hlast] at hs₁
  rw [wp_pure]
  rcases hs₁ with ⟨rfl, rfl, hout⟩ | ⟨tot, f, rfl, -, hmax, hs⟩
  · -- The directory has its largest size.
    refine ⟨h, fun hyes => by simp at hyes, fun _ => ⟨rfl, fun hlt => hout ⟨hk, ?_⟩⟩⟩
    obtain ⟨n, hn⟩ := h.size
    have hle := h.inv.size_le h.ref h.valid
    simp only [DIRENTSIZE, DIRSIZ, MAXFILE, BSIZE] at *
    omega
  · exact h.put_of_saved (dirent_length _ _) hk hmax hs

/-! ## The map -/

/-- A directory whose names are distinct. -/
structure IsDir (sb : Superblock) (s : State) (e : EntryId) : Prop extends OpenDir sb s e where
  distinct : (s.slots sb e).Distinct

/-- The inode that a directory has for a name, and the offset of its entry. -/
def State.lookup (s : State) (sb : Superblock) (e : EntryId) (name : List UInt8) :
    Option (ℕ × ℕ) :=
  ((s.slots sb e).lookup (cname name)).map fun p => (p.1, DIRENTSIZE * p.2)

/-- What `dirlink` leaves where it returns 0: the map with one name more. -/
structure Linked (sb : Superblock) (s : State) (e : EntryId) (name : List UInt8) (inum : ℕ)
    (s' : State) : Prop where
  fresh : s.lookup sb e name = none
  lookup : ∃ off, ∀ name', s'.lookup sb e name' =
    if namecmp name' name = 0 then some (inum, off) else s.lookup sb e name'

/-- The slot behind the end. -/
theorem OpenDir.length_slots (h : OpenDir sb s e) :
    DIRENTSIZE * (s.slots sb e).length = (s.itable e).dino.size.toNat := by
  rw [State.slots, Inode.length_slots, h.length_contents, Nat.mul_div_cancel' h.size]

theorem IsDir.of_slots (h : IsDir sb s e) (hdir : OpenDir sb s' e)
    (heq : s'.slots sb e = s.slots sb e) :
    IsDir sb s' e ∧ ∀ name, s'.lookup sb e name = s.lookup sb e name := by
  refine ⟨⟨hdir, ?_⟩, fun name => ?_⟩
  · rw [heq]
    exact h.distinct
  · rw [State.lookup, State.lookup, heq]

/-- A new name is put into a free slot. -/
theorem IsDir.linked (h : IsDir sb s e) {name : List UInt8} {inum k : ℕ}
    (hk : k ≤ (s.slots sb e).length) (hno : ∀ inum j, ¬ (s.slots sb e).Has (cname name) inum j)
    (hfree : ∀ name inum, ¬ (s.slots sb e).Has name inum k)
    (heq : s'.slots sb e = overwrite (s.slots sb e) k [some (cname name, inum)]) :
    (s'.slots sb e).Distinct ∧ Linked sb s e name inum s' := by
  refine ⟨?_, ?_, DIRENTSIZE * k, fun name' => ?_⟩
  · rw [heq]
    exact h.distinct.insert hk hno
  · rw [State.lookup, Slots.lookup_eq_none_iff.mpr hno]
    rfl
  · rw [State.lookup, heq, Slots.lookup_insert h.distinct hk hno hfree]
    simp only [namecmp_eq_zero_iff]
    split_ifs
    · rfl
    · rfl

/-- `dirlink` puts a new name into the map, or leaves the map as it is. -/
theorem IsDir.wp_dirlink (h : IsDir sb s e) (hsb : sb.Ok) (name : List UInt8) {inum : ℕ}
    (h1 : 1 ≤ inum) (hlt : inum < 2 ^ 16) :
    wp (dirlink sb e name inum) s (fun r s' => IsDir sb s' e ∧
      (r = true → Linked sb s e name inum s') ∧
      (r = false → ∀ name', s'.lookup sb e name' = s.lookup sb e name')) fun _ => True := by
  have hslots := h.toOpenDir.length_slots
  unfold dirlink
  refine wp_call (wp_mono (h.wp_dirlookup name) (fun _ _ hr => hr) fun _ _ => trivial)
    fun r s₁ hs₁ => ?_
  rcases hs₁ with ⟨rfl, rfl, hno⟩ | ⟨ip, inum', k, rfl, -, hgot⟩
  · simp only [wp_bind, wp_get]
    refine h.wp_findEmpty.imp fun r s₂ hs₂ => ?_
    obtain ⟨rfl, hempty⟩ := hs₂
    -- The slot that the loop ends with is free, or behind the last one.
    obtain ⟨k, hk, hle, hfree⟩ : ∃ k, r.getD (DIRENTSIZE *
        (((s₂.itable e).dino.size.toNat + DIRENTSIZE - 1) / DIRENTSIZE)) = DIRENTSIZE * k ∧
        DIRENTSIZE * k ≤ (s₂.itable e).dino.size.toNat ∧
        ∀ name inum, ¬ (s₂.slots sb e).Has name inum k := by
      cases r with
      | some off =>
        obtain ⟨k, rfl, hk, hfree⟩ := hempty off rfl
        exact ⟨k, rfl, hk.le, hfree⟩
      | none =>
        refine ⟨_, rfl, ?_, fun name inum hhas => ?_⟩
        · simp only [DIRENTSIZE, DIRSIZ] at *
          omega
        · have := h.lt_of_has hhas
          simp only [DIRENTSIZE, DIRSIZ] at *
          omega
    rw [hk]
    refine (h.wp_putEntry hsb name inum hle).imp fun r s₃ hs₃ => ?_
    rw [slotOf_dirent h1 hlt] at hs₃
    have hk' : k ≤ (s₂.slots sb e).length :=
      Nat.le_of_mul_le_mul_left (hslots.symm ▸ hle) (by decide : 0 < DIRENTSIZE)
    cases r with
    | true =>
      obtain ⟨hdistinct, hlinked⟩ := h.linked hk' hno hfree (hs₃.done rfl)
      exact ⟨⟨hs₃.dir, hdistinct⟩, fun _ => hlinked, fun hfalse => by simp at hfalse⟩
    | false =>
      obtain ⟨hdir, hlookup⟩ := h.of_slots hs₃.dir (hs₃.failed rfl).1
      exact ⟨hdir, fun htrue => by simp at htrue, fun _ => hlookup⟩
  · refine wp_call hgot.wp_iput fun _ s₂ hs₂ => ?_
    obtain ⟨hdir, heq⟩ := hs₂.openDir h.toOpenDir
    obtain ⟨hdir, hlookup⟩ := h.of_slots hdir heq
    exact ⟨hdir, fun htrue => by simp at htrue, fun _ => hlookup⟩

/-- The entry of a name is overwritten with zeros. -/
theorem IsDir.wp_clearEntry (h : IsDir sb s e) (hsb : sb.Ok) {name : List UInt8} {inum off : ℕ}
    (hfound : s.lookup sb e name = some (inum, off)) :
    wp (clearEntry sb e off) s (fun r s' => r = true ∧ IsDir sb s' e ∧
      ∀ name', s'.lookup sb e name' =
        if namecmp name' name = 0 then none else s.lookup sb e name') fun _ => True := by
  obtain ⟨⟨v, k⟩, hlook, hp⟩ := Option.map_eq_some_iff.mp hfound
  obtain ⟨rfl, rfl⟩ := Prod.mk.inj hp
  have hhas := Slots.Has.of_lookup hlook
  have hlt := h.lt_of_has hhas
  refine (h.wp_putEntry hsb [] 0 hlt.le).imp fun r s' hs' => ?_
  rw [slotOf_zero] at hs'
  cases r with
  | false => exact absurd hlt (hs'.failed rfl).2
  | true =>
    have heq := hs'.done rfl
    have hk := (List.getElem?_eq_some_iff.mp hhas).1.le
    refine ⟨rfl, ⟨hs'.dir, ?_⟩, fun name' => ?_⟩
    · rw [heq]
      exact h.distinct.erase hk
    · rw [State.lookup, heq, Slots.lookup_erase h.distinct hhas]
      simp only [namecmp_eq_zero_iff]
      split_ifs
      · rfl
      · rfl

/-- The entry at the offset of a name has the inode and the name. -/
theorem IsDir.entry_of_lookup (h : IsDir sb s e) {name : List UInt8} {inum off : ℕ}
    (hfound : s.lookup sb e name = some (inum, off)) :
    let entry := ((s.contents sb none (s.itable e).inum).drop off).take DIRENTSIZE
    bytesInum entry = inum ∧ inum ≠ 0 ∧ namecmp name (entry.drop 2) = 0 := by
  obtain ⟨⟨v, k⟩, hlook, hp⟩ := Option.map_eq_some_iff.mp hfound
  obtain ⟨rfl, rfl⟩ := Prod.mk.inj hp
  have hhas := Slots.Has.of_lookup hlook
  have hlt := h.lt_of_has hhas
  have hend : DIRENTSIZE * k + DIRENTSIZE ≤ (s.contents sb none (s.itable e).inum).length := by
    rw [h.length_contents]
    obtain ⟨n, hn⟩ := h.size
    simp only [DIRENTSIZE, DIRSIZ] at *
    omega
  rw [Slots.Has, State.slots, getElem?_slots hend] at hhas
  have hslot := Option.some.inj hhas
  unfold slotOf at hslot
  split_ifs at hslot with h0
  obtain ⟨hname, hinum⟩ := Prod.mk.inj (Option.some.inj hslot)
  exact ⟨hinum, fun hz => h0 (hinum.trans hz), namecmp_eq_zero_iff.mpr hname.symm⟩

/-- Directories are finite maps: `dirlookup` is a lookup, `dirlink` returns 0 if it has put a new
name into the map and -1 if the map is as before, and zeros written over the entry of a name remove
the name. -/
theorem directories_are_maps (hsb : sb.Ok) (h : IsDir sb s e) :
    (∀ name, wp (dirlookup sb e name) s (fun r s' =>
      r = none ∧ s' = s ∧ s.lookup sb e name = none ∨
        ∃ ip inum off, r = some (ip, off) ∧ s.lookup sb e name = some (inum, off) ∧
          Got s inum ip s') fun p => p = .noInodes) ∧
    (∀ name inum off, s.lookup sb e name = some (inum, off) →
      let entry := ((s.contents sb none (s.itable e).inum).drop off).take DIRENTSIZE
      bytesInum entry = inum ∧ inum ≠ 0 ∧ namecmp name (entry.drop 2) = 0) ∧
    (∀ name inum r s', 1 ≤ inum → inum < 2 ^ 16 → dirlink sb e name inum s = .ok (r, s') →
      IsDir sb s' e ∧ (r = true → Linked sb s e name inum s') ∧
        (r = false → ∀ name', s'.lookup sb e name' = s.lookup sb e name')) ∧
    ∀ name inum off r s', s.lookup sb e name = some (inum, off) →
      clearEntry sb e off s = .ok (r, s') → r = true ∧ IsDir sb s' e ∧
        ∀ name', s'.lookup sb e name' =
          if namecmp name' name = 0 then none else s.lookup sb e name' := by
  refine ⟨fun name => ?_, fun name inum off => h.entry_of_lookup,
    fun name inum r s' h1 hlt hrun => (h.wp_dirlink hsb name h1 hlt).of_ok hrun,
    fun name inum off r s' hfound hrun => (h.wp_clearEntry hsb hfound).of_ok hrun⟩
  refine (h.wp_dirlookup name).imp fun r s' hr => ?_
  rcases hr with ⟨rfl, rfl, hno⟩ | ⟨ip, inum, k, rfl, hhas, hgot⟩
  · refine .inl ⟨rfl, rfl, ?_⟩
    rw [State.lookup, Slots.lookup_eq_none_iff.mpr hno]
    rfl
  · refine .inr ⟨ip, inum, _, rfl, ?_, hgot⟩
    rw [State.lookup, (Slots.lookup_eq_some_iff h.distinct).mpr hhas]
    rfl

/-- The root directory of the small disk is opened. -/
def opensRoot : List Act := [.beginOp, .iget ROOTINO, .ilock 0]

/-- Two names are put into it. The first one is there then, so that it cannot be put in again. -/
theorem directories_are_maps_opensRoot :
    ∃ s s₁ s₂ s₃, ReachVia (step tinySb) (Rules tinySb) (State.boot tinyDisk) s ∧
      dirlink tinySb 0 [97] 7 s = .ok (true, s₁) ∧ Linked tinySb s 0 [97] 7 s₁ ∧
      dirlink tinySb 0 [98] 8 s₁ = .ok (true, s₂) ∧ Linked tinySb s₁ 0 [98] 8 s₂ ∧
      dirlink tinySb 0 [97] 9 s₂ = .ok (false, s₃) ∧
        ∀ name, s₃.lookup tinySb 0 name = s₂.lookup tinySb 0 name := by
  obtain ⟨s, hs, hinv, href, hvalid, htype, hsize, hslots, hlink⟩ := exists_tinyDisk opensRoot
    (fun s => 0 < (s.itable 0).ref ∧ (s.itable 0).valid = true ∧ (s.itable 0).dino.type = T_DIR ∧
      (s.itable 0).dino.size.toNat = 0 ∧ s.slots tinySb 0 = [] ∧
      (dirlink tinySb 0 [97] 7 s).toOption.any fun p => decide (p.1 = true ∧
        (dirlink tinySb 0 [98] 8 p.2).toOption.any fun q => decide (q.1 = true ∧
          (dirlink tinySb 0 [97] 9 q.2).toOption.any fun r => decide (r.1 = false))))
    (by decide +kernel)
  obtain ⟨⟨r₁, s₁⟩, hok₁, rfl, hlink⟩ := exists_ok _ hlink
  obtain ⟨⟨r₂, s₂⟩, hok₂, rfl, hlink⟩ := exists_ok _ hlink
  obtain ⟨⟨r₃, s₃⟩, hok₃, rfl⟩ := exists_ok _ hlink
  have hdir : IsDir tinySb s 0 := by
    refine ⟨⟨hinv.anyEntries, href, hvalid, htype, by rw [hsize]; exact dvd_zero _⟩, ?_⟩
    rw [hslots]
    exact fun _ _ _ _ _ hhas => absurd hhas (by simp [Slots.Has])
  obtain ⟨hdir₁, hlinked₁, -⟩ := (directories_are_maps (by decide) hdir).2.2.1 [97] 7 true s₁
    (by decide) (by decide) hok₁
  obtain ⟨hdir₂, hlinked₂, -⟩ := (directories_are_maps (by decide) hdir₁).2.2.1 [98] 8 true s₂
    (by decide) (by decide) hok₂
  obtain ⟨-, -, hsame⟩ := (directories_are_maps (by decide) hdir₂).2.2.1 [97] 9 false s₃
    (by decide) (by decide) hok₃
  exact ⟨s, s₁, s₂, s₃, hs, hok₁, hlinked₁ rfl, hok₂, hlinked₂ rfl, hok₃, hsame rfl⟩

end SustainableXv6.Inode
