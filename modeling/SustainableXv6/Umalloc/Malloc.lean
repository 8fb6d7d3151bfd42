import SustainableXv6.Umalloc.FreeList

/-!
# `malloc`

The loop of `malloc` goes round the list once. Where it finds no block that is large enough, it
calls `morecore` and goes round once more. Then it finds a block, since `free` has put the new
region into the list.
-/

namespace SustainableXv6.Umalloc

open Lib

variable {E : Env} {h h' : Heap} {p prevp : ℕ} {n nbytes : UInt32} {ok : Bool} {fl lv : List ℕ}

/-! ## A block is taken -/

namespace Inv

/-- A block with units is not `base`. -/
theorem mem_of_units (hi : Inv E h fl lv) (hp : p ∈ E.base :: fl) (hu : 0 < h.units p) :
    p ∈ fl := by
  refine (List.mem_cons.mp hp).resolve_left ?_
  rintro rfl
  rw [hi.baseSize] at hu
  exact absurd hu (lt_irrefl 0)

/-- The whole block `p` after `prevp` is taken. -/
theorem unlink (hi : Inv E h fl lv) (hq : prevp ∈ E.base :: fl) (hp : p ∈ fl)
    (hnext : h.next prevp = p) :
    ∃ fl', Inv E { h.setPtr prevp (h.next p) with freep := prevp } fl' (p :: lv) := by
  obtain ⟨l₁, l₂, rfl⟩ := List.append_of_mem hp
  have hs := hi.sorted
  rw [← List.cons_append, List.pairwise_append] at hs
  have hp₂ := (List.pairwise_cons.mp hs.2.1).1
  -- The block before `p` is one of those before it.
  have hlt : prevp < p := by
    rcases hi.next_cases hq with ⟨hlt, -⟩ | ⟨hbase, -⟩
    · exact hnext ▸ hlt
    · exact absurd (hi.base_lt (List.mem_append_left _ hp)) (by
        rw [← hnext, hbase]
        exact lt_irrefl _)
  have hq₁ : prevp ∈ E.base :: l₁ := by
    rw [← List.cons_append] at hq
    rcases List.mem_append.mp hq with hq | hq
    · exact hq
    · rcases List.mem_cons.mp hq with he | hq
      · exact absurd hlt (he ▸ lt_irrefl _)
      · exact absurd hlt (hp₂ _ hq).not_gt
  have hsub : (E.base :: (l₁ ++ l₂)).Sublist (E.base :: (l₁ ++ p :: l₂)) := by simp
  have hset (y : ℕ) : (h.setPtr prevp (h.next p)).next y =
      if y = prevp then h.next p else h.next y := Heap.next_setPtr
  have hstop (y : ℕ) : (h.setPtr prevp (h.next p)).stop y = h.stop y := by
    rw [Heap.stop, Heap.stop, Heap.units_setPtr]
  refine ⟨l₁ ++ l₂, ?_, hi.sorted.sublist hsub, ?_, ?_, fun y hy => ?_, ?_⟩
  · refine (hi.chain.bypass hi.nodup hq₁ hnext).congr fun y _ => (hset y).trans ?_
    rw [Function.update_apply]
  · exact List.cons_subset_cons _ (List.subset_append_left ..) hq₁
  · exact Heap.units_setPtr.trans hi.baseSize
  · change (h.setPtr prevp (h.next p)).stop y ≠ (h.setPtr prevp (h.next p)).next y
    have hy' : y ∈ l₁ ++ p :: l₂ := by
      rcases List.mem_append.mp hy with hy | hy
      · exact List.mem_append_left _ hy
      · exact List.mem_append_right _ (List.mem_cons_of_mem _ hy)
    rw [hstop, hset]
    split_ifs with hyq
    · -- `prevp` ends at `p` at the latest, and the next block is behind `p`.
      subst hyq
      have hle := hi.stop_le_next hy'
      have hbase := hi.base_lt (List.mem_append_left lv hp)
      have hbase' := hi.base_lt (List.mem_append_left lv hy')
      have hself : y ≤ h.stop y := Nat.le_add_right ..
      rcases hi.next_cases (List.mem_cons_of_mem _ hp) with ⟨hlt', -⟩ | ⟨hnb, -⟩
      · omega
      · omega
    · exact hi.apart y hy'
  · have hblocks : Blocks E (h.setPtr prevp (h.next p)) _ :=
      hi.blocks.congr rfl rfl fun y _ => Heap.units_setPtr
    have hperm : (l₁ ++ p :: l₂ ++ lv).Perm (l₁ ++ l₂ ++ p :: lv) := by
      rw [List.append_assoc, List.append_assoc, List.cons_append]
      refine List.Perm.append_left l₁ ?_
      exact List.perm_middle.symm
    exact (hblocks.perm hperm).congr rfl rfl fun _ _ => rfl

/-- The last `n` units of the block `p` are taken. -/
theorem splitTail (hi : Inv E h fl lv) (hq : prevp ∈ E.base :: fl) (hp : p ∈ fl)
    (hn : 0 < n.toNat) (hlt : n.toNat < h.units p) :
    ∃ a, a = (h.setSize p ((h.mem p).size - n)).stop p ∧
      Inv E { (h.setSize p ((h.mem p).size - n)).setSize a n with freep := prevp } fl (a :: lv) ∧
      ∀ b ∈ lv, ((h.setSize p ((h.mem p).size - n)).setSize a n).units b = h.units b := by
  have hsub : ((h.mem p).size - n).toNat = h.units p - n.toNat := by
    refine UInt32.toNat_sub_of_le _ _ ?_
    rw [UInt32.le_iff_toNat_le]
    exact hlt.le
  have hstop₁ : (h.setSize p ((h.mem p).size - n)).stop p = p + HDR * (h.units p - n.toNat) := by
    rw [Heap.stop, Heap.units_setSize, if_pos rfl, hsub]
  refine ⟨_, rfl, ?_⟩
  rw [hstop₁]
  generalize ha : p + HDR * (h.units p - n.toNat) = a
  have hpa : p < a := by
    have : 0 < HDR * (h.units p - n.toNat) := Nat.mul_pos (by decide) (by omega)
    omega
  have hastop : a < h.stop p := by
    have hsplit : HDR * h.units p = HDR * (h.units p - n.toNat) + HDR * n.toNat := by
      rw [← Nat.mul_add]
      congr 1
      omega
    have : 0 < HDR * n.toNat := Nat.mul_pos (by decide) hn
    rw [Heap.stop]
    omega
  have hpmem : p ∈ fl ++ lv := List.mem_append_left _ hp
  have hbase : E.base < p := hi.base_lt hpmem
  -- No other block is where the new one starts.
  have hna : ∀ c ∈ fl ++ lv, c ≠ a := by
    rintro c hc rfl
    have := hi.blocks.apart hpmem hc hpa.ne
    have hself : c ≤ h.stop c := Nat.le_add_right ..
    omega
  generalize hh' : (h.setSize p ((h.mem p).size - n)).setSize a n = h'
  have hnext (y : ℕ) : h'.next y = h.next y := by simp [← hh']
  have hua : h'.units a = n.toNat := by simp [← hh']
  have hup : h'.units p = h.units p - n.toNat := by
    rw [← hh', Heap.units_setSize, if_neg hpa.ne, Heap.units_setSize, if_pos rfl, hsub]
  have hother (y : ℕ) (hyp : y ≠ p) (hya : y ≠ a) : h'.units y = h.units y := by
    rw [← hh', Heap.units_setSize, if_neg hya, Heap.units_setSize, if_neg hyp]
  have hstop : h'.stop p = a := by rw [Heap.stop, hup, ha]
  have hlv : ∀ b ∈ lv, h'.units b = h.units b := by
    intro b hb
    refine hother b ?_ (hna b (List.mem_append_right _ hb))
    rintro rfl
    exact (List.nodup_append.mp hi.blocks.nodup).2.2 b hp b hb rfl
  refine ⟨⟨hi.chain.congr fun y _ => hnext y, hi.sorted, hq, ?_, fun y hy => ?_, ?_⟩, hlv⟩
  · exact (hother _ hbase.ne (hbase.trans hpa).ne).trans hi.baseSize
  · change h'.stop y ≠ h'.next y
    rw [hnext]
    by_cases hyp : y = p
    · subst hyp
      have := hi.stop_le_next hp
      rw [hstop]
      omega
    · rw [Heap.stop, hother y hyp (hna y (List.mem_append_left _ hy))]
      exact hi.apart y hy
  · obtain ⟨l₁, l₂, rfl⟩ := List.append_of_mem hp
    have hperm : (l₁ ++ p :: l₂ ++ lv).Perm (p :: (l₁ ++ (l₂ ++ lv))) := by
      rw [List.append_assoc, List.cons_append]
      exact List.perm_middle
    have hblocks := hi.blocks.perm hperm
    have hgot : h'.got = h.got := by rw [← hh']; rfl
    have hbrk : h'.brk = h.brk := by rw [← hh']; rfl
    have hsplit := hblocks.split hgot hbrk (by rw [hstop, hup, hua]; omega)
      (by rw [hstop, hup, hua]; omega) fun c hc => hother c (by
        rintro rfl
        exact (List.nodup_cons.mp hblocks.nodup).1 hc)
        (hna c (hperm.mem_iff.mpr (List.mem_cons_of_mem _ hc)))
    rw [hstop] at hsplit
    have hperm' : (p :: a :: (l₁ ++ (l₂ ++ lv))).Perm (l₁ ++ p :: l₂ ++ a :: lv) := by
      rw [List.append_assoc, List.cons_append]
      refine (List.Perm.cons p ?_).trans List.perm_middle.symm
      rw [← List.append_assoc, ← List.append_assoc]
      exact List.perm_middle.symm
    exact (hsplit.perm hperm').congr rfl rfl fun _ _ => rfl

/-- A block of `n` units is taken from a block of the list that is large enough. -/
theorem take (hi : Inv E h fl lv) (hq : prevp ∈ E.base :: fl) (hn : 0 < n.toNat)
    (hfit : n ≤ (h.mem (h.next prevp)).size) :
    ∃ a fl', (h.take n prevp (h.next prevp)).1 = a + HDR ∧
      Inv E (h.take n prevp (h.next prevp)).2 fl' (a :: lv) ∧
      (h.take n prevp (h.next prevp)).2.units a = n.toNat ∧
      ∀ b ∈ lv, (h.take n prevp (h.next prevp)).2.units b = h.units b := by
  have hle : n.toNat ≤ h.units (h.next prevp) := UInt32.le_iff_toNat_le.mp hfit
  have hp : h.next prevp ∈ fl := hi.mem_of_units (hi.chain.mem_of_mem hq) (by omega)
  unfold Heap.take
  by_cases heq : (h.mem (h.next prevp)).size = n
  · rw [if_pos heq]
    obtain ⟨fl', hinv⟩ := hi.unlink hq hp rfl
    refine ⟨_, fl', rfl, hinv, ?_, fun b _ => Heap.units_setPtr⟩
    exact Heap.units_setPtr.trans (congrArg UInt32.toNat heq)
  · have hlt : n.toNat < h.units (h.next prevp) :=
      lt_of_le_of_ne hle fun he => heq (UInt32.toNat_inj.mp he.symm)
    rw [if_neg heq]
    obtain ⟨a, ha, hinv, hsame⟩ := hi.splitTail hq hp hn hlt
    simp only [← ha]
    refine ⟨a, fl, rfl, hinv, ?_, hsame⟩
    exact Heap.units_setSize.trans (if_pos rfl)

end Inv

/-! ## `morecore` -/

/-- The argument of `sbrk`, where it fits into a positive `int`. -/
theorem toInt_ofNat {k : ℕ} (hk : k < 2 ^ 31) : (Int32.ofNat k).toInt = k := by
  rw [Int32.toInt_ofNat_of_lt hk]

/-- The kernel gives a region, which becomes a live block. -/
theorem Inv.extend (hi : Inv E h fl lv) {m : UInt32} (hm : 0 < m.toNat)
    (htop : h.brk + m.toNat * HDR ≤ TRAPFRAME)
    (hram : totalLength h.got + m.toNat * HDR ≤ E.ram) :
    Inv E (Heap.setSize ⟨h.mem, h.freep, h.brk + m.toNat * HDR, (h.brk, m.toNat * HDR) :: h.got⟩
      h.brk m) fl (h.brk :: lv) := by
  generalize hh' : Heap.setSize
    ⟨h.mem, h.freep, h.brk + m.toNat * HDR, (h.brk, m.toNat * HDR) :: h.got⟩ h.brk m = h'
  have hnext (y : ℕ) : h'.next y = h.next y := by
    rw [← hh', Heap.next_setSize]
    rfl
  have hunits (y : ℕ) : h'.units y = if y = h.brk then m.toNat else h.units y := by
    rw [← hh', Heap.units_setSize]
    rfl
  have hself : h'.units h.brk = m.toNat := (hunits _).trans (if_pos rfl)
  have hgot : h'.got = (h.brk, HDR * h'.units h.brk) :: h.got := by
    rw [hself, Nat.mul_comm, ← hh']
    rfl
  have hbrk : h'.brk = h.brk + HDR * h'.units h.brk := by
    rw [hself, Nat.mul_comm, ← hh']
    rfl
  -- All blocks lie below the old end of the memory.
  have hlt : ∀ c ∈ fl ++ lv, c < h.brk := by
    intro c hc
    have hr := (hi.blocks.range hc).2
    have hpos : 0 < HDR * h.units c := Nat.mul_pos (by decide) (hi.blocks.pos hc)
    rw [Heap.stop] at hr
    omega
  have hlow := hi.blocks.low
  have hbase : E.base ≠ h.brk := by
    simp only [HDR] at hlow
    omega
  have hother : ∀ c ∈ fl ++ lv, h'.units c = h.units c :=
    fun c hc => (hunits c).trans (if_neg (hlt c hc).ne)
  refine ⟨hi.chain.congr fun y _ => hnext y, hi.sorted, ?_, ?_, fun y hy => ?_, ?_⟩
  · rw [← hh']
    exact hi.freep
  · exact (hunits _).trans ((if_neg hbase).trans hi.baseSize)
  · rw [Heap.stop, hother y (List.mem_append_left _ hy), hnext]
    exact hi.apart y hy
  · refine (hi.blocks.add hgot hbrk (hself ▸ hm) hother ?_ ?_).perm List.perm_middle.symm
    · rw [hgot, totalLength_cons, hself, Nat.mul_comm]
      omega
    · rw [hbrk, hself, Nat.mul_comm]
      exact htop

/-- `morecore` fails and changes nothing, or the list has a block of `n` units after it. -/
theorem Inv.morecore (hi : Inv E h fl lv) (hE : E.Ok) (hn : n.toNat * HDR < 2 ^ 31) (ok : Bool) :
    h.morecore E n ok = some (0, h) ∨
      ∃ h' fl', h.morecore E n ok = some (h'.freep, h') ∧ h'.freep ≠ 0 ∧ Inv E h' fl' lv ∧
        (∃ x ∈ fl', n.toNat ≤ h'.units x) ∧ ∀ a ∈ lv, h'.units a = h.units a := by
  unfold Heap.morecore
  generalize hm : (if n < 4096 then 4096 else n) = m
  have hmn : n.toNat ≤ m.toNat ∧ 4096 ≤ m.toNat ∧ m.toNat * HDR < 2 ^ 31 := by
    rw [← hm]
    split_ifs with hlt
    · have := UInt32.lt_iff_toNat_lt.mp hlt
      refine ⟨this.le, by decide, by decide⟩
    · have := UInt32.lt_iff_toNat_lt.not.mp hlt
      exact ⟨le_rfl, Nat.le_of_not_lt this, hn⟩
  have hint := toInt_ofNat hmn.2.2
  have hpos : 0 < m.toNat * HDR := Nat.mul_pos (by omega) (by decide)
  have hlt : (0 : ℤ) < (m.toNat * HDR : ℕ) := by exact_mod_cast hpos
  simp only [Heap.sbrk, hint, if_pos hlt, Int.toNat_natCast]
  by_cases hok : ok = true ∧ h.brk + m.toNat * HDR ≤ TRAPFRAME ∧
      totalLength h.got + m.toNat * HDR ≤ E.ram
  · right
    rw [if_pos hok]
    have hext := hi.extend (m := m) (by omega) hok.2.1 hok.2.2
    rw [← List.nil_append (h.brk :: lv)] at hext
    obtain ⟨h', fl', hfree, hinv, ⟨x, hx, hxle⟩, hsame, -⟩ := hext.free hE
    refine ⟨h', fl', ?_, ?_, hinv, ⟨x, hx, ?_⟩, fun a ha => ?_⟩
    · simp only [hfree, Option.map_some]
    · rcases List.mem_cons.mp hinv.freep with he | hmem
      · rw [he]
        exact hE.base.ne'
      · have := hinv.base_lt (List.mem_append_left _ hmem)
        omega
    · refine le_trans (le_trans hmn.1 ?_) hxle
      rw [Heap.units_setSize, if_pos rfl]
    · have hne : a ≠ h.brk := by
        rintro rfl
        exact (List.nodup_cons.mp (List.nodup_append.mp hext.blocks.nodup).2.1).1 ha
      rw [hsame a ha, Heap.units_setSize, if_neg hne]
      rfl
  · left
    rw [if_neg hok]

/-! ## The loop -/

/-- The loop of `malloc` goes along the list up to a block that is large enough, or to `freep`. -/
theorem Inv.search (hi : Inv E h fl lv) (n : UInt32) (ok : Bool) (m : List ℕ) :
    ∀ {prevp fuel : ℕ}, prevp ∈ E.base :: fl → Chain h.next prevp m h.freep → h.freep ∉ m →
      m.length < fuel →
      (∃ q ∈ E.base :: fl, n ≤ (h.mem (h.next q)).size ∧
        Heap.mallocLoop E n ok fuel h prevp (h.next prevp) = some (h.take n q (h.next q))) ∨
      (∀ x ∈ h.freep :: m, (h.mem x).size < n) ∧
        Heap.mallocLoop E n ok fuel h prevp (h.next prevp) = (h.morecore E n ok).bind fun r =>
          if r.1 = 0 then some (0, r.2)
          else Heap.mallocLoop E n ok (fuel - (m.length + 1)) r.2 r.1 (r.2.next r.1) := by
  induction m with
  | nil =>
    intro prevp fuel hq hc _ hfuel
    obtain ⟨fuel, rfl⟩ : ∃ k, fuel = k + 1 := ⟨fuel - 1, by simp at hfuel; omega⟩
    have hnext : h.next prevp = h.freep := hc
    by_cases hfit : n ≤ (h.mem (h.next prevp)).size
    · exact .inl ⟨prevp, hq, hfit, by rw [Heap.mallocLoop, if_pos hfit]⟩
    · refine .inr ⟨fun x hx => ?_, ?_⟩
      · obtain rfl : x = h.freep := by simpa using hx
        rw [hnext] at hfit
        exact UInt32.not_le.mp hfit
      · rw [Heap.mallocLoop, if_neg hfit, if_pos hnext]
        cases h.morecore E n ok with
        | none => rfl
        | some r => rfl
  | cons c m ih =>
    intro prevp fuel hq hc hnot hfuel
    obtain ⟨fuel, rfl⟩ : ∃ k, fuel = k + 1 := ⟨fuel - 1, by simp at hfuel; omega⟩
    obtain ⟨hnext, hc⟩ := hc
    obtain ⟨hne, hnot⟩ := not_or.mp (List.mem_cons.not.mp hnot)
    by_cases hfit : n ≤ (h.mem (h.next prevp)).size
    · exact .inl ⟨prevp, hq, hfit, by rw [Heap.mallocLoop, if_pos hfit]⟩
    · have hne' : h.next prevp ≠ h.freep := hnext ▸ Ne.symm hne
      have hmem : c ∈ E.base :: fl := hnext ▸ hi.chain.mem_of_mem hq
      have hstep : Heap.mallocLoop E n ok (fuel + 1) h prevp (h.next prevp) =
          Heap.mallocLoop E n ok fuel h c (h.next c) := by
        rw [Heap.mallocLoop, if_neg hfit, if_neg hne', hnext]
      rw [hstep]
      have hlen : m.length < fuel := by simpa using hfuel
      refine (ih hmem hc hnot hlen).imp_right fun hsmall => ⟨fun x hx => ?_, ?_⟩
      · rcases List.mem_cons.mp hx with rfl | hx
        · exact hsmall.1 _ (List.mem_cons_self ..)
        · rcases List.mem_cons.mp hx with rfl | hx
          · rw [hnext] at hfit
            exact UInt32.not_le.mp hfit
          · exact hsmall.1 x (List.mem_cons_of_mem _ hx)
      · rw [hsmall.2, List.length_cons, Nat.add_sub_add_right]

/-- The number of units is enough for the bytes and the header. -/
theorem toNat_nunits (nbytes : UInt32) :
    (Heap.nunits nbytes).toNat = (nbytes.toNat + HDR - 1) / HDR + 1 := by
  have := nbytes.toNat_lt
  refine UInt32.toNat_ofNat_of_lt' ?_
  simp only [HDR, UInt32.size]
  omega

/-- `malloc` returns. Either it returns a null pointer and changes nothing, or it returns a block
that has the units for the request. -/
theorem Inv.malloc (hi : Inv E h fl lv) (hE : E.Ok)
    (hn : (Heap.nunits nbytes).toNat * HDR < 2 ^ 31) (ok : Bool) :
    h.malloc E nbytes ok = some (0, h) ∨
      ∃ a h' fl', h.malloc E nbytes ok = some (a + HDR, h') ∧ Inv E h' fl' (a :: lv) ∧
        h'.units a = (Heap.nunits nbytes).toNat ∧ ∀ b ∈ lv, h'.units b = h.units b := by
  have hpos : 0 < (Heap.nunits nbytes).toNat := by
    rw [toNat_nunits]
    exact Nat.succ_pos _
  have hfreep : h.freep ≠ 0 := by
    rcases List.mem_cons.mp hi.freep with he | hmem
    · rw [he]
      exact hE.base.ne'
    · have := hi.base_lt (List.mem_append_left _ hmem)
      omega
  have hinit : h.init E = h := if_neg hfreep
  unfold Heap.malloc
  simp only [hinit]
  generalize Heap.nunits nbytes = n at hn hpos
  -- The first round.
  obtain ⟨m, hm, hperm⟩ := hi.chain.rotate hi.freep
  have hlen : m.length = fl.length := by simpa using hperm.length_eq
  have hnot : h.freep ∉ m := (List.nodup_cons.mp (hperm.nodup_iff.mpr hi.nodup)).1
  have hle := hi.length_le
  rcases hi.search n ok m hi.freep hm hnot (by omega : m.length < 2 * (TRAPFRAME + 2)) with
    ⟨q, hq, hfit, hres⟩ | ⟨-, hres⟩
  · obtain ⟨a, fl', hptr, hinv, hunits, hsame⟩ := hi.take hq hpos hfit
    exact .inr ⟨a, _, fl', by rw [hres, ← hptr], hinv, hunits, hsame⟩
  rw [hres]
  rcases hi.morecore hE hn ok with hfail | ⟨h₁, fl₁, hmore, hne, hi₁, ⟨x, hx, hxn⟩, hsame₁⟩
  · left
    rw [hfail, Option.bind_some, if_pos rfl]
  -- The second round finds the new block.
  right
  rw [hmore, Option.bind_some, if_neg hne]
  obtain ⟨m₁, hm₁, hperm₁⟩ := hi₁.chain.rotate hi₁.freep
  have hlen₁ : m₁.length = fl₁.length := by simpa using hperm₁.length_eq
  have hnot₁ : h₁.freep ∉ m₁ := (List.nodup_cons.mp (hperm₁.nodup_iff.mpr hi₁.nodup)).1
  have hle₁ := hi₁.length_le
  rcases hi₁.search n ok m₁ hi₁.freep hm₁ hnot₁ (by omega :
      m₁.length < 2 * (TRAPFRAME + 2) - (m.length + 1)) with
    ⟨q, hq, hfit, hres₁⟩ | ⟨hsmall, -⟩
  · obtain ⟨a, fl', hptr, hinv, hunits, hsame⟩ := hi₁.take hq hpos hfit
    exact ⟨a, _, fl', by rw [hres₁, ← hptr], hinv, hunits,
      fun b hb => (hsame b hb).trans (hsame₁ b hb)⟩
  · have hlt := UInt32.lt_iff_toNat_lt.mp
      (hsmall x (hperm₁.mem_iff.mpr (List.mem_cons_of_mem _ hx)))
    exact absurd hxn (Nat.not_le.mpr hlt)

end SustainableXv6.Umalloc
