import SustainableXv6.Syscall.Strings
import SustainableXv6.Vm.Copy

/-!
# Strings and pages that have not been touched

`copyinstr` of `kernel/vm.c` goes through the pages of a string as `copyin` does, but where
`walkaddr` finds no page it fails and does not call `vmfault`. So the two agree on a string unless
the string reaches a page that the process has reserved and not touched.
-/

namespace SustainableXv6.Vm

open Lib Radix Syscall

variable {s s' : Mem} {pt sz a va : UInt64} {R : Set UInt64} {v k : ℕ}

/-! ## `copyinstr` -/

/-- The outer loop of `copyinstr`: the bytes that it has stored, and `got_null`. -/
def copyinstrLoop (pagetable : UInt64) : ℕ → UInt64 → UInt64 → VmM (List UInt8 × Bool)
  | 0, _, _ => throw .walk
  | fuel + 1, srcva, max =>
    if 0 < max then do
      let va0 := pgrounddown srcva
      let pa0 ← walkaddr pagetable va0
      if pa0 = 0 then pure ([], false)
      else do
        let n := chunk (srcva - va0) max
        let s ← get
        let (l, got) := strBytes (pageByte (s.page pa0)) (srcva - va0).toNat n.toNat
        if got then pure (l, true)
        else do
          let (l', got') ← copyinstrLoop pagetable fuel (va0 + PGSIZE) (max - n)
          pure (l ++ l', got')
    else pure ([], false)

/-- `copyinstr`: the bytes that it has stored, and whether it returns 0. -/
def copyinstr (pagetable srcva max : UInt64) : VmM (List UInt8 × Bool) :=
  copyinstrLoop pagetable MAXPAGES srcva max

/-- The pages that `walkaddr` finds. -/
def Mem.readable (s : Mem) (pt : UInt64) (p : ℕ) : Bool :=
  (s.leafAt pt (p * 4096)).any fun pte => pte &&& PTE_U != 0

theorem leafAt_page (s : Mem) (pt : UInt64) (v : ℕ) :
    s.leafAt pt (v / 4096 * 4096) = s.leafAt pt v := by
  by_cases hv : v < MAXVA.toNat
  · obtain ⟨hb, hin⟩ := exists_inPage hv
    have hb' := aligned_iff.mp hb.aligned
    have hle := hin.1
    have hlt := hin.2
    have hin' : InPage (pgrounddown (UInt64.ofNat v)) (v / 4096 * 4096) := ⟨by omega, by omega⟩
    rw [hin.leafAt hb, hin'.leafAt hb]
  · have hv' : ¬ v / 4096 * 4096 < MAXVA.toNat := by
      change ¬ _ < 0x4000000000 at hv ⊢
      omega
    rw [Mem.leafAt, Mem.leafAt, if_neg hv, if_neg hv']

/-- A page that `walkaddr` finds has the bytes of the user. -/
theorem readable_iff : s.readable pt (v / 4096) = true ↔ s.userByte pt v = some (s.view pt v) := by
  rw [Mem.readable, leafAt_page, Mem.userByte, Mem.view]
  cases s.leafAt pt v with
  | none => simp
  | some pte =>
    by_cases hu : pte &&& PTE_U ≠ 0
    · simp [hu]
    · simp [not_not.mp hu]

theorem not_readable_iff : s.readable pt (v / 4096) = false ↔ s.userByte pt v = none := by
  rw [Mem.readable, leafAt_page, Mem.userByte]
  cases s.leafAt pt v with
  | none => simp
  | some pte =>
    by_cases hu : pte &&& PTE_U ≠ 0
    · simp [hu]
    · simp [not_not.mp hu]

theorem strBytes_congr {mem mem' : ℕ → UInt8} {n : ℕ} : ∀ {p q : ℕ},
    (∀ i < n, mem (p + i) = mem' (q + i)) → strBytes mem p n = strBytes mem' q n := by
  induction n with
  | zero => exact fun _ => rfl
  | succ n ih =>
    intro p q h
    have h0 : mem p = mem' q := h 0 (Nat.succ_pos n)
    have hrest : strBytes mem (p + 1) n = strBytes mem' (q + 1) n := ih fun i hi => by
      rw [Nat.add_right_comm, Nat.add_right_comm q]
      exact h (i + 1) (Nat.succ_lt_succ hi)
    rw [strBytes, strBytes, h0, hrest]

/-- No byte is copied from any address. -/
theorem copies_of_zero {pages : ℕ → Bool} {mem : ℕ → UInt8} {p q : ℕ} {r : List UInt8 × Bool}
    (h : Copies pages mem p 0 r) : Copies pages mem q 0 r := by
  have hnil : r.1 = [] := List.eq_nil_of_length_eq_zero (Nat.le_zero.mp h.le)
  refine ⟨h.le, by rw [hnil]; rfl, by simp [hnil], h.found, fun _ => ?_⟩
  rw [hnil]
  exact ⟨List.not_mem_nil, .inl rfl⟩

/-- `walkaddr` of the page of an address. -/
theorem walkaddr_readable (hs : Space R s pt) (hu : UserFrames s pt) (va : UInt64) :
    (s.readable pt (va.toNat / 4096) = false ∧ walkaddr pt (pgrounddown va) s = .ok (0, s)) ∨
    VirtPage (pgrounddown va) ∧ ∃ pte, s.pageMap pt (pgrounddown va) = some pte ∧
      pte &&& PTE_U ≠ 0 ∧ pte2pa pte ≠ 0 ∧
      walkaddr pt (pgrounddown va) s = .ok (pte2pa pte, s) := by
  have halign : pgrounddown va % PGSIZE = 0 := by
    rw [aligned_iff, pgrounddown_toNat]
    omega
  rw [walkaddr_eq, pgrounddown_of_aligned halign, not_readable_iff, Mem.userByte]
  by_cases hva : pgrounddown va < MAXVA
  · have hb : VirtPage (pgrounddown va) := ⟨halign, hva⟩
    have hin : InPage (pgrounddown va) va.toNat := by
      rw [InPage, pgrounddown_toNat]
      omega
    rw [if_pos hva, hin.leafAt hb]
    cases hmap : s.pageMap pt (pgrounddown va) with
    | none => exact .inl ⟨rfl, rfl⟩
    | some pte =>
      by_cases huser : pte &&& PTE_U ≠ 0
      · right
        rw [userPage, if_pos huser]
        exact ⟨hb, pte, rfl, huser, (hu _ pte hb hmap huser).ne_zero hs.alloc.kend, rfl⟩
      · left
        rw [userPage, if_neg huser, Option.bind_some, if_neg huser]
        exact ⟨rfl, rfl⟩
  · have hge := UInt64.le_iff_toNat_le.mp (UInt64.not_lt.mp hva)
    have hround := pgrounddown_toNat va
    left
    rw [if_neg hva, Mem.leafAt, if_neg (by omega)]
    exact ⟨rfl, rfl⟩

/-- The loop of `copyinstr` copies a string from the pages that `walkaddr` finds. -/
theorem copyinstrLoop_copies (hs : Space R s pt) (hu : UserFrames s pt) {fuel : ℕ} :
    ∀ {va max : UInt64}, (0x4000000000 - va.toNat / 4096 * 4096) / 4096 < fuel →
      ∃ r, copyinstrLoop pt fuel va max s = .ok (r, s) ∧
        Copies (s.readable pt) (s.view pt) va.toNat max.toNat r := by
  induction fuel with
  | zero => exact fun hfuel => absurd hfuel (Nat.not_lt_zero _)
  | succ fuel ih =>
    intro va max hfuel
    simp only [copyinstrLoop]
    by_cases hmax : 0 < max
    · obtain ⟨hin, hoff, hpos, hle, hrest, hend, hnext⟩ := chunk_spec va hmax
      have hround := pgrounddown_toNat va
      rw [if_pos hmax]
      rcases walkaddr_readable hs hu va with ⟨hno, hwalk⟩ | ⟨hpage, pte, hmap, huser, hne, hwalk⟩
      · rw [bind_of_ok hwalk, if_pos rfl]
        exact ⟨_, rfl, Nat.zero_le _, rfl, by simp, by simp, fun _ => ⟨List.not_mem_nil, .inr hno⟩⟩
      · rw [bind_of_ok hwalk, if_neg hne]
        generalize pgrounddown va = a at *
        generalize chunk (va - a) max = n at *
        have hinpage {i : ℕ} (hi : i < n.toNat) : InPage a (va.toNat + i) := by
          have := hin.1
          exact ⟨by omega, by omega⟩
        have hbytes : strBytes (pageByte (s.page (pte2pa pte))) (va - a).toNat n.toNat =
            strBytes (s.view pt) va.toNat n.toNat := by
          refine strBytes_congr fun i hi => ?_
          rw [(hinpage hi).view hpage hmap, hoff, Nat.sub_add_comm hin.1]
        obtain ⟨hcopies, hlen⟩ := strBytes_copies (s.readable pt) (s.view pt) n.toNat va.toNat
          fun i hi => by
            refine readable_iff.mpr ?_
            rw [Mem.userByte, Mem.view, (hinpage hi).leafAt hpage, hmap, Option.bind_some,
              if_pos huser]
            rfl
        rw [bind_of_ok (show (get : VmM Mem) s = .ok (s, s) from rfl), hbytes]
        generalize strBytes (s.view pt) va.toNat n.toNat = r at hcopies hlen
        obtain ⟨l, got⟩ := r
        dsimp only at hlen ⊢
        cases got with
        | true =>
          rw [if_pos rfl]
          exact ⟨_, rfl, hcopies.le.trans hle, hcopies.bytes, hcopies.readable, hcopies.found,
            by simp⟩
        | false =>
          rw [if_neg (by simp)]
          have hstep := toNat_next hpage.lt
          obtain ⟨r', hok, hcopies'⟩ : ∃ r',
              copyinstrLoop pt fuel (a + PGSIZE) (max - n) s = .ok (r', s) ∧
              Copies (s.readable pt) (s.view pt) (a + PGSIZE).toNat (max - n).toNat r' :=
            ih (fuel_next hpage hround hfuel)
          rw [bind_of_ok hok]
          refine ⟨_, rfl, hcopies.append (hlen rfl) ?_ hle⟩
          rw [hrest] at hcopies'
          by_cases hlast : max.toNat - n.toNat = 0
          · rw [hlast] at hcopies' ⊢
            exact copies_of_zero hcopies'
          · have hcont : (a + PGSIZE).toNat = va.toNat + n.toNat := by omega
            rw [← hcont]
            exact hcopies'
    · have h0 : max.toNat = 0 := by
        rw [UInt64.lt_iff_toNat_lt] at hmax
        change ¬ 0 < max.toNat at hmax
        omega
      rw [if_neg hmax, h0]
      exact ⟨_, rfl, le_rfl, rfl, by simp, by simp, fun _ => ⟨List.not_mem_nil, .inl rfl⟩⟩

theorem copyinstr_copies (hs : Space R s pt) (hu : UserFrames s pt) (va max : UInt64) :
    ∃ r, copyinstr pt va max s = .ok (r, s) ∧
      Copies (s.readable pt) (s.view pt) va.toNat max.toNat r := by
  refine copyinstrLoop_copies hs hu ?_
  have : MAXPAGES = 67108865 := rfl
  omega

/-! ## `copyin` of a string -/

/-- The loop of `copyin` reads the bytes of the pages that are mapped, in the same state. -/
theorem copyinLoop_reach (hs : Space R s pt) (hu : UserFrames s pt) {fuel : ℕ} :
    ∀ {va len : UInt64} {k : ℕ}, (∀ i < k, s.userByte pt (va.toNat + i) ≠ none) →
      k < len.toNat → s.userByte pt (va.toNat + k) = none →
      (0x4000000000 - va.toNat / 4096 * 4096) / 4096 < fuel →
      ∃ (fuel' : ℕ) (va' len' : UInt64), va'.toNat = va.toNat + k ∧ len'.toNat = len.toNat - k ∧
        (0x4000000000 - va'.toNat / 4096 * 4096) / 4096 < fuel' + 1 ∧
        ∀ r bs s', copyinLoop pt sz pt (fuel' + 1) va' len' s = .ok ((r, bs), s') →
          copyinLoop pt sz pt fuel va len s =
            .ok ((r, memBytes (s.view pt) va.toNat k ++ bs), s') := by
  induction fuel with
  | zero => exact fun _ _ _ hfuel => absurd hfuel (Nat.not_lt_zero _)
  | succ fuel ih =>
    intro va len k hsome hk hnone hfuel
    cases k with
    | zero => exact ⟨fuel, va, len, rfl, rfl, hfuel, fun r bs s' hrun => hrun⟩
    | succ k =>
      have hlen : 0 < len := UInt64.lt_iff_toNat_lt.mpr (by change 0 < _; omega)
      obtain ⟨hin, hoff, hpos, hle, hrest, hend, hnext⟩ := chunk_spec va hlen
      have hround := pgrounddown_toNat va
      have h0 := hsome 0 (Nat.succ_pos k)
      rcases walkaddr_readable hs hu va with ⟨hno, -⟩ | ⟨hpage, pte, hmap, huser, hne, hwalk⟩
      · exact absurd (not_readable_iff.mp hno) h0
      · have hunfold (r : Bool) (bs : List UInt8) (s' : Mem)
            (hrun : copyinLoop pt sz pt fuel (pgrounddown va + PGSIZE)
              (len - chunk (va - pgrounddown va) len) s = .ok ((r, bs), s')) :
            copyinLoop pt sz pt (fuel + 1) va len s = .ok ((r,
              s.bytes (pte2pa pte) (va - pgrounddown va) (chunk (va - pgrounddown va) len) ++ bs),
              s') := by
          have haddr : userAddr pt sz pt (pgrounddown va) s = .ok (pte2pa pte, s) := by
            rw [userAddr, bind_of_ok hwalk, if_neg hne]
            rfl
          simp only [copyinLoop]
          rw [if_pos hlen, bind_of_ok haddr, if_neg hne,
            bind_of_ok (show (get : VmM Mem) s = .ok (s, s) from rfl), bind_of_ok hrun]
          rfl
        generalize pgrounddown va = a at *
        generalize chunk (va - a) len = n at *
        have hinpage {i : ℕ} (hi : i < n.toNat) : InPage a (va.toNat + i) := by
          have := hin.1
          exact ⟨by omega, by omega⟩
        -- The bytes of the page are all there, so that the missing one is behind the page.
        have hkn : n.toNat ≤ k + 1 := by
          by_contra hlt
          rw [Mem.userByte, (hinpage (by omega)).leafAt hpage, hmap, Option.bind_some,
            if_pos huser] at hnone
          exact absurd hnone (by simp)
        obtain ⟨j, hj⟩ := Nat.exists_eq_add_of_le hkn
        have hstep := toNat_next hpage.lt
        have hcont : (a + PGSIZE).toNat = va.toNat + n.toNat := by omega
        have hbytes : s.bytes (pte2pa pte) (va - a) n = memBytes (s.view pt) va.toNat n.toNat := by
          refine List.map_congr_left fun i hi => ?_
          rw [(hinpage (List.mem_range.mp hi)).view hpage hmap, hoff, Nat.sub_add_comm hin.1]
        have hsome' (i : ℕ) (hi : i < j) : s.userByte pt ((a + PGSIZE).toNat + i) ≠ none := by
          rw [hcont, Nat.add_assoc]
          exact hsome _ (by omega)
        have hnone' : s.userByte pt ((a + PGSIZE).toNat + j) = none := by
          rw [hcont, Nat.add_assoc, ← hj, hnone]
        have hj' : j < (len - n).toNat := by omega
        obtain ⟨fuel', va', len', hva', hlen', hfuel', hrun⟩ :=
          ih hsome' hj' hnone' (fuel_next hpage hround hfuel)
        refine ⟨fuel', va', len', by omega, by omega, hfuel', fun r bs s' hok => ?_⟩
        rw [hunfold _ _ _ (hrun r bs s' hok), hj, memBytes_add, hbytes, hcont, List.append_assoc]

section Fault

variable {len pa : UInt64} (hs : Space R s pt) (hu : UserFrames s pt)
  (hsome : ∀ i < k, s.userByte pt (va.toNat + i) ≠ none)
  (hnone : s.userByte pt (va.toNat + k) = none)
  (hfault : vmfault pt sz pt (pgrounddown (UInt64.ofNat (va.toNat + k))) s = .ok (pa, s'))
include hs hu hsome hnone hfault

/-- `copyin` comes to the page that has not been touched, and calls `vmfault`. -/
theorem copyin_fault (hk : k < len.toNat) :
    ∃ (fuel : ℕ) (va' len' : UInt64), va'.toNat = va.toNat + k ∧ len'.toNat = len.toNat - k ∧
      (0x4000000000 - va'.toNat / 4096 * 4096) / 4096 < fuel + 1 ∧
      userAddr pt sz pt (pgrounddown va') s = .ok (pa, s') ∧
      ∀ r bs s', copyinLoop pt sz pt (fuel + 1) va' len' s = .ok ((r, bs), s') →
        copyin pt sz pt va len s = .ok ((r, memBytes (s.view pt) va.toNat k ++ bs), s') := by
  have hfuel : (0x4000000000 - va.toNat / 4096 * 4096) / 4096 < MAXPAGES := by
    have : MAXPAGES = 67108865 := rfl
    omega
  obtain ⟨fuel, va', len', hva', hlen', hfuel', hrun⟩ :=
    copyinLoop_reach hs hu hsome hk hnone hfuel
  refine ⟨fuel, va', len', hva', hlen', hfuel', ?_, hrun⟩
  rw [← hva', UInt64.ofNat_toNat] at hfault
  rcases walkaddr_readable hs hu va' with ⟨-, hwalk⟩ | ⟨hpage, pte, hmap, huser, -, -⟩
  · rw [userAddr, bind_of_ok hwalk, if_pos rfl, hfault]
  · have hin : InPage (pgrounddown va') va'.toNat := by
      rw [InPage, pgrounddown_toNat]
      omega
    rw [← hva', Mem.userByte, hin.leafAt hpage, hmap, Option.bind_some, if_pos huser] at hnone
    exact absurd hnone (by simp)

/-- Where `vmfault` fails, `copyin` fails. -/
theorem copyin_of_refused (hk : k < len.toNat) (hpa : pa = 0) :
    copyin pt sz pt va len s = .ok ((false, memBytes (s.view pt) va.toNat k), s') := by
  obtain ⟨fuel, va', len', -, hlen', -, haddr, hrun⟩ :=
    copyin_fault hs hu hsome hnone hfault hk
  have hlen : 0 < len' := UInt64.lt_iff_toNat_lt.mpr (by change 0 < _; omega)
  have hok := hrun false [] s' (by
    simp only [copyinLoop]
    rw [if_pos hlen, bind_of_ok haddr, if_pos hpa]
    rfl)
  rwa [List.append_nil] at hok

/-- Where `vmfault` adds the page, `copyin` reads a NUL. -/
theorem copyin_of_served (hsz : sz ≤ TRAPFRAME) (hk : len.toNat = k + 1) (hpa : pa ≠ 0) :
    copyin pt sz pt va len s = .ok ((true, memBytes (s.view pt) va.toNat k ++ [0]), s') := by
  obtain ⟨fuel, va', len', hva', hlen', hfuel, haddr, hrun⟩ :=
    copyin_fault hs hu hsome hnone hfault (show k < len.toNat by omega)
  have hlen : 0 < len' := UInt64.lt_iff_toNat_lt.mpr (by change 0 < _; omega)
  obtain ⟨hin, -, hpos, hle, hrest, -, -⟩ := chunk_spec va' hlen
  have halign : pgrounddown va' % PGSIZE = 0 := by
    rw [aligned_iff, pgrounddown_toNat]
    omega
  rw [← hva', UInt64.ofNat_toNat] at hfault
  obtain ⟨hpage, hzero⟩ : VirtPage (pgrounddown va') ∧ s'.page pa = fun _ => 0 := by
    obtain ⟨-, ⟨h0, -⟩ | ⟨hpage, -, -, ⟨h0, -⟩ | ⟨-, had⟩⟩⟩ :=
      (hs.wp_vmfault (E := fun _ => False) hsz halign).of_ok hfault
    · exact absurd h0 hpa
    · exact absurd h0 hpa
    · exact ⟨hpage, had.page⟩
  have hlt : (pgrounddown va').toNat < 0x4000000000 := UInt64.lt_iff_toNat_lt.mp hpage.lt
  have hround := pgrounddown_toNat va'
  obtain ⟨f, rfl⟩ : ∃ f, fuel = f + 1 := Nat.exists_eq_add_one_of_ne_zero (by omega)
  refine hrun true [0] s' ?_
  simp only [copyinLoop]
  rw [if_pos hlen, bind_of_ok haddr, if_neg hpa,
    bind_of_ok (show (get : VmM Mem) s' = .ok (s', s') from rfl)]
  have hlast : ¬ 0 < len' - chunk (va' - pgrounddown va') len' := by
    rw [UInt64.lt_iff_toNat_lt, hrest]
    change ¬ 0 < _
    omega
  have hone : (chunk (va' - pgrounddown va') len').toNat = 1 := by omega
  rw [if_neg hlast, bind_of_ok (show (pure (true, []) : VmM (Bool × List UInt8)) s' =
    .ok ((true, []), s') from rfl), Mem.bytes, hone, hzero]
  simp [pageByte]
  rfl

end Fault

/-- Bytes that the user may access are read. -/
theorem copyin_of_some {len : UInt64} (hs : Space R s pt) (hu : UserFrames s pt)
    (hsz : sz ≤ TRAPFRAME) (hsome : ∀ i < len.toNat, s.userByte pt (va.toNat + i) ≠ none) :
    ∃ s', copyin pt sz pt va len s = .ok ((true, memBytes (s.view pt) va.toNat len.toNat), s') := by
  have hleaf (v : ℕ) (hle : va.toNat ≤ v) (hlt : v < va.toNat + len.toNat) :
      ∃ b, VirtPage b ∧ InPage b v ∧ ∃ pte, s.pageMap pt b = some pte ∧ pte &&& PTE_U ≠ 0 := by
    obtain ⟨c, hc⟩ := Option.ne_none_iff_exists'.mp (hsome (v - va.toNat) (by omega))
    rw [Nat.add_sub_cancel' hle] at hc
    obtain ⟨hmax, -, pte, hpte, huser⟩ := exists_of_userByte hc
    obtain ⟨hb, hin⟩ := exists_inPage hmax
    exact ⟨_, hb, hin, pte, by rw [← hin.leafAt hb, hpte], huser⟩
  have husable : Usable pt sz readMode va.toNat len.toNat s := by
    intro v hle hlt
    obtain ⟨b, hb, hin, hmap⟩ := hleaf v hle hlt
    exact ⟨b, hb, hin, .inl hmap⟩
  obtain ⟨⟨r, bs⟩, s', hok, m, hres, hbytes⟩ := (hs.wp_copyin hu hsz va len).exists_ok
  have hr : r = true := by
    by_contra hn
    obtain ⟨hlt, hblocked⟩ := hres.blocked (by simpa using hn)
    refine husable.not_blocked hlt (fun hnone => ?_) hblocked
    obtain ⟨b, hb, hin, hnone⟩ := hnone
    obtain ⟨b', hb', hin', pte, hmap, -⟩ := hleaf (va.toNat + m) (by omega) (by omega)
    rw [hin.unique hb hb' hin', hmap] at hnone
    exact absurd hnone (by simp)
  obtain rfl := hres.all hr
  refine ⟨s', ?_⟩
  rw [hok, hr]
  exact congrArg (fun l => Except.ok ((true, l), s')) hbytes

/-! ## The two agree -/

/-- `copyinstr` agrees with `copyin`: if `copyin` finds the first NUL below `max` then `copyinstr`
stores the same bytes, and otherwise `copyinstr` fails. -/
def Agrees (pt sz srcva max : UInt64) (s : Mem) : Prop :=
  (∀ (k : UInt64) bs s', k < max → copyin pt sz pt srcva (k + 1) s = .ok ((true, bs), s') →
    (∃ str, bs = str ++ [0] ∧ 0 ∉ str) → copyinstr pt srcva max s = .ok ((bs, true), s)) ∧
  ((∀ (k : UInt64) bs s', k < max → copyin pt sz pt srcva (k + 1) s = .ok ((true, bs), s') →
    0 ∉ bs) → ∃ bs, copyinstr pt srcva max s = .ok ((bs, false), s))

/-- The string does not come to a page that `vmfault` would add. -/
def Touched (pt sz srcva max : UInt64) (s : Mem) : Prop :=
  ∀ k < max.toNat, (∀ i < k, ∃ c, s.userByte pt (srcva.toNat + i) = some c ∧ c ≠ 0) →
    s.userByte pt (srcva.toNat + k) = none →
    ∀ pa s', vmfault pt sz pt (pgrounddown (UInt64.ofNat (srcva.toNat + k))) s = .ok (pa, s') →
      pa = 0

theorem mem_memBytes {mem : ℕ → UInt8} {n i : ℕ} (hi : i < n) (v : ℕ) :
    mem (v + i) ∈ memBytes mem v n := List.mem_map.mpr ⟨i, List.mem_range.mpr hi, rfl⟩

/-- A string ends at its first NUL. -/
theorem memBytes_eq_string {mem : ℕ → UInt8} {n : ℕ} {str : List UInt8}
    (h : memBytes mem v n = str ++ [0]) (hstr : 0 ∉ str) :
    n = str.length + 1 ∧ mem (v + str.length) = 0 ∧ ∀ i < str.length, mem (v + i) ≠ 0 := by
  have hlen : n = str.length + 1 := by
    have := congrArg List.length h
    simpa [memBytes] using this
  rw [hlen, memBytes_add] at h
  obtain ⟨hinit, hlast⟩ := List.append_inj' h rfl
  refine ⟨hlen, ?_, fun i hi h0 => hstr ?_⟩
  · simpa [memBytes] using hlast
  · rw [← hinit, ← h0]
    exact mem_memBytes hi v

/-- The copy of a string ends at its first NUL. -/
theorem copies_eq_string {pages : ℕ → Bool} {mem : ℕ → UInt8} {max : ℕ} {r : List UInt8 × Bool}
    (h : Copies pages mem v max r) (hk : k < max) (hpages : ∀ i ≤ k, pages ((v + i) / 4096) = true)
    (hzero : mem (v + k) = 0) (hnz : ∀ i < k, mem (v + i) ≠ 0) :
    r = (memBytes mem v (k + 1), true) := by
  obtain ⟨l, got⟩ := r
  have hbytes : l = memBytes mem v l.length := h.bytes
  have hmem (hlt : k < l.length) : 0 ∈ l := by
    rw [hbytes, ← hzero]
    exact mem_memBytes hlt v
  cases got with
  | false =>
    obtain ⟨hno, hend⟩ : 0 ∉ l ∧ (l.length = max ∨ pages ((v + l.length) / 4096) = false) :=
      h.failed rfl
    have hle : l.length ≤ k := Nat.le_of_not_lt fun hlt => hno (hmem hlt)
    rcases hend with hmax | hpage
    · omega
    · rw [hpages _ hle] at hpage
      exact absurd hpage (by simp)
  | true =>
    obtain ⟨str, hno, hl⟩ : ∃ str, 0 ∉ str ∧ l = str ++ [0] := h.found rfl
    rw [hbytes] at hl
    obtain ⟨hlen, hlast, hbefore⟩ := memBytes_eq_string hl hno
    have heq : str.length = k := by
      rcases lt_trichotomy str.length k with hlt | heq | hlt
      · exact absurd hlast (hnz _ hlt)
      · exact heq
      · exact absurd hzero (hbefore k hlt)
    rw [hbytes, hlen, heq]

theorem toNat_succ {k max : UInt64} (h : k < max) : (k + 1).toNat = k.toNat + 1 := by
  have hlt := UInt64.lt_iff_toNat_lt.mp h
  have hmax := max.toNat_lt
  rw [UInt64.toNat_add]
  exact Nat.mod_eq_of_lt (by change k.toNat + 1 < _; omega)

/-- `copyinstr` agrees with `copyin` exactly if the string does not come to a page that has been
reserved and not touched, and that `vmfault` would add. -/
theorem copyinstr_agrees_iff {srcva max : UInt64} (hs : Space R s pt) (hu : UserFrames s pt)
    (hsz : sz ≤ TRAPFRAME) : Agrees pt sz srcva max s ↔ Touched pt sz srcva max s := by
  obtain ⟨r, hstr, hcopies⟩ := copyinstr_copies hs hu srcva max
  have hreadable {i : ℕ} (hi : i < r.1.length) : s.userByte pt (srcva.toNat + i) ≠ none := by
    rw [readable_iff.mp (hcopies.readable i hi)]
    simp
  constructor
  · intro hagree k hk hsome hnone pa s' hfault
    by_contra hpa
    have hkmax : (UInt64.ofNat k).toNat = k :=
      UInt64.toNat_ofNat_of_lt' (lt_trans hk max.toNat_lt)
    have hlt : UInt64.ofNat k < max := UInt64.lt_iff_toNat_lt.mpr (by rwa [hkmax])
    have hok := copyin_of_served hs hu (fun i hi => by
      obtain ⟨c, hc, -⟩ := hsome i hi
      simp [hc]) hnone hfault hsz (show (UInt64.ofNat k + 1).toNat = k + 1 by
        rw [toNat_succ hlt, hkmax]) hpa
    have hno : 0 ∉ memBytes (s.view pt) srcva.toNat k := by
      intro hmem
      obtain ⟨i, hi, h0⟩ := List.mem_map.mp hmem
      obtain ⟨c, hc, hne⟩ := hsome i (List.mem_range.mp hi)
      exact hne ((exists_of_userByte hc).2.1.symm.trans h0)
    have hres := hagree.1 _ _ s' hlt hok ⟨_, rfl, hno⟩
    rw [hstr] at hres
    obtain ⟨hr, -⟩ := Prod.mk.inj (Except.ok.inj hres)
    refine hreadable (i := k) ?_ hnone
    rw [hr]
    simp [memBytes]
  · intro htouched
    refine ⟨fun k bs s' hk hok hbs => ?_, fun hall => ?_⟩
    · obtain ⟨str, rfl, hno⟩ := hbs
      obtain ⟨m, hres, hbytes⟩ :=
        (hs.wp_copyin (E := fun _ => False) hu hsz srcva (k + 1)).of_ok hok
      obtain rfl := hres.all rfl
      obtain ⟨hlen, hzero, hnz⟩ := memBytes_eq_string hbytes.symm hno
      have hk' := UInt64.lt_iff_toNat_lt.mp hk
      rw [toNat_succ hk] at hlen
      -- Otherwise `copyin` would have failed at the first page that is missing.
      have hsome (i : ℕ) (hi : i ≤ str.length) : s.userByte pt (srcva.toNat + i) ≠ none := by
        induction i using Nat.strong_induction_on with
        | _ i ih =>
          intro hnone
          have hbefore (j : ℕ) (hj : j < i) :
              ∃ c, s.userByte pt (srcva.toNat + j) = some c ∧ c ≠ 0 := by
            obtain ⟨c, hc⟩ := Option.ne_none_iff_exists'.mp (ih j hj (by omega))
            exact ⟨c, hc, (exists_of_userByte hc).2.1 ▸ hnz j (by omega)⟩
          have halign : pgrounddown (UInt64.ofNat (srcva.toNat + i)) % PGSIZE = 0 := by
            rw [aligned_iff, pgrounddown_toNat]
            omega
          obtain ⟨pa, s'', hfault, -⟩ := (hs.wp_vmfault hsz halign).exists_ok
          have hpa := htouched i (by omega) hbefore hnone pa s'' hfault
          have hfail := copyin_of_refused hs hu (fun j hj => ih j hj (by omega)) hnone hfault
            (show i < (k + 1).toNat by rw [toNat_succ hk]; omega) hpa
          rw [hok] at hfail
          simp at hfail
      have hr := copies_eq_string hcopies (show str.length < max.toNat by omega) (fun i hi => by
        obtain ⟨c, hc⟩ := Option.ne_none_iff_exists'.mp (hsome i hi)
        rw [readable_iff, hc, (exists_of_userByte hc).2.1]) hzero hnz
      rw [hstr, hr, ← hlen, ← toNat_succ hk]
      exact congrArg (fun l => Except.ok ((l, true), s)) hbytes.symm
    · obtain ⟨l, got⟩ := r
      cases got with
      | false => exact ⟨l, hstr⟩
      | true =>
        obtain ⟨str, hno, hl⟩ := hcopies.found rfl
        have hle : l.length ≤ max.toNat := hcopies.le
        have hlen : l.length = str.length + 1 := by
          rw [show l = str ++ [0] from hl, List.length_append, List.length_singleton]
        have hkmax : (UInt64.ofNat str.length).toNat = str.length :=
          UInt64.toNat_ofNat_of_lt' (lt_of_lt_of_le (by omega) max.toNat_lt.le)
        have hlt : UInt64.ofNat str.length < max := UInt64.lt_iff_toNat_lt.mpr (by omega)
        have hk := toNat_succ hlt
        have hsome (i : ℕ) (hi : i < (UInt64.ofNat str.length + 1).toNat) :
            s.userByte pt (srcva.toNat + i) ≠ none := hreadable (show i < l.length by omega)
        obtain ⟨s', hok⟩ := copyin_of_some hs hu hsz hsome
        have hbytes : l = memBytes (s.view pt) srcva.toNat l.length := hcopies.bytes
        refine absurd ?_ (hall _ _ s' hlt hok)
        rw [hk, hkmax, ← hlen, ← hbytes, show l = str ++ [0] from hl]
        simp

/-- A string of one letter has been written to a page. -/
theorem copyinstr_agrees_iff_letter :
    ∃ s, copyout 0x80001000 4096 0x80001000 0 (fun i => if i = 0 then 97 else 0) 2 blankMem =
        .ok (true, s) ∧ Touched 0x80001000 4096 0 128 s ∧ Agrees 0x80001000 4096 0 128 s := by
  have hsz : (4096 : UInt64) ≤ TRAPFRAME := by decide
  obtain ⟨⟨r, s⟩, hok, rfl, hfirst, hsecond⟩ := exists_ok
    (r := copyout 0x80001000 4096 0x80001000 0 (fun i => if i = 0 then 97 else 0) 2 blankMem)
    (fun r => r.1 = true ∧ r.2.userByte 0x80001000 0 = some 97 ∧
      r.2.userByte 0x80001000 1 = some 0) (by decide +kernel)
  obtain ⟨m, hres⟩ := (blankMem_space.1.wp_copyout (E := fun _ => False) blankMem_space.2 hsz 0 2
    fun i => if i = 0 then 97 else 0).of_ok hok
  have htouched : Touched 0x80001000 4096 0 128 s := by
    intro k _ hsome hnone
    rcases k with _ | _ | k
    · exact absurd (hfirst.symm.trans hnone) (by simp)
    · exact absurd (hsecond.symm.trans hnone) (by simp)
    · obtain ⟨c, hc, hne⟩ := hsome 1 (by omega)
      exact absurd (Option.some.inj (hc.symm.trans hsecond)) hne
  exact ⟨s, hok, htouched, (copyinstr_agrees_iff hres.space hres.frames hsz).mpr htouched⟩

/-- A process has reserved a page and not touched it. `copyin` reads the empty string at its start,
and `copyinstr` fails. -/
theorem copyinstr_untouched :
    (∃ s, copyin 0x80001000 4096 0x80001000 0 1 blankMem = .ok ((true, [0]), s)) ∧
      copyinstr 0x80001000 0 128 blankMem = .ok (([], false), blankMem) ∧
      ¬ Agrees 0x80001000 4096 0 128 blankMem := by
  obtain ⟨⟨r, s⟩, hok, rfl⟩ := exists_ok (r := copyin 0x80001000 4096 0x80001000 0 1 blankMem)
    (fun r => r.1 = (true, [0])) (by decide +kernel)
  obtain ⟨⟨r, s'⟩, hok', rfl⟩ := exists_ok (r := copyinstr 0x80001000 0 128 blankMem)
    (fun r => r.1 = ([], false)) (by decide +kernel)
  obtain ⟨r, hstr, -⟩ := copyinstr_copies blankMem_space.1 blankMem_space.2 0 128
  obtain ⟨rfl, rfl⟩ := Prod.mk.inj (Except.ok.inj (hstr.symm.trans hok'))
  refine ⟨⟨s, hok⟩, hok', fun hagree => ?_⟩
  have hsame := hagree.1 0 _ s (by decide) hok ⟨[], rfl, by simp⟩
  rw [hok'] at hsame
  simp at hsame

end SustainableXv6.Vm
