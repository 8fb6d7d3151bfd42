import SustainableXv6.File.Write

/-!
# Reads of a file

`fileread` stores to the buffer of its caller only, unless it reads an inode with a negative `n`.
`readi` gets `n` as a `uint`, and cuts it at the end of the file. Its test for an end that wraps
around finds a negative `n` only if the file has been read up to the byte `-n` at least. Before that
byte, the rest of the file is stored.
-/

namespace SustainableXv6.File

open Fs Inode Lib

variable {sb : Superblock} {lim : ℕ} {s s' : State} {e : EntryId} {pages : ℕ → Bool}
  {E : Panic → Prop}

/-! ## `copyout` -/

/-- The stores are to the `n` bytes from the address `a` on. -/
def Inside (a n : ℕ) (stores : Stores) : Prop := ∀ p ∈ stores, a ≤ p.1 ∧ p.1 < a + n

theorem Inside.nil (a n : ℕ) : Inside a n [] := fun _ hp => absurd hp List.not_mem_nil

theorem Inside.append {a n : ℕ} {st st' : Stores} (h : Inside a n st) (h' : Inside a n st') :
    Inside a n (st ++ st') := fun p hp => (List.mem_append.mp hp).elim (h p) (h' p)

theorem Inside.mono {a a' n n' : ℕ} {st : Stores} (h : Inside a' n' st) (ha : a ≤ a')
    (hn : a' + n' ≤ a + n) : Inside a n st := fun p hp =>
  ⟨ha.trans (h p hp).1, lt_of_lt_of_le (h p hp).2 hn⟩

theorem inside_storesAt (a : ℕ) (l : List UInt8) : Inside a l.length (storesAt a l) := by
  intro p hp
  obtain ⟨i, hi, rfl⟩ := List.mem_mapIdx.mp hp
  exact ⟨Nat.le_add_right _ _, Nat.add_lt_add_left hi a⟩

theorem inside_copyout (pages : ℕ → Bool) (a : ℕ) (l : List UInt8) :
    Inside a l.length (copyout pages a l).2 := by
  refine (inside_storesAt a _).mono le_rfl ?_
  rw [List.length_take]
  omega

/-- `copyout` stores the first byte if its page is writable. -/
theorem copyout_of_page {a : ℕ} {l : List UInt8} (h : pages (a / PGSIZE) = true) (hl : l ≠ []) :
    ∃ p ∈ (copyout pages a l).2, p.1 = a := by
  have hacc := pageLoop_accessible pages l.length a l.length le_rfl
  have hpos : 0 < pageLoop pages l.length a l.length := by
    by_contra h0
    have hstop := hacc.stop (by have := List.length_pos_iff.mpr hl; omega)
    rw [Nat.eq_zero_of_not_pos h0, Nat.add_zero, h] at hstop
    exact Bool.noConfusion hstop
  cases l with
  | nil => exact absurd rfl hl
  | cons v l =>
    obtain ⟨k, hk⟩ := Nat.exists_eq_succ_of_ne_zero hpos.ne'
    refine ⟨(a, v), ?_, rfl⟩
    simp only [copyout, hk, List.take_succ_cons]
    exact List.mem_mapIdx.mpr ⟨0, Nat.succ_pos _, rfl⟩

/-- `copyout` fails at once if the first page is not writable. -/
theorem copyout_of_not_page {a : ℕ} {l : List UInt8} (h : pages (a / PGSIZE) = false)
    (hl : l ≠ []) : copyout pages a l = (false, []) := by
  have hacc := pageLoop_accessible pages l.length a l.length le_rfl
  have hzero : pageLoop pages l.length a l.length = 0 := by
    by_contra h0
    have hfirst := hacc.below 0 (Nat.pos_of_ne_zero h0)
    rw [Nat.add_zero, h] at hfirst
    exact Bool.noConfusion hfirst
  have hpos := List.length_pos_iff.mpr hl
  simp only [copyout, hzero, List.take_zero, List.length_nil]
  exact Prod.ext (beq_eq_false_iff_ne.mpr hpos.ne) rfl

/-! ## `readi` -/

/-- What the loop of `readi` does that has `m` of `n` bytes to copy to the address `a`. -/
structure CopiesTo (pages : ℕ → Bool) (a m n : ℕ) (r : Option ℕ × Stores) : Prop where
  inside : Inside a m r.2
  value : ∀ v, r.1 = some v → v = n
  first : 0 < m → pages (a / PGSIZE) = true → ∃ p ∈ r.2, p.1 = a
  unmapped : 0 < m → pages (a / PGSIZE) = false → r = (none, [])

theorem CopiesTo.nothing {a m n : ℕ} (hm : m = 0) : CopiesTo pages a m n (some n, []) :=
  ⟨.nil _ _, fun _ hv => (Option.some.inj hv).symm, fun h => by omega, fun h => by omega⟩

theorem wp_readiLoop (h : Inv sb lim s (some e)) (href : 0 < (s.itable e).ref)
    (htype : (s.itable e).dino.type ≠ 0) (dst fuel : ℕ) :
    ∀ tot off n, tot ≤ n → off + (n - tot) ≤ (s.itable e).dino.size.toNat → n - tot ≤ fuel →
      wp (readiLoop sb e pages dst fuel tot off n) s
        (fun r s' => s' = s ∧ CopiesTo pages (dst + tot) (n - tot) n r) E := by
  induction fuel with
  | zero =>
    intro tot off n htot _ hfuel
    obtain rfl : tot = n := by omega
    exact ⟨rfl, .nothing (Nat.sub_self _)⟩
  | succ fuel ih =>
    intro tot off n htot hle hfuel
    unfold readiLoop
    rw [wp_ite]
    refine ⟨fun hlt => ?_, fun hge => ?_⟩
    · have hoff : off < (s.itable e).dino.size.toNat := by omega
      obtain ⟨hbn, a, ha⟩ := h.exists_locs href htype hoff
      refine wp_call (wp_bmap_of_locs hbn ha) fun a' t ht => ?_
      obtain ⟨rfl, rfl⟩ := ht
      rw [wp_ite]
      refine ⟨fun h0 => absurd h0 (ne_zero_of_locs ha), fun _ => ?_⟩
      simp only [wp_bind, wp_get]
      have hm : roundSize tot off n ≤ n - tot := Nat.min_le_left _ _
      have hpos : 0 < roundSize tot off n := roundSize_pos hlt
      generalize roundSize tot off n = m at hm hpos
      generalize hl : bytesAt (t.disk a') (off % BSIZE) m = l
      have hlen : l.length = m := by simp [← hl, bytesAt]
      have hne : l ≠ [] := List.length_pos_iff.mp (by omega)
      have hinside := (inside_copyout pages (dst + tot) l).mono le_rfl
        (show dst + tot + l.length ≤ dst + tot + (n - tot) by omega)
      have hfirst (hpage : pages ((dst + tot) / PGSIZE) = true) := copyout_of_page hpage hne
      have hnone (hpage : pages ((dst + tot) / PGSIZE) = false) := copyout_of_not_page hpage hne
      generalize copyout pages (dst + tot) l = out at hinside hfirst hnone ⊢
      obtain ⟨ok, stores⟩ := out
      dsimp only at hinside hfirst ⊢
      rw [wp_ite]
      refine ⟨fun hok => ?_, fun hok => ?_⟩
      · rw [wp_bind]
        refine (ih (tot + m) (off + m) n (by omega) (by omega) (by omega)).imp fun r t ht => ?_
        obtain ⟨rfl, hinside', hvalue, -, -⟩ := ht
        refine ⟨rfl, hinside.append (hinside'.mono (by omega) (by omega)), hvalue,
          fun _ hpage => ?_, fun _ hpage => ?_⟩
        · obtain ⟨p, hp, hpa⟩ := hfirst hpage
          exact ⟨p, List.mem_append_left _ hp, hpa⟩
        · obtain ⟨rfl, rfl⟩ := Prod.mk.inj (hnone hpage)
          exact Bool.noConfusion hok
      · refine ⟨rfl, hinside, by simp, fun _ => hfirst, fun _ hpage => ?_⟩
        rw [(Prod.mk.inj (hnone hpage)).2]
    · obtain rfl : tot = n := by omega
      exact ⟨rfl, .nothing (Nat.sub_self _)⟩

/-- The number of bytes that `readi` tries to copy. -/
def readCount (size off n : UInt32) : ℕ :=
  if off.toNat + n.toNat < 2 ^ 32 then min n.toNat (size.toNat - off.toNat) else 0

theorem wp_readiUser (h : Inv sb lim s (some e)) (href : 0 < (s.itable e).ref)
    (htype : (s.itable e).dino.type ≠ 0) (pages : ℕ → Bool) (dst : ℕ) (off n : UInt32) :
    wp (readiUser sb e pages dst off n) s (fun r s' => s' = s ∧
      CopiesTo pages dst (readCount (s.itable e).dino.size off n)
        (readCount (s.itable e).dino.size off n) r) E := by
  simp only [readiUser, wp_bind, wp_get]
  generalize hsize : (s.itable e).dino.size = size
  rw [wp_ite]
  refine ⟨fun hout => ?_, fun hle => ?_⟩
  · have hzero : readCount size off n = 0 := by
      unfold readCount
      split_ifs with hend
      · rcases hout with hlt | hlt
        · have := UInt32.lt_iff_toNat_lt.mp hlt
          omega
        · have := toNat_add_of_lt hlt
          omega
      · rfl
    rw [hzero]
    exact ⟨rfl, .nothing rfl⟩
  · rw [not_or, UInt32.not_lt, UInt32.not_lt] at hle
    have hend := toNat_add_of_le hle.2
    have hbound : off.toNat + n.toNat < 2 ^ 32 := hend ▸ UInt32.toNat_lt _
    have hoff := UInt32.le_iff_toNat_le.mp hle.1
    have hcount : (if size < off + n then size - off else n).toNat = readCount size off n := by
      rw [readCount, if_pos hbound]
      split_ifs with hlt
      · have hlt := UInt32.lt_iff_toNat_lt.mp hlt
        rw [UInt32.toNat_sub_of_le _ _ hle.1]
        omega
      · have hge := UInt32.le_iff_toNat_le.mp (UInt32.not_lt.mp hlt)
        omega
    have hmin : readCount size off n ≤ size.toNat - off.toNat := by
      rw [readCount, if_pos hbound]
      exact Nat.min_le_right _ _
    rw [hcount]
    refine wp_readiLoop h href htype dst _ 0 off.toNat _ (Nat.zero_le _) ?_ le_rfl
    rw [hsize]
    omega

/-! ## `piperead` and `consoleread` -/

/-- The `for` loop of `piperead` counts the bytes that it stores. -/
theorem pipereadLoop_inside (pages : ℕ → Bool) (addr : ℕ) (pi : ℕ → Pipe) (n : ℤ) (fuel : ℕ) :
    ∀ i, i ≤ n.toNat → (pipereadLoop pages addr pi n fuel i).1 ≤ n.toNat ∧
      Inside addr n.toNat (pipereadLoop pages addr pi n fuel i).2 := by
  induction fuel with
  | zero => exact fun i hi => ⟨Int.ofNat_le.mpr hi, .nil _ _⟩
  | succ fuel ih =>
    intro i hi
    unfold pipereadLoop pipereadRound
    by_cases hcond : (i : ℤ) < n ∧ (pi i).nread ≠ (pi i).nwrite
    · simp only [if_pos hcond]
      have hlt : i < n.toNat := by omega
      cases pages ((addr + i) / PGSIZE) with
      | false =>
        refine ⟨?_, .nil _ _⟩
        change (if i = 0 then (-1 : ℤ) else i) ≤ _
        split_ifs <;> omega
      | true =>
        obtain ⟨hvalue, hinside⟩ := ih (i + 1) hlt
        refine ⟨hvalue, .append ?_ hinside⟩
        refine (inside_storesAt (addr + i) [(pi i).front]).mono (Nat.le_add_right _ _) ?_
        rw [List.length_singleton]
        omega
    · simp only [if_neg hcond]
      exact ⟨Int.ofNat_le.mpr hi, .nil _ _⟩

theorem piperead_inside (pages : ℕ → Bool) (addr : ℕ) (killed : Bool) (pi : ℕ → Pipe) (n : Int32) :
    (piperead pages addr killed pi n).1 ≤ n.toInt.toNat ∧
      Inside addr n.toInt.toNat (piperead pages addr killed pi n).2 := by
  unfold piperead
  split_ifs
  · exact ⟨by omega, .nil _ _⟩
  · exact pipereadLoop_inside pages addr pi n.toInt _ 0 (Nat.zero_le _)

/-- The sections of `consoleread` share the buffer. -/
theorem consoleLoop_inside (pages : ℕ → Bool) (addr target : ℕ)
    (input : List (Bool × Console.Cons)) :
    ∀ n, n ≤ target → (∀ v, (consoleLoop pages addr target input n).1 = some v → v ≤ target) ∧
      Inside addr target (consoleLoop pages addr target input n).2 := by
  induction input with
  | nil => exact fun n _ => ⟨fun _ hv => absurd hv (by simp [consoleLoop]), .nil _ _⟩
  | cons c input ih =>
    obtain ⟨killed, cons⟩ := c
    intro n hn
    unfold consoleLoop
    dsimp only
    have hlen := Console.readLoop_length killed
      (fun k => pages ((addr + (target - (k + 1))) / PGSIZE)) target n cons
    generalize Console.readLoop killed _ target n cons = t at hlen ⊢
    have hstores : Inside addr target (storesAt (addr + (target - n)) t.bytes) :=
      (inside_storesAt _ _).mono (Nat.le_add_right _ _) (by omega)
    cases t.leaves with
    | sleeps =>
      obtain ⟨hvalue, hinside⟩ := ih t.n (by omega)
      exact ⟨hvalue, hstores.append hinside⟩
    | killed => exact ⟨fun v hv => by rw [← Option.some.inj hv]; omega, hstores⟩
    | returns => exact ⟨fun v hv => by rw [← Option.some.inj hv]; omega, hstores⟩

/-! ## `fileread` -/

/-- A read of `n` bytes to `addr` stores to the buffer only and returns no more than `n`. The offset
of an inode moves by what it returns. -/
structure ReadOk (f : OpenFile) (addr : ℕ) (n : Int32) (r : Read) : Prop where
  inside : ∀ p ∈ r.stores, addr ≤ p.1 ∧ (p.1 : ℤ) < addr + max n.toInt 0
  value : ∀ v, r.value = some v → v ≤ max n.toInt 0
  moved : f.type = .inode → ∀ v, r.value = some v → 0 < v → (r.off.toNat : ℤ) = f.off.toNat + v
  stays : f.type = .inode → (∀ v, r.value = some v → v ≤ 0) → r.off = f.off

/-- An inode is read with a negative `n` where the test of `readi` does not find it, the file has
bytes from its offset on, and the first page of the destination is writable. -/
def Overlong (sb : Superblock) (s : State) (env : Env) (f : OpenFile) (addr : ℕ) (n : Int32) :
    Prop :=
  f.readable = true ∧ f.type = .inode ∧ f.off.toNat + n.toInt < 0 ∧
    f.off.toNat < (dinodeAt sb s.disk (s.itable f.ip).inum).size.toNat ∧
    env.pages (addr / PGSIZE) = true

/-- `int n` as a `uint`. -/
theorem toNat_toUInt32 (n : Int32) :
    (n.toUInt32.toNat : ℤ) = if 0 ≤ n.toInt then n.toInt else n.toInt + 2 ^ 32 := by
  have hcond := n.toBitVec.toInt_eq_toNat_cond
  have hlt := n.toBitVec.isLt
  change n.toInt = _ at hcond
  change ((n.toBitVec.toNat : ℕ) : ℤ) = _
  split_ifs at hcond ⊢ <;> omega

/-- The number of bytes that `readi` tries to copy is at most `n`, or `n` is negative and it is the
rest of the file. -/
theorem readCount_cases {size : UInt32} (hsize : size.toNat ≤ MAXFILE * BSIZE) (off : UInt32)
    (n : Int32) :
    (readCount size off n.toUInt32 : ℤ) ≤ max n.toInt 0 ∧ ¬ (off.toNat + n.toInt < 0 ∧
      off.toNat < size.toNat) ∨
    0 < readCount size off n.toUInt32 ∧ n.toInt < 0 ∧ off.toNat + n.toInt < 0 ∧
      off.toNat < size.toNat := by
  have hn := toNat_toUInt32 n
  have hmax : MAXFILE * BSIZE < 2 ^ 31 := by decide
  have hlow := n.le_toInt
  unfold readCount
  split_ifs at hn ⊢ <;> omega

theorem readCount_le (size off n : UInt32) : readCount size off n ≤ size.toNat - off.toNat := by
  unfold readCount
  split_ifs
  · exact Nat.min_le_right _ _
  · exact Nat.zero_le _

/-- A read of an inode stores and returns what the loop of `readi` does. -/
theorem wp_fileread_inode (env : Env) {f : OpenFile} (h : Inv sb lim s none)
    (hreadable : f.readable = true) (htype : f.type = .inode) (addr : ℕ) (n : Int32) {N : ℕ}
    (hN : readCount (dinodeAt sb s.disk (s.itable f.ip).inum).size f.off n.toUInt32 = N) :
    wp (fileread sb env f addr n) s (fun r _ =>
      (dinodeAt sb s.disk (s.itable f.ip).inum).size.toNat ≤ MAXFILE * BSIZE ∧
      ∃ stores, CopiesTo env.pages addr N N (some N, stores) ∧
          r = some ⟨some N, stores, f.off + UInt32.ofNat N⟩ ∨
        CopiesTo env.pages addr N N (none, stores) ∧ r = some ⟨some (-1), stores, f.off⟩)
      fun _ => True := by
  unfold fileread
  rw [if_neg (by simp [hreadable]), htype]
  dsimp only
  refine wp_call (wp_ilock_locks h (fun _ => trivial) fun _ => trivial) fun _ s₁ hs₁ => ?_
  obtain ⟨hpos, hinv, hl⟩ := hs₁
  have href : 0 < (s₁.itable f.ip).ref := by rwa [hl.ref]
  obtain ⟨hdino, htype₁⟩ := hinv.coherent f.ip href hl.valid (by simp)
  rw [hl.disk, hl.inum] at hdino
  have hbegin := hinv.begin href hl.valid
  have hsize : (dinodeAt sb s.disk (s.itable f.ip).inum).size.toNat ≤ MAXFILE * BSIZE := by
    rw [← hdino]
    exact hinv.size_le href hl.valid
  refine wp_call (wp_readiUser hbegin href htype₁ env.pages addr f.off n.toUInt32)
    fun r s₂ hs₂ => ?_
  obtain ⟨v, stores⟩ := r
  rw [hdino, hN] at hs₂
  obtain ⟨rfl, hcopies⟩ := hs₂
  rw [wp_bind, iunlock, wp_bind, wp_get, if_neg (by simp [hl.locked]; omega), wp_set]
  cases v with
  | none => exact ⟨hsize, stores, .inr ⟨hcopies, rfl⟩⟩
  | some v =>
    obtain rfl := hcopies.value v rfl
    exact ⟨hsize, stores, .inl ⟨hcopies, rfl⟩⟩

/-- A read that fails before it stores anything. -/
theorem ReadOk.failed (f : OpenFile) (addr : ℕ) (n : Int32) :
    ReadOk f addr n ⟨some (-1), [], f.off⟩ := by
  have hzero : 0 ≤ max n.toInt 0 := le_max_right _ _
  refine ⟨fun p hp => absurd hp List.not_mem_nil, fun v hv => ?_, fun _ v hv hpos => ?_,
    fun _ _ => rfl⟩
  · rw [← Option.some.inj hv]
    omega
  · rw [← Option.some.inj hv] at hpos
    omega

/-- A read that is not of an inode. -/
theorem ReadOk.of_ne {f : OpenFile} (hne : f.type ≠ .inode) {addr : ℕ} {n : Int32} {r : Read}
    (hinside : Inside addr n.toInt.toNat r.stores)
    (hvalue : ∀ v, r.value = some v → v ≤ n.toInt.toNat) : ReadOk f addr n r := by
  have htoNat : (n.toInt.toNat : ℤ) = max n.toInt 0 := Int.ofNat_toNat _
  refine ⟨fun p hp => ?_, fun v hv => htoNat ▸ hvalue v hv, fun ht => absurd ht hne,
    fun ht => absurd ht hne⟩
  have := hinside p hp
  omega

/-- A read of an inode keeps to its buffer if `readi` tries to copy at most `n` bytes. -/
theorem ReadOk.of_copies {f : OpenFile} {addr N : ℕ} {n : Int32} {stores : Stores} {v : Option ℕ}
    (h : CopiesTo pages addr N N (v, stores)) (hle : (N : ℤ) ≤ max n.toInt 0)
    (hoff : f.off.toNat + N < 2 ^ 32) {r : Read} (hstores : r.stores = stores)
    (hr : r.value = some (N : ℤ) ∧ r.off = f.off + UInt32.ofNat N ∨
      r.value = some (-1) ∧ r.off = f.off) : ReadOk f addr n r := by
  have hzero : 0 ≤ max n.toInt 0 := le_max_right _ _
  refine ⟨fun p hp => ?_, fun v hv => ?_, fun _ v hv hpos => ?_, fun _ hnot => ?_⟩
  · have := h.inside p (hstores ▸ hp)
    omega
  · rcases hr with ⟨hr, -⟩ | ⟨hr, -⟩
    · rw [hr] at hv
      rwa [← Option.some.inj hv]
    · rw [hr] at hv
      rw [← Option.some.inj hv]
      omega
  · rcases hr with ⟨hr, hmoved⟩ | ⟨hr, -⟩
    · rw [hr] at hv
      rw [← Option.some.inj hv, hmoved, UInt32.toNat_add, UInt32.toNat_ofNat']
      omega
    · rw [hr] at hv
      rw [← Option.some.inj hv] at hpos
      omega
  · rcases hr with ⟨hr, hmoved⟩ | ⟨-, hstays⟩
    · have hN := hnot N hr
      obtain rfl : N = 0 := by omega
      rw [hmoved]
      exact UInt32.add_zero _
    · exact hstays

/-- A call that does not touch the file system. -/
theorem eq_of_pure {a r : Read} (h : (pure (some a) : FsM (Option Read)) s = .ok (some r, s')) :
    r = a :=
  (Option.some.inj (Prod.mk.inj (Except.ok.inj h)).1).symm

/-- A read keeps to its buffer exactly if it is not one of an inode with a negative `n` that goes
unnoticed. -/
theorem read_inside_iff (h : Inv sb lim s none) {env : Env} {f : OpenFile} {addr : ℕ} {n : Int32}
    {r : Read} (hrun : fileread sb env f addr n s = .ok (some r, s')) :
    ReadOk f addr n r ↔ ¬ Overlong sb s env f addr n := by
  by_cases hreadable : f.readable = true
  swap
  · rw [fileread, if_pos (by simpa using hreadable)] at hrun
    obtain rfl := eq_of_pure hrun
    exact iff_of_true (.failed f addr n) fun hover => hreadable hover.1
  by_cases hinode : f.type = .inode
  swap
  · refine iff_of_true ?_ fun hover => hinode hover.2.1
    rw [fileread, if_neg (by simp [hreadable])] at hrun
    cases htype : f.type with
    | inode => exact absurd htype hinode
    | none =>
      rw [htype] at hrun
      exact absurd (Prod.mk.inj (Except.ok.inj hrun)).1 (by simp)
    | pipe =>
      rw [htype] at hrun
      obtain rfl := eq_of_pure hrun
      obtain ⟨hvalue, hinside⟩ := piperead_inside env.pages addr env.pipeKilled env.pipe n
      exact .of_ne hinode hinside fun v hv => Option.some.inj hv ▸ hvalue
    | device =>
      rw [htype] at hrun
      dsimp only at hrun
      split_ifs at hrun with hmajor
      · obtain rfl := eq_of_pure hrun
        exact .failed f addr n
      · obtain rfl := eq_of_pure hrun
        obtain ⟨hvalue, hinside⟩ := consoleLoop_inside env.pages addr n.toInt.toNat env.console
          n.toInt.toNat le_rfl
        exact .of_ne hinode hinside hvalue
  obtain ⟨hsize, stores, hr⟩ :=
    (wp_fileread_inode env h hreadable hinode addr n rfl).of_ok hrun
  generalize hdino : (dinodeAt sb s.disk (s.itable f.ip).inum).size = size at hsize hr
  have hle := readCount_le size f.off n.toUInt32
  have hoff : f.off.toNat + readCount size f.off n.toUInt32 < 2 ^ 32 := by
    have h₁ := size.toNat_lt
    have h₂ := f.off.toNat_lt
    omega
  have hcases := readCount_cases hsize f.off n
  generalize readCount size f.off n.toUInt32 = N at hr hoff hcases
  rcases hcases with ⟨hcount, hnot⟩ | ⟨hpos, hneg, hwraps, hbelow⟩
  · refine iff_of_true ?_ fun hover => hnot ⟨hover.2.2.1, hdino ▸ hover.2.2.2.1⟩
    rcases hr with ⟨hcopies, hr⟩ | ⟨hcopies, hr⟩
    · obtain rfl := Option.some.inj hr
      exact .of_copies hcopies hcount hoff rfl (.inl ⟨rfl, rfl⟩)
    · obtain rfl := Option.some.inj hr
      exact .of_copies hcopies hcount hoff rfl (.inr ⟨rfl, rfl⟩)
  · cases hpage : env.pages (addr / PGSIZE) with
    | true =>
      -- The first byte is stored, although the buffer has no byte.
      refine iff_of_false (fun hok => ?_) (not_not.mpr ⟨hreadable, hinode, hwraps, hdino ▸ hbelow,
        hpage⟩)
      have hfirst : ∃ p ∈ r.stores, p.1 = addr := by
        rcases hr with ⟨hcopies, hr⟩ | ⟨hcopies, hr⟩
        · exact Option.some.inj hr ▸ hcopies.first hpos hpage
        · exact Option.some.inj hr ▸ hcopies.first hpos hpage
      obtain ⟨p, hp, rfl⟩ := hfirst
      have := (hok.inside p hp).2
      omega
    | false =>
      refine iff_of_true ?_ fun hover => by simp [hover.2.2.2.2] at hpage
      rcases hr with ⟨hcopies, hr⟩ | ⟨hcopies, hr⟩
      · exact absurd (hcopies.unmapped hpos hpage) (by simp)
      · obtain rfl := (Prod.mk.inj (hcopies.unmapped hpos hpage)).2
        obtain rfl := Option.some.inj hr
        exact .failed f addr n

/-! ## A negative `n` -/

/-- A file of four bytes is made and closed. -/
def makesFile : List Act :=
  opensFile.take 6 ++ [.writei 1 (kernelSrc [1, 2, 3, 4]) 0 4, .iunlock 1, .endOp]

/-- The file of four bytes, at the offset 0. -/
def atStart : OpenFile := ⟨.inode, true, true, 1, 0, 0⟩

/-- A process whose pages are all writable. -/
def mapped : Env := ⟨fun _ => true, false, fun _ => pipealloc fun _ => 0, []⟩

theorem read_inside_iff_atStart :
    ∃ s r s', ReachVia (step tinySb) (Rules tinySb) (State.boot tinyDisk) s ∧
      fileread tinySb mapped atStart 0 2 s = .ok (some r, s') ∧ ReadOk atStart 0 2 r := by
  obtain ⟨s, hs, hinv, hp⟩ := exists_tinyDisk makesFile
    (fun s => (fileread tinySb mapped atStart 0 2 s).toOption.any fun p =>
      decide (p.1.isSome = true)) (by decide +kernel)
  obtain ⟨⟨r, s'⟩, hread, hr⟩ := exists_ok _ hp
  obtain ⟨r, rfl⟩ := Option.isSome_iff_exists.mp hr
  exact ⟨s, r, s', hs, hread, (read_inside_iff hinv hread).mpr
    fun hover => absurd hover.2.2.1 (by decide)⟩

/-- A read of `-1` bytes stores the whole file. -/
theorem read_negative :
    ∃ s r s', ReachVia (step tinySb) (Rules tinySb) (State.boot tinyDisk) s ∧
      fileread tinySb mapped atStart 0 (-1) s = .ok (some r, s') ∧
      r.value = some 4 ∧ r.stores = [(0, 1), (1, 2), (2, 3), (3, 4)] := by
  obtain ⟨s, hs, -, hp⟩ := exists_tinyDisk makesFile
    (fun s => (fileread tinySb mapped atStart 0 (-1) s).toOption.any fun p => decide
      ((p.1.any fun r => decide (r.value = some 4 ∧ r.stores = [(0, 1), (1, 2), (2, 3), (3, 4)])) =
        true)) (by decide +kernel)
  obtain ⟨⟨r, s'⟩, hread, hr⟩ := exists_ok _ hp
  obtain ⟨r, rfl, hr⟩ := (Option.any_eq_true ..).mp hr
  exact ⟨s, r, s', hs, hread, of_decide_eq_true hr⟩

end SustainableXv6.File
