import SustainableXv6.File.UserMemory

/-!
# Strings of system calls

`copyinstr` of `kernel/vm.c` copies a string from the memory of a process page by page, up to a NUL
or `max` bytes. It tests neither the size of the buffer nor the length of the string, so that a
string stays in its buffer if `max` is at most the size. The calls of `argstr` pass `MAXPATH` for
buffers of that size, and `sys_kps` passes 128 for a buffer of 4 bytes.
-/

namespace SustainableXv6.Syscall

open File

variable {pages : ℕ → Bool} {mem : ℕ → UInt8}

/-! ## `copyinstr` -/

/-- The inner loop of `copyinstr`, over the `n` bytes from the address `p` on: the bytes it stores,
and `got_null`. -/
def strBytes (mem : ℕ → UInt8) : ℕ → ℕ → List UInt8 × Bool
  | _, 0 => ([], false)
  | p, n + 1 =>
    if mem p = 0 then ([0], true)
    else
      let (l, got) := strBytes mem (p + 1) n
      (mem p :: l, got)

/-- The outer loop of `copyinstr`, where `walkaddr` finds `pages`. Each round copies a byte at
least. -/
def copyinstrLoop (pages : ℕ → Bool) (mem : ℕ → UInt8) : ℕ → ℕ → ℕ → List UInt8 × Bool
  | 0, _, _ => ([], false)
  | fuel + 1, srcva, max =>
    if 0 < max then
      if pages (srcva / PGSIZE) = true then
        let n := min (PGSIZE - srcva % PGSIZE) max
        let (l, got) := strBytes mem srcva n
        if got then (l, true)
        else
          let (l', got') :=
            copyinstrLoop pages mem fuel (srcva / PGSIZE * PGSIZE + PGSIZE) (max - n)
          (l ++ l', got')
      else ([], false)
    else ([], false)

/-- `copyinstr`: what it stores from the start of the buffer on, and whether it returns 0. -/
def copyinstr (pages : ℕ → Bool) (mem : ℕ → UInt8) (srcva max : ℕ) : List UInt8 × Bool :=
  copyinstrLoop pages mem max srcva max

/-- The `n` bytes of the memory from the address `a` on. -/
def memBytes (mem : ℕ → UInt8) (a n : ℕ) : List UInt8 := (List.range n).map fun i => mem (a + i)

theorem memBytes_succ (a n : ℕ) : memBytes mem a (n + 1) = mem a :: memBytes mem (a + 1) n := by
  rw [memBytes, List.range_succ_eq_map, List.map_cons, List.map_map]
  refine congrArg (mem a :: ·) (List.map_congr_left fun i _ => congrArg mem ?_)
  exact (Nat.succ_add_eq_add_succ a i).symm

theorem memBytes_add (a m n : ℕ) :
    memBytes mem a (m + n) = memBytes mem a m ++ memBytes mem (a + m) n := by
  simp only [memBytes, List.range_add, List.map_append, List.map_map, Function.comp_def,
    Nat.add_assoc]

/-- What a loop of `copyinstr` leaves that copies at most `max` bytes from the address `a` on. -/
structure Copies (pages : ℕ → Bool) (mem : ℕ → UInt8) (a max : ℕ) (r : List UInt8 × Bool) :
    Prop where
  le : r.1.length ≤ max
  bytes : r.1 = memBytes mem a r.1.length
  readable : ∀ i, i < r.1.length → pages ((a + i) / PGSIZE) = true
  found : r.2 = true → ∃ str, 0 ∉ str ∧ r.1 = str ++ [0]
  failed : r.2 = false → 0 ∉ r.1 ∧
    (r.1.length = max ∨ pages ((a + r.1.length) / PGSIZE) = false)

namespace Copies

variable {a max : ℕ} {r : List UInt8 × Bool}

theorem getElem? (h : Copies pages mem a max r) {i : ℕ} (hi : i < r.1.length) :
    r.1[i]? = some (mem (a + i)) := by
  rw [h.bytes, memBytes, List.getElem?_map, List.getElem?_range hi, Option.map_some]

/-- The NUL is the last byte that is stored. -/
theorem last (h : Copies pages mem a max r) (hr : r.2 = true) :
    ∃ k, r.1.length = k + 1 ∧ mem (a + k) = 0 := by
  obtain ⟨str, -, hl⟩ := h.found hr
  have hlen : r.1.length = str.length + 1 := by rw [hl, List.length_append, List.length_singleton]
  have hget := h.getElem? (show str.length < r.1.length by omega)
  rw [hl, List.getElem?_append_right le_rfl, Nat.sub_self] at hget
  exact ⟨str.length, hlen, (Option.some.inj hget).symm⟩

/-- A loop that has not found a NUL, and the loop after it. -/
theorem append {l : List UInt8} {m : ℕ} (h : Copies pages mem a m (l, false)) (hl : l.length = m)
    (h' : Copies pages mem (a + m) (max - m) r) (hm : m ≤ max) :
    Copies pages mem a max (l ++ r.1, r.2) := by
  have hle := h'.le
  refine ⟨?_, ?_, fun i hi => ?_, fun hr => ?_, fun hr => ?_⟩
  · rw [List.length_append]
    omega
  · rw [List.length_append, memBytes_add, ← h.bytes, hl, ← h'.bytes]
  · rw [List.length_append] at hi
    by_cases hlt : i < l.length
    · exact h.readable i hlt
    · have := h'.readable (i - m) (by omega)
      rwa [show a + m + (i - m) = a + i by omega] at this
  · obtain ⟨str, hstr, hr⟩ := h'.found hr
    refine ⟨l ++ str, ?_, by rw [hr, List.append_assoc]⟩
    rw [List.mem_append, not_or]
    exact ⟨(h.failed rfl).1, hstr⟩
  · obtain ⟨hno, hend⟩ := h'.failed hr
    refine ⟨?_, ?_⟩
    · rw [List.mem_append, not_or]
      exact ⟨(h.failed rfl).1, hno⟩
    · rw [List.length_append, hl, ← Nat.add_assoc]
      exact hend.imp (fun hlen => by omega) fun hpage => hpage

end Copies

/-- The inner loop ends with a NUL, or after `n` bytes. -/
theorem strBytes_copies (pages : ℕ → Bool) (mem : ℕ → UInt8) (n : ℕ) :
    ∀ p, (∀ i, i < n → pages ((p + i) / PGSIZE) = true) → Copies pages mem p n (strBytes mem p n) ∧
      ((strBytes mem p n).2 = false → (strBytes mem p n).1.length = n) := by
  induction n with
  | zero =>
    exact fun p _ => ⟨⟨le_rfl, rfl, by simp [strBytes], by simp [strBytes],
      fun _ => ⟨List.not_mem_nil, .inl rfl⟩⟩, fun _ => rfl⟩
  | succ n ih =>
    intro p hpages
    have hfirst : pages (p / PGSIZE) = true := hpages 0 (Nat.succ_pos n)
    unfold strBytes
    split_ifs with hzero
    · refine ⟨⟨Nat.succ_le_succ (Nat.zero_le n), ?_, fun i hi => ?_, fun _ => ⟨[], by simp⟩,
        by simp⟩, by simp⟩
      · rw [List.length_singleton, memBytes_succ, hzero]
        rfl
      · obtain rfl : i = 0 := by simpa using hi
        exact hfirst
    · obtain ⟨hrest, hlen⟩ := ih (p + 1) fun i hi => by
        rw [Nat.add_right_comm]
        exact hpages (i + 1) (Nat.succ_lt_succ hi)
      generalize strBytes mem (p + 1) n = r at hrest hlen
      have hone : Copies pages mem p 1 ([mem p], false) := by
        refine ⟨le_rfl, ?_, fun i hi => ?_, by simp, fun _ => ⟨?_, .inl rfl⟩⟩
        · rw [List.length_singleton, memBytes_succ]
          rfl
        · obtain rfl : i = 0 := by simpa using hi
          exact hfirst
        · simpa using Ne.symm hzero
      exact ⟨hone.append rfl hrest (Nat.succ_le_succ (Nat.zero_le n)),
        fun hr => congrArg (· + 1) (hlen hr)⟩

/-- The outer loop, which goes on at the start of the next page. -/
theorem copyinstrLoop_copies (fuel : ℕ) : ∀ a max, max ≤ fuel →
    Copies pages mem a max (copyinstrLoop pages mem fuel a max) := by
  have hnone {a : ℕ} : Copies pages mem a 0 ([], false) :=
    ⟨le_rfl, rfl, by simp, by simp, fun _ => ⟨List.not_mem_nil, .inl rfl⟩⟩
  induction fuel with
  | zero =>
    intro a max hle
    obtain rfl := Nat.le_zero.mp hle
    exact hnone
  | succ fuel ih =>
    intro a max hle
    unfold copyinstrLoop
    split_ifs with hpos hpage
    · dsimp only
      generalize hn : min (PGSIZE - a % PGSIZE) max = n
      have hn' : 0 < n ∧ n ≤ max ∧ a % PGSIZE + n ≤ PGSIZE := by
        simp only [PGSIZE] at *
        omega
      obtain ⟨hcopies, hlen⟩ := strBytes_copies pages mem n a fun i hi => by
        rw [show (a + i) / PGSIZE = a / PGSIZE by simp only [PGSIZE] at *; omega]
        exact hpage
      generalize strBytes mem a n = r at hcopies hlen
      obtain ⟨l, got⟩ := r
      dsimp only at hlen ⊢
      cases got with
      | true =>
        rw [if_pos rfl]
        exact ⟨hcopies.le.trans hn'.2.1, hcopies.bytes, hcopies.readable, hcopies.found, by simp⟩
      | false =>
        rw [if_neg (by simp)]
        refine hcopies.append (hlen rfl) ?_ hn'.2.1
        by_cases hlast : n = max
        · -- No byte is left.
          rw [hlast, Nat.sub_self]
          cases fuel <;> exact hnone
        · have hnext : a / PGSIZE * PGSIZE + PGSIZE = a + n := by
            simp only [PGSIZE] at *
            omega
          rw [hnext]
          exact ih (a + n) (max - n) (by omega)
    · refine ⟨Nat.zero_le _, rfl, by simp, by simp, fun _ => ⟨List.not_mem_nil, .inr ?_⟩⟩
      simpa using hpage
    · obtain rfl : max = 0 := Nat.eq_zero_of_not_pos hpos
      exact hnone

theorem copyinstr_copies (pages : ℕ → Bool) (mem : ℕ → UInt8) (a max : ℕ) :
    Copies pages mem a max (copyinstr pages mem a max) :=
  copyinstrLoop_copies max a max le_rfl

/-! ## `fetchstr` and `argstr` -/

/-- A call of `fetchstr`. -/
structure Fetched where
  /-- The address of the string. -/
  addr : ℕ
  /-- The size of the buffer. -/
  size : ℕ
  /-- The bytes that are stored, from the start of the buffer on. -/
  stored : List UInt8
  /-- What `fetchstr` returns. -/
  value : ℤ

/-- `fetchstr` of the string at `addr`, for a buffer of `size` bytes. -/
def fetchstr (pages : ℕ → Bool) (mem : ℕ → UInt8) (addr size max : ℕ) : Fetched :=
  let (l, ok) := copyinstr pages mem addr max
  -- `strlen(buf)`
  ⟨addr, size, l, if ok then ((l.takeWhile (· ≠ 0)).length : ℤ) else -1⟩

/-- What a system call meets: the registers with its arguments, the pages that `walkaddr` finds and
the memory. `copyin` may map pages, so that for the argument `i` of `sys_exec` there are the address
that `fetchaddr` finds, or nothing where it fails, and the pages from then on. -/
structure User where
  args : Fin 6 → ℕ
  pages : ℕ → Bool
  mem : ℕ → UInt8
  uarg : ℕ → Option (ℕ × (ℕ → Bool))
  kalloc : ℕ → Bool

/-- `argstr`. -/
def User.argstr (u : User) (n : Fin 6) (size max : ℕ) : Fetched :=
  fetchstr u.pages u.mem (u.args n) size max

/-- Strings that are fetched one after the other up to the first failure, and whether the call goes
on. -/
def fetchAll : List Fetched → List Fetched × Bool
  | [] => ([], true)
  | f :: fs =>
    if f.value < 0 then ([f], false)
    else
      let (l, ok) := fetchAll fs
      (f :: l, ok)

/-- `MAXPATH`. -/
def MAXPATH : ℕ := 128

/-- `MAXARG`. -/
def MAXARG : ℕ := 32

/-- The loop of `sys_exec` over the arguments from `i` on. Each string gets a page. -/
def User.execArgs (u : User) : ℕ → ℕ → List Fetched × Bool
  -- `i >= NELEM(argv)`
  | 0, _ => ([], false)
  | fuel + 1, i =>
    match u.uarg i with
    | none => ([], false)
    | some (uarg, pages) =>
      if uarg = 0 then ([], true)
      else if u.kalloc i = false then ([], false)
      else
        let f := fetchstr pages u.mem uarg PGSIZE PGSIZE
        if f.value < 0 then ([f], false)
        else
          let (l, ok) := u.execArgs fuel (i + 1)
          (f :: l, ok)

/-- The system calls that fetch a string. -/
inductive SysCall
  | sysKps
  | sysLink
  | sysUnlink
  | sysOpen
  | sysMkdir
  | sysMknod
  | sysChdir
  | sysExec
  deriving DecidableEq, Repr

/-- The strings that a system call fetches, and whether it goes on with them. It returns -1
otherwise. -/
def User.strings (u : User) : SysCall → List Fetched × Bool
  | .sysKps => fetchAll [u.argstr 0 4 128]
  | .sysLink => fetchAll [u.argstr 0 MAXPATH MAXPATH, u.argstr 1 MAXPATH MAXPATH]
  | .sysUnlink => fetchAll [u.argstr 0 MAXPATH MAXPATH]
  | .sysOpen => fetchAll [u.argstr 0 MAXPATH MAXPATH]
  | .sysMkdir => fetchAll [u.argstr 0 MAXPATH MAXPATH]
  | .sysMknod => fetchAll [u.argstr 0 MAXPATH MAXPATH]
  | .sysChdir => fetchAll [u.argstr 0 MAXPATH MAXPATH]
  | .sysExec =>
    let (l, ok) := fetchAll [u.argstr 0 MAXPATH MAXPATH]
    if ok then
      let (l', ok') := u.execArgs MAXARG 0
      (l ++ l', ok')
    else (l, false)

/-! ## Strings stay in their buffers -/

/-- A system call stores to its buffers only, goes on with strings that end in them, and fails with
longer ones. -/
structure StringsOk (u : User) (c : SysCall) : Prop where
  inside : ∀ f ∈ (u.strings c).1, f.stored.length ≤ f.size
  terminated : (u.strings c).2 = true →
    ∀ f ∈ (u.strings c).1, ∃ str, 0 ∉ str ∧ f.stored = str ++ [0]
  longer : ∀ f ∈ (u.strings c).1, (∀ i, i < f.size → u.mem (f.addr + i) ≠ 0) →
    (u.strings c).2 = false

/-- `sys_kps` gets a string of 4 bytes at least, and the byte behind them can be read. -/
def Overruns (u : User) (c : SysCall) : Prop :=
  c = .sysKps ∧ (∀ i, i < 5 → u.pages ((u.args 0 + i) / PGSIZE) = true) ∧
    ∀ i, i < 4 → u.mem (u.args 0 + i) ≠ 0

/-- What a call of `fetchstr` does whose `max` is at most the size of the buffer. -/
structure Fetched.Ok (mem : ℕ → UInt8) (f : Fetched) : Prop where
  inside : f.stored.length ≤ f.size
  terminated : ¬ f.value < 0 → ∃ str, 0 ∉ str ∧ f.stored = str ++ [0]
  longer : (∀ i, i < f.size → mem (f.addr + i) ≠ 0) → f.value < 0

/-- A string stays in its buffer if `copyinstr` stores no more than its size. -/
theorem fetchstr_ok {a size max : ℕ} (h : (copyinstr pages mem a max).1.length ≤ size) :
    (fetchstr pages mem a size max).Ok mem := by
  have hcopies := copyinstr_copies pages mem a max
  unfold fetchstr
  generalize copyinstr pages mem a max = r at h hcopies
  obtain ⟨l, ok⟩ := r
  cases ok with
  | false => exact ⟨h, fun hval => absurd (by simp) hval, fun _ => by simp⟩
  | true =>
    refine ⟨h, fun _ => hcopies.found rfl, fun hlong => ?_⟩
    obtain ⟨k, hlen, hzero⟩ := hcopies.last rfl
    dsimp only at h hlen
    exact absurd hzero (hlong k (show k < size by omega))

/-- The strings that a system call fetches are in order. -/
structure AllOk (mem : ℕ → UInt8) (r : List Fetched × Bool) : Prop where
  ok : ∀ f ∈ r.1, f.Ok mem
  goes : r.2 = true → ∀ f ∈ r.1, ¬ f.value < 0

namespace AllOk

variable {f : Fetched} {r r' : List Fetched × Bool}

theorem nil (b : Bool) : AllOk mem ([], b) :=
  ⟨fun _ hf => absurd hf List.not_mem_nil, fun _ _ hf => absurd hf List.not_mem_nil⟩

/-- A string is fetched, and the call goes on to the next one unless it fails. -/
theorem cons (hf : f.Ok mem) (h : AllOk mem r) :
    AllOk mem (if f.value < 0 then ([f], false) else (f :: r.1, r.2)) := by
  split_ifs with hneg
  · refine ⟨fun g hg => ?_, by simp⟩
    rw [List.mem_singleton.mp hg]
    exact hf
  · exact ⟨List.forall_mem_cons.mpr ⟨hf, h.ok⟩,
      fun hgo => List.forall_mem_cons.mpr ⟨hneg, h.goes hgo⟩⟩

theorem append (h : AllOk mem r) (h' : AllOk mem r') (hr : r.2 = true) :
    AllOk mem (r.1 ++ r'.1, r'.2) :=
  ⟨fun f hf => (List.mem_append.mp hf).elim (h.ok f) (h'.ok f),
    fun hgo f hf => (List.mem_append.mp hf).elim (h.goes hr f) (h'.goes hgo f)⟩

theorem stringsOk {u : User} {c : SysCall} (h : AllOk u.mem (u.strings c)) : StringsOk u c := by
  refine ⟨fun f hf => (h.ok f hf).inside, fun hgo f hf => (h.ok f hf).terminated (h.goes hgo f hf),
    fun f hf hlong => ?_⟩
  by_contra hgo
  exact h.goes (by simpa using hgo) f hf ((h.ok f hf).longer hlong)

end AllOk

theorem fetchAll_ok {fs : List Fetched} (h : ∀ f ∈ fs, f.Ok mem) : AllOk mem (fetchAll fs) := by
  induction fs with
  | nil => exact .nil true
  | cons f fs ih =>
    exact .cons (h f (List.mem_cons_self ..)) (ih fun g hg => h g (List.mem_cons_of_mem _ hg))

/-- `argstr` with a buffer of `max` bytes. -/
theorem argstr_ok (u : User) (n : Fin 6) (max : ℕ) : (u.argstr n max max).Ok u.mem :=
  fetchstr_ok (copyinstr_copies _ _ _ _).le

theorem execArgs_ok (u : User) (fuel : ℕ) : ∀ i, AllOk u.mem (u.execArgs fuel i) := by
  induction fuel with
  | zero => exact fun i => .nil false
  | succ fuel ih =>
    intro i
    unfold User.execArgs
    cases u.uarg i with
    | none => exact .nil false
    | some p =>
      obtain ⟨uarg, pages⟩ := p
      dsimp only
      by_cases hzero : uarg = 0
      · rw [if_pos hzero]
        exact .nil true
      by_cases hkalloc : u.kalloc i = false
      · rw [if_neg hzero, if_pos hkalloc]
        exact .nil false
      rw [if_neg hzero, if_neg hkalloc]
      exact .cons (fetchstr_ok (copyinstr_copies _ _ _ _).le) (ih (i + 1))

/-- All calls but `sys_kps` pass the size of the buffer. -/
theorem strings_ok (u : User) {c : SysCall} (hc : c ≠ .sysKps) : AllOk u.mem (u.strings c) := by
  have hone : AllOk u.mem (fetchAll [u.argstr 0 MAXPATH MAXPATH]) :=
    fetchAll_ok (List.forall_mem_singleton.mpr (argstr_ok u 0 MAXPATH))
  cases c with
  | sysKps => exact absurd rfl hc
  | sysUnlink | sysOpen | sysMkdir | sysMknod | sysChdir => exact hone
  | sysLink =>
    exact fetchAll_ok (List.forall_mem_cons.mpr ⟨argstr_ok u 0 MAXPATH,
      List.forall_mem_singleton.mpr (argstr_ok u 1 MAXPATH)⟩)
  | sysExec =>
    unfold User.strings
    generalize fetchAll [u.argstr 0 MAXPATH MAXPATH] = r at hone
    obtain ⟨l, ok⟩ := r
    cases ok with
    | true => exact hone.append (execArgs_ok u MAXARG 0) rfl
    | false => exact hone

/-- `sys_kps` stores at most 4 bytes exactly if the string ends among them or the fifth byte cannot
be reached. -/
theorem kps_inside_iff (u : User) :
    (copyinstr u.pages u.mem (u.args 0) 128).1.length ≤ 4 ↔ ¬ Overruns u .sysKps := by
  have hcopies := copyinstr_copies u.pages u.mem (u.args 0) 128
  generalize copyinstr u.pages u.mem (u.args 0) 128 = r at hcopies
  obtain ⟨l, ok⟩ := r
  dsimp only
  constructor
  · rintro hle ⟨-, hpages, hmem⟩
    cases ok with
    | true =>
      obtain ⟨k, hlen, hzero⟩ := hcopies.last rfl
      dsimp only at hlen
      exact hmem k (by omega) hzero
    | false =>
      obtain ⟨-, hlen | hpage⟩ := hcopies.failed rfl
      · dsimp only at hlen
        omega
      · dsimp only at hpage
        rw [hpages _ (by omega)] at hpage
        exact Bool.noConfusion hpage
  · intro hno
    by_contra hlong
    refine hno ⟨rfl, fun i hi => hcopies.readable i (show i < l.length by omega),
      fun i hi hzero => ?_⟩
    -- A NUL is the last byte that is stored.
    have hget := hcopies.getElem? (show i < l.length by omega)
    dsimp only at hget
    rw [hzero] at hget
    cases ok with
    | true =>
      obtain ⟨str, hstr, hl⟩ := hcopies.found rfl
      dsimp only at hl
      have hlen : l.length = str.length + 1 := by rw [hl, List.length_append, List.length_singleton]
      rw [hl, List.getElem?_append_left (by omega)] at hget
      exact hstr (List.mem_of_getElem? hget)
    | false => exact (hcopies.failed rfl).1 (List.mem_of_getElem? hget)

/-- The strings of a system call stay in their buffers exactly if it is not `sys_kps` with a string
that runs over its buffer. -/
theorem strings_inside_iff (u : User) (c : SysCall) : StringsOk u c ↔ ¬ Overruns u c := by
  by_cases hc : c = .sysKps
  swap
  · exact iff_of_true (strings_ok u hc).stringsOk fun hover => hc hover.1
  subst hc
  rw [← kps_inside_iff]
  constructor
  · intro h
    have hmem : u.argstr 0 4 128 ∈ (u.strings .sysKps).1 := by
      unfold User.strings fetchAll
      split_ifs <;> exact List.mem_cons_self ..
    exact h.inside _ hmem
  · intro hle
    have hok : (u.argstr 0 4 128).Ok u.mem := fetchstr_ok hle
    exact (fetchAll_ok (List.forall_mem_singleton.mpr hok)).stringsOk

/-- A process with all pages mapped, and a string of five bytes. -/
def fiveBytes : User where
  args _ := 0
  pages _ := true
  mem a := if a < 5 then 120 else 0
  uarg _ := none
  kalloc _ := false

/-- `sys_kps` goes on with a string of five bytes, after it has stored six to a buffer of four. -/
theorem kps_overruns : (fiveBytes.strings .sysKps).2 = true ∧
    ∃ f ∈ (fiveBytes.strings .sysKps).1, f.size = 4 ∧ f.stored = [120, 120, 120, 120, 120, 0] := by
  have hrun : (fiveBytes.strings .sysKps).2 = true ∧ ((fiveBytes.strings .sysKps).1.any fun f =>
      decide (f.size = 4 ∧ f.stored = [120, 120, 120, 120, 120, 0])) = true := by
    decide +kernel
  obtain ⟨f, hf, hf'⟩ := List.any_eq_true.mp hrun.2
  exact ⟨hrun.1, f, hf, of_decide_eq_true hf'⟩

end SustainableXv6.Syscall
