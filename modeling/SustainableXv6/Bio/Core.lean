import SustainableXv6.Bio.Machine

/-!
# What the operations on buffers keep

`Core T s` is the invariant of the cache, where `T` lists the logged blocks that have not been
copied home. A block has at most one buffer, the reference counts are exact, a valid buffer has the
current contents of its block, and the disk has them too unless the block is in `T`. The buffer of a
block in `T` has a reference that keeps it from being recycled. For each operation on buffers there
is a lemma that it keeps the invariant, with the change of `T` that goes with it.
-/

namespace SustainableXv6.Bio

open Function

variable {P : Type}

/-! ## The invariant -/

/-- The reference that `bpin` has taken to a buffer. -/
def Buf.pins (x : Buf P) (T : List BlockNo) : ℕ :=
  if x.dev = ROOTDEV ∧ T.contains x.blockno then 1 else 0

/-- What holds of a buffer, for which the processes `w` sleep, and which has been modified by the
process that holds it if `d` says so. -/
structure Buf.Ok (T : List BlockNo) (current : Disk) (x : Buf P) (w : Finset P) (d : Bool) :
    Prop where
  count : x.refcnt = w.card + x.holder.toList.length + x.pins T
  used : x.refcnt ≠ 0 → x.dev = ROOTDEV
  held : x.holder ≠ none → x.valid = true
  data : x.dev = ROOTDEV → x.valid = true → x.data = current x.blockno
  dirty : d = true → x.holder ≠ none

/-- The cache is in step with the contents of the blocks, where the blocks `T` are logged and have
not been copied home. -/
structure Core (T : List BlockNo) (s : State P) : Prop where
  lru : ∀ i, i ∈ s.lru
  unique : ∀ i j b, (s.buf i).isFor b → (s.buf j).isFor b → i = j
  ok : ∀ i, (s.buf i).Ok T s.current (s.waits i) (s.dirty i)
  pinned : ∀ b ∈ T, ∃ i, (s.buf i).isFor b ∧ (s.buf i).valid = true
  disk : ∀ b, b ∉ T → s.disk b = s.current b
  clean : ∀ b, (∀ i, (s.buf i).isFor b → s.dirty i = false) → s.current b = s.written b
  asked : ∀ i, ∀ p ∈ s.waits i, (s.buf i).isFor (s.asked p)

theorem Buf.isFor_iff {x : Buf P} {b : BlockNo} :
    x.isFor b = true ↔ x.dev = ROOTDEV ∧ x.blockno = b := by
  simp [Buf.isFor]

/-- A change of a buffer that leaves its sleep lock. -/
theorem holder_update {f : BufId → Buf P} {i : BufId} {x : Buf P} (hx : x.holder = (f i).holder)
    (j : BufId) : (update f i x j).holder = (f j).holder := by
  by_cases hj : j = i
  · subst hj
    rw [update_self, hx]
  · rw [update_of_ne hj]

/-- The first state. -/
theorem core_start (d : Disk) : Core [] (State.start d : State P) where
  lru := fun i => by simp [State.start]
  unique := fun i j b h => by
    have hdev : (0 : UInt32) = ROOTDEV := (Buf.isFor_iff.mp h).1
    exact absurd hdev (by decide)
  ok := fun i =>
    { count := rfl
      used := fun h => absurd rfl h
      held := fun h => absurd rfl h
      data := fun _ h => by simp [State.start, Buf.zero] at h
      dirty := fun h => by simp [State.start] at h }
  pinned := fun b h => by simp at h
  disk := fun _ _ => rfl
  clean := fun _ _ => rfl
  asked := fun _ _ h => absurd h (Finset.notMem_empty _)

namespace Buf.Ok

variable {T T' : List BlockNo} {c c' : Disk} {x : Buf P} {w : Finset P} {d : Bool}

/-- A buffer without references is not in use. -/
theorem unused (h : x.Ok T c w d) (h0 : x.refcnt = 0) :
    w = ∅ ∧ x.holder = none ∧ x.pins T = 0 ∧ d = false := by
  have hcount := h.count
  have hwaits : w.card = 0 := by omega
  have hholder : x.holder.toList.length = 0 := by omega
  have hnone : x.holder = none := by simpa using hholder
  refine ⟨Finset.card_eq_zero.mp hwaits, hnone, by omega, ?_⟩
  exact Bool.eq_false_iff.mpr fun hd => h.dirty hd hnone

/-- A buffer that a process holds is one of the root device. -/
theorem dev_of_holder (h : x.Ok T c w d) (hx : x.holder ≠ none) : x.dev = ROOTDEV := by
  have hcount := h.count
  have hholder : x.holder.toList.length ≠ 0 := by simpa using hx
  exact h.used (by omega)

/-- A buffer that a process sleeps for is one of the root device. -/
theorem dev_of_mem (h : x.Ok T c w d) {p : P} (hp : p ∈ w) : x.dev = ROOTDEV := by
  have hcount := h.count
  have hwaits : w.card ≠ 0 := Finset.card_ne_zero_of_mem hp
  exact h.used (by omega)

/-- A change of the logged blocks and of the contents that does not touch the block of the
buffer. -/
theorem of_ne (h : x.Ok T c w d) {b : BlockNo} (hx : x.isFor b = false)
    (hT : ∀ b', b' ≠ b → (b' ∈ T' ↔ b' ∈ T)) (hc : ∀ b', b' ≠ b → c' b' = c b') :
    x.Ok T' c' w d := by
  have hne (hdev : x.dev = ROOTDEV) : x.blockno ≠ b := fun he => by
    simp [Buf.isFor, hdev, he] at hx
  refine ⟨?_, h.used, h.held, fun hdev hvalid => ?_, h.dirty⟩
  · have hpins : x.pins T' = x.pins T := by
      unfold Buf.pins
      by_cases hdev : x.dev = ROOTDEV
      · simp [hdev, hT _ (hne hdev)]
      · simp [hdev]
    rw [hpins, h.count]
  · rw [hc _ (hne hdev), h.data hdev hvalid]

end Buf.Ok

namespace Core

variable {T : List BlockNo} {s s' : State P} (hI : Core T s) {i j : BufId} {b : BlockNo}
include hI

/-- The cache does not depend on the log and the processes. -/
theorem of_eq (hbuf : s'.buf = s.buf) (hdisk : s'.disk = s.disk) (hlru : s'.lru = s.lru)
    (hwaits : s'.waits = s.waits) (hcurrent : s'.current = s.current)
    (hwritten : s'.written = s.written) (hdirty : s'.dirty = s.dirty)
    (hasked : s'.asked = s.asked) : Core T s' := by
  obtain ⟨h₁, h₂, h₃, h₄, h₅, h₆, h₇⟩ := hI
  rw [← hbuf] at h₂ h₃ h₄ h₆ h₇
  exact ⟨hlru ▸ h₁, h₂, by rwa [hcurrent, hwaits, hdirty], h₄, by rwa [hdisk, hcurrent],
    by rwa [hcurrent, hwritten, hdirty], by rwa [hwaits, hasked]⟩

/-- Only one buffer is for a block. -/
theorem not_isFor (hi : (s.buf i).isFor b) (h : j ≠ i) : (s.buf j).isFor b = false :=
  Bool.eq_false_iff.mpr fun hj => h (hI.unique j i b hj hi)

/-- A buffer that a process holds is for its block. -/
theorem isFor_of_holder (h : (s.buf i).holder ≠ none) : (s.buf i).isFor (s.buf i).blockno :=
  Buf.isFor_iff.mpr ⟨(hI.ok i).dev_of_holder h, rfl⟩

/-- The first loop of `bget` finds the buffer of a block. -/
theorem cached_eq (h : (s.buf i).isFor b) : s.cached b = some i := by
  cases hfind : s.cached b with
  | none => exact absurd h (List.find?_eq_none.mp hfind i (hI.lru i))
  | some j =>
    have hj : (s.buf j).isFor b := by simpa using List.find?_some hfind
    rw [hI.unique j i b hj h]

/-- If it finds none, there is none. -/
theorem not_isFor_of_cached (h : s.cached b = none) (i : BufId) : (s.buf i).isFor b = false :=
  Bool.eq_false_iff.mpr fun hi => by simp [hI.cached_eq hi] at h

/-- A block whose buffer is not valid has its contents on the disk. -/
theorem notMem_of_not_valid (hi : (s.buf i).isFor b) (h : (s.buf i).valid = false) : b ∉ T := by
  intro hb
  obtain ⟨j, hj, hvalid⟩ := hI.pinned b hb
  rw [hI.unique j i b hj hi, h] at hvalid
  exact Bool.false_ne_true hvalid

/-- A block of `T` is in the cache. -/
theorem cached_isSome (h : b ∈ T) : ∃ i, s.cached b = some i ∧ (s.buf i).isFor b := by
  obtain ⟨i, hi, -⟩ := hI.pinned b h
  exact ⟨i, hI.cached_eq hi, hi⟩

end Core

/-! ## `bread` -/

variable {T T' : List BlockNo} {s s' : State P} {i : BufId} {b : BlockNo}

/-- An operation on the buffer `i` that leaves it for its block, and valid if it was. -/
theorem Core.of_buf (hI : Core T s) (hbuf : ∀ j, j ≠ i → s'.buf j = s.buf j)
    (hfor : ∀ b, (s'.buf i).isFor b = (s.buf i).isFor b)
    (hvalid : (s.buf i).valid = true → (s'.buf i).valid = true)
    (hlru : ∀ j, j ∈ s'.lru) (hok : ∀ j, (s'.buf j).Ok T' s'.current (s'.waits j) (s'.dirty j))
    (hT : ∀ b ∈ T', b ∈ T ∨ (s'.buf i).isFor b ∧ (s'.buf i).valid = true)
    (hdisk : ∀ b, b ∉ T' → s'.disk b = s'.current b)
    (hclean : ∀ b, (∀ j, (s.buf j).isFor b → s'.dirty j = false) → s'.current b = s'.written b)
    (hasked : ∀ j, ∀ p ∈ s'.waits j, (s.buf j).isFor (s'.asked p)) : Core T' s' := by
  have hfor' (j : BufId) (b : BlockNo) : (s'.buf j).isFor b = (s.buf j).isFor b := by
    by_cases hj : j = i
    · rw [hj]
      exact hfor b
    · rw [hbuf j hj]
  refine ⟨hlru, fun j k b => ?_, hok, fun b hb => ?_, hdisk, fun b hb => hclean b fun j hj => ?_,
    fun j p hp => by rw [hfor']; exact hasked j p hp⟩
  · rw [hfor', hfor']
    exact hI.unique j k b
  · rcases hT b hb with hb | hb
    · obtain ⟨j, hj, hjv⟩ := hI.pinned b hb
      refine ⟨j, by rw [hfor']; exact hj, ?_⟩
      by_cases hji : j = i
      · subst hji
        exact hvalid hjv
      · rw [hbuf j hji]
        exact hjv
    · exact ⟨i, hb⟩
  · exact hb j (by rw [hfor']; exact hj)

section Bread

variable [DecidableEq P] {p : P}

/-- A process asks for the block `b` and goes to sleep for the buffer `i`, which is for it. -/
theorem Core.asked_wait (hI : Core T s) (hp : ∀ j, p ∉ s.waits j) {buf : BufId → Buf P}
    (hother : ∀ j, j ≠ i → buf j = s.buf j) (hi : (buf i).isFor b)
    (hwaits : ∀ q ∈ s.waits i, (buf i).isFor (s.asked q)) (j : BufId) (q : P)
    (hq : q ∈ update s.waits i (insert p (s.waits i)) j) :
    (buf j).isFor (update s.asked p b q) := by
  by_cases hqp : q = p
  · have hj : j = i := by
      by_contra hj
      rw [update_of_ne hj, hqp] at hq
      exact hp j hq
    rw [hqp, hj, update_self]
    exact hi
  · rw [update_of_ne hqp]
    by_cases hj : j = i
    · subst hj
      rw [update_self] at hq
      exact hwaits q (Finset.mem_of_mem_insert_of_ne hq hqp)
    · rw [update_of_ne hj] at hq
      rw [hother j hj]
      exact hI.asked j q hq

/-- A process gets a buffer that has its block. -/
theorem Core.bget_cached (hI : Core T s) (hi : (s.buf i).isFor b) (hp : ∀ j, p ∉ s.waits j) :
    Core T ((s.setBuf i { s.buf i with refcnt := (s.buf i).refcnt + 1 }).wait p i b) := by
  refine hI.of_buf (i := i) (fun j hj => by simp [hj]) (fun b => by simp [Buf.isFor])
    (by simp) hI.lru (fun j => ?_) (fun b hb => .inl hb) hI.disk hI.clean
    (hI.asked_wait hp (fun _ _ => rfl) hi (hI.asked i))
  by_cases hj : j = i
  · subst hj
    have hok := hI.ok j
    have hcount := hok.count
    simp only [State.wait_buf, State.setBuf_buf, State.wait_waits, State.setBuf_waits,
      update_self]
    refine ⟨?_, fun _ => (Buf.isFor_iff.mp hi).1, hok.held, hok.data, hok.dirty⟩
    rw [Finset.card_insert_of_notMem (hp j)]
    simp only [Buf.pins] at hcount ⊢
    omega
  · simpa [hj] using hI.ok j

/-- A process gets a buffer that is recycled. -/
theorem Core.bget_recycle (hI : Core T s) (hp : ∀ j, p ∉ s.waits j) (hb : s.cached b = none)
    (hi : (s.buf i).refcnt = 0) :
    Core T ((s.setBuf i { s.buf i with
      dev := ROOTDEV, blockno := b, valid := false, refcnt := 1 }).wait p i b) := by
  obtain ⟨hwaits, hholder, hpins, hdirty⟩ := (hI.ok i).unused hi
  have hnone := hI.not_isFor_of_cached hb
  have hbT : b ∉ T := fun hmem => by
    obtain ⟨j, -, hj⟩ := hI.cached_isSome hmem
    simp [hnone j] at hj
  have hbuf (j : BufId) (hj : j ≠ i) : (update s.buf i { s.buf i with
      dev := ROOTDEV, blockno := b, valid := false, refcnt := 1 }) j = s.buf j := by simp [hj]
  refine ⟨hI.lru, fun j k b' hj hk => ?_, fun j => ?_, fun b' hb' => ?_, hI.disk, fun b' hb' => ?_,
    hI.asked_wait hp hbuf (by simp [Buf.isFor]) (by simp [hwaits])⟩
  · -- No other buffer is for the block `b`.
    by_cases hji : j = i
    · by_cases hki : k = i
      · rw [hji, hki]
      · simp [hji, hki, Buf.isFor] at hj hk
        have := hnone k
        simp [Buf.isFor, hk, hj] at this
    · by_cases hki : k = i
      · simp [hji, hki, Buf.isFor] at hj hk
        have := hnone j
        simp [Buf.isFor, hk, hj] at this
      · simp [hji, hki] at hj hk
        exact hI.unique j k b' hj hk
  · by_cases hj : j = i
    · subst hj
      simp only [State.wait_buf, State.setBuf_buf, State.wait_waits, State.setBuf_waits,
        update_self, hwaits]
      refine ⟨?_, fun _ => rfl, fun h => absurd hholder h, fun _ h => by simp at h, fun h => ?_⟩
      · simp [hholder, Buf.pins, hbT]
      · exact absurd h (by simp [hdirty])
    · simpa [hj] using hI.ok j
  · obtain ⟨j, hj, hvalid⟩ := hI.pinned b' hb'
    have hji : j ≠ i := by
      rintro rfl
      obtain ⟨hdev, rfl⟩ := Buf.isFor_iff.mp hj
      simp [Buf.pins, hdev, hb'] at hpins
    exact ⟨j, by simpa [hji] using hj, by simpa [hji] using hvalid⟩
  · refine hI.clean b' fun j hj => ?_
    by_cases hji : j = i
    · rw [hji]
      exact hdirty
    · exact hb' j (by simpa [hji] using hj)

/-- `bget` of a process that sleeps for no buffer. -/
theorem Core.bget (hI : Core T s) (hp : ∀ j, p ∉ s.waits j) (h : s.bget p b = some (i, s')) :
    Core T s' ∧ (s'.buf i).isFor b ∧ p ∈ s'.waits i := by
  unfold State.bget at h
  cases hc : s.cached b with
  | some k =>
    simp only [hc, Option.some.injEq, Prod.mk.injEq] at h
    obtain ⟨rfl, rfl⟩ := h
    have hk : (s.buf k).isFor b := by simpa using List.find?_some hc
    exact ⟨hI.bget_cached hk hp, by simpa [Buf.isFor] using hk, by simp⟩
  | none =>
    cases hu : s.unused with
    | none => simp [hc, hu] at h
    | some k =>
      simp only [hc, hu, Option.some.injEq, Prod.mk.injEq] at h
      obtain ⟨rfl, rfl⟩ := h
      have hk : (s.buf k).refcnt = 0 := by simpa using List.find?_some hu
      exact ⟨hI.bget_recycle hp hc hk, by simp [Buf.isFor], by simp⟩

/-- `acquiresleep` returns, and the buffer is read if it is not valid. -/
theorem Core.lock (hI : Core T s) (hp : p ∈ s.waits i) (hi : (s.buf i).holder = none) :
    Core T (s.lock p i) := by
  have hok := hI.ok i
  have hdev := hok.dev_of_mem hp
  have hdirty : s.dirty i = false := Bool.eq_false_iff.mpr fun hd => hok.dirty hd hi
  have hsame : (s.lock p i).dirty = s.dirty := by
    simp only [State.lock]
    rw [← hdirty, update_eq_self]
  refine hI.of_buf (i := i) (fun j hj => by simp [State.lock, hj])
    (fun b => by simp [State.lock, Buf.isFor]) (by simp [State.lock]) hI.lru (fun j => ?_)
    (fun b hb => .inl hb) hI.disk (by rw [hsame]; exact hI.clean)
    (fun j q hq => hI.asked j q (by
      by_cases hj : j = i
      · subst hj
        simp only [State.lock, update_self] at hq
        exact Finset.mem_of_mem_erase hq
      · simpa [State.lock, hj] using hq))
  rw [hsame]
  by_cases hj : j = i
  · subst hj
    simp only [State.lock, update_self]
    refine ⟨?_, fun _ => hdev, fun _ => rfl, fun _ _ => ?_, fun h => by simp [hdirty] at h⟩
    · have hcount := hok.count
      have hcard := Finset.card_erase_add_one hp
      simp only [hi, Option.toList_none, List.length_nil, Buf.pins] at hcount
      simp only [Option.toList_some, List.length_singleton, Buf.pins]
      omega
    · cases hv : (s.buf j).valid with
      | true => simpa [hv] using hok.data hdev hv
      | false =>
        have hb := hI.notMem_of_not_valid (Buf.isFor_iff.mpr ⟨hdev, rfl⟩) hv
        simpa [hv] using hI.disk _ hb
  · simpa [State.lock, hj] using hI.ok j

end Bread

/-! ## Modifications -/

/-- The contents of the block of the buffer `i` change to `v`, and so do those of the buffer. The
disk has them too unless the block is among the blocks `T'` that are logged now. -/
theorem Core.of_modify (hI : Core T s) (hi : (s.buf i).holder ≠ none) {v : Block} {n : ℕ}
    (hbuf : s'.buf = update s.buf i { s.buf i with refcnt := n, data := v })
    (hcount : n + (s.buf i).pins T = (s.buf i).refcnt + (s.buf i).pins T')
    (hlru : s'.lru = s.lru) (hwaits : s'.waits = s.waits)
    (hcurrent : s'.current = update s.current (s.buf i).blockno v)
    (hwritten : s'.written = s.written) (hdirty : s'.dirty = update s.dirty i true)
    (hasked : s'.asked = s.asked)
    (hT : ∀ b, b ≠ (s.buf i).blockno → (b ∈ T' ↔ b ∈ T))
    (hother : ∀ b, b ≠ (s.buf i).blockno → s'.disk b = s.disk b)
    (hdisk : (s.buf i).blockno ∈ T' ∨ s'.disk (s.buf i).blockno = v) : Core T' s' := by
  have hfor := hI.isFor_of_holder hi
  have hok := hI.ok i
  have hvalid := hok.held hi
  refine hI.of_buf (i := i) (fun j hj => by simp [hbuf, hj]) (fun b => by simp [hbuf, Buf.isFor])
    (by simp [hbuf]) (hlru ▸ hI.lru) (fun j => ?_) (fun b hb => ?_) (fun b hb => ?_)
    (fun b hb => ?_) (by rw [hwaits, hasked]; exact hI.asked)
  · rw [hbuf, hwaits, hcurrent, hdirty]
    by_cases hj : j = i
    · subst hj
      simp only [update_self]
      have hold := hok.count
      refine ⟨?_, fun _ => hok.dev_of_holder hi, hok.held, fun _ _ => by simp, fun _ => hi⟩
      simp only [Buf.pins] at hcount hold ⊢
      omega
    · simp only [update_of_ne hj]
      exact (hI.ok j).of_ne (hI.not_isFor hfor hj) hT fun b hb => update_of_ne hb _ _
  · by_cases hbi : b = (s.buf i).blockno
    · refine .inr ⟨?_, by simpa [hbuf] using hvalid⟩
      simpa [hbuf, hbi, Buf.isFor] using hfor
    · exact .inl ((hT b hbi).mp hb)
  · rw [hcurrent]
    by_cases hbi : b = (s.buf i).blockno
    · subst hbi
      rw [update_self]
      exact hdisk.resolve_left hb
    · rw [update_of_ne hbi, hother b hbi]
      exact hI.disk b fun h => hb ((hT b hbi).mpr h)
  · have hbi : b ≠ (s.buf i).blockno := by
      rintro rfl
      have := hb i hfor
      simp [hdirty] at this
    rw [hcurrent, update_of_ne hbi, hwritten]
    refine hI.clean b fun j hj => ?_
    have hji : j ≠ i := by
      rintro rfl
      exact hbi (Buf.isFor_iff.mp hj).2.symm
    have := hb j hj
    rwa [hdirty, update_of_ne hji] at this

/-- A buffer that is modified and written. -/
theorem Core.modify_bwrite (hI : Core T s) (hi : (s.buf i).holder ≠ none) (v : Block) :
    Core T ((s.modify i v).bwrite i) := by
  refine hI.of_modify hi (v := v) (n := (s.buf i).refcnt) rfl rfl rfl rfl rfl rfl rfl rfl
    (fun _ _ => Iff.rfl) (fun b hb => ?_) (.inr ?_)
  · simp [State.modify, State.bwrite, hb]
  · simp [State.modify, State.bwrite]

/-- A buffer of a logged block that is modified. -/
theorem Core.modify_absorb (hI : Core T s) (hi : (s.buf i).holder ≠ none)
    (hb : (s.buf i).blockno ∈ T) (v : Block) : Core T (s.modify i v) :=
  hI.of_modify hi (v := v) (n := (s.buf i).refcnt) rfl rfl rfl rfl rfl rfl rfl rfl
    (fun _ _ => Iff.rfl) (fun _ _ => rfl) (.inl hb)

/-- A buffer of another block that is modified and pinned. -/
theorem Core.modify_pin (hI : Core T s) (hi : (s.buf i).holder ≠ none)
    (hb : (s.buf i).blockno ∉ T) (v : Block) :
    Core (T ++ [(s.buf i).blockno])
      ((s.modify i v).setBuf i { s.buf i with refcnt := (s.buf i).refcnt + 1, data := v }) := by
  have hdev := (hI.ok i).dev_of_holder hi
  refine hI.of_modify hi (v := v) (n := (s.buf i).refcnt + 1) ?_ ?_ rfl rfl rfl rfl rfl rfl
    (fun b hb => by simp [hb]) (fun _ _ => rfl) (.inl (by simp))
  · simp [State.modify]
  · simp [Buf.pins, hdev, hb]

/-! ## `brelse` and `install_trans` -/

/-- `brelse`. -/
theorem Core.brelse (hI : Core T s) (hi : (s.buf i).holder ≠ none) : Core T (s.brelse i) := by
  have hok := hI.ok i
  have hfor := hI.isFor_of_holder hi
  have hdev := hok.dev_of_holder hi
  have hlru (j : BufId) : j ∈ (s.brelse i).lru := by
    simp only [State.brelse]
    split_ifs
    · by_cases hj : j = i
      · simp [hj]
      · exact List.mem_cons_of_mem _ ((List.mem_erase_of_ne hj).mpr (hI.lru j))
    · exact hI.lru j
  refine hI.of_buf (i := i) (fun j hj => by simp [State.brelse, hj])
    (fun b => by simp [State.brelse, Buf.isFor]) (by simp [State.brelse]) hlru (fun j => ?_)
    (fun b hb => .inl hb) hI.disk (fun b hb => ?_) hI.asked
  · by_cases hj : j = i
    · subst hj
      simp only [State.brelse, update_self]
      refine ⟨?_, fun _ => hdev, fun h => absurd rfl h, hok.data, fun h => by simp at h⟩
      have hcount := hok.count
      obtain ⟨p, hp⟩ := Option.ne_none_iff_exists'.mp hi
      simp only [hp, Option.toList_some, List.length_singleton, Buf.pins] at hcount
      simp only [Option.toList_none, List.length_nil, Buf.pins]
      omega
    · simpa [State.brelse, hj] using hI.ok j
  · -- The section of the buffer is complete.
    simp only [State.brelse] at hb ⊢
    have hother (j : BufId) (hj : j ≠ i) (hjb : (s.buf j).isFor b) : s.dirty j = false := by
      simpa [hj] using hb j hjb
    by_cases hbi : b = (s.buf i).blockno
    · subst hbi
      cases hd : s.dirty i with
      | true => simpa [hd] using (hok.data hdev (hok.held hi)).symm
      | false =>
        refine hI.clean _ fun j hj => ?_
        rw [hI.unique j i _ hj hfor]
        exact hd
    · have hclean : s.current b = s.written b := by
        refine hI.clean b fun j hj => ?_
        refine hother j ?_ hj
        rintro rfl
        exact hbi (Buf.isFor_iff.mp hj).2.symm
      split_ifs
      · rw [update_of_ne hbi]
        exact hclean
      · exact hclean

/-- `install_trans` copies a block home that has the contents `v` of the buffer `x`. -/
theorem Core.copyHome {x y : BufId} (hI : Core (b :: T) s) (hbT : b ∉ T)
    (hfor : (s.buf y).isFor b) (hx : (s.buf x).data = s.current b) : Core T (copyHome s x y) := by
  obtain ⟨hdev, rfl⟩ := Buf.isFor_iff.mp hfor
  have hok := hI.ok y
  have hbuf : (Bio.copyHome s x y).buf = update s.buf y
      { s.buf y with data := (s.buf x).data, refcnt := (s.buf y).refcnt - 1 } := by
    simp [Bio.copyHome, State.bwrite]
  have hdisk : (Bio.copyHome s x y).disk =
      update s.disk (s.buf y).blockno (s.buf x).data := by
    simp [Bio.copyHome, State.bwrite]
  refine hI.of_buf (i := y) (fun j hj => by simp [hbuf, hj]) (fun b => by simp [hbuf, Buf.isFor])
    (by simp [hbuf]) hI.lru (fun j => ?_) (fun b hb => .inl (List.mem_cons_of_mem _ hb))
    (fun b hb => ?_) hI.clean hI.asked
  · rw [hbuf]
    change Buf.Ok T s.current _ (s.waits j) (s.dirty j)
    by_cases hj : j = y
    · subst hj
      simp only [update_self]
      refine ⟨?_, fun _ => hdev, hok.held, fun _ _ => hx, hok.dirty⟩
      have hcount := hok.count
      simp only [Buf.pins, hdev, List.contains_cons, beq_self_eq_true, Bool.true_or, and_self,
        if_true] at hcount
      simp only [Buf.pins, hdev, List.contains_iff_mem, hbT, and_false, if_false]
      omega
    · simp only [update_of_ne hj]
      exact (hI.ok j).of_ne (hI.not_isFor hfor hj) (fun b hb => by simp [hb]) fun _ _ => rfl
  · rw [hdisk]
    by_cases hb' : b = (s.buf y).blockno
    · rw [hb', update_self]
      exact hx
    · rw [update_of_ne hb']
      exact hI.disk b (by simp [hb, hb'])

end SustainableXv6.Bio
