import SustainableXv6.Bio.Commit

/-!
# The steps keep the invariant

`LogRules` is what the callers of `kernel/bio.c` and `kernel/log.c` promise: `log_write` is called
for a block outside the log area, an operation has released its buffers when it ends, and `bwrite`
leaves the log area and the blocks that are being committed alone. Under these
rules each step keeps `Inv`, unless it stops the system.
-/

namespace SustainableXv6.Bio

open Function

variable {P : Type}

/-! ## The rules of the callers -/

/-- What the caller of a function of `kernel/bio.c` or `kernel/log.c` promises. -/
def LogRules (start : BlockNo) (s : State P) : Act P → Prop
  | .endOp p => ∀ i, (s.buf i).holder ≠ some p
  | .logWrite _ i _ => OutsideLog start (s.buf i).blockno
  | .bwrite _ i _ =>
    OutsideLog start (s.buf i).blockno ∧ (s.commit = none ∨ (s.buf i).blockno ∉ s.lh)
  | .beginOp _ | .bget _ _ | .lock _ _ | .brelse _ _ | .commit => True

instance [DecidableEq P] (start : BlockNo) (s : State P) : ∀ a, Decidable (LogRules start s a)
  | .endOp p => inferInstanceAs (Decidable (∀ i, (s.buf i).holder ≠ some p))
  | .logWrite _ i _ => inferInstanceAs (Decidable (OutsideLog start (s.buf i).blockno))
  | .bwrite _ i _ =>
    inferInstanceAs (Decidable (OutsideLog start (s.buf i).blockno ∧
      (s.commit = none ∨ (s.buf i).blockno ∉ s.lh)))
  | .beginOp _ | .bget _ _ | .lock _ _ | .brelse _ _ | .commit => .isTrue trivial

/-! ## The processes outside `commit` -/

section Client

variable {start : BlockNo} {s s' : State P} {p q : P} {i : BufId}

/-- While no commit runs, only the cache and the log count. -/
theorem Inv.of_commit_none (hc : s.commit = none) (hcore : Core s.lh s) (hnodup : s.lh.Nodup)
    (hroom : s.lh.length ≤ LOGBLOCKS) (hhome : ∀ b ∈ s.lh, OutsideLog start b) : Inv start s :=
  ⟨by rwa [State.toInstall, hc], hnodup, hroom, hhome, fun p c h => by simp [hc] at h⟩

/-- No commit runs while there is an operation. -/
theorem Inv.commit_eq_none (hI : Inv start s) (h : s.inside ≠ ∅) : s.commit = none := by
  cases hc : s.commit with
  | none => rfl
  | some x => exact absurd (hI.commits x.1 x.2 hc).ops h

/-- While no commit runs, the logged blocks have not been copied home. -/
theorem Inv.core_lh (hI : Inv start s) (hc : s.commit = none) : Core s.lh s := by
  have hcore := hI.core
  rwa [State.toInstall, hc] at hcore

/-- Another process takes the sleep lock of a buffer. -/
theorem Frame.lock [DecidableEq P] (hq : q ≠ p) (hi : (s.buf i).holder = none) :
    Frame q s (s.lock p i) :=
  .of_buf (i := i) (fun j hj => by simp [State.lock, hj]) (fun j hj => by simp [State.lock, hj])
    (by simp [State.lock, hi, hq.symm]) (by simp [State.lock, hq])
    (fun _ b => by simp [State.lock, Buf.isFor])

/-- Another process writes to a buffer that it holds. -/
theorem Frame.modify_bwrite (q : P) (v : Block) : Frame q s ((s.modify i v).bwrite i) :=
  .of_buf (i := i) (fun j hj => by simp [State.modify, State.bwrite, hj]) (fun _ _ => rfl)
    (by simp [State.modify, State.bwrite]) Iff.rfl
    (fun _ b => by simp [State.modify, State.bwrite, Buf.isFor])

/-- Another process releases a buffer. -/
theorem Frame.brelse (hq : q ≠ p) (hi : (s.buf i).holder = some p) : Frame q s (s.brelse i) :=
  .of_buf (i := i) (fun j hj => by simp [State.brelse, hj]) (fun _ _ => rfl)
    (by simp [State.brelse, hi, hq.symm]) Iff.rfl (fun _ b => by simp [State.brelse, Buf.isFor])

/-- The operation of `p` ends. If it is the last one, `commit` is called. -/
theorem Inv.endOp [DecidableEq P] (hI : Inv start s) (hp : p ∈ s.inside)
    (hsleeps : ∀ j, p ∉ s.waits j) (hholds : ∀ j, (s.buf j).holder ≠ some p) :
    Inv start { s with inside := s.inside.erase p } ∧
      ∀ c, (c = .done ∨ c = .writeLog 0 .getLog) → s.inside.erase p = ∅ →
        Inv start ({ s with inside := s.inside.erase p }.goto p c) := by
  have hnone := hI.commit_eq_none (Finset.ne_empty_of_mem hp)
  have hcore := hI.core_lh hnone
  refine ⟨.of_commit_none hnone (hcore.of_eq rfl rfl rfl rfl rfl rfl rfl rfl) hI.nodup hI.room
    hI.home, fun c hc hempty => ?_⟩
  refine ⟨?_, hI.nodup, hI.room, hI.home, fun p' c' h => ?_⟩
  · have hT : c.toInstall s.lh = s.lh := by rcases hc with rfl | rfl <;> rfl
    exact (hT.symm ▸ hcore).of_eq rfl rfl rfl rfl rfl rfl rfl rfl
  · obtain ⟨rfl, rfl⟩ : p = p' ∧ c = c' := by simpa using h
    refine ⟨hempty, ?_, fun j hj => absurd hj (hsleeps j), fun j hj => absurd hj (hholds j), ?_⟩
    · rcases hc with rfl | rfl
      · trivial
      · exact ⟨fun _ _ => trivial, fun _ => rfl⟩
    · rcases hc with rfl | rfl
      · exact fun t b ht => absurd ht (Nat.not_lt_zero t)
      · exact fun t b ht => absurd ht (Nat.not_lt_zero t)

/-- `log_write` of a block outside the log area. -/
theorem Inv.logWrite [DecidableEq P] {v : Block} (hI : Inv start s) (hi : (s.buf i).holder ≠ none)
    (hout : OutsideLog start (s.buf i).blockno)
    (hok : ((s.modify i v).logWrite i).panicked = none) :
    Inv start ((s.modify i v).logWrite i) := by
  have hblockno : ((s.modify i v).buf i).blockno = (s.buf i).blockno := by simp [State.modify]
  unfold State.logWrite at hok ⊢
  rw [hblockno] at hok ⊢
  split_ifs at hok ⊢ with hroom hinside hmem
  · simp at hok
  · simp at hok
  · -- The block has been logged: it keeps its slot.
    have hmem' : (s.buf i).blockno ∈ s.lh := by simpa [State.modify] using hmem
    have hnone := hI.commit_eq_none hinside
    exact .of_commit_none hnone ((hI.core_lh hnone).modify_absorb hi hmem' v) hI.nodup hI.room
      hI.home
  · have hmem' : (s.buf i).blockno ∉ s.lh := by simpa [State.modify] using hmem
    have hnone := hI.commit_eq_none hinside
    have hpin := (hI.core_lh hnone).modify_pin hi hmem' v
    refine .of_commit_none hnone ?_ ?_ ?_ ?_
    · have hbuf : (s.modify i v).buf i = { s.buf i with data := v } := by simp [State.modify]
      rw [hbuf]
      exact hpin.of_eq rfl rfl rfl rfl rfl rfl rfl rfl
    · exact List.nodup_append.mpr ⟨hI.nodup, List.nodup_singleton _, by
        rintro a ha b hb rfl
        exact hmem' (List.mem_singleton.mp hb ▸ ha)⟩
    · simpa [State.modify] using hroom
    · intro b hb
      rcases List.mem_append.mp hb with hb | hb
      · exact hI.home b hb
      · exact List.mem_singleton.mp hb ▸ hout

/-- A step of a process outside `commit`. -/
theorem Inv.client [DecidableEq P] {a : Act P} (hI : Inv start s) (hrules : LogRules start s a)
    (ha : a ≠ .commit) (h : step start s a = some s') (hok : s'.panicked = none) :
    Inv start s' := by
  unfold step at h
  split_ifs at h with hpan
  have hcommitter {p : P} (hp : s.ready p = true) (q : P) (c : CommitPc)
      (hc : s.commit = some (q, c)) : q ≠ p := by
    rintro rfl
    simp [State.ready, hc] at hp
  have hawake {p : P} (hp : s.ready p = true) (j : BufId) : p ∉ s.waits j := by
    simp only [State.ready, Bool.and_eq_true, decide_eq_true_eq] at hp
    exact hp.1 j
  cases a with
  | beginOp p =>
    simp only [Option.ite_none_right_eq_some, Option.some.injEq] at h
    obtain ⟨⟨-, -, hnone, -⟩, rfl⟩ := h
    exact .of_commit_none hnone ((hI.core_lh hnone).of_eq rfl rfl rfl rfl rfl rfl rfl rfl) hI.nodup
      hI.room hI.home
  | endOp p =>
    simp only [Option.ite_none_right_eq_some] at h
    obtain ⟨⟨hready, hp⟩, h⟩ := h
    obtain ⟨hmore, hlast⟩ := hI.endOp hp (hawake hready) hrules
    split_ifs at h with hempty hlh
    · exact Option.some.inj h ▸ hlast _ (.inl rfl) hempty
    · exact Option.some.inj h ▸ hlast _ (.inr rfl) hempty
    · exact Option.some.inj h ▸ hmore
  | bget p b =>
    simp only [Option.ite_none_right_eq_some] at h
    obtain ⟨hready, h⟩ := h
    cases hget : s.bget p b with
    | none =>
      rw [hget] at h
      rw [← Option.some.inj h] at hok
      simp at hok
    | some x =>
      obtain ⟨i, t⟩ := x
      rw [hget] at h
      obtain rfl := Option.some.inj h
      have hgot := State.bget_gotBuffer hget
      refine hI.of_frame (hI.core.bget (hawake hready) hget).1 hgot.lh hgot.inside hgot.commit
        (fun q c hc => hgot.frame hI.core (hcommitter hready q c hc)) fun b _ _ => ?_
      rw [hgot.current]
  | lock p i =>
    simp only [Option.ite_none_right_eq_some, Option.some.injEq] at h
    obtain ⟨⟨hp, hi, hnot⟩, rfl⟩ := h
    refine hI.of_frame (hI.core.lock hp hi) rfl rfl rfl (fun q c hc => Frame.lock ?_ hi)
      fun _ _ _ => rfl
    rintro rfl
    simp [hc] at hnot
  | logWrite p i v =>
    simp only [Option.ite_none_right_eq_some, Option.some.injEq] at h
    obtain ⟨⟨-, hi⟩, rfl⟩ := h
    exact hI.logWrite (by simp [hi]) hrules hok
  | bwrite p i v =>
    simp only [Option.ite_none_right_eq_some, Option.some.injEq] at h
    obtain ⟨⟨-, hi⟩, rfl⟩ := h
    refine hI.of_frame (hI.core.modify_bwrite (by simp [hi]) v) rfl rfl rfl
      (fun q _ _ => Frame.modify_bwrite q v) fun b hc hb => ?_
    have hne : b ≠ (s.buf i).blockno := by
      rintro rfl
      rcases hb with hb | hb
      · exact (hrules.2.resolve_left hc) hb
      · exact hb hrules.1
    simp [State.modify, State.bwrite, hne]
  | brelse p i =>
    simp only [Option.ite_none_right_eq_some, Option.some.injEq] at h
    obtain ⟨⟨hready, hi⟩, rfl⟩ := h
    exact hI.of_frame (hI.core.brelse (by simp [hi])) rfl rfl rfl
      (fun q c hc => Frame.brelse (hcommitter hready q c hc) hi) fun _ _ _ => rfl
  | commit => exact absurd rfl ha

end Client

/-! ## The steps of `commit` -/

section Commit

variable {start : BlockNo} {s s' : State P} {p : P} {c c' : CommitPc} {i : BufId} {b : BlockNo}

/-- The cache at a place of `commit`. -/
theorem Inv.core_commit (hI : Inv start s) (hc : s.commit = some (p, c)) :
    Core (c.toInstall s.lh) s := by
  have hT : s.toInstall = c.toInstall s.lh := by rw [State.toInstall, hc]
  rw [← hT]
  exact hI.core

/-- The process in `commit` goes on from a state `s'` that has the buffers of the place `c'`. -/
theorem Inv.goto (hI : Inv start s) (hc : s.commit = some (p, c)) (hlh : s'.lh = s.lh)
    (hinside : s'.inside = s.inside) (hcore : Core (c'.toInstall s.lh) s')
    (hplace : c'.Ok start s' p) (hsleeps : ∀ j, p ∈ s'.waits j → c'.sleeps = some j)
    (hholds : ∀ j, (s'.buf j).holder = some p → j ∈ c'.holds)
    (hlogged : ∀ t b, t < c'.logged s.lh.length → s.lh[t]? = some b →
      s'.current (logSlot start t) = s'.current b) : Inv start (s'.goto p c') := by
  have hcore' : Core (c'.toInstall s'.lh) (s'.goto p c') := by
    rw [hlh]
    exact hcore.of_eq rfl rfl rfl rfl rfl rfl rfl rfl
  have hframe : Frame p s' (s'.goto p c') :=
    ⟨fun _ _ h => ⟨h.isFor, h.holder⟩, fun _ _ h => ⟨h.isFor, h.mem⟩, fun _ h => h, fun _ h => h⟩
  refine ⟨hcore', hlh ▸ hI.nodup, hlh ▸ hI.room, hlh ▸ hI.home, fun q d h => ?_⟩
  obtain ⟨rfl, rfl⟩ : p = q ∧ c' = d := by simpa using h
  refine ⟨hinside ▸ (hI.commits p c hc).ops, hframe.commitPc rfl hplace, hsleeps, hholds, ?_⟩
  rw [State.goto_lh, hlh]
  exact hlogged

/-- `commit` releases a buffer. -/
theorem Inv.goto_brelse (hI : Inv start s) (hc : s.commit = some (p, c))
    (hi : (s.buf i).holder = some p) (hawake : c.sleeps = none)
    (hholds : ∀ j ∈ c.holds, j ≠ i → j ∈ c'.holds) (hT : c'.toInstall s.lh = c.toInstall s.lh)
    (hn : c'.logged s.lh.length = c.logged s.lh.length)
    (hplace : (∀ j b', j ≠ i → Holds s p j b' → Holds (s.brelse i) p j b') →
      c'.Ok start (s.brelse i) p) : Inv start ((s.brelse i).goto p c') := by
  obtain ⟨-, -, hs, hh, hl⟩ := hI.commits p c hc
  have hcore : Core (c'.toInstall s.lh) (s.brelse i) :=
    hT ▸ (hI.core_commit hc).brelse (by simp [hi])
  refine hI.goto hc rfl rfl hcore (hplace fun j b' hji hj => ?_)
    (fun j hj => ?_) (fun j hj => ?_) (by rw [hn]; exact hl)
  · exact ⟨by simpa [State.brelse, hji] using hj.isFor,
      by simpa [State.brelse, hji] using hj.holder⟩
  · exact absurd (hs j hj) (by simp [hawake])
  · have hji : j ≠ i := by
      rintro rfl
      simp [State.brelse] at hj
    simp only [State.brelse, update_of_ne hji] at hj
    exact hholds j (hh j hj) hji

/-- `commit` writes to its buffers, which stay for their blocks. -/
theorem Inv.goto_write (hI : Inv start s) (hc : s.commit = some (p, c)) (hlh : s'.lh = s.lh)
    (hinside : s'.inside = s.inside) (hwaits : s'.waits = s.waits)
    (hbuf : ∀ j, (s'.buf j).holder = (s.buf j).holder ∧ (s'.buf j).dev = (s.buf j).dev ∧
      (s'.buf j).blockno = (s.buf j).blockno)
    (hcore : Core (c'.toInstall s.lh) s') (hsleeps : c'.sleeps = c.sleeps)
    (hholds : c'.holds = c.holds)
    (hplace : (∀ j b', Holds s p j b' → Holds s' p j b') → c'.Ok start s' p)
    (hlogged : ∀ t b, t < c'.logged s.lh.length → s.lh[t]? = some b →
      s'.current (logSlot start t) = s'.current b) : Inv start (s'.goto p c') := by
  obtain ⟨-, -, hs, hh, -⟩ := hI.commits p c hc
  refine hI.goto hc hlh hinside hcore (hplace fun j b' hj => ?_) (fun j hj => ?_) (fun j hj => ?_)
    hlogged
  · obtain ⟨hholder, hdev, hblockno⟩ := hbuf j
    exact ⟨by simpa [Buf.isFor, hdev, hblockno] using hj.isFor, by rw [hholder]; exact hj.holder⟩
  · rw [hwaits] at hj
    exact hsleeps ▸ hs j hj
  · rw [(hbuf j).1] at hj
    exact hholds ▸ hh j hj

/-- The places of a loop at the block `tail`. -/
def IsLoop (tail : ℕ) (place : CopyPc → CommitPc) : Prop :=
  place = .writeLog tail ∨ place = .install tail

namespace IsLoop

variable {tail : ℕ} {place : CopyPc → CommitPc} (h : IsLoop tail place)
include h

theorem sleeps (c : CopyPc) : (place c).sleeps = c.sleeps := by
  rcases h with rfl | rfl <;> rfl

theorem holds (c : CopyPc) : (place c).holds = c.holds := by
  rcases h with rfl | rfl <;> rfl

theorem toInstall {c c' : CopyPc} (hc : c'.copied = c.copied) (lh : List BlockNo) :
    (place c').toInstall lh = (place c).toInstall lh := by
  rcases h with rfl | rfl <;> simp [CommitPc.toInstall, hc]

theorem logged {c c' : CopyPc} (hc : c'.copied = c.copied) (n : ℕ) :
    (place c').logged n = (place c).logged n := by
  rcases h with rfl | rfl <;> simp [CommitPc.logged, hc]

theorem ok {s : State P} {p : P} {c : CopyPc} {b : BlockNo} (hb : s.lh[tail]? = some b)
    (hc : c.Ok s p (logSlot start tail) b) : (place c).Ok start s p := by
  have hall : (∀ b, s.lh[tail]? = some b → c.Ok s p (logSlot start tail) b) ∧
      (s.lh[tail]? = none → c = .getLog) :=
    ⟨fun b' hb' => Option.some.inj (hb.symm.trans hb') ▸ hc, fun h => by simp [hb] at h⟩
  rcases h with rfl | rfl
  · exact hall
  · exact hall

end IsLoop

/-- `write_log` copies the block `tail` to its slot. -/
theorem Inv.copyToLog (hstart : start.toNat + LOGBLOCKS < 2 ^ 32) (hI : Inv start s) {tail : ℕ}
    {x y : BufId} (hc : s.commit = some (p, .writeLog tail (.copy x y)))
    (hb : s.lh[tail]? = some b) (hx : Holds s p x (logSlot start tail)) (hy : Holds s p y b) :
    Inv start ((copyToLog s x y).goto p (.writeLog tail (.relse x y))) := by
  have hcore := hI.core_commit hc
  obtain ⟨-, hslot⟩ := Buf.isFor_iff.mp hx.isFor
  obtain ⟨hdev, hhome⟩ := Buf.isFor_iff.mp hy.isFor
  have hroom {t : ℕ} {b : BlockNo} (h : s.lh[t]? = some b) : t < LOGBLOCKS :=
    lt_of_lt_of_le (List.getElem?_eq_some_iff.mp h).1 hI.room
  have hdata : (s.buf y).data = s.current b := by
    rw [← hhome]
    exact (hcore.ok y).data hdev ((hcore.ok y).held (by simp [hy.holder]))
  refine hI.goto_write hc rfl rfl rfl (fun j => ?_)
    (hcore.modify_bwrite (by simp [hx.holder]) _) rfl rfl
    (fun hkeep => IsLoop.ok (.inl rfl) hb ⟨hkeep x _ hx, hkeep y _ hy⟩) fun t b' ht hb' => ?_
  · by_cases hj : j = x
    · subst hj
      simp [Bio.copyToLog, State.modify, State.bwrite]
    · simp [Bio.copyToLog, State.modify, State.bwrite, hj]
  · have hb'out := (hI.home b' (List.mem_of_getElem? hb')).2 tail (hroom hb)
    by_cases htt : t = tail
    · subst htt
      obtain rfl : b = b' := Option.some.inj (hb.symm.trans hb')
      simp [Bio.copyToLog, State.modify, State.bwrite, hslot, hdata, hb'out]
    · have hne : logSlot start t ≠ logSlot start tail :=
        fun h => htt (logSlot_inj hstart t tail (hroom hb') (hroom hb) h)
      have htl : t < tail := by
        simp only [CommitPc.logged, CopyPc.copied, if_true] at ht
        omega
      simpa [Bio.copyToLog, State.modify, State.bwrite, hslot, hb'out, hne] using
        (hI.commits p _ hc).logged t b' htl hb'

/-- `install_trans` copies the block `tail` home. -/
theorem Inv.copyHome (hI : Inv start s) {tail : ℕ} {x y : BufId}
    (hc : s.commit = some (p, .install tail (.copy x y))) (hb : s.lh[tail]? = some b)
    (hx : Holds s p x (logSlot start tail)) (hy : Holds s p y b) :
    Inv start ((copyHome s x y).goto p (.install tail (.relse x y))) := by
  obtain ⟨htl, hbt⟩ := List.getElem?_eq_some_iff.mp hb
  have hdrop : s.lh.drop tail = b :: s.lh.drop (tail + 1) := by
    rw [List.drop_eq_getElem_cons htl, hbt]
  have hcore : Core (b :: s.lh.drop (tail + 1)) s := hdrop ▸ hI.core_commit hc
  have hnotin : b ∉ s.lh.drop (tail + 1) := by
    have hnodup := hI.nodup.sublist (List.drop_sublist tail s.lh)
    rw [hdrop] at hnodup
    exact (List.nodup_cons.mp hnodup).1
  obtain ⟨hdev, hslot⟩ := Buf.isFor_iff.mp hx.isFor
  have hlogged := (hI.commits p _ hc).logged
  have hdata : (s.buf x).data = s.current b := by
    rw [(hcore.ok x).data hdev ((hcore.ok x).held (by simp [hx.holder])), hslot]
    exact hlogged tail b htl hb
  refine hI.goto_write hc rfl rfl rfl (fun j => ?_) (hcore.copyHome hnotin hy.isFor hdata) rfl rfl
    (fun hkeep => IsLoop.ok (.inr rfl) hb ⟨hkeep x _ hx, hkeep y _ hy⟩) hlogged
  by_cases hj : j = y
  · subst hj
    simp [Bio.copyHome, State.bwrite]
  · simp [Bio.copyHome, State.bwrite, hj]

variable [DecidableEq P]

/-- `commit` calls `bget`. -/
theorem Inv.goto_bget (hI : Inv start s) (hc : s.commit = some (p, c)) (hawake : c.sleeps = none)
    (h : s.bget p b = some (i, s')) (hsleeps : c'.sleeps = some i) (hholds : c'.holds = c.holds)
    (hT : c'.toInstall s.lh = c.toInstall s.lh) (hn : c'.logged s.lh.length = c.logged s.lh.length)
    (hplace : s'.lh = s.lh → (∀ j b', Holds s p j b' → Holds s' p j b') → Sleeps s' p i b →
      c'.Ok start s' p) : Inv start (s'.goto p c') := by
  obtain ⟨-, -, hs, hh, hl⟩ := hI.commits p c hc
  have hnot (j : BufId) : p ∉ s.waits j := fun hj => by simpa [hawake] using hs j hj
  have hgot := State.bget_gotBuffer h
  obtain ⟨hcore, hfor, hmem⟩ := (hI.core_commit hc).bget hnot h
  refine hI.goto hc hgot.lh hgot.inside (hT ▸ hcore)
    (hplace hgot.lh (fun j b' hj => hgot.holds hI.core hj) ⟨hfor, hmem⟩) (fun j hj => ?_)
    (fun j hj => ?_) ?_
  · -- It sleeps for this buffer only.
    by_cases hji : j = i
    · rw [hji, hsleeps]
    · rw [hgot.waits, update_of_ne hji] at hj
      exact absurd hj (hnot j)
  · rw [hgot.holder] at hj
    exact hholds ▸ hh j hj
  · rw [hgot.current, hn]
    exact hl

/-- `acquiresleep` returns in `commit`. -/
theorem Inv.goto_lock (hI : Inv start s) (hc : s.commit = some (p, c))
    (hi : (s.buf i).holder = none) (hmem : p ∈ s.waits i) (hholds : c'.holds = c.holds ++ [i])
    (hT : c'.toInstall s.lh = c.toInstall s.lh) (hn : c'.logged s.lh.length = c.logged s.lh.length)
    (hplace : (∀ j b', Holds s p j b' → Holds (s.lock p i) p j b') →
      (∀ b', Sleeps s p i b' → Holds (s.lock p i) p i b') → c'.Ok start (s.lock p i) p) :
    Inv start ((s.lock p i).goto p c') := by
  obtain ⟨-, -, hs, hh, hl⟩ := hI.commits p c hc
  have hcore : Core (c'.toInstall s.lh) (s.lock p i) := hT ▸ (hI.core_commit hc).lock hmem hi
  refine hI.goto hc rfl rfl hcore
    (hplace (fun j b' hj => ?_) fun b' hb => ?_) (fun j hj => ?_) (fun j hj => ?_)
    (by rw [hn]; exact hl)
  · have hji : j ≠ i := by
      rintro rfl
      simpa [hi] using hj.holder
    exact ⟨by simpa [State.lock, hji] using hj.isFor, by simpa [State.lock, hji] using hj.holder⟩
  · exact ⟨by simpa [State.lock, Buf.isFor] using hb.isFor, by simp [State.lock]⟩
  · -- It slept for this buffer only.
    exfalso
    by_cases hji : j = i
    · simp [State.lock, hji] at hj
    · simp only [State.lock, update_of_ne hji] at hj
      have hsame := (hs j hj).symm.trans (hs i hmem)
      exact hji (Option.some.inj hsame)
  · rw [hholds]
    by_cases hji : j = i
    · simp [hji]
    · simp only [State.lock, update_of_ne hji] at hj
      exact List.mem_append_left _ (hh j hj)

/-- A step of `write_head`, where `place` are its places and `next` is the one after it. -/
theorem Inv.execHead (hI : Inv start s) {place : HeadPc → CommitPc} {next : CommitPc} {h : HeadPc}
    (hc : s.commit = some (p, place h)) (hok : h.Ok s p start)
    (hout : ∀ t, t < s.lh.length → logSlot start t ≠ start)
    (hplace : place = .writeHead ∧ next = .install 0 .getLog ∨ place = .clear ∧ next = .done)
    (hstep : execHead s p start place next h = some s') (halive : s'.panicked = none) :
    Inv start s' := by
  have hsleeps (h' : HeadPc) : (place h').sleeps = h'.sleeps := by
    rcases hplace with ⟨rfl, -⟩ | ⟨rfl, -⟩ <;> rfl
  have hholds (h' : HeadPc) : (place h').holds = h'.holds := by
    rcases hplace with ⟨rfl, -⟩ | ⟨rfl, -⟩ <;> rfl
  have hT (h' : HeadPc) : (place h').toInstall s.lh = s.lh := by
    rcases hplace with ⟨rfl, -⟩ | ⟨rfl, -⟩ <;> rfl
  have hn (h' : HeadPc) : (place h').logged s.lh.length = (place h).logged s.lh.length := by
    rcases hplace with ⟨rfl, -⟩ | ⟨rfl, -⟩ <;> rfl
  have hat {t : State P} {l : HeadPc} (ht : l.Ok t p start) : (place l).Ok start t p := by
    rcases hplace with ⟨rfl, -⟩ | ⟨rfl, -⟩ <;> exact ht
  have hcore : Core s.lh s := hT h ▸ hI.core_commit hc
  cases h with
  | get =>
    simp only [Bio.execHead] at hstep
    cases hget : s.bget p start with
    | none =>
      rw [hget] at hstep
      rw [← Option.some.inj hstep] at halive
      simp at halive
    | some x =>
      obtain ⟨i, t⟩ := x
      rw [hget] at hstep
      obtain rfl := Option.some.inj hstep
      exact hI.goto_bget hc (hsleeps _) hget (hsleeps _) (by rw [hholds, hholds]; rfl)
        (by rw [hT, hT]) (hn _) fun _ _ hsl => hat hsl
  | lock x =>
    simp only [Bio.execHead, Option.ite_none_right_eq_some, Option.some.injEq] at hstep
    obtain ⟨hx, rfl⟩ := hstep
    exact hI.goto_lock hc hx (Sleeps.mem hok) (by rw [hholds, hholds]; rfl) (by rw [hT, hT]) (hn _)
      fun _ hsl => hat (l := .write x) (hsl start hok)
  | write x =>
    simp only [Bio.execHead, Option.some.injEq] at hstep
    obtain rfl := hstep
    have hx : Holds s p x start := hok
    have hblockno := (Buf.isFor_iff.mp hx.isFor).2
    refine hI.goto_write hc rfl rfl rfl (fun j => ?_) ?_ (by rw [hsleeps, hsleeps]; rfl)
      (by rw [hholds, hholds]; rfl) (fun hkeep => hat (l := .relse x) (hkeep x start hx))
      fun t b ht hb => ?_
    · by_cases hj : j = x
      · subst hj
        simp [State.modify, State.bwrite]
      · simp [State.modify, State.bwrite, hj]
    · rw [hT]
      exact hcore.modify_bwrite (by simp [hx.holder]) _
    · -- The header is neither a log slot nor a home block.
      have hne := hout t (List.getElem?_eq_some_iff.mp hb).1
      have hne' := (hI.home b (List.mem_of_getElem? hb)).1
      rw [hn] at ht
      simpa [State.modify, State.bwrite, hblockno, hne, hne'] using
        (hI.commits p _ hc).logged t b ht hb
  | relse x =>
    simp only [Bio.execHead, Option.some.injEq] at hstep
    obtain rfl := hstep
    have hx : Holds s p x start := hok
    refine hI.goto_brelse hc hx.holder (by rw [hsleeps]; rfl) (fun j hj hne => ?_) ?_ ?_ fun _ => ?_
    · rw [hholds] at hj
      exact absurd (List.mem_singleton.mp hj) hne
    · rw [hT]
      rcases hplace with ⟨-, rfl⟩ | ⟨-, rfl⟩
      · rfl
      · rfl
    · rcases hplace with ⟨rfl, rfl⟩ | ⟨rfl, rfl⟩
      · rfl
      · rfl
    · rcases hplace with ⟨-, rfl⟩ | ⟨-, rfl⟩
      · exact ⟨fun _ _ => trivial, fun _ => rfl⟩
      · trivial

/-- A step of a loop, where `next` is the first place of its next round. What the copy itself does
is given by `hcopy`. -/
theorem Inv.execCopy (hI : Inv start s) {tail : ℕ} {place : CopyPc → CommitPc} {next : CommitPc}
    {copy : State P → BufId → BufId → State P} {logFirst : Bool} {c : CopyPc}
    (hloop : IsLoop tail place) (hc : s.commit = some (p, place c)) (hb : s.lh[tail]? = some b)
    (hok : c.Ok s p (logSlot start tail) b)
    (hcopy : ∀ x y, c = .copy x y → Inv start ((copy s x y).goto p (place (.relse x y))))
    (hnext : next.holds = [] ∧ next.sleeps = none ∧ (∀ t : State P, next.Ok start t p) ∧
      ∀ z, next.toInstall s.lh = (place (.relseLast z)).toInstall s.lh ∧
        next.logged s.lh.length = (place (.relseLast z)).logged s.lh.length)
    (hstep : execCopy s p (logSlot start tail) b copy logFirst place next c = some s')
    (halive : s'.panicked = none) : Inv start s' := by
  have hroom : tail < LOGBLOCKS := lt_of_lt_of_le (List.getElem?_eq_some_iff.mp hb).1 hI.room
  have hne : b ≠ logSlot start tail := (hI.home b (List.mem_of_getElem? hb)).2 tail hroom
  cases c with
  | getLog =>
    simp only [Bio.execCopy] at hstep
    cases hget : s.bget p (logSlot start tail) with
    | none =>
      rw [hget] at hstep
      rw [← Option.some.inj hstep] at halive
      simp at halive
    | some x =>
      obtain ⟨i, t⟩ := x
      rw [hget] at hstep
      obtain rfl := Option.some.inj hstep
      exact hI.goto_bget hc (hloop.sleeps _) hget (hloop.sleeps _)
        (by rw [hloop.holds, hloop.holds]; rfl) (hloop.toInstall (by rfl) _)
        (hloop.logged (by rfl) _)
        fun hlh _ hsl => hloop.ok (by rw [hlh]; exact hb) hsl
  | lockLog x =>
    simp only [Bio.execCopy, Option.ite_none_right_eq_some, Option.some.injEq] at hstep
    obtain ⟨hx, rfl⟩ := hstep
    exact hI.goto_lock hc hx (Sleeps.mem hok) (by rw [hloop.holds, hloop.holds]; rfl)
      (hloop.toInstall (by rfl) _) (hloop.logged (by rfl) _)
      fun _ hsl => hloop.ok (c := .getHome x) hb (hsl _ hok)
  | getHome x =>
    simp only [Bio.execCopy] at hstep
    cases hget : s.bget p b with
    | none =>
      rw [hget] at hstep
      rw [← Option.some.inj hstep] at halive
      simp at halive
    | some y =>
      obtain ⟨y, t⟩ := y
      rw [hget] at hstep
      obtain rfl := Option.some.inj hstep
      exact hI.goto_bget hc (hloop.sleeps _) hget (hloop.sleeps _)
        (by rw [hloop.holds, hloop.holds]; rfl) (hloop.toInstall (by rfl) _)
        (hloop.logged (by rfl) _)
        fun hlh hkeep hsl => hloop.ok (c := .lockHome x y) (by rw [hlh]; exact hb)
          ⟨hkeep x _ hok, hsl⟩
  | lockHome x y =>
    simp only [Bio.execCopy, Option.ite_none_right_eq_some, Option.some.injEq] at hstep
    obtain ⟨hy, rfl⟩ := hstep
    exact hI.goto_lock hc hy hok.2.mem (by rw [hloop.holds, hloop.holds]; rfl)
      (hloop.toInstall (by rfl) _) (hloop.logged (by rfl) _)
      fun hkeep hsl => hloop.ok (c := .copy x y) hb ⟨hkeep x _ hok.1, hsl _ hok.2⟩
  | copy x y =>
    simp only [Bio.execCopy, Option.some.injEq] at hstep
    exact hstep ▸ hcopy x y rfl
  | relse x y =>
    -- The two buffers are those of different blocks.
    have hxy : x ≠ y := by
      rintro rfl
      have hx := (Buf.isFor_iff.mp hok.1.isFor).2
      have hy := (Buf.isFor_iff.mp hok.2.isFor).2
      exact hne (hy.symm.trans hx)
    have hmem (j : BufId) (hj : j ∈ (place (.relse x y)).holds) : j = x ∨ j = y := by
      rw [hloop.holds] at hj
      simpa [CopyPc.holds] using hj
    cases logFirst with
    | true =>
      simp only [Bio.execCopy, if_true, Option.some.injEq] at hstep
      obtain rfl := hstep
      refine hI.goto_brelse hc hok.1.holder (hloop.sleeps _) (fun j hj hjx => ?_)
        (hloop.toInstall (by rfl) _) (hloop.logged (by rfl) _)
        fun hkeep => hloop.ok (c := .relseLast y) hb ⟨b, hkeep y b hxy.symm hok.2⟩
      rw [hloop.holds, (hmem j hj).resolve_left hjx]
      exact List.mem_singleton_self y
    | false =>
      simp only [Bio.execCopy, Bool.false_eq_true, if_false, Option.some.injEq] at hstep
      obtain rfl := hstep
      refine hI.goto_brelse hc hok.2.holder (hloop.sleeps _) (fun j hj hjy => ?_)
        (hloop.toInstall (by rfl) _) (hloop.logged (by rfl) _)
        fun hkeep => hloop.ok (c := .relseLast x) hb ⟨_, hkeep x _ hxy hok.1⟩
      rw [hloop.holds, (hmem j hj).resolve_right hjy]
      exact List.mem_singleton_self x
  | relseLast z =>
    simp only [Bio.execCopy, Option.some.injEq] at hstep
    obtain rfl := hstep
    obtain ⟨b', hz⟩ := hok
    obtain ⟨hholds, -, hplace, hsame⟩ := hnext
    refine hI.goto_brelse hc hz.holder (hloop.sleeps _) (fun j hj hjz => ?_) (hsame z).1 (hsame z).2
      fun _ => hplace _
    rw [hloop.holds] at hj
    exact absurd (List.mem_singleton.mp hj) hjz

/-- A step of `commit`. -/
theorem Inv.execCommit (hstart : start.toNat + LOGBLOCKS < 2 ^ 32) (hI : Inv start s)
    (hc : s.commit = some (p, c)) (h : execCommit start s p c = some s')
    (halive : s'.panicked = none) : Inv start s' := by
  obtain ⟨hops, hok, hsleeps, hholds, hlogged⟩ := hI.commits p c hc
  have hcore := hI.core_commit hc
  have hout (t : ℕ) (ht : t < s.lh.length) : logSlot start t ≠ start :=
    logSlot_ne_start hstart t (lt_of_lt_of_le ht hI.room)
  cases c with
  | writeLog tail c =>
    simp only [Bio.execCommit] at h
    cases hb : s.lh[tail]? with
    | some b =>
      rw [hb] at h
      refine hI.execCopy (.inl rfl) hc hb (hok.1 b hb) (fun x y hxy => ?_) ?_ h halive
      · subst hxy
        exact hI.copyToLog hstart hc hb (hok.1 b hb).1 (hok.1 b hb).2
      · exact ⟨rfl, rfl, fun _ => ⟨fun _ _ => trivial, fun _ => rfl⟩, fun _ => ⟨rfl, rfl⟩⟩
    | none =>
      -- All blocks are in the log.
      rw [hb] at h
      obtain rfl := Option.some.inj h
      obtain rfl := hok.2 hb
      refine hI.goto hc rfl rfl hcore trivial hsleeps hholds fun t b ht hb' => hlogged t b ?_ hb'
      exact lt_of_lt_of_le ht (List.getElem?_eq_none_iff.mp hb)
  | writeHead h' => exact hI.execHead hc hok hout (.inl ⟨rfl, rfl⟩) h halive
  | install tail c =>
    simp only [Bio.execCommit] at h
    cases hb : s.lh[tail]? with
    | some b =>
      rw [hb] at h
      refine hI.execCopy (.inr rfl) hc hb (hok.1 b hb) (fun x y hxy => ?_) ?_ h halive
      · subst hxy
        exact hI.copyHome hc hb (hok.1 b hb).1 (hok.1 b hb).2
      · exact ⟨rfl, rfl, fun _ => ⟨fun _ _ => trivial, fun _ => rfl⟩, fun _ => ⟨rfl, rfl⟩⟩
    | none =>
      -- All blocks are at home.
      rw [hb] at h
      obtain rfl := Option.some.inj h
      obtain rfl := hok.2 hb
      have hnil : s.lh.drop tail = [] := List.drop_eq_nil_iff.mpr (List.getElem?_eq_none_iff.mp hb)
      have hcore' : Core [] s := hnil ▸ hcore
      refine ⟨hcore'.of_eq rfl rfl rfl rfl rfl rfl rfl rfl, List.nodup_nil, Nat.zero_le _,
        fun b hb => absurd hb List.not_mem_nil, fun q d hd => ?_⟩
      obtain ⟨rfl, rfl⟩ : p = q ∧ CommitPc.clear .get = d := by simpa using hd
      exact ⟨hops, trivial, hsleeps, hholds, fun t b ht => absurd ht (Nat.not_lt_zero t)⟩
  | clear h' => exact hI.execHead hc hok hout (.inr ⟨rfl, rfl⟩) h halive
  | done =>
    obtain rfl := Option.some.inj h
    exact .of_commit_none rfl (hcore.of_eq rfl rfl rfl rfl rfl rfl rfl rfl) hI.nodup hI.room hI.home

/-- Each step that does not stop the system keeps the invariant. -/
theorem Inv.step (hstart : start.toNat + LOGBLOCKS < 2 ^ 32) {a : Act P} (hI : Inv start s)
    (hrules : LogRules start s a) (h : step start s a = some s') (halive : s'.panicked = none) :
    Inv start s' := by
  by_cases ha : a = .commit
  · subst ha
    unfold Bio.step at h
    split_ifs at h
    cases hc : s.commit with
    | none => simp [hc] at h
    | some x =>
      simp only [hc] at h
      exact hI.execCommit hstart hc h halive
  · exact hI.client hrules ha h halive

/-- A step is taken only in a state in which the system has not stopped. -/
theorem panicked_of_step {a : Act P} (h : step start s a = some s') : s.panicked = none := by
  unfold step at h
  split_ifs at h with hpan
  exact not_not.mp hpan

/-- The invariant holds in every state reached in which the system has not stopped. -/
theorem inv_of_reachVia (hstart : start.toNat + LOGBLOCKS < 2 ^ 32) {d : Disk}
    (h : Lib.ReachVia (step start) (LogRules start) (State.start d : State P) s)
    (halive : s.panicked = none) : Inv start s :=
  h.invariant (I := fun s => s.panicked = none → Inv start s) (fun _ => inv_start start d)
    (fun _ _ _ _ hI hrules hstep halive =>
      (hI (panicked_of_step hstep)).step hstart hrules hstep halive) halive

end Commit

end SustainableXv6.Bio
