import SustainableXv6.Bio.BufferList
import SustainableXv6.Bio.Core
import SustainableXv6.Log.Crash

/-!
# The cache and `commit`

`Inv` puts the invariant of the cache together with what is known of `commit`, place by place: which
buffers it holds and sleeps for, how many log blocks have the contents of their home blocks, and
that no operation runs. The steps of the processes outside `commit` keep it because they leave the
buffers that `commit` has (`Frame`), and the steps of `commit` because each of them is an operation
on buffers (`CommitStep`).
-/

namespace SustainableXv6.Bio

open Bcache (Section)

variable {P : Type}

/-! ## Places -/

/-- The process `p` holds the buffer `i` of the block `b`. -/
structure Holds (s : State P) (p : P) (i : BufId) (b : BlockNo) : Prop where
  isFor : (s.buf i).isFor b
  holder : (s.buf i).holder = some p

/-- The process `p` sleeps for the buffer `i` of the block `b`. -/
structure Sleeps (s : State P) (p : P) (i : BufId) (b : BlockNo) : Prop where
  isFor : (s.buf i).isFor b
  mem : p ∈ s.waits i

/-- Whether a loop has copied its block. -/
def CopyPc.copied : CopyPc → Bool
  | .relse _ _ | .relseLast _ => true
  | .getLog | .lockLog _ | .getHome _ | .lockHome _ _ | .copy _ _ => false

/-- The buffers that a loop holds. -/
def CopyPc.holds : CopyPc → List BufId
  | .getLog | .lockLog _ => []
  | .getHome x | .lockHome x _ | .relseLast x => [x]
  | .copy x y | .relse x y => [x, y]

/-- The buffer that a loop sleeps for. -/
def CopyPc.sleeps : CopyPc → Option BufId
  | .lockLog x | .lockHome _ x => some x
  | .getLog | .getHome _ | .copy _ _ | .relse _ _ | .relseLast _ => none

/-- The buffers of a loop are those of the blocks `slot` and `home`. -/
def CopyPc.Ok (s : State P) (p : P) (slot home : BlockNo) : CopyPc → Prop
  | .getLog => True
  | .lockLog x => Sleeps s p x slot
  | .getHome x => Holds s p x slot
  | .lockHome x y => Holds s p x slot ∧ Sleeps s p y home
  | .copy x y | .relse x y => Holds s p x slot ∧ Holds s p y home
  | .relseLast z => ∃ b, Holds s p z b

/-- The buffers that `write_head` holds. -/
def HeadPc.holds : HeadPc → List BufId
  | .get | .lock _ => []
  | .write x | .relse x => [x]

/-- The buffer that `write_head` sleeps for. -/
def HeadPc.sleeps : HeadPc → Option BufId
  | .lock x => some x
  | .get | .write _ | .relse _ => none

/-- The buffer of `write_head` is the one of the header. -/
def HeadPc.Ok (s : State P) (p : P) (start : BlockNo) : HeadPc → Prop
  | .get => True
  | .lock x => Sleeps s p x start
  | .write x | .relse x => Holds s p x start

/-- The buffers that `commit` holds. -/
def CommitPc.holds : CommitPc → List BufId
  | .writeLog _ c | .install _ c => c.holds
  | .writeHead h | .clear h => h.holds
  | .done => []

/-- The buffer that `commit` sleeps for. -/
def CommitPc.sleeps : CommitPc → Option BufId
  | .writeLog _ c | .install _ c => c.sleeps
  | .writeHead h | .clear h => h.sleeps
  | .done => none

/-- The buffers of `commit` are those of its place. At the end of a loop it has none. -/
def CommitPc.Ok (start : BlockNo) (s : State P) (p : P) : CommitPc → Prop
  | .writeLog tail c | .install tail c =>
    (∀ b, s.lh[tail]? = some b → c.Ok s p (logSlot start tail) b) ∧
      (s.lh[tail]? = none → c = .getLog)
  | .writeHead h | .clear h => h.Ok s p start
  | .done => True

/-- How many of the `n` log blocks have the contents of their home blocks. -/
def CommitPc.logged (n : ℕ) : CommitPc → ℕ
  | .writeLog tail c => if c.copied then tail + 1 else tail
  | .writeHead _ | .install _ _ => n
  | .clear _ | .done => 0

/-- The blocks of the log `lh` that have not been copied home. -/
def CommitPc.toInstall (lh : List BlockNo) : CommitPc → List BlockNo
  | .install tail c => lh.drop (if c.copied then tail + 1 else tail)
  | .writeLog _ _ | .writeHead _ | .clear _ | .done => lh

/-- The logged blocks that have not been copied home. -/
def State.toInstall (s : State P) : List BlockNo :=
  match s.commit with
  | some (_, c) => c.toInstall s.lh
  | none => s.lh

/-! ## The invariant -/

/-- What is known of `commit`, at the place `c` of the process `p`. -/
structure Commits (start : BlockNo) (s : State P) (p : P) (c : CommitPc) : Prop where
  ops : s.inside = ∅
  place : c.Ok start s p
  sleeps : ∀ j, p ∈ s.waits j → c.sleeps = some j
  holds : ∀ j, (s.buf j).holder = some p → j ∈ c.holds
  logged : ∀ t b, t < c.logged s.lh.length → s.lh[t]? = some b →
    s.current (logSlot start t) = s.current b

/-- The invariant of the cache and the log. -/
structure Inv (start : BlockNo) (s : State P) : Prop where
  core : Core s.toInstall s
  nodup : s.lh.Nodup
  room : s.lh.length ≤ LOGBLOCKS
  home : ∀ b ∈ s.lh, OutsideLog start b
  commits : ∀ p c, s.commit = some (p, c) → Commits start s p c

/-- The first state. -/
theorem inv_start (start : BlockNo) (d : Disk) : Inv start (State.start d : State P) where
  core := core_start d
  nodup := List.nodup_nil
  room := Nat.zero_le _
  home := fun b h => absurd h List.not_mem_nil
  commits := fun p c h => by simp [State.start] at h

/-! ## The processes outside `commit` -/

/-- The buffers that the process `p` has stay as they are. -/
structure Frame (p : P) (s s' : State P) : Prop where
  holds : ∀ i b, Holds s p i b → Holds s' p i b
  sleeps : ∀ i b, Sleeps s p i b → Sleeps s' p i b
  waits : ∀ i, p ∈ s'.waits i → p ∈ s.waits i
  holder : ∀ i, (s'.buf i).holder = some p → (s.buf i).holder = some p

section Frame

variable {s s' : State P} {p : P}

/-- The buffers of a loop stay. -/
theorem Frame.copyPc (h : Frame p s s') {slot home : BlockNo} {c : CopyPc}
    (hc : c.Ok s p slot home) : c.Ok s' p slot home := by
  cases c with
  | getLog => trivial
  | lockLog x => exact h.sleeps x slot hc
  | getHome x => exact h.holds x slot hc
  | lockHome x y => exact ⟨h.holds x slot hc.1, h.sleeps y home hc.2⟩
  | copy x y | relse x y => exact ⟨h.holds x slot hc.1, h.holds y home hc.2⟩
  | relseLast z =>
    obtain ⟨b, hb⟩ := hc
    exact ⟨b, h.holds z b hb⟩

/-- The buffer of `write_head` stays. -/
theorem Frame.headPc (h : Frame p s s') {start : BlockNo} {c : HeadPc} (hc : c.Ok s p start) :
    c.Ok s' p start := by
  cases c with
  | get => trivial
  | lock x => exact h.sleeps x start hc
  | write x | relse x => exact h.holds x start hc

/-- The buffers of `commit` stay. -/
theorem Frame.commitPc (h : Frame p s s') {start : BlockNo} {c : CommitPc} (hlh : s'.lh = s.lh)
    (hc : c.Ok start s p) : c.Ok start s' p := by
  cases c with
  | writeLog tail c | install tail c =>
    exact ⟨fun b hb => h.copyPc (hc.1 b (hlh ▸ hb)), fun hb => hc.2 (hlh ▸ hb)⟩
  | writeHead c | clear c => exact h.headPc hc
  | done => trivial

/-- A step of a process outside `commit`. -/
theorem Inv.of_frame {start : BlockNo} (hI : Inv start s) (hcore : Core s.toInstall s')
    (hlh : s'.lh = s.lh) (hinside : s'.inside = s.inside) (hcommit : s'.commit = s.commit)
    (hframe : ∀ p c, s.commit = some (p, c) → Frame p s s')
    (hcurrent : ∀ b, s.commit ≠ none → b ∈ s.lh ∨ ¬ OutsideLog start b →
      s'.current b = s.current b) : Inv start s' := by
  have hT : s'.toInstall = s.toInstall := by rw [State.toInstall, State.toInstall, hcommit, hlh]
  refine ⟨by rwa [hT], hlh ▸ hI.nodup, hlh ▸ hI.room, hlh ▸ hI.home, fun p c h => ?_⟩
  rw [hcommit] at h
  obtain ⟨hops, hplace, hsleeps, hholds, hlogged⟩ := hI.commits p c h
  have hf := hframe p c h
  refine ⟨hinside ▸ hops, hf.commitPc hlh hplace, fun j hj => hsleeps j (hf.waits j hj),
    fun j hj => hholds j (hf.holder j hj), fun t b ht hb => ?_⟩
  rw [hlh] at ht hb
  have hbl : b ∈ s.lh := List.mem_of_getElem? hb
  have htl : t < LOGBLOCKS := lt_of_lt_of_le (List.getElem?_eq_some_iff.mp hb).1 hI.room
  have hne : s.commit ≠ none := by simp [h]
  rw [hcurrent b hne (.inl hbl), hcurrent _ hne (.inr fun hout => hout.2 t htl rfl)]
  exact hlogged t b ht hb

/-- An operation on the buffer `i` that leaves it to the process `p` if `p` has it. -/
theorem Frame.of_buf {i : BufId} (hbuf : ∀ j, j ≠ i → s'.buf j = s.buf j)
    (hwaits : ∀ j, j ≠ i → s'.waits j = s.waits j)
    (hholder : (s'.buf i).holder = some p ↔ (s.buf i).holder = some p)
    (hmem : p ∈ s'.waits i ↔ p ∈ s.waits i)
    (hfor : (s.buf i).holder = some p ∨ p ∈ s.waits i →
      ∀ b, (s'.buf i).isFor b = (s.buf i).isFor b) : Frame p s s' := by
  refine ⟨fun j b h => ?_, fun j b h => ?_, fun j h => ?_, fun j h => ?_⟩
  · by_cases hj : j = i
    · subst hj
      exact ⟨hfor (.inl h.holder) b ▸ h.isFor, hholder.mpr h.holder⟩
    · exact ⟨hbuf j hj ▸ h.isFor, hbuf j hj ▸ h.holder⟩
  · by_cases hj : j = i
    · subst hj
      exact ⟨hfor (.inr h.mem) b ▸ h.isFor, hmem.mpr h.mem⟩
    · exact ⟨hbuf j hj ▸ h.isFor, hwaits j hj ▸ h.mem⟩
  · by_cases hj : j = i
    · subst hj
      exact hmem.mp h
    · exact hwaits j hj ▸ h
  · by_cases hj : j = i
    · subst hj
      exact hholder.mp h
    · exact hbuf j hj ▸ h

end Frame

/-! ## `bget` -/

section Bget

variable [DecidableEq P] {s s' : State P} {p q : P} {i : BufId} {b : BlockNo} {T : List BlockNo}

/-- What `bget` leaves, and which process it puts to sleep. -/
structure GotBuffer (s : State P) (p : P) (i : BufId) (s' : State P) : Prop where
  lh : s'.lh = s.lh
  inside : s'.inside = s.inside
  commit : s'.commit = s.commit
  current : s'.current = s.current
  panicked : s'.panicked = s.panicked
  waits : s'.waits = Function.update s.waits i (insert p (s.waits i))
  holder : ∀ j, (s'.buf j).holder = (s.buf j).holder
  buf : ∀ j, j ≠ i → s'.buf j = s.buf j
  isFor : (s.buf i).refcnt ≠ 0 → ∀ b, (s'.buf i).isFor b = (s.buf i).isFor b

theorem State.bget_gotBuffer (h : s.bget p b = some (i, s')) : GotBuffer s p i s' := by
  unfold State.bget at h
  cases hc : s.cached b with
  | some k =>
    simp only [hc, Option.some.injEq, Prod.mk.injEq] at h
    obtain ⟨rfl, rfl⟩ := h
    exact ⟨rfl, rfl, rfl, rfl, rfl, rfl, holder_update rfl, fun j hj => by simp [hj],
      fun _ b => by simp [Buf.isFor]⟩
  | none =>
    cases hu : s.unused with
    | none => simp [hc, hu] at h
    | some k =>
      simp only [hc, hu, Option.some.injEq, Prod.mk.injEq] at h
      obtain ⟨rfl, rfl⟩ := h
      have hk : (s.buf k).refcnt = 0 := by simpa using List.find?_some hu
      exact ⟨rfl, rfl, rfl, rfl, rfl, rfl, holder_update rfl, fun j hj => by simp [hj],
        fun h => absurd hk h⟩

/-- `bget` leaves the buffers of the other processes. -/
theorem GotBuffer.frame (h : GotBuffer s p i s') (hcore : Core T s) (hq : q ≠ p) :
    Frame q s s' := by
  refine .of_buf h.buf (fun j hj => by simp [h.waits, hj]) (by rw [h.holder])
    (by simp [h.waits, hq]) fun hi => h.isFor fun h0 => ?_
  obtain ⟨hwaits, hholder, -⟩ := (hcore.ok i).unused h0
  simp [hwaits, hholder] at hi

/-- `bget` leaves the buffers that are held. -/
theorem GotBuffer.holds (h : GotBuffer s p i s') (hcore : Core T s) {j : BufId} {b : BlockNo}
    (hj : Holds s q j b) : Holds s' q j b := by
  refine ⟨?_, by rw [h.holder]; exact hj.holder⟩
  by_cases hji : j = i
  · subst hji
    rw [h.isFor fun h0 => ?_]
    · exact hj.isFor
    · have := ((hcore.ok j).unused h0).2.1
      simp [hj.holder] at this
  · rw [h.buf j hji]
    exact hj.isFor

end Bget

/-! ## The steps of `commit` -/

/-- The section that a copying loop executes at a place. `installs` tells `install_trans`, which
calls `bunpin` and releases the buffer of the log block first, from `write_log`. -/
def CopyPc.sectionOf (slot home : BlockNo) (installs : Bool) : CopyPc → Option Section
  | .getLog => some (.bget ROOTDEV slot)
  | .getHome _ => some (.bget ROOTDEV home)
  | .copy _ y => if installs then some (.bunpin y) else none
  | .relse x y => some (.brelse (if installs then x else y))
  | .relseLast z => some (.brelse z)
  | .lockLog _ | .lockHome _ _ => none

/-- The section that `write_head` executes at a place. -/
def HeadPc.sectionOf (start : BlockNo) : HeadPc → Option Section
  | .get => some (.bget ROOTDEV start)
  | .relse x => some (.brelse x)
  | .lock _ | .write _ => none

/-- The section that `commit` executes at a place, where `lh` are the blocks of the log. -/
def CommitPc.sectionOf (start : BlockNo) (lh : List BlockNo) : CommitPc → Option Section
  | .writeLog tail c => lh[tail]?.bind fun b => c.sectionOf (logSlot start tail) b false
  | .install tail c => lh[tail]?.bind fun b => c.sectionOf (logSlot start tail) b true
  | .writeHead h | .clear h => h.sectionOf start
  | .done => none

variable [DecidableEq P] {start : BlockNo} {s s' : State P} {p : P}

/-- A step of `commit` is one operation on buffers, with its section, or it only changes the place,
also with the log cleared. -/
inductive CommitStep (s : State P) (p : P) : Option Section → State P → Prop
  | full {b : BlockNo} : s.bget p b = none →
      CommitStep s p (some (.bget ROOTDEV b)) (s.panic .noBuffers)
  | bget {b : BlockNo} {i : BufId} {t : State P} {c : CommitPc} : s.bget p b = some (i, t) →
      CommitStep s p (some (.bget ROOTDEV b)) (t.goto p c)
  | lock {i : BufId} {c : CommitPc} : p ∈ s.waits i → CommitStep s p none ((s.lock p i).goto p c)
  | bwrite {i : BufId} {v : Block} {c : CommitPc} :
      CommitStep s p none (((s.modify i v).bwrite i).goto p c)
  | copyHome {x y : BufId} {c : CommitPc} : (s.buf y).holder = some p →
      CommitStep s p (some (.bunpin y)) ((copyHome s x y).goto p c)
  | brelse {i : BufId} {c : CommitPc} : (s.buf i).holder = some p →
      CommitStep s p (some (.brelse i)) ((s.brelse i).goto p c)
  | goto {l : List BlockNo} {c : CommitPc} : l.length ≤ s.lh.length →
      CommitStep s p none ({ s with lh := l }.goto p c)
  | done : CommitStep s p none { s with commit := none }

/-- A step of a loop, where `hcopy` is the copy. -/
theorem commitStep_execCopy {slot home : BlockNo} {copy : State P → BufId → BufId → State P}
    {installs : Bool} {place : CopyPc → CommitPc} {next : CommitPc} {c : CopyPc}
    (hok : c.Ok s p slot home)
    (hcopy : ∀ x y, (s.buf y).holder = some p → CommitStep s p
      (if installs then some (.bunpin y) else none) ((copy s x y).goto p (place (.relse x y))))
    (h : execCopy s p slot home copy installs place next c = some s') :
    CommitStep s p (c.sectionOf slot home installs) s' := by
  cases c with
  | getLog | getHome x =>
    rw [execCopy] at h
    split at h
    · exact Option.some.inj h ▸ .bget ‹_›
    · exact Option.some.inj h ▸ .full ‹_›
  | lockLog x =>
    simp only [execCopy, Option.ite_none_right_eq_some, Option.some.injEq] at h
    exact h.2 ▸ .lock (Sleeps.mem hok)
  | lockHome x y =>
    simp only [execCopy, Option.ite_none_right_eq_some, Option.some.injEq] at h
    exact h.2 ▸ .lock hok.2.mem
  | copy x y => exact Option.some.inj h ▸ hcopy x y hok.2.holder
  | relse x y =>
    cases installs with
    | false => exact Option.some.inj h ▸ .brelse hok.2.holder
    | true => exact Option.some.inj h ▸ .brelse hok.1.holder
  | relseLast z =>
    obtain ⟨b, hz⟩ := hok
    exact Option.some.inj h ▸ .brelse hz.holder

/-- A step of `write_head`. -/
theorem commitStep_execHead {place : HeadPc → CommitPc} {next : CommitPc} {c : HeadPc}
    (hok : c.Ok s p start) (h : execHead s p start place next c = some s') :
    CommitStep s p (c.sectionOf start) s' := by
  cases c with
  | get =>
    rw [execHead] at h
    split at h
    · exact Option.some.inj h ▸ .bget ‹_›
    · exact Option.some.inj h ▸ .full ‹_›
  | lock x =>
    simp only [execHead, Option.ite_none_right_eq_some, Option.some.injEq] at h
    exact h.2 ▸ .lock (Sleeps.mem hok)
  | write x => exact Option.some.inj h ▸ .bwrite
  | relse x => exact Option.some.inj h ▸ .brelse (Holds.holder hok)

/-- What `commit` can do at a place that has its buffers. -/
theorem commitStep_execCommit {c : CommitPc} (hok : c.Ok start s p)
    (h : execCommit start s p c = some s') : CommitStep s p (c.sectionOf start s.lh) s' := by
  cases c with
  | writeLog tail c =>
    rw [CommitPc.sectionOf]
    cases hb : s.lh[tail]? with
    | some b =>
      simp only [execCommit, hb] at h
      exact commitStep_execCopy (hok.1 b hb) (fun _ _ _ => .bwrite) h
    | none =>
      simp only [execCommit, hb] at h
      exact Option.some.inj h ▸ .goto (l := s.lh) le_rfl
  | install tail c =>
    rw [CommitPc.sectionOf]
    cases hb : s.lh[tail]? with
    | some b =>
      simp only [execCommit, hb] at h
      exact commitStep_execCopy (hok.1 b hb) (fun _ _ hy => .copyHome hy) h
    | none =>
      simp only [execCommit, hb] at h
      exact Option.some.inj h ▸ .goto (Nat.zero_le _)
  | writeHead c | clear c => exact commitStep_execHead hok h
  | done => exact Option.some.inj h ▸ .done

end SustainableXv6.Bio
