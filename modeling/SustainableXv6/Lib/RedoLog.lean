import Mathlib

/-!
# A redo log

A disk `A → V` has a header block, a number of log slots, and home blocks (`Layout`). A transaction
is written to the slots first, with the addresses of its home blocks in the header, and its blocks
are then copied home. `Recoverable L d target` says that replaying the log of the disk `d` makes the
home blocks those of `target`: the slots hold what `target` has at the addresses in the header, and
every other home block is that of `target` already.

Each kind of write that a transaction makes keeps its disk recoverable: a write to a slot while the
header is empty, the write of the header, which changes the target at once (`Recoverable.commit`),
the copy of a slot home (`Recoverable.install`), and the write of an empty header after the last
copy (`Recoverable.clear`). So the disk is recoverable at any point between two writes, and during
the replay as well.
-/

namespace SustainableXv6.Lib.RedoLog

open Function

/-- Where a log keeps its header and its slots, and how the header names the home blocks. -/
structure Layout (A V : Type*) where
  /-- The header block. -/
  head : A
  /-- The log slots. -/
  slot : ℕ → A
  /-- The number of slots. -/
  size : ℕ
  /-- The addresses that a header holds. -/
  decode : V → List A
  slot_ne_head : ∀ i, i < size → slot i ≠ head
  slot_inj : ∀ i j, i < size → j < size → slot i = slot j → i = j

variable {A V : Type*} {L : Layout A V} {d target target' : A → V}

namespace Layout

/-- The addresses in the header of a disk. -/
def header (L : Layout A V) (d : A → V) : List A := L.decode (d L.head)

/-- A block outside the log. -/
def IsHome (L : Layout A V) (a : A) : Prop := a ≠ L.head ∧ ∀ i, i < L.size → a ≠ L.slot i

end Layout

/-- Replaying the log of `d` makes the home blocks those of `target`. -/
structure Recoverable (L : Layout A V) (d target : A → V) : Prop where
  length : (L.header d).length ≤ L.size
  home : ∀ a ∈ L.header d, L.IsHome a
  slot : ∀ i (hi : i < (L.header d).length), d (L.slot i) = target (L.header d)[i]
  rest : ∀ a, L.IsHome a → a ∉ L.header d → d a = target a

/-- The first `n` slots hold what `target` has at the addresses `l`. -/
def Logged (L : Layout A V) (d target : A → V) (l : List A) (n : ℕ) : Prop :=
  ∀ i (hi : i < l.length), i < n → d (L.slot i) = target l[i]

/-- The first `n` blocks of the log have been copied home. -/
def Installed (L : Layout A V) (d target : A → V) (n : ℕ) : Prop :=
  ∀ i (hi : i < (L.header d).length), i < n → d (L.header d)[i] = target (L.header d)[i]

/-- If the header is empty, the home blocks are those of the target. -/
theorem Recoverable.eq_of_header_nil (h : Recoverable L d target) (hd : L.header d = []) {a : A}
    (ha : L.IsHome a) : d a = target a :=
  h.rest a ha (by simp [hd])

/-- If all blocks of the log have been copied, the home blocks are those of the target. -/
theorem Recoverable.eq_of_installed (h : Recoverable L d target)
    (hi : Installed L d target (L.header d).length) {a : A} (ha : L.IsHome a) : d a = target a := by
  by_cases hmem : a ∈ L.header d
  · obtain ⟨i, hlt, rfl⟩ := List.getElem_of_mem hmem
    exact hi i hlt hlt
  · exact h.rest a ha hmem

/-- A disk with an empty header whose home blocks are those of the target is recoverable. -/
theorem recoverable_of_header_nil (hd : L.header d = []) (h : ∀ a, L.IsHome a → d a = target a) :
    Recoverable L d target where
  length := by simp [hd]
  home := by simp [hd]
  slot := fun i hi => by simp [hd] at hi
  rest := fun a ha _ => h a ha

/-! ## Writes -/

variable [DecidableEq A]

/-- A write to a slot leaves the header. -/
theorem Layout.header_update_slot {i : ℕ} (hi : i < L.size) (v : V) :
    L.header (update d (L.slot i) v) = L.header d := by
  unfold Layout.header
  rw [update_of_ne (L.slot_ne_head i hi).symm]

/-- A write to a home block leaves the header. -/
theorem Layout.header_update_home {a : A} (ha : L.IsHome a) (v : V) :
    L.header (update d a v) = L.header d := by
  unfold Layout.header
  rw [update_of_ne ha.1.symm]

/-- The header that a write to the header block leaves. -/
theorem Layout.header_update_head (v : V) :
    L.header (update d L.head v) = L.decode v := by
  unfold Layout.header
  rw [update_self]

/-- While the header is empty, a write to a slot does nothing. -/
theorem Recoverable.write_slot (h : Recoverable L d target) (hd : L.header d = []) {i : ℕ}
    (hi : i < L.size) (v : V) : Recoverable L (update d (L.slot i) v) target := by
  refine recoverable_of_header_nil ?_ fun a ha => ?_
  · rw [Layout.header_update_slot hi, hd]
  · rw [update_of_ne (ha.2 i hi)]
    exact h.eq_of_header_nil hd ha

/-- The write of the next slot. -/
theorem Logged.succ {l : List A} {n : ℕ} (h : Logged L d target l n) (hn : n < l.length)
    (hlen : l.length ≤ L.size) :
    Logged L (update d (L.slot n) (target l[n])) target l (n + 1) := by
  intro i hi hin
  by_cases he : i = n
  · subst he
    rw [update_self]
  · have hne : L.slot i ≠ L.slot n := fun hs => he (L.slot_inj i n (by omega) (by omega) hs)
    rw [update_of_ne hne]
    exact h i hi (by omega)

/-- **The commit point**: the write of a header that names blocks whose new contents are in the
slots changes the target to these contents. -/
theorem Recoverable.commit (h : Recoverable L d target) (hd : L.header d = []) {v : V}
    (hlen : (L.decode v).length ≤ L.size) (hhome : ∀ a ∈ L.decode v, L.IsHome a)
    (hslot : Logged L d target' (L.decode v) (L.decode v).length)
    (hrest : ∀ a, a ∉ L.decode v → target' a = target a) :
    Recoverable L (update d L.head v) target' := by
  have hheader : L.header (update d L.head v) = L.decode v := Layout.header_update_head v
  refine ⟨by rwa [hheader], by rwa [hheader], ?_, fun a ha hmem => ?_⟩
  · rw [hheader]
    intro i hi
    rw [update_of_ne (L.slot_ne_head i (by omega))]
    exact hslot i hi hi
  · rw [hheader] at hmem
    rw [update_of_ne ha.1, hrest a hmem]
    exact h.eq_of_header_nil hd ha

/-- The copy of a slot to its home block. -/
theorem Recoverable.install (h : Recoverable L d target) {i : ℕ} (hi : i < (L.header d).length) :
    Recoverable L (update d (L.header d)[i] (d (L.slot i))) target := by
  have hhome : L.IsHome (L.header d)[i] := h.home _ (List.getElem_mem hi)
  have hheader : L.header (update d (L.header d)[i] (d (L.slot i))) = L.header d :=
    Layout.header_update_home hhome _
  refine ⟨by rw [hheader]; exact h.length, by rw [hheader]; exact h.home, ?_, fun a ha hmem => ?_⟩
  · rw [hheader]
    intro j hj
    have hj' : j < L.size := lt_of_lt_of_le hj h.length
    rw [update_of_ne (hhome.2 j hj').symm]
    exact h.slot j hj
  · rw [hheader] at hmem
    have hne : a ≠ (L.header d)[i] := by
      rintro rfl
      exact hmem (List.getElem_mem hi)
    rw [update_of_ne hne]
    exact h.rest a ha hmem

/-- The copy of the next slot. -/
theorem Installed.succ {n : ℕ} (h : Recoverable L d target) (hn : n < (L.header d).length)
    (hi : Installed L d target n) :
    Installed L (update d (L.header d)[n] (d (L.slot n))) target (n + 1) := by
  have hhome : L.IsHome (L.header d)[n] := h.home _ (List.getElem_mem hn)
  unfold Installed
  rw [Layout.header_update_home hhome]
  intro i hlt hin
  by_cases he : (L.header d)[i] = (L.header d)[n]
  · -- The block that has just been copied, which an earlier slot may have had too.
    rw [he, update_self]
    exact h.slot n hn
  · rw [update_of_ne he]
    refine hi i hlt (lt_of_le_of_ne (by omega) fun hin => he ?_)
    subst hin
    rfl

/-- The write of an empty header after the last copy. -/
theorem Recoverable.clear (h : Recoverable L d target)
    (hi : Installed L d target (L.header d).length) {v : V} (hv : L.decode v = []) :
    Recoverable L (update d L.head v) target := by
  refine recoverable_of_header_nil ?_ fun a ha => ?_
  · rw [Layout.header_update_head, hv]
  · rw [update_of_ne ha.1]
    exact h.eq_of_installed hi ha

end SustainableXv6.Lib.RedoLog
