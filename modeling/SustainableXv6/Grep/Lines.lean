import SustainableXv6.Lib.Overwrite
import SustainableXv6.Grep.Match

/-!
# The lines that `grep` writes

`grep` of `user/grep.c` reads into a buffer of 1024 bytes behind what is left of the last read, puts
a NUL behind the data, and takes the lines that have their newline out of it (`lineLoop`). The rest
is moved to the start of the buffer. How much a `read` returns is an input (`sizes`): at least one
byte, unless the file is at its end or there is no room.

The lines of the file up to the first one that does not fit (`Fits`) are written if they match, and
no other (`grep_eq`), however the data arrives. A line fits if it has a newline, and at most 1022
bytes in front of it. So a last line without a newline is never written; and a line of 1023 bytes or
more fills the buffer, so that the next `read` is asked for no bytes and the rest of the file is
lost. The lines that match are written if and only if none of them is lost this way
(`grep_writes_iff`).
-/

namespace SustainableXv6.Grep

open Lib

variable {pattern buf s l u junk file : List Char} {sizes : ℕ → ℕ} {c : Char} {m p i j : ℕ}

/-! ## The functions -/

/-- `strchr`, whose result is the distance from `s`. -/
def strchr : List Char → Char → Option ℕ
  | [], _ => none
  | x :: s, c => if x = '\x00' then none else if x = c then some 0 else (strchr s c).map (· + 1)

/-- The string at `p`. -/
def stringAt (buf : List Char) (p : ℕ) : List Char := (buf.drop p).takeWhile (· ≠ '\x00')

theorem strchr_lt (h : strchr s c = some i) : i < s.length := by
  induction s generalizing i with
  | nil => contradiction
  | cons x s ih =>
    rw [strchr] at h
    split_ifs at h with hnul hx
    · simp [← Option.some.inj h]
    · obtain ⟨k, hk, rfl⟩ := Option.map_eq_some_iff.mp h
      exact Nat.succ_lt_succ (ih hk)

/-- `while((q = strchr(p, '\n')) != 0)`, which writes the lines that match. The result is the
buffer, `p`, and what is written. -/
def lineLoop (pattern buf : List Char) (p : ℕ) : List Char × ℕ × List (List Char) :=
  match h : strchr (buf.drop p) '\n' with
  | none => (buf, p, [])
  | some i =>
    let q := p + i
    let cut := buf.set q '\x00'
    if matchRe pattern (stringAt cut p) then
      let back := cut.set q '\n'
      let w := (back.drop p).take (q + 1 - p)
      let (buf, p, ws) := lineLoop pattern back (q + 1)
      (buf, p, w :: ws)
    else lineLoop pattern cut (q + 1)
termination_by buf.length - p
decreasing_by
  all_goals
    have hlt := strchr_lt h
    simp only [List.length_drop, List.length_set] at hlt ⊢
    omega

/-- `memmove(buf, buf + p, m)`. -/
def memmove (buf : List Char) (p m : ℕ) : List Char := overwrite buf 0 ((buf.drop p).take m)

/-- What a `read` of at most `k` bytes returns, if `want` bytes have arrived. -/
def readSize (want k : ℕ) (file : List Char) : ℕ := min (max 1 want) (min k file.length)

theorem readSize_le (want k : ℕ) (file : List Char) : readSize want k file ≤ file.length :=
  (Nat.min_le_right ..).trans (Nat.min_le_right ..)

/-- `while((n = read(fd, buf+m, sizeof(buf)-m-1)) > 0)`, with the rest of the file. The result is
what is written. -/
def grepLoop (pattern : List Char) (sizes : ℕ → ℕ) (buf : List Char) (m : ℕ) (file : List Char)
    (j : ℕ) : List (List Char) :=
  let n := readSize (sizes j) (1024 - m - 1) file
  if n = 0 then []
  else
    let buf := (overwrite buf m (file.take n)).set (m + n) '\x00'
    let (buf, p, ws) := lineLoop pattern buf 0
    let left := m + n - p
    ws ++ grepLoop pattern sizes (memmove buf p left) left (file.drop n) (j + 1)
termination_by file.length
decreasing_by
  have hle := readSize_le (sizes j) (1024 - m - 1) file
  simp only [List.length_drop]
  omega

/-- `grep`. The buffer may have anything in it. -/
def grep (pattern : List Char) (sizes : ℕ → ℕ) (buf file : List Char) : List (List Char) :=
  grepLoop pattern sizes buf 0 file 0

/-! ## The lines of a file -/

/-- The lines of a file with their newlines. The last one may have none. -/
def fileLines : List Char → List (List Char)
  | [] => []
  | c :: s =>
    if c = '\n' then [c] :: fileLines s
    else
      match fileLines s with
      | [] => [[c]]
      | l :: ls => (c :: l) :: ls

/-- The line matches, without its newline. -/
def lineMatches (pattern l : List Char) : Bool := matchRe pattern (l.takeWhile (· ≠ '\n'))

/-- The lines that match. -/
def matchingLines (pattern file : List Char) : List (List Char) :=
  (fileLines file).filter (lineMatches pattern)

/-- The line has a newline and fits into the buffer, in front of a NUL. -/
def Fits (l : List Char) : Bool := l.contains '\n' && l.length ≤ 1023

/-- The lines that `grep` gets to and that match. -/
def keptLines (pattern file : List Char) : List (List Char) :=
  ((fileLines file).takeWhile Fits).filter (lineMatches pattern)

theorem fileLines_line (h : '\n' ∉ l) (s : List Char) :
    fileLines (l ++ '\n' :: s) = (l ++ ['\n']) :: fileLines s := by
  induction l with
  | nil => simp [fileLines]
  | cons c l ih =>
    obtain ⟨hc, hl⟩ := not_or.mp (List.mem_cons.not.mp h)
    rw [List.cons_append, fileLines, if_neg (Ne.symm hc), ih hl]
    rfl

/-- Characters in front of the first newline are in the first line. -/
theorem fileLines_append (h : '\n' ∉ l) (hne : l ≠ []) (s : List Char) :
    ∃ u ls, fileLines (l ++ s) = (l ++ u) :: ls ∧ (s = [] → u = []) := by
  induction l with
  | nil => contradiction
  | cons c l ih =>
    obtain ⟨hc, hl⟩ := not_or.mp (List.mem_cons.not.mp h)
    rw [List.cons_append, fileLines, if_neg (Ne.symm hc)]
    rcases eq_or_ne l [] with rfl | hne
    · cases hs : fileLines s with
      | nil => exact ⟨[], [], by rw [List.nil_append, hs]; rfl, fun _ => rfl⟩
      | cons l ls =>
        refine ⟨l, ls, by rw [List.nil_append, hs]; rfl, ?_⟩
        rintro rfl
        contradiction
    · obtain ⟨u, ls, heq, hu⟩ := ih hl hne
      exact ⟨u, ls, by rw [heq]; rfl, hu⟩

/-- The text of a line. -/
theorem takeWhile_line (h : '\n' ∉ l) (s : List Char) :
    (l ++ '\n' :: s).takeWhile (· ≠ '\n') = l := by
  rw [List.takeWhile_append_of_pos, List.takeWhile_cons_of_neg (by simp), List.append_nil]
  exact fun x hx => decide_eq_true fun hx' => h (hx' ▸ hx)

/-- A line that fits is kept if it matches. -/
theorem keptLines_line (h : '\n' ∉ l) (hlen : l.length ≤ 1022) (s : List Char) :
    keptLines pattern (l ++ '\n' :: s) =
      (if matchRe pattern l then [l ++ ['\n']] else []) ++ keptLines pattern s := by
  have hfits : Fits (l ++ ['\n']) = true := by simp [Fits, Nat.lt_succ_of_le hlen]
  rw [keptLines, fileLines_line h, List.takeWhile_cons_of_pos hfits, List.filter_cons, lineMatches,
    takeWhile_line h, keptLines]
  split_ifs <;> rfl

/-- Nothing is kept of a line without a newline, or of one that fills the buffer. -/
theorem keptLines_stop (h : '\n' ∉ l) (hstop : s = [] ∨ 1023 ≤ l.length) :
    keptLines pattern (l ++ s) = [] := by
  rcases eq_or_ne l [] with rfl | hne
  · rcases hstop with rfl | hlen
    · rfl
    · exact absurd hlen (by decide)
  obtain ⟨u, ls, heq, hu⟩ := fileLines_append h hne s
  have hfits : ¬Fits (l ++ u) = true := by
    simp only [Fits, Bool.and_eq_true, List.contains_iff_mem, List.mem_append, h, false_or,
      decide_eq_true_eq, List.length_append, not_and]
    intro hmem
    have hpos : 0 < u.length := List.length_pos_of_mem hmem
    rcases hstop with hs | hlen
    · exact absurd hmem (hu hs ▸ List.not_mem_nil)
    · omega
  rw [keptLines, heq, List.takeWhile_cons_of_neg hfits]
  rfl

/-! ## The loops -/

/-- A string without the character. -/
theorem strchr_none (hnul : '\x00' ∉ s) (h : c ∉ s) : strchr (s ++ '\x00' :: junk) c = none := by
  induction s with
  | nil => simp [strchr]
  | cons x s ih =>
    obtain ⟨hx, hs⟩ := not_or.mp (List.mem_cons.not.mp h)
    obtain ⟨hx', hs'⟩ := not_or.mp (List.mem_cons.not.mp hnul)
    rw [List.cons_append, strchr, if_neg (Ne.symm hx'), if_neg (Ne.symm hx), ih hs' hs]
    rfl

/-- A string whose first such character is behind `s`. -/
theorem strchr_some (hnul : '\x00' ∉ s) (h : c ∉ s) (hc : c ≠ '\x00') :
    strchr (s ++ c :: junk) c = some s.length := by
  induction s with
  | nil => simp [strchr, hc]
  | cons x s ih =>
    obtain ⟨hx, hs⟩ := not_or.mp (List.mem_cons.not.mp h)
    obtain ⟨hx', hs'⟩ := not_or.mp (List.mem_cons.not.mp hnul)
    rw [List.cons_append, strchr, if_neg (Ne.symm hx'), if_neg (Ne.symm hx), ih hs' hs]
    rfl

theorem lineLoop_none (h : strchr (buf.drop p) '\n' = none) :
    lineLoop pattern buf p = (buf, p, []) := by
  rw [lineLoop]
  split
  · rfl
  · simp_all

theorem lineLoop_some (h : strchr (buf.drop p) '\n' = some i) :
    lineLoop pattern buf p =
      if matchRe pattern (stringAt (buf.set (p + i) '\x00') p) then
        let back := (buf.set (p + i) '\x00').set (p + i) '\n'
        let r := lineLoop pattern back (p + i + 1)
        (r.1, r.2.1, (back.drop p).take (p + i + 1 - p) :: r.2.2)
      else lineLoop pattern (buf.set (p + i) '\x00') (p + i + 1) := by
  rw [lineLoop]
  split
  · simp_all
  · rename_i k hk
    obtain rfl : i = k := Option.some.inj (h.symm.trans hk)
    rfl

/-- A character of the buffer is replaced. -/
theorem drop_set_at (h : buf.drop p = l ++ c :: junk) (d : Char) :
    (buf.set (p + l.length) d).drop p = l ++ d :: junk := by
  rw [List.drop_set, if_neg (by omega), h, Nat.add_sub_cancel_left,
    List.set_append_right _ _ (le_refl _), Nat.sub_self]
  rfl

theorem drop_behind (h : buf.drop p = l ++ c :: junk) : buf.drop (p + l.length + 1) = junk := by
  rw [Nat.add_assoc, ← List.drop_drop, h, ← List.drop_drop, List.drop_left]
  rfl

/-- The lines of the string `s` at `p` have been taken out. What is left is a string without a
newline, with the same rest of the buffer. -/
def Taken (pattern : List Char) (len p : ℕ) (s junk : List Char)
    (r : List Char × ℕ × List (List Char)) : Prop :=
  ∃ t, r.1.length = len ∧ r.1.drop r.2.1 = t ++ '\x00' :: junk ∧
    r.2.1 + t.length = p + s.length ∧ '\n' ∉ t ∧ '\x00' ∉ t ∧
    ∀ rest, keptLines pattern (s ++ rest) = r.2.2 ++ keptLines pattern (t ++ rest)

/-- One more line in front. -/
theorem Taken.cons {len : ℕ} {r : List Char × ℕ × List (List Char)}
    (h : Taken pattern len (p + l.length + 1) s junk r) (hline : '\n' ∉ l)
    (hlen : l.length ≤ 1022) :
    Taken pattern len p (l ++ '\n' :: s) junk
      (r.1, r.2.1, (if matchRe pattern l then [l ++ ['\n']] else []) ++ r.2.2) := by
  obtain ⟨t, hsize, hdrop, hend, hnl, hnul, hkept⟩ := h
  refine ⟨t, hsize, hdrop, ?_, hnl, hnul, fun rest => ?_⟩
  · rw [hend, List.length_append, List.length_cons]
    omega
  · rw [List.append_assoc, List.cons_append, keptLines_line hline hlen, hkept, List.append_assoc]

theorem lineLoop_taken (pattern : List Char) (hdata : buf.drop p = s ++ '\x00' :: junk)
    (hnul : '\x00' ∉ s) (hlen : s.length ≤ 1023) :
    Taken pattern buf.length p s junk (lineLoop pattern buf p) := by
  induction hs : s.length using Nat.strong_induction_on generalizing s buf p with
  | _ k ih =>
  by_cases hnl : '\n' ∈ s
  · obtain ⟨l, s', rfl, hl⟩ := List.eq_append_cons_of_mem hnl
    rw [List.mem_append, List.mem_cons, not_or, not_or] at hnul
    obtain ⟨hnull, -, hnuls⟩ := hnul
    rw [List.length_append, List.length_cons] at hlen hs
    rw [List.append_assoc, List.cons_append] at hdata
    -- Whether the newline is put back or not, the next round starts behind it.
    have hcut := drop_set_at hdata '\x00'
    have htext : stringAt (buf.set (p + l.length) '\x00') p = l := by
      rw [stringAt, hcut, List.takeWhile_append_of_pos, List.takeWhile_cons_of_neg (by simp),
        List.append_nil]
      exact fun x hx => decide_eq_true fun h => hnull (h ▸ hx)
    have hnext {b : List Char} {d : Char} (hb : b.length = buf.length)
        (hdrop : b.drop p = l ++ d :: (s' ++ '\x00' :: junk)) :
        Taken pattern buf.length (p + l.length + 1) s' junk
          (lineLoop pattern b (p + l.length + 1)) :=
      hb ▸ ih s'.length (by omega) (drop_behind hdrop) hnuls (by omega) rfl
    rw [lineLoop_some (hdata ▸ strchr_some hnull hl (by decide)), htext]
    split_ifs with hmatch
    · have hback := drop_set_at hcut '\n'
      have htaken := (hnext (by simp) hback).cons hl (by omega)
      rw [if_pos hmatch] at htaken
      have hwrite : (l ++ '\n' :: (s' ++ '\x00' :: junk)).take (p + l.length + 1 - p) =
          l ++ ['\n'] := by
        rw [Nat.add_assoc, Nat.add_sub_cancel_left, List.take_length_add_append]
        rfl
      simp only [hback, hwrite]
      exact htaken
    · have htaken := (hnext (by simp) hcut).cons hl (by omega)
      rwa [if_neg hmatch] at htaken
  · rw [lineLoop_none (hdata ▸ strchr_none hnul hnl)]
    exact ⟨s, rfl, hdata, rfl, hnl, hnul, fun rest => rfl⟩

/-- The data that is read, and the NUL behind it. -/
theorem set_overwrite (hbuf : buf.length = 1024) (hleft : buf.take l.length = l)
    (h : l.length + u.length ≤ 1023) :
    (overwrite buf l.length u).set (l.length + u.length) '\x00' =
      l ++ u ++ '\x00' :: buf.drop (l.length + u.length + 1) := by
  have hlt : l.length + u.length < buf.length := by omega
  rw [overwrite, hleft, List.drop_eq_getElem_cons hlt, List.set_append_right _ _ (by simp),
    List.length_append, Nat.sub_self]
  rfl

/-- One round takes the lines out of what was left and what is read. -/
theorem round_taken (pattern : List Char) (hbuf : buf.length = 1024)
    (hleft : buf.take l.length = l) (h : l.length + u.length ≤ 1023) (hnul : '\x00' ∉ l ++ u) :
    Taken pattern 1024 0 (l ++ u) (buf.drop (l.length + u.length + 1))
      (lineLoop pattern ((overwrite buf l.length u).set (l.length + u.length) '\x00') 0) := by
  have hlen : (l ++ u ++ '\x00' :: buf.drop (l.length + u.length + 1)).length = 1024 := by
    simp only [List.length_append, List.length_cons, List.length_drop]
    omega
  rw [set_overwrite hbuf hleft h, ← hlen]
  exact lineLoop_taken pattern rfl hnul (by rwa [List.length_append])

/-- The string at `p` is moved to the start of the buffer. -/
theorem memmove_eq (h : buf.drop p = s ++ junk) :
    memmove buf p s.length = s ++ buf.drop s.length := by
  rw [memmove, h, List.take_left, overwrite, List.take_zero, List.nil_append, Nat.zero_add]

/-- With `l` left in the buffer, the lines of `l` and of the rest of the file are written. By
induction on what is left of the file. -/
theorem grepLoop_eq (pattern : List Char) (sizes : ℕ → ℕ) (hbuf : buf.length = 1024)
    (hleft : buf.take l.length = l) (hlen : l.length ≤ 1023) (hline : '\n' ∉ l)
    (hnul : '\x00' ∉ l ++ file) (j : ℕ) :
    grepLoop pattern sizes buf l.length file j = keptLines pattern (l ++ file) := by
  induction hf : file.length using Nat.strong_induction_on generalizing buf l file j with
  | _ k ih =>
  rw [grepLoop]
  split_ifs with hn
  · -- The file is at its end, or the buffer is full.
    refine (keptLines_stop hline ?_).symm
    rw [← List.length_eq_zero_iff]
    unfold readSize at hn
    omega
  · generalize hsize : readSize (sizes j) (1024 - l.length - 1) file = n at *
    have hle : n ≤ file.length := hsize ▸ readSize_le ..
    have hroom : l.length + n ≤ 1023 := by
      unfold readSize at hsize
      omega
    have htake : (file.take n).length = n := List.length_take_of_le hle
    have hsplit : l ++ file = l ++ file.take n ++ file.drop n := by
      rw [List.append_assoc, List.take_append_drop]
    rw [hsplit, List.mem_append, not_or] at hnul
    have hround := round_taken pattern hbuf hleft (htake.symm ▸ hroom) hnul.1
    rw [htake] at hround
    obtain ⟨t, htlen, htdrop, htend, htnl, htnul, hkept⟩ := hround
    dsimp only
    generalize lineLoop pattern ((overwrite buf l.length (file.take n)).set (l.length + n) '\x00') 0
      = r at htlen htdrop htend hkept ⊢
    have hmoved := memmove_eq htdrop
    rw [List.length_append, htake, Nat.zero_add] at htend
    have hcount : l.length + n - r.2.1 = t.length := by omega
    change r.2.2 ++ grepLoop pattern sizes (memmove r.1 r.2.1 (l.length + n - r.2.1))
      (l.length + n - r.2.1) (file.drop n) (j + 1) = _
    rw [hsplit, hkept, hcount, hmoved]
    congr 1
    refine ih (file.drop n).length ?_ ?_ List.take_left (by omega) htnl ?_ (j + 1) rfl
    · rw [List.length_drop]
      omega
    · rw [List.length_append, List.length_drop]
      omega
    · rw [List.mem_append, not_or]
      exact ⟨htnul, hnul.2⟩

/-- `grep` writes the lines that match up to the first one that does not fit, however the data
arrives. -/
theorem grep_eq (pattern : List Char) (sizes : ℕ → ℕ) (hbuf : buf.length = 1024)
    (hnul : '\x00' ∉ file) : grep pattern sizes buf file = keptLines pattern file :=
  grepLoop_eq pattern sizes hbuf rfl (Nat.zero_le _) List.not_mem_nil hnul 0

/-- The lines that match are written, each once and in their order, if and only if no line matches
from the first one on that has 1023 bytes or more in front of its newline, or no newline. -/
theorem grep_writes_iff (pattern : List Char) (sizes : ℕ → ℕ) (buf file : List Char)
    (hbuf : buf.length = 1024) (hnul : '\x00' ∉ file) :
    grep pattern sizes buf file = matchingLines pattern file ↔
      ∀ l ∈ (fileLines file).dropWhile Fits, lineMatches pattern l = false := by
  have hsplit : matchingLines pattern file = keptLines pattern file ++
      ((fileLines file).dropWhile Fits).filter (lineMatches pattern) := by
    rw [keptLines, ← List.filter_append, List.takeWhile_append_dropWhile, matchingLines]
  rw [grep_eq pattern sizes hbuf hnul, hsplit, List.self_eq_append_right, List.filter_eq_nil_iff]
  simp only [Bool.not_eq_true]

/-- The line with an `a` is written, and the last line does not match. -/
theorem grep_writes_iff_ab :
    (∀ l ∈ (fileLines ['a', '\n', 'b']).dropWhile Fits, lineMatches ['a'] l = false) ∧
    grep ['a'] (fun _ => 1) (List.replicate 1024 '\x00') ['a', '\n', 'b'] =
      matchingLines ['a'] ['a', '\n', 'b'] := by
  have h : ∀ l ∈ (fileLines ['a', '\n', 'b']).dropWhile Fits, lineMatches ['a'] l = false := by
    simp [fileLines, Fits, lineMatches, matchRe, search, matchhere]
  exact ⟨h, (grep_writes_iff ['a'] (fun _ => 1) _ _ List.length_replicate (by decide)).mpr h⟩

/-- A last line without a newline is not written, and neither is a line behind one of 1023
bytes. -/
theorem lines_lost :
    (grep ['a'] (fun _ => 1) (List.replicate 1024 '\x00') ['a'] = [] ∧
      matchingLines ['a'] ['a'] = [['a']]) ∧
    (grep ['a'] (fun _ => 512) (List.replicate 1024 '\x00')
        (List.replicate 1023 'b' ++ '\n' :: ['a', '\n']) = [] ∧
      ['a', '\n'] ∈
        matchingLines ['a'] (List.replicate 1023 'b' ++ '\n' :: ['a', '\n'])) := by
  have hb {c : Char} (h : c ∈ List.replicate 1023 'b') : c = 'b' := List.eq_of_mem_replicate h
  have hline : '\n' ∉ List.replicate 1023 'b' := fun h => absurd (hb h) (by decide)
  have hlast : keptLines ['a'] ['a'] = [] := keptLines_stop (l := ['a']) (by decide) (.inl rfl)
  refine ⟨⟨?_, ?_⟩, ?_, ?_⟩
  · rw [grep_eq _ _ List.length_replicate (by decide), hlast]
  · simp [matchingLines, fileLines, lineMatches, matchRe, search, matchhere]
  · have hnul : '\x00' ∉ List.replicate 1023 'b' ++ '\n' :: ['a', '\n'] := by
      rw [List.mem_append, not_or]
      exact ⟨fun h => absurd (hb h) (by decide), by decide⟩
    rw [grep_eq _ _ List.length_replicate hnul]
    exact keptLines_stop hline (.inr List.length_replicate.ge)
  · rw [matchingLines, fileLines_line hline]
    refine List.mem_filter.mpr ⟨List.mem_cons_of_mem _ (List.mem_singleton.mpr rfl), ?_⟩
    simp [lineMatches, matchRe, search, matchhere]

end SustainableXv6.Grep
