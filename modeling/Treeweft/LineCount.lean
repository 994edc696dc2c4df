import Mathlib.Data.List.Basic
import Mathlib.Order.Lattice

/-!
Counting the lines of a file and the longest of them, from reads of bounded blocks.

The tally carries the length of an unfinished line from one block to the next. The reads may be
short, and any of them may fail.
-/

namespace Treeweft.LineCount

/-! ### The code -/

def newline : UInt8 := 10

/-- Files longer than this are not read to the end. -/
def locReadCapBytes : ℕ := 50 * 1024 * 1024

def blockSize : ℕ := 1 <<< 16

/-- `run` is the number of bytes since the last newline. -/
structure Tally where
  loc : ℕ
  maxLine : ℕ
  run : ℕ

def Tally.extend (t : Tally) (n : ℕ) : Tally :=
  let run := t.run + n
  { t with run := run, maxLine := if t.maxLine < run then run else t.maxLine }

def Tally.endLine (t : Tally) : Tally := ⟨t.loc + 1, t.maxLine, 0⟩

/-- The place of the first newline of the block from `start` on. -/
def findNewline (block : List UInt8) (start : ℕ) : Option ℕ :=
  ((block.drop start).findIdx? (· == newline)).map (start + ·)

lemma findNewline_lt {block : List UInt8} {start nl : ℕ} (h : findNewline block start = some nl) :
    start ≤ nl ∧ nl < block.length := by
  obtain ⟨i, hi, rfl⟩ := Option.map_eq_some_iff.mp h
  obtain ⟨hlt, -⟩ := List.findIdx?_eq_some_iff_getElem.mp hi
  rw [List.length_drop] at hlt
  omega

/-- The loop over one block. -/
def countBlock (block : List UInt8) (start : ℕ) (t : Tally) : Tally :=
  match h : findNewline block start with
  | none => t.extend (block.length - start)
  | some nl => countBlock block (nl + 1) (t.extend (nl - start + 1)).endLine
termination_by block.length - start
decreasing_by have := findNewline_lt h; omega

/-- One read of at most `n` bytes: it fails, or gives the next bytes, how many being up to the
system, but none only at the end of the file. -/
def readBlock (size : Option ℕ) (n : ℕ) (rest : List UInt8) : Option (List UInt8) :=
  size.map fun k => rest.take (min n (max 1 k))

/-- The loop over the blocks; `sizes` is what each read is given. -/
def readLoop (sizes : ℕ → Option ℕ) (i read : ℕ) (rest : List UInt8) (t : Tally) : Option Tally :=
  if read < locReadCapBytes then
    match readBlock (sizes i) (min blockSize (locReadCapBytes - read)) rest with
    | none => none
    | some block =>
      if block = [] then some t
      else
        readLoop sizes (i + 1) (read + block.length) (rest.drop block.length)
          (countBlock block 0 t)
  else some t
termination_by locReadCapBytes - read
decreasing_by
  have hpos := List.length_pos_iff.mpr ‹¬block = []›
  omega

/-- `opens` tells whether the file can be opened. -/
def countLocAndMaxLine (opens : Bool) (sizes : ℕ → Option ℕ) (file : List UInt8)
    (sizeBytes : ℕ) : ℕ × ℕ :=
  if locReadCapBytes < sizeBytes then (sizeBytes / 40, 0)
  else
    match if opens then readLoop sizes 0 0 file ⟨0, 0, 0⟩ else none with
    | none => (sizeBytes / 40, 0)
    | some t => (if t.run ≠ 0 then t.loc + 1 else t.loc, t.maxLine)

/-! ### The lines of a string -/

/-- The lines, each with its newline; the last may lack one. -/
def lines : List UInt8 → List (List UInt8)
  | [] => []
  | b :: bs =>
    if b = newline then [b] :: lines bs
    else
      match lines bs with
      | [] => [[b]]
      | l :: ls => (b :: l) :: ls

/-- The lines are the whole string. -/
theorem lines_flatten (s : List UInt8) : (lines s).flatten = s := by
  induction s with
  | nil => rfl
  | cons b bs ih =>
    unfold lines
    split
    · rw [List.flatten_cons, ih, List.singleton_append]
    · cases hls : lines bs with
      | nil => rw [← ih, hls]; rfl
      | cons l ls => rw [← ih, hls]; rfl

/-- The longest of some lengths. -/
def longest (ns : List ℕ) : ℕ := ns.foldr max 0

/-- The number of lines and the length of the longest, its newline included. -/
def naiveCount (s : List UInt8) : ℕ × ℕ :=
  ((lines s).length, longest ((lines s).map List.length))

/-- The lengths of the lines when `r` bytes of the first were read before. -/
def lengths (r : ℕ) : List UInt8 → List ℕ
  | [] => if r = 0 then [] else [r]
  | b :: bs => if b = newline then (r + 1) :: lengths 0 bs else lengths (r + 1) bs

/-- Bytes read before lengthen the first line, or are a line of their own. -/
def carry (r : ℕ) : List ℕ → List ℕ
  | [] => if r = 0 then [] else [r]
  | n :: ns => (r + n) :: ns

lemma carry_zero (ns : List ℕ) : carry 0 ns = ns := by
  cases ns with
  | nil => rfl
  | cons n ns => exact congrArg (· :: ns) (Nat.zero_add n)

lemma lengths_eq (r : ℕ) (s : List UInt8) : lengths r s = carry r ((lines s).map List.length) := by
  induction s generalizing r with
  | nil => rfl
  | cons b bs ih =>
    unfold lengths lines
    by_cases hb : b = newline
    · rw [if_pos hb, if_pos hb, ih 0, carry_zero]
      rfl
    · rw [if_neg hb, if_neg hb, ih (r + 1)]
      cases lines bs with
      | nil => rfl
      | cons l ls => exact congrArg (· :: ls.map List.length) (by rw [List.length_cons]; omega)

/-- The line that was begun counts. -/
lemma le_longest_lengths (r : ℕ) (s : List UInt8) : r ≤ longest (lengths r s) := by
  rw [lengths_eq]
  cases (lines s).map List.length with
  | nil =>
    by_cases hr : r = 0
    · exact hr.trans_le (Nat.zero_le _)
    · rw [carry, if_neg hr]
      exact le_max_left r 0
  | cons n ns => exact (Nat.le_add_right r n).trans (le_max_left _ _)

/-! ### The tally, byte by byte -/

namespace Tally

/-- One byte. -/
def feed (t : Tally) (b : UInt8) : Tally :=
  if b = newline then (t.extend 1).endLine else t.extend 1

/-- The longest line counts the unfinished one. -/
def Good (t : Tally) : Prop := t.run ≤ t.maxLine

lemma extend_eq (t : Tally) (n : ℕ) :
    t.extend n = ⟨t.loc, max t.maxLine (t.run + n), t.run + n⟩ := by
  have hmax : (if t.maxLine < t.run + n then t.run + n else t.maxLine) =
      max t.maxLine (t.run + n) := by
    split <;> omega
  exact congrArg (Tally.mk t.loc · (t.run + n)) hmax

variable {t : Tally}

lemma extend_good (n : ℕ) : (t.extend n).Good := by
  rw [extend_eq]
  exact le_max_right _ _

lemma Good.extend_zero (h : t.Good) : t.extend 0 = t := by
  rw [extend_eq, Nat.add_zero, max_eq_left h]

lemma extend_extend (m n : ℕ) : (t.extend m).extend n = t.extend (m + n) := by
  simp only [extend_eq, Tally.mk.injEq, true_and]
  omega

lemma feed_newline : t.feed newline = (t.extend 1).endLine := if_pos rfl

lemma feed_other {b : UInt8} (hb : b ≠ newline) : t.feed b = t.extend 1 := if_neg hb

lemma feed_good (b : UInt8) : (t.feed b).Good := by
  unfold feed
  split
  · exact Nat.zero_le _
  · exact extend_good 1

lemma Good.feeds (h : t.Good) (s : List UInt8) : (s.foldl feed t).Good := by
  induction s generalizing t with
  | nil => exact h
  | cons b bs ih => exact ih (feed_good b)

/-- Bytes of one line. -/
lemma Good.feeds_line (h : t.Good) {s : List UInt8} (hs : ∀ b ∈ s, b ≠ newline) :
    s.foldl feed t = t.extend s.length := by
  induction s generalizing t with
  | nil => exact h.extend_zero.symm
  | cons b bs ih =>
    obtain ⟨hb, hbs⟩ := List.forall_mem_cons.mp hs
    rw [List.foldl_cons, feed_other hb, ih (extend_good 1) hbs, extend_extend, List.length_cons,
      Nat.add_comm]

/-- The tally of a whole string, by the lengths of its lines. -/
lemma Good.feeds_eq (h : t.Good) (s : List UInt8) :
    let t' := s.foldl feed t
    (if t'.run ≠ 0 then t'.loc + 1 else t'.loc) = t.loc + (lengths t.run s).length ∧
      t'.maxLine = max t.maxLine (longest (lengths t.run s)) := by
  induction s generalizing t with
  | nil =>
    unfold lengths longest
    by_cases hrun : t.run = 0
    · simp [hrun]
    · have hmax : max t.maxLine t.run = t.maxLine := max_eq_left h
      simp [hrun, hmax]
  | cons b bs ih =>
    obtain ⟨hloc, hmax⟩ := ih (feed_good b)
    rw [List.foldl_cons]
    refine ⟨hloc.trans ?_, hmax.trans ?_⟩
    · by_cases hb : b = newline
      · subst hb
        rw [feed_newline, lengths, if_pos rfl, List.length_cons, extend_eq]
        exact Nat.add_right_comm t.loc 1 _
      · rw [feed_other hb, lengths, if_neg hb, extend_eq]
    · by_cases hb : b = newline
      · subst hb
        rw [feed_newline, lengths, if_pos rfl, extend_eq]
        exact max_assoc _ _ _
      · have hle := le_longest_lengths (t.run + 1) bs
        rw [feed_other hb, lengths, if_neg hb, extend_eq, max_assoc, max_eq_right hle]

end Tally

/-! ### The blocks -/

lemma findNewline_none {block : List UInt8} {start : ℕ} (h : findNewline block start = none) :
    ∀ b ∈ block.drop start, b ≠ newline := by
  intro b hb hnew
  have hall := List.findIdx?_eq_none_iff.mp (Option.map_eq_none_iff.mp h) b hb
  rw [hnew, beq_self_eq_true] at hall
  exact Bool.noConfusion hall

/-- The bytes from `start` on, when the first newline among them is at `nl`. -/
lemma findNewline_some {block : List UInt8} {start nl : ℕ} (h : findNewline block start = some nl) :
    ∃ line, (∀ b ∈ line, b ≠ newline) ∧ line.length = nl - start ∧
      block.drop start = line ++ newline :: block.drop (nl + 1) := by
  obtain ⟨i, hi, rfl⟩ := Option.map_eq_some_iff.mp h
  obtain ⟨hlt, hat, hbefore⟩ := List.findIdx?_eq_some_iff_getElem.mp hi
  refine ⟨(block.drop start).take i, fun b hb hnew => ?_, ?_, ?_⟩
  · obtain ⟨j, hj, rfl⟩ := List.mem_iff_getElem.mp hb
    rw [List.length_take] at hj
    rw [List.getElem_take] at hnew
    exact hbefore j (by omega) (beq_iff_eq.mpr hnew)
  · rw [List.length_take]
    omega
  · have hnew := beq_iff_eq.mp hat
    have hdrop : block.drop (start + i + 1) = (block.drop start).drop (i + 1) := by
      rw [List.drop_drop, Nat.add_assoc]
    rw [hdrop, ← hnew, ← List.drop_eq_getElem_cons hlt, List.take_append_drop]

/-- The loop over a block feeds its bytes. -/
theorem countBlock_eq (block : List UInt8) (start : ℕ) {t : Tally} (h : t.Good) :
    countBlock block start t = (block.drop start).foldl Tally.feed t := by
  induction start, t using countBlock.induct block with
  | case1 start t hnl =>
    rw [countBlock, h.feeds_line (findNewline_none hnl), List.length_drop]
    split
    · rfl
    · next nl hnl' => exact absurd (hnl.symm.trans hnl') (Option.some_ne_none nl).symm
  | case2 start t nl hnl ih =>
    obtain ⟨line, hline, hlength, hdrop⟩ := findNewline_some hnl
    rw [countBlock]
    split
    · next hnl' => exact absurd (hnl'.symm.trans hnl) (Option.some_ne_none nl).symm
    · next nl' hnl' =>
      obtain rfl := Option.some.inj (hnl.symm.trans hnl')
      rw [ih (Nat.zero_le _), hdrop, List.foldl_append, h.feeds_line hline, List.foldl_cons,
        Tally.feed_newline, Tally.extend_extend, hlength]

/-- A read gives the next bytes, and none only at the end. -/
lemma readBlock_some (k : ℕ) {n : ℕ} (hn : 0 < n) (rest : List UInt8) :
    ∃ m, readBlock (some k) n rest = some (rest.take m) ∧ 0 < m ∧ m ≤ n :=
  ⟨min n (max 1 k), rfl, by omega, by omega⟩

/-- The loop over the blocks feeds the bytes up to the cap, however they are cut. -/
theorem readLoop_eq (sizes : ℕ → ℕ) (i read : ℕ) (rest : List UInt8) {t : Tally} (h : t.Good) :
    readLoop (fun i => some (sizes i)) i read rest t =
      some ((rest.take (locReadCapBytes - read)).foldl Tally.feed t) := by
  induction hleft : locReadCapBytes - read using Nat.strong_induction_on
    generalizing i read rest t with
  | _ left ih =>
    rw [readLoop]
    by_cases hread : read < locReadCapBytes
    · have hn : 0 < min blockSize (locReadCapBytes - read) :=
        lt_min (by decide) (Nat.sub_pos_of_lt hread)
      obtain ⟨m, hm, hpos, hle⟩ := readBlock_some (sizes i) hn rest
      have hmleft : m ≤ left := by omega
      rw [if_pos hread]
      simp only [hm]
      by_cases hblock : rest.take m = []
      · have hnil : rest = [] := by
          rcases List.take_eq_nil_iff.mp hblock with hzero | hnil
          · omega
          · exact hnil
        rw [if_pos hblock, hnil, List.take_nil, List.foldl_nil]
      · have hlength : 0 < (rest.take m).length := List.length_pos_iff.mpr hblock
        have hgood : (countBlock (rest.take m) 0 t).Good := by
          rw [countBlock_eq _ 0 h]
          exact h.feeds _
        have hmin : (rest.take m).length = min m rest.length := List.length_take
        rw [if_neg hblock,
          ih (left - (rest.take m).length) (by omega) (i + 1) _ _ hgood (by omega),
          countBlock_eq _ 0 h, List.drop_zero, ← List.foldl_append]
        have htake : rest.take m = rest.take (rest.take m).length := by
          rw [hmin, List.take_eq_take_min]
        have hsplit : left = (rest.take m).length + (left - (rest.take m).length) := by omega
        conv_rhs => rw [hsplit, List.take_add, ← htake]
    · have hzero : left = 0 := by omega
      rw [if_neg hread, hzero, List.take_zero, List.foldl_nil]

/-! ### The block reader -/

/-- However the reads cut a file, the counts are those of the naive scan up to the cap. -/
theorem countLocAndMaxLine_take (sizes : ℕ → ℕ) (file : List UInt8) {sizeBytes : ℕ}
    (hsize : sizeBytes ≤ locReadCapBytes) :
    countLocAndMaxLine true (fun i => some (sizes i)) file sizeBytes =
      naiveCount (file.take locReadCapBytes) := by
  have hgood : Tally.Good ⟨0, 0, 0⟩ := le_rfl
  obtain ⟨hloc, hmax⟩ := hgood.feeds_eq (file.take locReadCapBytes)
  rw [countLocAndMaxLine, if_neg (Nat.not_lt.mpr hsize), if_pos rfl,
    readLoop_eq sizes 0 0 file hgood, Nat.sub_zero]
  refine Prod.ext (hloc.trans ?_) (hmax.trans ?_)
  · rw [lengths_eq, carry_zero, List.length_map, Nat.zero_add]
    rfl
  · rw [lengths_eq, carry_zero, Nat.zero_max]
    rfl

/-- A file within the cap is counted whole. -/
theorem countLocAndMaxLine_eq (sizes : ℕ → ℕ) {file : List UInt8} {sizeBytes : ℕ}
    (hsize : sizeBytes ≤ locReadCapBytes) (hfile : file.length ≤ locReadCapBytes) :
    countLocAndMaxLine true (fun i => some (sizes i)) file sizeBytes = naiveCount file := by
  rw [countLocAndMaxLine_take sizes file hsize, List.take_of_length_le hfile]

/-- Three lines in reads of two bytes. -/
theorem countLocAndMaxLine_three :
    countLocAndMaxLine true (fun _ => some 2) [97, 10, 98, 98, 10, 99, 99, 99] 8 = (3, 3) :=
  countLocAndMaxLine_eq (fun _ => 2) (by decide) (by decide)

end Treeweft.LineCount
