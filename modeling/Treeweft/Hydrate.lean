import Treeweft.GraphStore
import Mathlib.Algebra.Order.BigOperators.Group.Finset
import Mathlib.Data.List.FinRange
import Mathlib.Data.List.Sort
import Mathlib.Data.List.SplitBy
import Mathlib.Data.List.TakeWhile
import Mathlib.Data.Prod.Lex
import Mathlib.Data.Rat.Defs
import Mathlib.Algebra.Order.Ring.Unbundled.Rat

/-!
The text of a hit: what a search shows of it in full mode, and what a later request for its handle
shows.

A full answer splices the chunks of adjacent hits by their line numbers. A handle names a path and
a range of lines; the chunks that the store has there are joined. Blank lines are dropped from
both. The two agree on every search of an index exactly where no line of text that is stored in the
range of a hit is left out of the splice.
-/

namespace Treeweft.Hydrate

open Treeweft.Indexer (isSpace rstrip)
open Treeweft.GraphStore (Scope)

/-! ### Text -/

/-- `"\n".join`. -/
def join (lines : List (List Char)) : List Char := ['\n'].intercalate lines

def isLineBreak (c : Char) : Bool :=
  c ∈ ['\n', '\r', '\x0b', '\x0c', '\x1c', '\x1d', '\x1e', '\u0085', '\u2028', '\u2029']

/-- `str.splitlines`. -/
def splitlines : List Char → List (List Char)
  | [] => []
  | '\r' :: '\n' :: cs => [] :: splitlines cs
  | c :: cs =>
    if isLineBreak c then [] :: splitlines cs
    else
      match splitlines cs with
      | [] => [[c]]
      | l :: ls => (c :: l) :: ls

def hasText (line : List Char) : Bool := line.any fun c => !isSpace c

/-- The lines that are not blank, without the spaces at their ends. -/
def textLines (s : List Char) : List (List Char) := ((splitlines s).filter hasText).map rstrip

def dropBlank (s : List Char) : List Char := join (textLines s)

/-- To split at every character that breaks a line differs in empty lines alone. -/
lemma filter_splitlines (s : List Char) :
    (splitlines s).filter hasText = (s.splitOnP isLineBreak).filter hasText := by
  have hempty : hasText [] = false := rfl
  have hr : isLineBreak '\r' = true := by decide
  have hn : isLineBreak '\n' = true := by decide
  suffices h : (splitlines s).filter hasText = (s.splitOnP isLineBreak).filter hasText ∧
      (splitlines s).head?.getD [] = (s.splitOnP isLineBreak).head?.getD [] ∧
      (splitlines s).tail.filter hasText = (s.splitOnP isLineBreak).tail.filter hasText from h.1
  induction s using splitlines.induct with
  | case1 => simp [splitlines, hempty]
  | case2 cs ih =>
    simp [splitlines, List.splitOnP_cons_eq_if_modifyHead, hr, hn, hempty, ih.1]
  | case3 c cs hcr hbreak ih =>
    rw [splitlines, if_pos hbreak, List.splitOnP_cons_eq_if_modifyHead, if_pos hbreak]
    · simp [hempty, ih.1]
    · exact hcr
  | case4 c cs hcr hbreak hrest ih =>
    rw [splitlines, if_neg hbreak, List.splitOnP_cons_eq_if_modifyHead, if_neg hbreak, hrest]
    · rw [hrest] at ih
      obtain ⟨l, ls, hl⟩ := List.exists_cons_of_ne_nil (List.splitOnP_ne_nil isLineBreak cs)
      rw [hl] at ih ⊢
      obtain ⟨-, rfl : [] = l, ht⟩ := ih
      have ht : [] = ls.filter hasText := ht
      simp [List.filter_cons, ← ht]
    · exact hcr
  | case5 c cs hcr hbreak l ls hrest ih =>
    rw [splitlines, if_neg hbreak, List.splitOnP_cons_eq_if_modifyHead, if_neg hbreak, hrest]
    · rw [hrest] at ih
      obtain ⟨l', ls', hl⟩ := List.exists_cons_of_ne_nil (List.splitOnP_ne_nil isLineBreak cs)
      rw [hl] at ih ⊢
      obtain ⟨-, rfl : l = l', ht⟩ := ih
      have ht : ls.filter hasText = ls'.filter hasText := ht
      simp [List.filter_cons, ht]
    · exact hcr

lemma textLines_append (a b : List Char) :
    textLines (a ++ '\n' :: b) = textLines a ++ textLines b := by
  have hn : isLineBreak '\n' = true := by decide
  simp only [textLines, filter_splitlines, List.splitOnP_append_cons a b hn, List.filter_append,
    List.map_append]

lemma textLines_join (ls : List (List Char)) : textLines (join ls) = ls.flatMap textLines := by
  induction ls with
  | nil => rfl
  | cons l ls ih =>
    cases ls with
    | nil => simp [join]
    | cons l' ls =>
      have hj : join (l :: l' :: ls) = l ++ '\n' :: join (l' :: ls) := by
        simp [join, List.intercalate_cons_cons]
      rw [hj, textLines_append, ih]
      rfl

lemma join_splitOn (s : List Char) : join (s.splitOn '\n') = s := List.intercalate_splitOn '\n'

lemma textLines_splitOn (s : List Char) : textLines s = (s.splitOn '\n').flatMap textLines := by
  rw [← textLines_join, join_splitOn]

lemma not_of_mem_splitOnP {p : Char → Bool} {s l : List Char} (hl : l ∈ s.splitOnP p) :
    ∀ c ∈ l, p c = false := by
  induction s generalizing l with
  | nil =>
    obtain rfl : l = [] := by simpa using hl
    simp
  | cons a s ih =>
    rw [List.splitOnP_cons_eq_if_modifyHead] at hl
    split at hl
    · obtain rfl | hl := List.mem_cons.1 hl
      · simp
      · exact ih hl
    · rename_i ha
      obtain ⟨m, ms, hs⟩ := List.exists_cons_of_ne_nil (List.splitOnP_ne_nil p s)
      rw [hs] at hl ih
      obtain rfl | hl := List.mem_cons.1 hl
      · rintro c (_ | ⟨_, hc⟩)
        · simpa using ha
        · exact ih List.mem_cons_self c hc
      · exact ih (List.mem_cons_of_mem _ hl)

lemma mem_textLines {s l : List Char} (h : l ∈ textLines s) : l ≠ [] ∧ '\n' ∉ l := by
  obtain ⟨l, hl, rfl⟩ := List.mem_map.1 h
  rw [filter_splitlines] at hl
  obtain ⟨hl, ht⟩ := List.mem_filter.1 hl
  constructor
  · intro h0
    have hd : l.reverse.dropWhile isSpace = [] := List.reverse_eq_nil_iff.1 h0
    obtain ⟨c, hc, hs⟩ := List.any_eq_true.1 ht
    have hc' := List.dropWhile_eq_nil_iff.1 hd c (List.mem_reverse.2 hc)
    simp [hc'] at hs
  · intro hn
    have hn : '\n' ∈ l.reverse.dropWhile isSpace := List.mem_reverse.1 hn
    have hn : '\n' ∈ l := List.mem_reverse.1 ((List.dropWhile_sublist isSpace).mem hn)
    exact absurd (not_of_mem_splitOnP hl _ hn) (by decide)

lemma splitOn_dropBlank {s : List Char} (h : textLines s ≠ []) :
    (dropBlank s).splitOn '\n' = textLines s :=
  List.splitOn_intercalate '\n' (fun _ hl => (mem_textLines hl).2) h

lemma dropBlank_eq_nil {s : List Char} : dropBlank s = [] ↔ textLines s = [] := by
  constructor
  · intro h
    by_contra hs
    have hl : [[]] = textLines s := by rw [← splitOn_dropBlank hs, h]; simp
    exact (mem_textLines (s := s) (hl ▸ List.mem_singleton_self [])).1 rfl
  · intro h
    simp [dropBlank, h, join]

/-- Texts that show the same without their blank lines have the same lines. -/
lemma textLines_of_dropBlank {a b : List Char} (h : dropBlank a = dropBlank b) :
    textLines a = textLines b := by
  by_cases ha : textLines a = []
  · rw [ha, dropBlank_eq_nil.1 (h ▸ dropBlank_eq_nil.2 ha)]
  · have hb : textLines b ≠ [] := fun hb => ha (dropBlank_eq_nil.1 (h ▸ dropBlank_eq_nil.2 hb))
    rw [← splitOn_dropBlank ha, ← splitOn_dropBlank hb, h]

/-! ### Handles -/

def digitVal (c : Char) : ℕ := c.toNat - '0'.toNat

/-- Digits, with single underscores between them. -/
def parseDigits (acc : ℕ) : List Char → Option ℕ
  | [] => some acc
  | '_' :: c :: cs => if c.isDigit then parseDigits (10 * acc + digitVal c) cs else none
  | c :: cs => if c.isDigit then parseDigits (10 * acc + digitVal c) cs else none

def parseNat : List Char → Option ℕ
  | [] => none
  | c :: cs => if c.isDigit then parseDigits (digitVal c) cs else none

/-- `int` of a text of ASCII characters. -/
def parseInt (s : List Char) : Option ℤ :=
  match rstrip (s.dropWhile isSpace) with
  | '-' :: cs => (parseNat cs).map fun n => -(n : ℤ)
  | '+' :: cs => (parseNat cs).map fun n => (n : ℤ)
  | cs => (parseNat cs).map fun n => (n : ℤ)

def showInt : ℤ → List Char
  | .ofNat n => Nat.toDigits 10 n
  | .negSucc n => '-' :: Nat.toDigits 10 (n + 1)

abbrev Location := List Char × ℤ × ℤ

def makeHitId (loc : Location) : List Char :=
  loc.1 ++ ':' :: (showInt loc.2.1 ++ '-' :: showInt loc.2.2)

/-- `parse_hit_id`: the last colon ends the path, the first dash of the rest the first line. -/
def parseHitId (hit_id : List Char) : Option Location :=
  match hit_id.reverse.dropWhile (· ≠ ':') with
  | [] => none
  | _ :: path =>
    let span := (hit_id.reverse.takeWhile (· ≠ ':')).reverse
    match span.dropWhile (· ≠ '-') with
    | [] => none
    | _ :: hi =>
      match parseInt (span.takeWhile (· ≠ '-')), parseInt hi with
      | some lo, some hi => some (path.reverse, lo, hi)
      | _, _ => none

lemma isDigit_of_mem_toDigits {n : ℕ} {c : Char} (h : c ∈ Nat.toDigits 10 n) : c.isDigit = true :=
  Nat.isDigit_of_mem_toDigits (by decide) (by decide) h

lemma ne_of_isDigit {c d : Char} (hc : c.isDigit = true) (hd : d.isDigit = false) : c ≠ d := by
  rintro rfl
  simp [hc] at hd

lemma parseDigits_eq {cs : List Char} (h : ∀ c ∈ cs, c.isDigit = true) (acc : ℕ) :
    parseDigits acc cs = some (Nat.ofDigitChars 10 cs acc) := by
  induction cs generalizing acc with
  | nil => simp [parseDigits]
  | cons c cs ih =>
    have hc := h c List.mem_cons_self
    have hu : c ≠ '_' := ne_of_isDigit hc (by decide)
    rw [parseDigits, if_pos hc, ih fun c hc => h c (List.mem_cons_of_mem _ hc),
      Nat.ofDigitChars_cons]
    · rfl
    · rintro d ds rfl
      exact absurd rfl hu

lemma isSpace_of_isDigit {c : Char} (h : c.isDigit = true) : isSpace c = false := by
  have h9 : 48 ≤ c.toNat ∧ c.toNat ≤ 57 := by
    simpa [Char.isDigit, UInt32.le_iff_toNat_le] using h
  simp only [isSpace, Bool.or_eq_false_iff, Bool.and_eq_false_iff, decide_eq_false_iff_not]
  omega

lemma dropWhile_isSpace {ds : List Char} (h : ∀ c ∈ ds, c.isDigit = true) :
    ds.dropWhile isSpace = ds := by
  cases ds with
  | nil => rfl
  | cons d ds => simp [isSpace_of_isDigit (h d List.mem_cons_self)]

lemma parseNat_toDigits (n : ℕ) : parseNat (Nat.toDigits 10 n) = some n := by
  have h : ∀ c ∈ Nat.toDigits 10 n, c.isDigit = true := fun _ => isDigit_of_mem_toDigits
  have hval : Nat.ofDigitChars 10 (Nat.toDigits 10 n) 0 = n := Nat.ofDigitChars_ten_toDigits
  cases hd : Nat.toDigits 10 n with
  | nil => exact absurd hd Nat.toDigits_ne_nil
  | cons d ds =>
    rw [hd] at h hval
    rw [parseNat, if_pos (h d List.mem_cons_self),
      parseDigits_eq fun c hc => h c (List.mem_cons_of_mem _ hc)]
    rw [Nat.ofDigitChars_cons] at hval
    simpa [digitVal] using hval

lemma parseInt_toDigits (n : ℕ) : parseInt (Nat.toDigits 10 n) = some (n : ℤ) := by
  have h : ∀ c ∈ Nat.toDigits 10 n, c.isDigit = true := fun _ => isDigit_of_mem_toDigits
  have hs : rstrip ((Nat.toDigits 10 n).dropWhile isSpace) = Nat.toDigits 10 n := by
    rw [dropWhile_isSpace h, rstrip, dropWhile_isSpace fun c hc => h c (List.mem_reverse.1 hc),
      List.reverse_reverse]
  have hp := parseNat_toDigits n
  unfold parseInt
  rw [hs]
  cases hd : Nat.toDigits 10 n with
  | nil => exact absurd hd Nat.toDigits_ne_nil
  | cons d ds =>
    rw [hd] at h hp
    have hd' := h d List.mem_cons_self
    split
    · rename_i heq
      obtain ⟨rfl, -⟩ := List.cons.inj heq
      exact absurd hd' (by decide)
    · rename_i heq
      obtain ⟨rfl, -⟩ := List.cons.inj heq
      exact absurd hd' (by decide)
    · rw [hp]
      rfl

lemma span_of_isDigit {ds : List Char} {c : Char} (h : ∀ d ∈ ds, d.isDigit = true)
    (hc : c.isDigit = false) (cs : List Char) :
    (ds ++ c :: cs).takeWhile (· ≠ c) = ds ∧ (ds ++ c :: cs).dropWhile (· ≠ c) = c :: cs := by
  have hds : ∀ d ∈ ds, decide (d ≠ c) = true := fun d hd => by
    simpa using ne_of_isDigit (h d hd) hc
  constructor
  · rw [List.takeWhile_append_of_pos hds]
    simp
  · rw [List.dropWhile_append_of_pos hds]
    simp

/-- A handle gives its place back, whatever the path has in it. -/
lemma parseHitId_makeHitId (path : List Char) (lo hi : ℕ) :
    parseHitId (makeHitId (path, lo, hi)) = some (path, (lo : ℤ), (hi : ℤ)) := by
  let l := Nat.toDigits 10 lo
  let u := Nat.toDigits 10 hi
  have hl : ∀ d ∈ l, d.isDigit = true := fun _ => isDigit_of_mem_toDigits
  have hlo : parseInt l = some (lo : ℤ) := parseInt_toDigits lo
  have hhi : parseInt u = some (hi : ℤ) := parseInt_toDigits hi
  have hid : makeHitId (path, (lo : ℤ), (hi : ℤ)) = path ++ ':' :: (l ++ '-' :: u) := rfl
  have hspan : ∀ c ∈ (l ++ '-' :: u).reverse, decide (c ≠ ':') = true := by
    intro c hc
    rcases List.mem_append.1 (List.mem_reverse.1 hc) with hc | hc
    · simpa using ne_of_isDigit (hl c hc) (by decide)
    · obtain rfl | hc := List.mem_cons.1 hc
      · decide
      · simpa using ne_of_isDigit (isDigit_of_mem_toDigits hc) (by decide)
  have hrev : (makeHitId (path, (lo : ℤ), (hi : ℤ))).reverse =
      (l ++ '-' :: u).reverse ++ ':' :: path.reverse := by
    rw [hid]
    simp
  obtain ⟨htake, hdrop⟩ := span_of_isDigit hl (show '-'.isDigit = false by decide) u
  have hsplit : (makeHitId (path, (lo : ℤ), (hi : ℤ))).reverse.dropWhile (· ≠ ':') =
      ':' :: path.reverse := by
    rw [hrev, List.dropWhile_append_of_pos hspan]
    simp
  have hrest : ((makeHitId (path, (lo : ℤ), (hi : ℤ))).reverse.takeWhile (· ≠ ':')).reverse =
      l ++ '-' :: u := by
    rw [hrev, List.takeWhile_append_of_pos hspan]
    simp
  simp only [parseHitId, hsplit, hrest, htake, hdrop, hlo, hhi, List.reverse_reverse]

/-! ### The store -/

structure Row where
  id : ℕ
  chunk_text : List Char
  file_path : List Char
  language : String
  start_line : ℕ
  end_line : ℕ
  source_id : String
  deriving DecidableEq, Repr

structure Table where
  rows : List Row
  nodup : (rows.map (·.id)).Nodup

/-- The filter of a query on the sources; an empty name does not filter. -/
def visible (sc : Scope) (r : Row) : Bool :=
  sc.sourceId.all (fun sid => sid = "" || r.source_id = sid) && r.source_id ∉ sc.exclude

structure Body where
  file_path : List Char
  start_line : ℤ
  end_line : ℤ
  language : String
  snippet : List Char
  source_id : String
  hit_id : List Char
  deriving DecidableEq, Repr

section Hydrate
variable (table : Table) (sc : Scope)

/-- The chunks that lie within a range of lines, by their first line. -/
def chunksIn (loc : Location) : List Row :=
  (table.rows.filter fun r => r.file_path = loc.1 && loc.2.1 ≤ (r.start_line : ℤ) &&
    (r.end_line : ℤ) ≤ loc.2.2 && visible sc r).insertionSort fun a b => a.start_line ≤ b.start_line

/-- `get_chunk_bodies`, for one place. -/
def getChunkBody (loc : Location) : Option Body :=
  match chunksIn table sc loc with
  | [] => none
  | first :: rows => some
      { file_path := loc.1, start_line := loc.2.1, end_line := loc.2.2, language := first.language,
        snippet := join ((first :: rows).map (·.chunk_text)), source_id := first.source_id,
        hit_id := makeHitId loc }

def hydrateChunks (hit_ids : List (List Char)) : List Body :=
  ((hit_ids.filterMap parseHitId).filterMap (getChunkBody table sc)).map fun b =>
    { b with snippet := dropBlank b.snippet }

end Hydrate

/-! ### A search -/

/-- `ChunkHit`. -/
structure Hit where
  file_path : List Char
  start_line : ℕ
  end_line : ℕ
  language : String
  score : ℚ
  snippet : List Char
  source_id : String
  graph_enhanced : Bool
  deriving DecidableEq, Repr

/-- A row of the store that the ranker returns. -/
structure Found where
  row : Row
  score : ℚ
  graph_enhanced : Bool
  deriving DecidableEq, Repr

def chunkHit (f : Found) : Hit :=
  { file_path := f.row.file_path, start_line := f.row.start_line, end_line := f.row.end_line,
    language := f.row.language, score := f.score, snippet := f.row.chunk_text,
    source_id := f.row.source_id, graph_enhanced := f.graph_enhanced }

/-- The line that a chunk has at a number. -/
def lineOf (start_line : ℕ) (text : List Char) (n : ℕ) : Option (List Char) :=
  if start_line ≤ n then (text.splitOn '\n')[n - start_line]? else none

/-- The number of lines is the one that the range declares. -/
def Exact (start_line end_line : ℕ) (text : List Char) : Prop :=
  start_line + (text.splitOn '\n').length = end_line + 1

instance (start_line end_line : ℕ) (text : List Char) :
    Decidable (Exact start_line end_line text) :=
  inferInstanceAs (Decidable (_ = _))

/-- `lines_by_no`: a later member writes over an earlier one. -/
def linesByNo (members : List Hit) (n : ℕ) : Option (List Char) :=
  members.foldl (fun line h => (lineOf h.start_line h.snippet n).or line) none

/-- The first and the last line of some members. -/
def bounds (members : List Hit) : ℕ × ℕ :=
  ((members.head?.map (·.start_line)).getD 0, (members.map (·.end_line)).foldl max 0)

/-- `_splice_snippets`; a contiguous run has every number of its range. -/
def spliceSnippets (members : List Hit) : Option (List Char) :=
  if ∀ h ∈ members, Exact h.start_line h.end_line h.snippet then
    let (lo, hi) := bounds members
    some (join ((List.range' lo (hi + 1 - lo)).map fun n => (linesByNo members n).getD []))
  else none

section Merge
variable (hits : List Hit)

def byFile (path : List Char) : List (Fin hits.length) :=
  (List.finRange hits.length).filter fun i => hits[i].file_path = path

/-- The hits of a path in the order of their lines, cut where two of them leave a gap. -/
def runs (idxs : List (Fin hits.length)) : List (List (Fin hits.length)) :=
  (idxs.insertionSort fun i j =>
    toLex (hits[i].start_line, hits[i].end_line) ≤ toLex (hits[j].start_line, hits[j].end_line)
    ).splitBy fun i j => hits[j].start_line ≤ hits[i].end_line + 1

def allRuns : List (List (Fin hits.length)) :=
  (hits.map (·.file_path)).dedup.flatMap fun path => runs hits (byFile hits path)

/-- One run, to the hit that stands for it and the place of it. -/
def mergeRun : List (Fin hits.length) → Option (Fin hits.length × Hit)
  | i :: j :: run =>
    let idxs := i :: j :: run
    let members := (idxs.map fun i => hits[i]).insertionSort fun a b => a.start_line ≤ b.start_line
    (spliceSnippets members).map fun spliced =>
      let best := (j :: run).foldl min i
      (best, { hits[best] with
        start_line := (bounds members).1, end_line := (bounds members).2, snippet := spliced,
        score := (members.map (·.score)).foldl max hits[best].score,
        graph_enhanced := members.any (·.graph_enhanced) })
  | _ => none

/-- `_merge_adjacent_hits`. -/
def mergeAdjacentHits : List Hit :=
  let merged := (allRuns hits).filterMap fun run => (mergeRun hits run).map fun m => (run, m)
  ((List.finRange hits.length).filter fun i =>
      !merged.any fun (run, best, _) => i ∈ run && i ≠ best).map fun i =>
    ((merged.find? fun (_, best, _) => best = i).map fun (_, _, hit) => hit).getD hits[i]

end Merge

/-- The hits of a search in full mode, without their headers. -/
def fullHits (found : List Found) : List Hit :=
  (mergeAdjacentHits (found.map chunkHit)).map fun h => { h with snippet := dropBlank h.snippet }

/-- The handles of a search in facet mode. -/
def facetIds (found : List Found) : List (List Char) :=
  (mergeAdjacentHits (found.map chunkHit)).map fun h =>
    makeHitId (h.file_path, h.start_line, h.end_line)

/-- What a search may return: rows of the table that the caller may see, each once. -/
structure IsResult (table : Table) (sc : Scope) (found : List Found) : Prop where
  nodup : (found.map (·.row)).Nodup
  stored : ∀ f ∈ found, f.row ∈ table.rows
  visible : ∀ f ∈ found, visible sc f.row = true

/-- A hydrated body shows what the hit shows. -/
structure Same (b : Body) (h : Hit) : Prop where
  file_path : b.file_path = h.file_path
  start_line : b.start_line = h.start_line
  end_line : b.end_line = h.end_line
  source_id : b.source_id = h.source_id
  snippet : b.snippet = h.snippet

/-! ### Layouts -/

namespace Row

def lineOf (r : Row) (n : ℕ) : Option (List Char) := Hydrate.lineOf r.start_line r.chunk_text n

def Exact (r : Row) : Prop := Hydrate.Exact r.start_line r.end_line r.chunk_text

def key (r : Row) : ℕ ×ₗ ℕ := toLex (r.start_line, r.end_line)

end Row

def firstLine (ms : List Row) : ℕ := (ms.head?.map (·.start_line)).getD 0

def lastLine (ms : List Row) : ℕ := (ms.map (·.end_line)).foldl max 0

/-- The place of some chunks of one path. -/
def place (ms : List Row) : Location :=
  ((ms.head?.map (·.file_path)).getD [], (firstLine ms : ℤ), (lastLine ms : ℤ))

/-- Chunks that a search may show as one hit: one of them, or a contiguous run. -/
structure IsRun (table : Table) (sc : Scope) (ms : List Row) : Prop where
  ne_nil : ms ≠ []
  nodup : ms.Nodup
  stored : ∀ r ∈ ms, r ∈ table.rows
  visible : ∀ r ∈ ms, visible sc r = true
  path : ∀ r ∈ ms, ∀ r' ∈ ms, r.file_path = r'.file_path
  sorted : ms.Pairwise fun a b => a.key ≤ b.key
  chained : ms.IsChain fun a b => b.start_line ≤ a.end_line + 1
  exact : 2 ≤ ms.length → ∀ r ∈ ms, r.Exact

/-- The chunk whose line is shown at a number. -/
def lastAt (ms : List Row) (n : ℕ) : Option Row :=
  (ms.filter fun r => (r.lineOf n).isSome).getLast?

/-- No line of text that is stored in the range of the run is hidden, and the first chunk there is
of the source of each of the run. -/
structure Whole (table : Table) (sc : Scope) (ms : List Row) : Prop where
  shown : ∀ r ∈ chunksIn table sc (place ms), ∀ n l, r.lineOf n = some l → hasText l = true →
    r ∈ lastAt ms n
  source : ∀ f ∈ (chunksIn table sc (place ms)).head?, ∀ m ∈ ms, f.source_id = m.source_id

/-! ### The text of a chunk, line by line -/

lemma hasText_splitOnP {p : Char → Bool} (hp : ∀ c, p c = true → isSpace c = true)
    (s : List Char) : (s.splitOnP p).any hasText = hasText s := by
  induction s with
  | nil => rfl
  | cons c s ih =>
    rw [List.splitOnP_cons_eq_if_modifyHead]
    split
    · rename_i hc
      simp [ih, hasText, hp c hc]
    · obtain ⟨l, ls, hl⟩ := List.exists_cons_of_ne_nil (List.splitOnP_ne_nil p s)
      rw [hl] at ih ⊢
      have ih : (hasText l || ls.any hasText) = hasText s := ih
      have hcons : ∀ t : List Char, hasText (c :: t) = (!isSpace c || hasText t) := fun _ => rfl
      simp [hcons, ← ih, Bool.or_assoc]

lemma isSpace_of_isLineBreak {c : Char} (h : isLineBreak c = true) : isSpace c = true := by
  simp only [isLineBreak, List.mem_cons, List.not_mem_nil, or_false, decide_eq_true_eq] at h
  obtain rfl | rfl | rfl | rfl | rfl | rfl | rfl | rfl | rfl | rfl := h <;> decide

lemma textLines_eq_nil {s : List Char} : textLines s = [] ↔ hasText s = false := by
  rw [← hasText_splitOnP (fun _ => isSpace_of_isLineBreak) s, textLines, List.map_eq_nil_iff,
    filter_splitlines, List.filter_eq_nil_iff, List.any_eq_false]

/-- The lines of text that a chunk has at a number. -/
def textAt (r : Row) (n : ℕ) : List (List Char) := textLines ((r.lineOf n).getD [])

lemma textAt_ne_nil {r : Row} {n : ℕ} :
    textAt r n ≠ [] ↔ ∃ l, r.lineOf n = some l ∧ hasText l = true := by
  rw [textAt, ne_eq, textLines_eq_nil]
  cases r.lineOf n with
  | none => simp [hasText]
  | some l => simp

lemma lineOf_isSome {r : Row} {n : ℕ} : (r.lineOf n).isSome = true ↔
    r.start_line ≤ n ∧ n < r.start_line + (r.chunk_text.splitOn '\n').length := by
  unfold Row.lineOf lineOf
  split
  · simp only [isSome_getElem?]
    omega
  · simp
    omega

lemma Row.Exact.lineOf_isSome {r : Row} (h : r.Exact) {n : ℕ} :
    (r.lineOf n).isSome = true ↔ r.start_line ≤ n ∧ n ≤ r.end_line := by
  have hl : r.start_line + (r.chunk_text.splitOn '\n').length = r.end_line + 1 := h
  rw [Hydrate.lineOf_isSome, hl]
  omega

lemma textLines_chunk (r : Row) : textLines r.chunk_text =
    (List.range' r.start_line (r.chunk_text.splitOn '\n').length).flatMap (textAt r) := by
  have hl : (List.range' r.start_line (r.chunk_text.splitOn '\n').length).map
      (fun n => (r.lineOf n).getD []) = r.chunk_text.splitOn '\n' := by
    apply List.ext_getElem
    · simp
    · intro i hi hi'
      simp [Row.lineOf, lineOf, hi']
  rw [textLines_splitOn]
  conv_lhs => rw [← hl]
  rw [List.flatMap_map]
  rfl

lemma flatMap_filter {α β : Type*} {f : α → List β} {p : α → Bool} {l : List α}
    (h : ∀ a ∈ l, p a = false → f a = []) : (l.filter p).flatMap f = l.flatMap f := by
  induction l with
  | nil => rfl
  | cons a l ih =>
    have ih := ih fun b hb => h b (List.mem_cons_of_mem a hb)
    cases hp : p a with
    | true => rw [List.filter_cons_of_pos hp, List.flatMap_cons, List.flatMap_cons, ih]
    | false =>
      rw [List.filter_cons_of_neg (by simp [hp]), List.flatMap_cons, ih,
        h a List.mem_cons_self hp, List.nil_append]

lemma sorted_range (lo k : ℕ) : (List.range' lo k).Pairwise (· < ·) := List.pairwise_lt_range'

/-- A longer range adds nothing. -/
lemma textLines_range {r : Row} {lo hi : ℕ} (hr : r.Exact) (hlo : lo ≤ r.start_line)
    (hhi : r.end_line ≤ hi) :
    textLines r.chunk_text = (List.range' lo (hi + 1 - lo)).flatMap (textAt r) := by
  have hlen : r.start_line + (r.chunk_text.splitOn '\n').length = r.end_line + 1 := hr
  have hout : ∀ n, (r.lineOf n).isSome = false → textAt r n = [] := by
    intro n hn
    have h0 : r.lineOf n = none := by simpa using hn
    rw [textAt, h0]
    rfl
  have hfilter : (List.range' lo (hi + 1 - lo)).filter (fun n => (r.lineOf n).isSome) =
      List.range' r.start_line (r.chunk_text.splitOn '\n').length := by
    refine List.Pairwise.eq_of_mem_iff ((sorted_range _ _).filter _) (sorted_range _ _) fun n => ?_
    rw [List.mem_filter, hr.lineOf_isSome, List.mem_range'_1, List.mem_range'_1]
    omega
  rw [textLines_chunk, ← hfilter, flatMap_filter fun n _ => hout n]

/-! ### The splice, line by line -/

def lineNumbers (ms : List Row) : List ℕ :=
  List.range' (firstLine ms) (lastLine ms + 1 - firstLine ms)

/-- The lines of text that a run shows at a number. -/
def shownAt (ms : List Row) (n : ℕ) : List (List Char) := ((lastAt ms n).map (textAt · n)).getD []

lemma shownAt_eq {ms : List Row} {n : ℕ} {r : Row} (h : r ∈ lastAt ms n) :
    shownAt ms n = textAt r n := by
  rw [shownAt, Option.mem_def.1 h]
  rfl

lemma mem_lastAt {ms : List Row} {n : ℕ} {r : Row} (h : r ∈ lastAt ms n) :
    r ∈ ms ∧ (r.lineOf n).isSome = true :=
  List.mem_filter.1 (List.mem_of_getLast? h)

/-- A chunk that has a line where another is shown comes before it. -/
lemma before_lastAt {R : Row → Row → Prop} {ms : List Row} (hs : ms.Pairwise R) {n : ℕ} {a b : Row}
    (ha : a ∈ lastAt ms n) (hb : b ∈ ms) (hn : (b.lineOf n).isSome = true) (hab : b ≠ a) :
    R b a := by
  obtain ⟨ys, hys⟩ := List.getLast?_eq_some_iff.1 (Option.mem_def.1 ha)
  have hb : b ∈ ys ++ [a] := hys ▸ List.mem_filter.2 ⟨hb, hn⟩
  have hb : b ∈ ys := by
    rcases List.mem_append.1 hb with hb | hb
    · exact hb
    · exact absurd (List.mem_singleton.1 hb) hab
  have hp : (ys ++ [a]).Pairwise R := hys ▸ hs.filter _
  exact (List.pairwise_append.1 hp).2.2 b hb a List.mem_cons_self

lemma le_foldl_max {l : List ℕ} {a m : ℕ} : m ≤ l.foldl max a ↔ m ≤ a ∨ ∃ b ∈ l, m ≤ b := by
  induction l generalizing a with
  | nil => simp
  | cons b l ih =>
    rw [List.foldl_cons, ih]
    simp [or_assoc]

namespace IsRun

variable {table : Table} {sc : Scope} {ms : List Row}

lemma start_le (h : IsRun table sc ms) {r : Row} (hr : r ∈ ms) : firstLine ms ≤ r.start_line := by
  cases ms with
  | nil => simp at hr
  | cons a ms =>
    obtain rfl | hr := List.mem_cons.1 hr
    · exact le_rfl
    · have hk : a.key ≤ r.key := (List.pairwise_cons.1 h.sorted).1 r hr
      rcases Prod.Lex.le_iff.1 hk with hlt | ⟨heq, -⟩
      · exact le_of_lt hlt
      · exact le_of_eq heq

lemma le_end {r : Row} (hr : r ∈ ms) : r.end_line ≤ lastLine ms :=
  le_foldl_max.2 (.inr ⟨r.end_line, List.mem_map_of_mem hr, le_rfl⟩)

end IsRun

/-- Ranges without a gap between them have every number that they go up to. -/
lemma exists_covering {α : Type*} (first last : α → ℕ) {a : α} {ms : List α} {n : ℕ}
    (hc : (a :: ms).IsChain fun a b => first b ≤ last a + 1) (ha : first a ≤ n)
    (hn : ∃ r ∈ a :: ms, n ≤ last r) : ∃ r ∈ a :: ms, first r ≤ n ∧ n ≤ last r := by
  by_cases hle : n ≤ last a
  · exact ⟨a, List.mem_cons_self, ha, hle⟩
  · obtain ⟨r, hr, hle'⟩ := hn
    have hr : r ∈ ms := (List.mem_cons.1 hr).resolve_left fun h => hle (h ▸ hle')
    cases ms with
    | nil => simp at hr
    | cons b ms =>
      obtain ⟨hab, hc⟩ := List.isChain_cons_cons.1 hc
      obtain ⟨r, hr, hcover⟩ := exists_covering first last hc (by omega) ⟨r, hr, hle'⟩
      exact ⟨r, List.mem_cons_of_mem a hr, hcover⟩

lemma mem_chunksIn {table : Table} {sc : Scope} {p : List Char} {lo hi : ℤ} {r : Row} :
    r ∈ chunksIn table sc (p, lo, hi) ↔ r ∈ table.rows ∧ r.file_path = p ∧
      lo ≤ r.start_line ∧ r.end_line ≤ hi ∧ visible sc r = true := by
  rw [chunksIn, List.mem_insertionSort, List.mem_filter]
  simp [and_assoc]

lemma nodup_chunksIn (table : Table) (sc : Scope) (loc : Location) :
    (chunksIn table sc loc).Nodup :=
  (List.perm_insertionSort _ _).nodup_iff.2 ((List.Nodup.of_map _ table.nodup).filter _)

lemma sorted_chunksIn (table : Table) (sc : Scope) (loc : Location) :
    (chunksIn table sc loc).Pairwise fun a b => a.start_line ≤ b.start_line :=
  List.pairwise_insertionSort _ _

lemma IsRun.mem_chunksIn {table : Table} {sc : Scope} {ms : List Row} (h : IsRun table sc ms)
    {r : Row} (hr : r ∈ ms) : r ∈ chunksIn table sc (place ms) := by
  refine Hydrate.mem_chunksIn.2 ⟨h.stored r hr, ?_, ?_, ?_, h.visible r hr⟩
  · cases ms with
    | nil => simp at hr
    | cons a ms => exact h.path r hr a List.mem_cons_self
  · exact_mod_cast h.start_le hr
  · exact_mod_cast IsRun.le_end hr

lemma isRun_singleton {table : Table} {sc : Scope} {r : Row} (hr : r ∈ table.rows)
    (hv : visible sc r = true) : IsRun table sc [r] where
  ne_nil := by simp
  nodup := by simp
  stored _ h := List.mem_singleton.1 h ▸ hr
  visible _ h := List.mem_singleton.1 h ▸ hv
  path _ h _ h' := by rw [List.mem_singleton.1 h, List.mem_singleton.1 h']
  sorted := by simp
  chained := by simp
  exact h := by simp at h

section Text
variable {table : Table} {sc : Scope} {ms : List Row}

/-- A chunk of the range that is not of the run has no text, if nothing is hidden. -/
lemma Whole.textLines_nil (hw : Whole table sc ms) {r : Row}
    (hr : r ∈ chunksIn table sc (place ms)) (hms : r ∉ ms) : textLines r.chunk_text = [] := by
  rw [textLines_chunk, List.flatMap_eq_nil_iff]
  intro n _
  by_contra hn
  obtain ⟨l, hl, ht⟩ := textAt_ne_nil.1 hn
  exact hms (mem_lastAt (hw.shown r hr n l hl ht)).1

/-- Read by their first lines, the chunks of a range have their lines of text in order. -/
lemma Whole.text_ordered (hrun : IsRun table sc ms) (hexact : ∀ r ∈ ms, r.Exact)
    (hw : Whole table sc ms) (hone : ∀ r ∈ ms, Whole table sc [r]) {a b : Row} {m n : ℕ}
    (ha : a ∈ chunksIn table sc (place ms)) (hb : b ∈ chunksIn table sc (place ms)) (hab : a ≠ b)
    (hle : a.start_line ≤ b.start_line) (hn : textAt a n ≠ []) (hm : textAt b m ≠ []) : n < m := by
  obtain ⟨la, hla, hta⟩ := textAt_ne_nil.1 hn
  obtain ⟨lb, hlb, htb⟩ := textAt_ne_nil.1 hm
  have hla' := hw.shown a ha n la hla hta
  have hlb' := hw.shown b hb m lb hlb htb
  have ham := (mem_lastAt hla').1
  have hbm := (mem_lastAt hlb').1
  have hea := (hexact a ham).lineOf_isSome.1 (mem_lastAt hla').2
  have heb := (hexact b hbm).lineOf_isSome.1 (mem_lastAt hlb').2
  by_contra hlt
  rcases Nat.lt_or_eq_of_le (Nat.le_of_not_lt hlt) with hmn | rfl
  · -- `b` lies within `a`, so that a search that shows `a` alone hides the text of `b`
    have hend : b.end_line ≤ a.end_line := by
      by_cases hbn : n ≤ b.end_line
      · have hk : b.key ≤ a.key := before_lastAt hrun.sorted hla' hbm
          ((hexact b hbm).lineOf_isSome.2 ⟨by omega, hbn⟩) (Ne.symm hab)
        rcases Prod.Lex.le_iff.1 hk with hlt | ⟨-, hle⟩
        · exact absurd hle (Nat.not_le.2 hlt)
        · exact hle
      · omega
    have hb' : b ∈ chunksIn table sc (place [a]) := by
      refine mem_chunksIn.2 ⟨hrun.stored b hbm, hrun.path b hbm a ham, ?_, ?_, hrun.visible b hbm⟩
      · exact_mod_cast hle
      · have hl : lastLine [a] = a.end_line := by simp [lastLine]
        rw [hl]
        exact_mod_cast hend
    have hba := (mem_lastAt ((hone a ham).shown b hb' m lb hlb htb)).1
    exact hab (List.mem_singleton.1 hba).symm
  · exact hab (Option.mem_unique hla' hlb')

/-- If nothing is hidden, the chunks of the range have the lines of text that the splice has. -/
theorem Whole.text_eq (hrun : IsRun table sc ms) (hexact : ∀ r ∈ ms, r.Exact)
    (hw : Whole table sc ms) (hone : ∀ r ∈ ms, Whole table sc [r]) :
    ((chunksIn table sc (place ms)).flatMap fun r => textLines r.chunk_text) =
      (lineNumbers ms).flatMap (shownAt ms) := by
  let numbers (r : Row) : List ℕ := (lineNumbers ms).filter fun n => textAt r n ≠ []
  have htext : ∀ r ∈ chunksIn table sc (place ms), textLines r.chunk_text =
      (numbers r).flatMap (shownAt ms) := by
    intro r hr
    have hshown : (numbers r).flatMap (shownAt ms) = (lineNumbers ms).flatMap (textAt r) := by
      rw [← flatMap_filter (p := fun n => textAt r n ≠ [])
        (l := lineNumbers ms) (f := textAt r) (by simp)]
      refine List.flatMap_congr fun n hn => ?_
      obtain ⟨l, hl, ht⟩ := textAt_ne_nil.1 (of_decide_eq_true (List.mem_filter.1 hn).2)
      exact shownAt_eq (hw.shown r hr n l hl ht)
    rw [hshown]
    by_cases hms : r ∈ ms
    · exact textLines_range (hexact r hms) (hrun.start_le hms) (IsRun.le_end hms)
    · have h0 := hw.textLines_nil hr hms
      rw [h0, eq_comm, List.flatMap_eq_nil_iff]
      intro n _
      by_contra hn
      obtain ⟨l, hl, ht⟩ := textAt_ne_nil.1 hn
      exact hms (mem_lastAt (hw.shown r hr n l hl ht)).1
  have hnumbers : (chunksIn table sc (place ms)).flatMap numbers =
      (lineNumbers ms).filter fun n => shownAt ms n ≠ [] := by
    refine List.Pairwise.eq_of_mem_iff (r := (· < ·)) ?_ ((sorted_range _ _).filter _) fun n => ?_
    · refine List.pairwise_flatMap.2 ⟨fun r _ => (sorted_range _ _).filter _, ?_⟩
      refine ((sorted_chunksIn table sc _).and (nodup_chunksIn table sc _)).imp_of_mem ?_
      rintro a b ha hb ⟨hle, hab⟩ n hn m hm
      exact hw.text_ordered hrun hexact hone ha hb hab hle
        (of_decide_eq_true (List.mem_filter.1 hn).2) (of_decide_eq_true (List.mem_filter.1 hm).2)
    · rw [List.mem_flatMap, List.mem_filter]
      constructor
      · rintro ⟨r, hr, hn⟩
        obtain ⟨hn, ht⟩ := List.mem_filter.1 hn
        obtain ⟨l, hl, htext⟩ := textAt_ne_nil.1 (of_decide_eq_true ht)
        rw [shownAt_eq (hw.shown r hr n l hl htext)]
        exact ⟨hn, ht⟩
      · rintro ⟨hn, ht⟩
        cases hlast : lastAt ms n with
        | none => simp [shownAt, hlast] at ht
        | some r =>
          rw [shownAt_eq hlast] at ht
          exact ⟨r, hrun.mem_chunksIn (mem_lastAt hlast).1, List.mem_filter.2 ⟨hn, ht⟩⟩
  rw [List.flatMap_congr htext, ← List.flatMap_assoc, hnumbers, flatMap_filter (by simp)]

end Text

section Count
variable {table : Table} {sc : Scope} {ms : List Row}

lemma length_text (l : List Row) (f : Row → List (List Char)) (hl : l.Nodup) :
    (l.flatMap f).length = ∑ r ∈ l.toFinset, (f r).length := by
  rw [List.length_flatMap, List.sum_toFinset _ hl]

/-- If the lines of text are as many as the splice has, nothing is hidden. -/
theorem shown_of_text_eq (hrun : IsRun table sc ms) (hexact : ∀ r ∈ ms, r.Exact)
    (h : ((chunksIn table sc (place ms)).flatMap fun r => textLines r.chunk_text) =
      (lineNumbers ms).flatMap (shownAt ms)) :
    ∀ r ∈ chunksIn table sc (place ms), ∀ n l, r.lineOf n = some l → hasText l = true →
      r ∈ lastAt ms n := by
  let R := (lineNumbers ms).toFinset
  have hR : (lineNumbers ms).Nodup := List.nodup_range'
  let C := (chunksIn table sc (place ms)).toFinset
  let M := ms.toFinset
  have hMC : M ⊆ C := fun r hr => List.mem_toFinset.2 (hrun.mem_chunksIn (List.mem_toFinset.1 hr))
  have hmember : ∀ r ∈ M, (textLines r.chunk_text).length = ∑ n ∈ R, (textAt r n).length := by
    intro r hr
    have hr := List.mem_toFinset.1 hr
    have ht : textLines r.chunk_text = (lineNumbers ms).flatMap (textAt r) :=
      textLines_range (hexact r hr) (hrun.start_le hr) (IsRun.le_end hr)
    rw [ht, List.length_flatMap, List.sum_toFinset _ hR]
  have htotal : ∑ r ∈ C \ M, (textLines r.chunk_text).length +
      ∑ n ∈ R, ∑ r ∈ M, (textAt r n).length = ∑ n ∈ R, (shownAt ms n).length := by
    have hl := congrArg List.length h
    rw [length_text _ _ (nodup_chunksIn table sc _), List.length_flatMap,
      ← List.sum_toFinset _ hR] at hl
    rw [← hl, ← Finset.sum_sdiff hMC, Finset.sum_comm, Finset.sum_congr rfl hmember]
  -- what is shown at a number is of one of the members
  have hle : ∀ n ∈ R, (shownAt ms n).length ≤ ∑ r ∈ M, (textAt r n).length := by
    intro n _
    cases hlast : lastAt ms n with
    | none => simp [shownAt, hlast]
    | some r =>
      rw [shownAt_eq hlast]
      exact Finset.single_le_sum (f := fun r => (textAt r n).length) (fun _ _ => Nat.zero_le _)
        (List.mem_toFinset.2 (mem_lastAt hlast).1)
  have hsum := Finset.sum_le_sum hle
  have hout : ∑ r ∈ C \ M, (textLines r.chunk_text).length = 0 := by omega
  have heach := (Finset.sum_eq_sum_iff_of_le hle).1 (by omega)
  intro r hr n l hl ht
  have htext : textAt r n ≠ [] := textAt_ne_nil.2 ⟨l, hl, ht⟩
  have hsome : (r.lineOf n).isSome = true := by rw [hl]; rfl
  by_cases hms : r ∈ ms
  · have hn : n ∈ R := by
      have hb := (hexact r hms).lineOf_isSome.1 hsome
      have hlo := hrun.start_le hms
      have hhi := IsRun.le_end hms
      refine List.mem_toFinset.2 (List.mem_range'_1.2 ?_)
      omega
    have hfilter : ms.filter (fun r => (r.lineOf n).isSome) ≠ [] :=
      List.ne_nil_of_mem (List.mem_filter.2 ⟨hms, hsome⟩)
    obtain ⟨r', hlast⟩ : ∃ r', r' ∈ lastAt ms n :=
      ⟨_, List.getLast?_eq_some_getLast hfilter⟩
    by_cases heq : r' = r
    · exact heq ▸ hlast
    · -- two members have text at one number: the sum is over both of them
      have hpair : ({r, r'} : Finset Row) ⊆ M := by
        intro a ha
        rcases Finset.mem_insert.1 ha with rfl | ha
        · exact List.mem_toFinset.2 hms
        · rw [Finset.mem_singleton.1 ha]
          exact List.mem_toFinset.2 (mem_lastAt hlast).1
      have h2 := Finset.sum_le_sum_of_subset (f := fun r => (textAt r n).length) hpair
      rw [Finset.sum_pair (Ne.symm heq), ← heach n hn, shownAt_eq hlast] at h2
      have hpos := List.length_pos_iff.2 htext
      omega
  · have h0 := (Finset.sum_eq_zero_iff.1 hout) r
      (Finset.mem_sdiff.2 ⟨List.mem_toFinset.2 hr, fun hM => hms (List.mem_toFinset.1 hM)⟩)
    have hnil := List.length_eq_zero_iff.1 h0
    rw [textLines_chunk, List.flatMap_eq_nil_iff] at hnil
    exact absurd (hnil n (List.mem_range'_1.2 (lineOf_isSome.1 hsome))) htext

/-- A chunk that is shown alone has the text of its range, if no other chunk there has any. -/
theorem text_eq_iff_alone {r : Row} (hr : r ∈ table.rows) (hv : visible sc r = true) :
    ((chunksIn table sc (place [r])).flatMap fun r => textLines r.chunk_text) =
      textLines r.chunk_text ↔
    ∀ r' ∈ chunksIn table sc (place [r]), ∀ n l, r'.lineOf n = some l → hasText l = true →
      r' ∈ lastAt [r] n := by
  have hmem : r ∈ chunksIn table sc (place [r]) :=
    (isRun_singleton hr hv).mem_chunksIn List.mem_cons_self
  have hnodup := nodup_chunksIn table sc (place [r])
  constructor
  · intro h r' hr' n l hl ht
    have hsome : (r'.lineOf n).isSome = true := by rw [hl]; rfl
    by_cases heq : r' = r
    · subst heq
      simp [lastAt, hsome]
    · have hlen := congrArg List.length h
      have hr'C : r' ∈ (chunksIn table sc (place [r])).toFinset.erase r :=
        Finset.mem_erase.2 ⟨heq, List.mem_toFinset.2 hr'⟩
      rw [length_text _ _ hnodup, ← Finset.add_sum_erase _ _ (List.mem_toFinset.2 hmem)] at hlen
      have hle := Finset.single_le_sum (f := fun r => (textLines r.chunk_text).length)
        (fun _ _ => Nat.zero_le _) hr'C
      have h0 : textLines r'.chunk_text = [] := List.length_eq_zero_iff.1 (by omega)
      rw [textLines_chunk, List.flatMap_eq_nil_iff] at h0
      exact absurd (h0 n (List.mem_range'_1.2 (lineOf_isSome.1 hsome)))
        (textAt_ne_nil.2 ⟨l, hl, ht⟩)
  · intro h
    have hnil : ∀ r' ∈ chunksIn table sc (place [r]), decide (r' = r) = false →
        textLines r'.chunk_text = [] := by
      intro r' hr' hne
      rw [textLines_chunk, List.flatMap_eq_nil_iff]
      intro n _
      by_contra hn
      obtain ⟨l, hl, ht⟩ := textAt_ne_nil.1 hn
      exact of_decide_eq_false hne (List.mem_singleton.1 (mem_lastAt (h r' hr' n l hl ht)).1)
    rw [← flatMap_filter hnil, List.filter_eq, List.count_eq_one_of_mem hnodup hmem]
    simp

end Count

/-! ### The runs of a search -/

section Search
variable {table : Table} {sc : Scope} {found : List Found}

/-- The row behind a hit. -/
def rowAt (found : List Found) (i : Fin (found.map chunkHit).length) : Row :=
  (found.get (i.cast (List.length_map _))).row

lemma getElem_hits (i : Fin (found.map chunkHit).length) :
    (found.map chunkHit)[i] = chunkHit (found.get (i.cast (List.length_map _))) := by
  simp

lemma rowAt_mem (i : Fin (found.map chunkHit).length) : rowAt found i ∈ found.map (·.row) :=
  List.mem_map_of_mem (List.get_mem found _)

lemma rowAt_injective (h : (found.map (·.row)).Nodup) : Function.Injective (rowAt found) := by
  intro i j hij
  have hrow : ∀ i, rowAt found i = (found.map (·.row)).get (i.cast (by simp)) := fun i => by
    simp [rowAt]
  rw [hrow, hrow] at hij
  exact Fin.cast_injective _ (List.nodup_iff_injective_get.1 h hij)

lemma mem_byFile {path : List Char} {i : Fin (found.map chunkHit).length} :
    i ∈ byFile (found.map chunkHit) path ↔ (rowAt found i).file_path = path := by
  simp [byFile, rowAt, chunkHit]

/-- The text that a run shows. -/
def spliced (ms : List Row) : List Char :=
  join ((lineNumbers ms).map fun n => ((lastAt ms n).bind (·.lineOf n)).getD [])

lemma textLines_spliced (ms : List Row) :
    textLines (spliced ms) = (lineNumbers ms).flatMap (shownAt ms) := by
  rw [spliced, textLines_join, List.flatMap_map]
  refine List.flatMap_congr fun n _ => ?_
  rw [shownAt]
  cases lastAt ms n with
  | none => rfl
  | some r => rfl

lemma linesByNo_eq (l : List Found) (n : ℕ) :
    linesByNo (l.map chunkHit) n = (lastAt (l.map (·.row)) n).bind (·.lineOf n) := by
  induction l using List.reverseRecOn with
  | nil => rfl
  | append_singleton l f ih =>
    have hstep : linesByNo ((l ++ [f]).map chunkHit) n =
        (f.row.lineOf n).or (linesByNo (l.map chunkHit) n) := by
      simp [linesByNo, chunkHit, Row.lineOf]
    rw [hstep, ih, lastAt, lastAt, List.map_append, List.filter_append]
    cases hf : f.row.lineOf n with
    | none => simp [hf]
    | some line => simp [hf]

lemma bounds_eq (l : List Found) :
    bounds (l.map chunkHit) = (firstLine (l.map (·.row)), lastLine (l.map (·.row))) := by
  cases l with
  | nil => rfl
  | cons f l => simp [bounds, firstLine, lastLine, chunkHit, Function.comp_def]

lemma spliceSnippets_eq {l : List Found} {text : List Char}
    (h : spliceSnippets (l.map chunkHit) = some text) : text = spliced (l.map (·.row)) := by
  unfold spliceSnippets at h
  split at h
  · rw [bounds_eq] at h
    refine (Option.some.inj h).symm.trans ?_
    simp only [spliced, lineNumbers, linesByNo_eq]
  · cases h

lemma sublist_of_mem_runs {idxs run : List (Fin (found.map chunkHit).length)}
    (h : run ∈ runs (found.map chunkHit) idxs) :
    run.Sublist (idxs.insertionSort fun i j => (rowAt found i).key ≤ (rowAt found j).key) := by
  have hs := List.sublist_flatten_of_mem h
  rw [runs, List.flatten_splitBy] at hs
  simp only [getElem_hits] at hs
  exact hs

/-- A run is of one path, in the order of its lines and without a gap. -/
theorem isRun_of_mem_allRuns (hf : IsResult table sc found)
    {run : List (Fin (found.map chunkHit).length)} (h : run ∈ allRuns (found.map chunkHit))
    (hexact : ∀ i ∈ run, (rowAt found i).Exact) : IsRun table sc (run.map (rowAt found)) := by
  obtain ⟨path, -, h⟩ := List.mem_flatMap.1 h
  have hsub := sublist_of_mem_runs h
  have hmem : ∀ r ∈ run.map (rowAt found), ∃ f ∈ found, f.row = r := by
    intro r hr
    obtain ⟨i, -, rfl⟩ := List.mem_map.1 hr
    exact List.mem_map.1 (rowAt_mem i)
  have hpath : ∀ r ∈ run.map (rowAt found), r.file_path = path := by
    intro r hr
    obtain ⟨i, hi, rfl⟩ := List.mem_map.1 hr
    exact mem_byFile.1 ((List.mem_insertionSort _).1 (hsub.mem hi))
  refine ⟨?_, ?_, ?_, ?_, ?_, ?_, ?_, ?_⟩
  · rw [ne_eq, List.map_eq_nil_iff]
    exact List.ne_nil_of_mem_splitBy h
  · refine List.Nodup.map (rowAt_injective hf.nodup) (hsub.nodup ?_)
    exact (List.perm_insertionSort _ _).nodup_iff.2 ((List.nodup_finRange _).filter _)
  · intro r hr
    obtain ⟨f, hmem, rfl⟩ := hmem r hr
    exact hf.stored f hmem
  · intro r hr
    obtain ⟨f, hmem, rfl⟩ := hmem r hr
    exact hf.visible f hmem
  · intro r hr r' hr'
    rw [hpath r hr, hpath r' hr']
  · rw [List.pairwise_map]
    exact (List.pairwise_insertionSort _ _).sublist hsub
  · rw [List.isChain_map]
    have hchain := List.isChain_of_mem_splitBy h
    simp only [getElem_hits, decide_eq_true_eq] at hchain
    exact hchain
  · intro _ r hr
    obtain ⟨i, hi, rfl⟩ := List.mem_map.1 hr
    exact hexact i hi

lemma foldl_min_mem {n : ℕ} (i : Fin n) (l : List (Fin n)) : l.foldl min i ∈ i :: l := by
  induction l generalizing i with
  | nil => exact List.mem_cons_self
  | cons j l ih =>
    rw [List.foldl_cons]
    rcases List.mem_cons.1 (ih (min i j)) with h | h
    · rw [h]
      rcases min_choice i j with h | h <;> simp [h]
    · exact List.mem_cons_of_mem _ (List.mem_cons_of_mem _ h)

lemma foldl_min_le {n : ℕ} {i j : Fin n} {l : List (Fin n)} (h : j ∈ i :: l) :
    l.foldl min i ≤ j := by
  induction l generalizing i j with
  | nil => exact (List.mem_singleton.1 h).symm.le
  | cons k l ih =>
    rw [List.foldl_cons]
    obtain rfl | h := List.mem_cons.1 h
    · exact (ih (j := min j k) List.mem_cons_self).trans (min_le_left j k)
    · obtain rfl | h := List.mem_cons.1 h
      · exact (ih (j := min i j) List.mem_cons_self).trans (min_le_right i j)
      · exact ih (List.mem_cons_of_mem _ h)

lemma exact_of_mergeRun {run : List (Fin (found.map chunkHit).length)}
    {m : Fin (found.map chunkHit).length × Hit} (hm : mergeRun (found.map chunkHit) run = some m) :
    ∀ i ∈ run, (rowAt found i).Exact := by
  match run, hm with
  | i :: j :: run, hm =>
    obtain ⟨text, htext, -⟩ := Option.map_eq_some_iff.1 hm
    unfold spliceSnippets at htext
    split at htext
    · rename_i hexact
      intro k hk
      have hk := hexact _ ((List.mem_insertionSort _).2 (List.mem_map_of_mem hk))
      rw [getElem_hits] at hk
      exact hk
    · cases htext

/-- The hit of a run: the place and the text of the run, and the source of one of it. -/
theorem mergeRun_eq {run : List (Fin (found.map chunkHit).length)}
    (hrun : IsRun table sc (run.map (rowAt found)))
    {best : Fin (found.map chunkHit).length} {h : Hit}
    (hm : mergeRun (found.map chunkHit) run = some (best, h)) :
    best ∈ run ∧ (∀ i ∈ run, best ≤ i) ∧ (h.file_path, (h.start_line : ℤ), (h.end_line : ℤ)) = place (run.map (rowAt found)) ∧
      h.source_id = (rowAt found best).source_id ∧ h.snippet = spliced (run.map (rowAt found)) := by
  match run, hm with
  | i :: j :: run, hm =>
    let l := (i :: j :: run).map fun i => found.get (i.cast (List.length_map _))
    have hl : (i :: j :: run).map (fun i => (found.map chunkHit)[i]) = l.map chunkHit := by
      rw [List.map_map]
      exact List.map_congr_left fun i _ => getElem_hits i
    have hrows : (i :: j :: run).map (rowAt found) = l.map (·.row) := by
      rw [List.map_map]
      rfl
    have hsorted := hrun.sorted
    have hstart : (l.map chunkHit).Pairwise fun a b => a.start_line ≤ b.start_line := by
      rw [hrows, List.pairwise_map] at hsorted
      rw [List.pairwise_map]
      refine hsorted.imp fun hk => ?_
      rcases Prod.Lex.le_iff.1 hk with hlt | ⟨heq, -⟩
      · exact le_of_lt hlt
      · exact le_of_eq heq
    unfold mergeRun at hm
    simp only [hl, hstart.insertionSort_eq] at hm
    obtain ⟨text, htext, hm⟩ := Option.map_eq_some_iff.1 hm
    obtain rfl := spliceSnippets_eq htext
    obtain ⟨rfl, rfl⟩ := Prod.mk.inj hm
    have hbest := foldl_min_mem i (j :: run)
    refine ⟨hbest, fun k hk => foldl_min_le hk, ?_, ?_, ?_⟩
    · have hp : (rowAt found ((j :: run).foldl min i)).file_path =
          (place ((i :: j :: run).map (rowAt found))).1 :=
        hrun.path _ (List.mem_map_of_mem hbest) _ List.mem_cons_self
      rw [hrows] at hp ⊢
      simp only [bounds_eq, getElem_hits]
      exact Prod.ext hp rfl
    · simp only [getElem_hits]
      rfl
    · rw [hrows]

lemma mem_mergeAdjacentHits {hits : List Hit} {h : Hit} (hm : h ∈ mergeAdjacentHits hits) :
    (∃ i : Fin hits.length, h = hits[i]) ∨
      ∃ run ∈ allRuns hits, ∃ best, mergeRun hits run = some (best, h) := by
  obtain ⟨i, -, rfl⟩ := List.mem_map.1 hm
  generalize hfind : List.find? _ _ = found
  cases found with
  | none => exact .inl ⟨i, rfl⟩
  | some m =>
    obtain ⟨run, best, h⟩ := m
    have hmem := List.mem_of_find?_eq_some hfind
    obtain ⟨run', hrun, hm⟩ := List.mem_filterMap.1 hmem
    obtain ⟨m, hm, heq⟩ := Option.map_eq_some_iff.1 hm
    obtain ⟨rfl, rfl⟩ := Prod.mk.inj heq
    exact .inr ⟨run', hrun, best, hm⟩

end Search

/-! ### A search and its handles -/

section Agree
variable {table : Table} {sc : Scope} {found : List Found}

/-- The hits of a search, as runs: a row alone, or chunks that were merged. -/
theorem run_of_mem_merge (hf : IsResult table sc found) {h : Hit}
    (hm : h ∈ mergeAdjacentHits (found.map chunkHit)) :
    ∃ ms r, IsRun table sc ms ∧ r ∈ ms ∧ h.source_id = r.source_id ∧
      (h.file_path, (h.start_line : ℤ), (h.end_line : ℤ)) = place ms ∧
      ((ms = [r] ∧ h.snippet = r.chunk_text) ∨
        ((∀ r ∈ ms, r.Exact) ∧ h.snippet = spliced ms)) := by
  rcases mem_mergeAdjacentHits hm with ⟨i, rfl⟩ | ⟨run, hrun, best, hmerge⟩
  · obtain ⟨f, hmem, hrow⟩ := List.mem_map.1 (rowAt_mem i)
    refine ⟨[rowAt found i], rowAt found i, isRun_singleton ?_ ?_, List.mem_cons_self, ?_, ?_,
      .inl ⟨rfl, ?_⟩⟩
    · exact hrow ▸ hf.stored f hmem
    · exact hrow ▸ hf.visible f hmem
    · rw [getElem_hits]
      rfl
    · rw [getElem_hits]
      simp [place, firstLine, lastLine, chunkHit, rowAt]
    · rw [getElem_hits]
      rfl
  · have hexact := exact_of_mergeRun hmerge
    have hms := isRun_of_mem_allRuns hf hrun hexact
    obtain ⟨hbest, -, hplace, hsource, htext⟩ := mergeRun_eq hms hmerge
    refine ⟨_, rowAt found best, hms, List.mem_map_of_mem hbest, hsource, hplace, .inr ⟨?_, htext⟩⟩
    rintro r hr
    obtain ⟨i, hi, rfl⟩ := List.mem_map.1 hr
    exact hexact i hi

/-- What the handle of a hit shows. -/
def body (table : Table) (sc : Scope) (h : Hit) : Option Body :=
  getChunkBody table sc (h.file_path, h.start_line, h.end_line)

lemma hydrateChunks_facetIds : hydrateChunks table sc (facetIds found) =
    ((mergeAdjacentHits (found.map chunkHit)).filterMap (body table sc)).map fun b =>
      { b with snippet := dropBlank b.snippet } := by
  rw [hydrateChunks, facetIds]
  congr 1
  rw [List.filterMap_map, List.filterMap_filterMap]
  refine List.filterMap_congr fun h _ => ?_
  simp [parseHitId_makeHitId, body]

lemma forall₂_filterMap {α β γ : Type*} {f : α → Option β} {g : β → β} {k : α → γ}
    {P : β → γ → Prop} {l : List α} (hf : ∀ a ∈ l, ∃ b, f a = some b) :
    List.Forall₂ P ((l.filterMap f).map g) (l.map k) ↔
      ∀ a ∈ l, ∀ b, f a = some b → P (g b) (k a) := by
  induction l with
  | nil => simp
  | cons a l ih =>
    obtain ⟨b, hb⟩ := hf a List.mem_cons_self
    rw [List.filterMap_cons_some hb, List.map_cons, List.map_cons, List.forall₂_cons,
      ih fun a ha => hf a (List.mem_cons_of_mem _ ha), List.forall_mem_cons]
    simp [hb]

lemma body_eq_some {ms : List Row} {h : Hit} (hms : IsRun table sc ms)
    (hplace : (h.file_path, (h.start_line : ℤ), (h.end_line : ℤ)) = place ms) :
    ∃ first rest, chunksIn table sc (place ms) = first :: rest ∧
      body table sc h = some
        { file_path := h.file_path, start_line := h.start_line, end_line := h.end_line,
          language := first.language, snippet := join ((first :: rest).map (·.chunk_text)),
          source_id := first.source_id,
          hit_id := makeHitId (h.file_path, h.start_line, h.end_line) } := by
  obtain ⟨r, hr⟩ := List.exists_mem_of_ne_nil _ hms.ne_nil
  obtain ⟨first, rest, hc⟩ := List.exists_cons_of_ne_nil (List.ne_nil_of_mem (hms.mem_chunksIn hr))
  refine ⟨first, rest, hc, ?_⟩
  rw [← hplace] at hc
  rw [body, getChunkBody, hc]

/-- What a hit and its handle have to agree on: the source and the lines of text. -/
theorem same_iff (ms : List Row) (h : Hit) (hms : IsRun table sc ms)
    (hplace : (h.file_path, (h.start_line : ℤ), (h.end_line : ℤ)) = place ms) :
    (∀ b, body table sc h = some b → Same { b with snippet := dropBlank b.snippet }
      { h with snippet := dropBlank h.snippet }) ↔
    (∀ f ∈ (chunksIn table sc (place ms)).head?, f.source_id = h.source_id) ∧
      ((chunksIn table sc (place ms)).flatMap fun r => textLines r.chunk_text) =
        textLines h.snippet := by
  obtain ⟨first, rest, hc, hb⟩ := body_eq_some hms hplace
  have htext : textLines (join ((first :: rest).map (·.chunk_text))) =
      (first :: rest).flatMap fun r => textLines r.chunk_text := by
    rw [textLines_join, List.flatMap_map]
  rw [hb, hc]
  constructor
  · intro hs
    have hs := hs _ rfl
    refine ⟨fun f hf => ?_, ?_⟩
    · obtain rfl : first = f := Option.some.inj hf
      exact hs.source_id
    · rw [← htext]
      exact textLines_of_dropBlank hs.snippet
  · rintro ⟨hsource, hlines⟩ b hb
    obtain rfl := Option.some.inj hb
    exact ⟨rfl, rfl, rfl, hsource first rfl, by rw [dropBlank, htext, hlines]; rfl⟩

end Agree

section Every
variable {table : Table} {sc : Scope}

/-- A search that returns these rows. -/
def searchOf (l : List Row) : List Found := l.map fun r => ⟨r, 0, false⟩

lemma rows_searchOf (l : List Row) : (searchOf l).map (·.row) = l := by
  simp [searchOf, Function.comp_def]

lemma isResult_searchOf {ms l : List Row} (hms : IsRun table sc ms) (hl : l.Perm ms) :
    IsResult table sc (searchOf l) where
  nodup := by
    rw [rows_searchOf]
    exact hl.nodup_iff.2 hms.nodup
  stored f hf := by
    obtain ⟨r, hr, rfl⟩ := List.mem_map.1 hf
    exact hms.stored r (hl.mem_iff.1 hr)
  visible f hf := by
    obtain ⟨r, hr, rfl⟩ := List.mem_map.1 hf
    exact hms.visible r (hl.mem_iff.1 hr)

lemma map_rowAt (l : List Row) :
    (List.finRange ((searchOf l).map chunkHit).length).map (rowAt (searchOf l)) = l := by
  apply List.ext_getElem
  · simp [searchOf]
  · intro i hi hi'
    simp [rowAt, searchOf]

lemma mergeAdjacentHits_singleton (h : Hit) : mergeAdjacentHits [h] = [h] := by
  have hfin : List.finRange 1 = [0] := rfl
  have hfile : byFile [h] h.file_path = [0] := by
    have hall : ∀ i ∈ List.finRange [h].length, decide ([h][i].file_path = h.file_path) = true := by
      simp
    exact List.filter_eq_self.2 hall
  have hpaths : [h.file_path].dedup = [h.file_path] :=
    List.dedup_eq_self.2 (List.nodup_singleton _)
  have hruns : allRuns [h] = [[0]] := by
    rw [allRuns, List.map_singleton, hpaths, List.flatMap_singleton, hfile]
    rfl
  simp [mergeAdjacentHits, hruns, mergeRun, hfin]

/-- The place of some rows of a path depends on their lines alone. -/
lemma place_eq_keys {ms : List Row} {p : List Char} (hp : ∀ r ∈ ms, r.file_path = p)
    (hne : ms ≠ []) :
    place ms = (p, ((((ms.map Row.key).head?.map fun k => (ofLex k).1).getD 0 : ℕ) : ℤ),
      ((((ms.map Row.key).map fun k => (ofLex k).2).foldl max 0 : ℕ) : ℤ)) := by
  obtain ⟨a, ms, rfl⟩ := List.exists_cons_of_ne_nil hne
  rw [← hp a List.mem_cons_self, List.map_map]
  rfl

/-- Whatever the order of its rows, a search of a run is one hit, with the source of the first. -/
theorem merge_of_isRun {ms l : List Row} (hms : IsRun table sc ms) (h2 : 2 ≤ ms.length)
    (hl : l.Perm ms) :
    ∃ ms', ms'.Perm ms ∧ IsRun table sc ms' ∧ place ms' = place ms ∧ (l = ms → ms' = ms) ∧
      ∃ h ∈ mergeAdjacentHits ((searchOf l).map chunkHit),
        (∀ r ∈ l.head?, h.source_id = r.source_id) ∧ h.snippet = spliced ms' ∧
        (h.file_path, (h.start_line : ℤ), (h.end_line : ℤ)) = place ms' := by
  let found := searchOf l
  let hits := found.map chunkHit
  have hlen : hits.length = ms.length := by simp [hits, found, searchOf, hl.length_eq]
  obtain ⟨p, hp⟩ : ∃ p, ∀ r ∈ ms, r.file_path = p := by
    obtain ⟨a, ha⟩ := List.exists_mem_of_ne_nil _ hms.ne_nil
    exact ⟨a.file_path, fun r hr => hms.path r hr a ha⟩
  have hpath : ∀ i : Fin hits.length, (rowAt found i).file_path = p := fun i => by
    have hi : rowAt found i ∈ found.map (·.row) := rowAt_mem i
    rw [rows_searchOf] at hi
    exact hp _ (hl.mem_iff.1 hi)
  let run := (List.finRange hits.length).insertionSort fun i j =>
    (rowAt found i).key ≤ (rowAt found j).key
  have hperm : (run.map (rowAt found)).Perm ms := by
    have h := (List.perm_insertionSort (fun i j => (rowAt found i).key ≤ (rowAt found j).key)
      (List.finRange hits.length)).map (rowAt found)
    rw [map_rowAt] at h
    exact h.trans hl
  have hsorted : (run.map (rowAt found)).Pairwise fun a b => a.key ≤ b.key := by
    rw [List.pairwise_map]
    exact List.pairwise_insertionSort _ _
  -- the same rows in the order of their lines: they have the same lines
  have hkeys : (run.map (rowAt found)).map Row.key = ms.map Row.key :=
    List.Perm.eq_of_pairwise' (List.pairwise_map.2 hsorted) (List.pairwise_map.2 hms.sorted)
      (hperm.map _)
  have hchain : (run.map (rowAt found)).IsChain fun a b => b.start_line ≤ a.end_line + 1 := by
    have hms := hms.chained
    rw [show (fun a b : Row => b.start_line ≤ a.end_line + 1) = fun a b : Row =>
      (ofLex b.key).1 ≤ (ofLex a.key).2 + 1 from rfl, ← List.isChain_map Row.key
      (R := fun a b => (ofLex b).1 ≤ (ofLex a).2 + 1)] at hms ⊢
    rw [hkeys]
    exact hms
  have hrunlen : 2 ≤ run.length := by
    simpa [run, hlen] using h2
  have hall : allRuns hits = [run] := by
    have hpaths : hits.map (·.file_path) = List.replicate hits.length p := by
      refine List.eq_replicate_iff.2 ⟨by simp, fun q hq => ?_⟩
      obtain ⟨h, hh, rfl⟩ := List.mem_map.1 hq
      obtain ⟨i, hi, rfl⟩ := List.mem_iff_getElem.1 hh
      exact of_decide_eq_true (List.mem_filter.1 (mem_byFile.2 (hpath ⟨i, hi⟩))).2
    have hfile : byFile hits p = List.finRange hits.length :=
      List.filter_eq_self.2 fun i _ => (List.mem_filter.1 (mem_byFile.2 (hpath i))).2
    have hsplit : runs hits (List.finRange hits.length) = [run] := by
      have hrunchain : run.IsChain fun i j =>
          decide ((rowAt found j).start_line ≤ (rowAt found i).end_line + 1) = true := by
        simpa only [List.isChain_map, decide_eq_true_eq] using hchain
      have hne : run ≠ [] := List.ne_nil_of_length_pos (by omega)
      have hsplit := List.splitBy_of_isChain hne hrunchain
      simp only [runs, hits, getElem_hits]
      exact hsplit
    rw [allRuns, hpaths, List.replicate_dedup (by omega), List.flatMap_singleton, hfile, hsplit]
  have hrun : run ∈ allRuns hits := hall ▸ List.mem_cons_self
  have hexact : ∀ i ∈ run, (rowAt found i).Exact := fun i hi =>
    hms.exact h2 _ (hperm.mem_iff.1 (List.mem_map_of_mem hi))
  have hrow := isRun_of_mem_allRuns (isResult_searchOf hms hl) hrun hexact
  obtain ⟨⟨best, h⟩, hmerge⟩ : ∃ m, mergeRun hits run = some m := by
    match run, hrunlen, hexact with
    | i :: j :: run, _, hexact =>
      have hs : (spliceSnippets (((i :: j :: run).map fun i => hits[i]).insertionSort
          fun a b => a.start_line ≤ b.start_line)).isSome = true := by
        rw [spliceSnippets, if_pos]
        · rfl
        · intro h hh
          obtain ⟨k, hk, rfl⟩ := List.mem_map.1 ((List.mem_insertionSort _).1 hh)
          rw [getElem_hits]
          exact hexact k hk
      obtain ⟨text, htext⟩ := Option.isSome_iff_exists.1 hs
      exact ⟨_, by rw [mergeRun, htext]; rfl⟩
  obtain ⟨hbest, hmin, hplace, hsource, htext⟩ := mergeRun_eq hrow hmerge
  refine ⟨run.map (rowAt found), hperm, hrow, ?_, ?_, h, ?_, ?_, htext, hplace⟩
  · rw [place_eq_keys hp hms.ne_nil, ← hkeys]
    exact place_eq_keys (fun r hr => hp r (hperm.mem_iff.1 hr)) hrow.ne_nil
  · rintro rfl
    have hid : run = List.finRange hits.length := by
      refine List.Pairwise.insertionSort_eq ?_
      have hs := hms.sorted
      rw [← map_rowAt l, List.pairwise_map] at hs
      exact hs
    rw [hid, map_rowAt]
  · have hmerged : (allRuns hits).filterMap
        (fun run => (mergeRun hits run).map fun m => (run, m)) = [(run, best, h)] := by
      rw [hall, List.filterMap_cons, hmerge]
      rfl
    have hmem : h ∈ mergeAdjacentHits hits := by
      simp only [mergeAdjacentHits, hmerged]
      refine List.mem_map.2 ⟨best, List.mem_filter.2 ⟨List.mem_finRange best, ?_⟩, ?_⟩
      · simp
      · simp
    exact hmem
  · intro r hr
    have hpos : 0 < hits.length := by omega
    have h0 : (⟨0, hpos⟩ : Fin hits.length) ∈ run :=
      (List.mem_insertionSort _).2 (List.mem_finRange _)
    have hbest0 : best = ⟨0, hpos⟩ := Fin.le_antisymm (hmin _ h0) (Nat.zero_le _)
    cases l with
    | nil => cases hr
    | cons a l =>
      obtain rfl : a = r := Option.some.inj hr
      rw [hsource, hbest0]
      rfl

/-- Every search shows in full mode what its handles show, exactly where, for every run that a
search may show as one hit, no text stored in the range of it is hidden and the first chunk there
is of the source of each of it. -/
theorem hydrate_eq_full_iff (table : Table) (sc : Scope) :
    (∀ found, IsResult table sc found →
      List.Forall₂ Same (hydrateChunks table sc (facetIds found)) (fullHits found)) ↔
    ∀ ms, IsRun table sc ms → Whole table sc ms := by
  have hiff : ∀ found, IsResult table sc found →
      (List.Forall₂ Same (hydrateChunks table sc (facetIds found)) (fullHits found) ↔
        ∀ h ∈ mergeAdjacentHits (found.map chunkHit), ∀ b, body table sc h = some b →
          Same { b with snippet := dropBlank b.snippet }
            { h with snippet := dropBlank h.snippet }) := by
    intro found hf
    rw [hydrateChunks_facetIds, fullHits]
    refine forall₂_filterMap fun h hh => ?_
    obtain ⟨ms, _, hms, -, -, hplace, -⟩ := run_of_mem_merge hf hh
    obtain ⟨_, _, -, hb⟩ := body_eq_some hms hplace
    exact ⟨_, hb⟩
  constructor
  · intro hall ms hms
    by_cases h2 : 2 ≤ ms.length
    · constructor
      · obtain ⟨ms', -, -, -, heq, h, hh, -, htext, hplace⟩ :=
          merge_of_isRun hms h2 (List.Perm.refl ms)
        rw [heq rfl] at htext hplace
        have hf := isResult_searchOf hms (List.Perm.refl ms)
        have hsame := (same_iff ms h hms hplace).1 ((hiff _ hf).1 (hall _ hf) h hh)
        refine shown_of_text_eq hms (hms.exact h2) ?_
        rw [hsame.2, htext, textLines_spliced]
      · intro f hfirst m hm
        have hperm : (m :: ms.erase m).Perm ms := (List.perm_cons_erase hm).symm
        obtain ⟨ms', -, hms', hp, -, h, hh, hsource, -, hplace⟩ := merge_of_isRun hms h2 hperm
        have hf := isResult_searchOf hms hperm
        have hsame := (same_iff ms' h hms' hplace).1 ((hiff _ hf).1 (hall _ hf) h hh)
        rw [hp] at hsame
        exact (hsame.1 f hfirst).trans (hsource m rfl)
    · obtain ⟨r, rfl⟩ : ∃ r, ms = [r] := by
        match ms, hms.ne_nil, h2 with
        | [r], _, _ => exact ⟨r, rfl⟩
        | _ :: _ :: _, _, h2 => exact absurd (by simp) h2
      have hf := isResult_searchOf hms (List.Perm.refl [r])
      have hh : chunkHit ⟨r, 0, false⟩ ∈ mergeAdjacentHits ((searchOf [r]).map chunkHit) := by
        rw [searchOf, List.map_singleton, List.map_singleton, mergeAdjacentHits_singleton]
        exact List.mem_singleton_self _
      have hsame := (same_iff [r] _ hms (by simp [chunkHit, place, firstLine, lastLine])).1
        ((hiff _ hf).1 (hall _ hf) _ hh)
      have hr : r ∈ [r] := List.mem_singleton_self r
      constructor
      · exact (text_eq_iff_alone (hms.stored r hr) (hms.visible r hr)).1 hsame.2
      · intro f hfirst m hm
        obtain rfl := List.mem_singleton.1 hm
        exact hsame.1 f hfirst
  · intro hwhole found hf
    refine (hiff found hf).2 fun h hh => ?_
    obtain ⟨ms, r, hms, hr, hsource, hplace, htext⟩ := run_of_mem_merge hf hh
    have hw := hwhole ms hms
    refine (same_iff ms h hms hplace).2 ⟨fun f hf => (hw.source f hf r hr).trans hsource.symm, ?_⟩
    rcases htext with ⟨rfl, htext⟩ | ⟨hexact, htext⟩
    · rw [htext]
      exact (text_eq_iff_alone (hms.stored r hr) (hms.visible r hr)).2 hw.shown
    · rw [htext, textLines_spliced]
      exact hw.text_eq hms hexact fun m hm =>
        hwhole [m] (isRun_singleton (hms.stored m hm) (hms.visible m hm))

/-! Two chunks that a cut in the middle of a line separates: a search that finds both shows the
second half of the line alone. -/

def cutBefore : Row := ⟨1, "x = f(\n  1,".toList, "a.py".toList, "python", 1, 2, "s"⟩

def cutAfter : Row := ⟨2, " 2)\ny = 3".toList, "a.py".toList, "python", 2, 3, "s"⟩

def cutTable : Table := ⟨[cutBefore, cutAfter], by decide⟩

lemma snippets_eq {bs : List Body} {hs : List Hit} (h : List.Forall₂ Same bs hs) :
    bs.map (·.snippet) = hs.map (·.snippet) := by
  induction h with
  | nil => rfl
  | cons hb _ ih => rw [List.map_cons, List.map_cons, ih, hb.snippet]

theorem cut_line_hidden :
    ¬ ∀ (table : Table) (sc : Scope) (found : List Found), IsResult table sc found →
      List.Forall₂ Same (hydrateChunks table sc (facetIds found)) (fullHits found) := by
  intro h
  have hf : IsResult cutTable ⟨none, []⟩ [⟨cutBefore, 1, false⟩, ⟨cutAfter, 0, false⟩] :=
    ⟨by decide, by decide, by decide⟩
  exact absurd (snippets_eq (h _ _ _ hf)) (by decide +kernel)

end Every

end Treeweft.Hydrate
