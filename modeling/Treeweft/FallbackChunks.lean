import Treeweft.SplicedText

/-!
The fallback splitter at any limit.

A chunk is a run of whole lines. The buffer is flushed before a line that would overfill it, so that
only a single line makes a chunk over the limit, and what is left of the buffer at the end is a chunk
unless it is blank.
-/

namespace Treeweft.FallbackChunks

open Treeweft.Indexer Treeweft.SplicedText Treeweft.Paths

section Model
variable (limit : ℤ) (filePath : FilePath) (lang : String)

/-- One line: a buffer it would overfill is flushed first. -/
def step (s : CharState) (l : List Char × ℕ) : CharState :=
  if limit < s.buf.length + l.1.length ∧ s.buf ≠ [] then
    ⟨flush filePath lang s l.2, l.1 ++ ['\n'], l.2 + 1⟩
  else { s with buf := s.buf ++ l.1 ++ ['\n'] }

def characterChunks (source : String) : List Chunk :=
  let lines := splitLines source.toList
  let s := lines.zipIdx.foldl (step limit filePath lang) ⟨[], [], 1⟩
  if s.buf.any fun c => !isSpace c then flush filePath lang s lines.length else s.results

/-- The limit of the configuration as it comes. -/
lemma characterChunks_default (source : String) :
    characterChunks fallbackChunkChars filePath lang source =
      Indexer.characterChunks filePath lang source := by
  have hstep : step fallbackChunkChars filePath lang = charStep filePath lang := by
    funext s l
    rw [step, charStep]
    refine if_congr (and_congr_left' ?_) rfl rfl
    omega
  rw [characterChunks, Indexer.characterChunks, hstep]

/-! ### Runs of lines -/

/-- The chunk of some lines, with `k` lines before them. -/
def chunkOf (k : ℕ) (run : List (List Char)) : Chunk :=
  ⟨String.ofList (rstrip (run.flatMap nl)), filePath, lang, k + 1, k + run.length⟩

def chunksOf : ℕ → List (List (List Char)) → List Chunk
  | _, [] => []
  | k, run :: runs => chunkOf filePath lang k run :: chunksOf (k + run.length) runs

lemma chunksOf_append (k : ℕ) (runs : List (List (List Char))) (run : List (List Char)) :
    chunksOf filePath lang k (runs ++ [run]) =
      chunksOf filePath lang k runs ++ [chunkOf filePath lang (k + runs.flatten.length) run] := by
  induction runs generalizing k with
  | nil => rfl
  | cons r runs ih =>
    rw [List.cons_append, chunksOf, ih, chunksOf, List.flatten_cons, List.length_append,
      Nat.add_assoc]
    rfl

/-- A run of one line, or of lines that fit the limit with their last newline. -/
def Sized (run : List (List Char)) : Prop :=
  run.length ≤ 1 ∨ ((run.flatMap nl).length : ℤ) ≤ limit + 1

/-- The state after some lines: the runs that have been flushed, and the lines of the buffer. -/
structure Inv (past : List (List Char)) (s : CharState) (runs : List (List (List Char)))
    (lines : List (List Char)) : Prop where
  past : past = runs.flatten ++ lines
  results : s.results = chunksOf filePath lang 0 runs
  buf : s.buf = lines.flatMap nl
  start : s.startLine = runs.flatten.length + 1
  flushed : ∀ run ∈ runs, run ≠ [] ∧ Sized limit run
  sized : Sized limit lines

variable {limit filePath lang} {past : List (List Char)} {s : CharState}
  {runs : List (List (List Char))} {lines : List (List Char)}

lemma flatMap_nl_ne_nil (h : lines ≠ []) : lines.flatMap nl ≠ [] := by
  obtain ⟨l, ls, rfl⟩ := List.exists_cons_of_ne_nil h
  rw [List.flatMap_cons, nl]
  simp

/-- The buffer becomes the chunk of its lines. -/
lemma Inv.flush (h : Inv limit filePath lang past s runs lines) :
    flush filePath lang s past.length = chunksOf filePath lang 0 (runs ++ [lines]) := by
  rw [Indexer.flush, chunksOf_append, h.results, h.buf, h.start, chunkOf, Nat.zero_add, h.past,
    List.length_append]

lemma Inv.step (h : Inv limit filePath lang past s runs lines) (l : List Char) :
    ∃ runs' lines', Inv limit filePath lang (past ++ [l])
      (step limit filePath lang s (l, past.length)) runs' lines' := by
  have hnil : s.buf ≠ [] → lines ≠ [] := by
    rintro hbuf rfl
    exact hbuf h.buf
  rw [FallbackChunks.step]
  split
  case isTrue hfull =>
    refine ⟨runs ++ [lines], [l], ?_, h.flush, ?_, ?_, ?_, .inl le_rfl⟩
    · rw [h.past, List.flatten_append, List.flatten_singleton]
    · rw [List.flatMap_singleton, nl]
    · rw [List.flatten_append, List.flatten_singleton, ← h.past]
    · intro run hrun
      obtain hrun | hrun := List.mem_append.mp hrun
      · exact h.flushed run hrun
      · obtain rfl := List.mem_singleton.mp hrun
        exact ⟨hnil hfull.2, h.sized⟩
  case isFalse hfit =>
    refine ⟨runs, lines ++ [l], ?_, h.results, ?_, h.start, h.flushed, ?_⟩
    · rw [h.past, List.append_assoc]
    · rw [h.buf, List.flatMap_append, List.flatMap_singleton, List.append_assoc]
      rfl
    · by_cases hbuf : s.buf = []
      · -- the buffer was empty, and the line alone may be of any length
        refine .inl ?_
        rw [h.buf] at hbuf
        have : lines = [] := by
          by_contra hne
          exact flatMap_nl_ne_nil hne hbuf
        rw [this]
        exact le_rfl
      · have hle : ¬ limit < s.buf.length + l.length := fun hlt => hfit ⟨hlt, hbuf⟩
        refine .inr ?_
        rw [h.buf] at hle
        rw [List.flatMap_append, List.flatMap_singleton, nl, List.length_append, List.length_append,
          List.length_singleton]
        push_cast
        omega

lemma Inv.fold (h : Inv limit filePath lang past s runs lines) (after : List (List Char)) :
    ∃ runs' lines', Inv limit filePath lang (past ++ after)
      ((after.zipIdx past.length).foldl (FallbackChunks.step limit filePath lang) s)
      runs' lines' := by
  induction after generalizing past s runs lines with
  | nil => exact ⟨runs, lines, by rwa [List.append_nil]⟩
  | cons l after ih =>
    obtain ⟨runs', lines', h'⟩ := h.step l
    have hfold := ih h'
    rw [List.length_append, List.length_singleton, List.append_assoc] at hfold
    exact hfold

/-- The chunks are those of some runs of lines, and what follows the last is blank. -/
lemma exists_runs (limit : ℤ) (filePath : FilePath) (lang source : String) :
    ∃ runs tail, splitLines source.toList = runs.flatten ++ tail ∧
      (∀ l ∈ tail, ∀ c ∈ l, isSpace c = true) ∧
      characterChunks limit filePath lang source = chunksOf filePath lang 0 runs ∧
      ∀ run ∈ runs, run ≠ [] ∧ Sized limit run := by
  have hinit : Inv limit filePath lang [] ⟨[], [], 1⟩ [] [] :=
    ⟨rfl, rfl, rfl, rfl, fun _ h => absurd h List.not_mem_nil, .inl (Nat.zero_le 1)⟩
  obtain ⟨runs, lines, h⟩ := hinit.fold (splitLines source.toList)
  rw [characterChunks]
  split
  case isTrue hany =>
    refine ⟨runs ++ [lines], [], ?_, fun _ h => absurd h List.not_mem_nil, h.flush, ?_⟩
    · rw [List.append_nil, List.flatten_append, List.flatten_singleton]
      exact h.past
    · intro run hrun
      obtain hrun | hrun := List.mem_append.mp hrun
      · exact h.flushed run hrun
      · obtain rfl := List.mem_singleton.mp hrun
        refine ⟨?_, h.sized⟩
        rintro rfl
        have hbuf := h.buf
        rw [List.flatMap_nil] at hbuf
        rw [List.length_nil] at hbuf
        rw [hbuf] at hany
        exact absurd hany Bool.false_ne_true
  case isFalse hblank =>
    refine ⟨runs, lines, h.past, fun l hl c hc => ?_, h.results, h.flushed⟩
    by_contra hspace
    refine hblank (List.any_eq_true.mpr ⟨c, ?_, by simpa using hspace⟩)
    have hbuf := h.buf
    rw [List.length_nil] at hbuf
    rw [hbuf, List.mem_flatMap]
    exact ⟨l, hl, List.mem_append_left _ hc⟩

/-! ### Tiling -/

/-- The chunks cover the lines after line `a` up to line `b`, one after the other. -/
def Tiles : ℕ → ℕ → List Chunk → Prop
  | a, b, [] => a = b
  | a, b, c :: cs => c.startLine = a + 1 ∧ c.startLine ≤ c.endLine ∧ Tiles c.endLine b cs

instance decidableTiles : (a b : ℕ) → (cs : List Chunk) → Decidable (Tiles a b cs)
  | a, b, [] => inferInstanceAs (Decidable (a = b))
  | _, b, c :: cs =>
    have := decidableTiles c.endLine b cs
    inferInstanceAs (Decidable (_ ∧ _ ∧ _))

/-- A source is some texts, each with white space after it. -/
def Recovered (source : List Char) (texts : List (List Char)) : Prop :=
  ∃ blanks : List (List Char), blanks.length = texts.length ∧
    (∀ b ∈ blanks, ∀ c ∈ b, isSpace c = true) ∧
    source = (List.zipWith (· ++ ·) texts blanks).flatten

variable (filePath lang) in
lemma tiles_chunksOf (k : ℕ) {runs : List (List (List Char))} (h : ∀ run ∈ runs, run ≠ []) :
    Tiles k (k + runs.flatten.length) (chunksOf filePath lang k runs) := by
  induction runs generalizing k with
  | nil => rfl
  | cons run runs ih =>
    have hpos := List.length_pos_iff.mpr (h run List.mem_cons_self)
    rw [List.flatten_cons, List.length_append, ← Nat.add_assoc]
    refine ⟨rfl, ?_, ih (k + run.length) fun r hr => h r (List.mem_cons_of_mem _ hr)⟩
    change k + 1 ≤ k + run.length
    omega

/-- What stripping takes away is white space, the newline of a last line included. -/
lemma exists_blank {run : List (List Char)} (h : run ≠ []) :
    ∃ ws, (∀ c ∈ ws, isSpace c = true) ∧
      run.flatMap nl = rstrip (run.flatMap nl) ++ (ws ++ ['\n']) := by
  obtain ⟨cs, hcs⟩ := (flatMap_nl_eq run).resolve_left (flatMap_nl_ne_nil h)
  rw [hcs]
  exact exists_rstrip cs

/-- Blank lines after white space are white space with a last newline. -/
lemma exists_blank_tail {ws : List Char} (hws : ∀ c ∈ ws, isSpace c = true)
    {tail : List (List Char)} (htail : ∀ l ∈ tail, ∀ c ∈ l, isSpace c = true) :
    ∃ w, (∀ c ∈ w, isSpace c = true) ∧ ws ++ ['\n'] ++ tail.flatMap nl = w ++ ['\n'] := by
  obtain hnil | ⟨cs, hcs⟩ := flatMap_nl_eq tail
  · exact ⟨ws, hws, by rw [hnil, List.append_nil]⟩
  · refine ⟨ws ++ ['\n'] ++ cs, fun c hc => ?_, by rw [hcs, ← List.append_assoc]⟩
    have hnew : isSpace '\n' = true := by decide
    obtain hc | hc := List.mem_append.mp hc
    · obtain hc | hc := List.mem_append.mp hc
      · exact hws c hc
      · rw [List.mem_singleton.mp hc]
        exact hnew
    · have hin : c ∈ tail.flatMap nl := hcs ▸ List.mem_append_left _ hc
      obtain ⟨l, hl, hc⟩ := List.mem_flatMap.mp hin
      obtain hc | hc := List.mem_append.mp hc
      · exact htail l hl c hc
      · rw [List.mem_singleton.mp hc]
        exact hnew

lemma length_rstrip_lt {run : List (List Char)} (h : run ≠ []) :
    (rstrip (run.flatMap nl)).length < (run.flatMap nl).length := by
  obtain ⟨ws, -, hws⟩ := exists_blank h
  have := congrArg List.length hws
  simp only [List.length_append, List.length_singleton] at this
  omega

/-- Only a single line makes a chunk over the limit. -/
lemma sized_chunksOf (k : ℕ) {runs : List (List (List Char))}
    (h : ∀ run ∈ runs, run ≠ [] ∧ Sized limit run) :
    ∀ c ∈ chunksOf filePath lang k runs,
      (c.text.toList.length : ℤ) ≤ limit ∨ c.startLine = c.endLine := by
  induction runs generalizing k with
  | nil => exact fun _ h => absurd h List.not_mem_nil
  | cons run runs ih =>
    intro c hc
    obtain rfl | hc := List.mem_cons.mp hc
    · obtain ⟨hne, hsize⟩ := h run List.mem_cons_self
      have hlt := length_rstrip_lt hne
      have hpos := List.length_pos_iff.mpr hne
      rw [chunkOf, String.toList_ofList]
      obtain hone | hfit := hsize
      · exact .inr (by dsimp only; omega)
      · exact .inl (by omega)
    · exact ih _ (fun r hr => h r (List.mem_cons_of_mem _ hr)) c hc

lemma recovered_chunksOf (k : ℕ) {source : List Char} {runs : List (List (List Char))}
    {tail : List (List Char)} (hne : runs ≠ []) (h : ∀ run ∈ runs, run ≠ [])
    (htail : ∀ l ∈ tail, ∀ c ∈ l, isSpace c = true)
    (hsource : source ++ ['\n'] = (runs.flatten ++ tail).flatMap nl) :
    Recovered source ((chunksOf filePath lang k runs).map fun c => c.text.toList) := by
  induction runs generalizing k source with
  | nil => exact absurd rfl hne
  | cons run runs ih =>
    obtain ⟨ws, hws, hrun⟩ := exists_blank (h run List.mem_cons_self)
    rw [List.flatten_cons, List.append_assoc, List.flatMap_append, hrun] at hsource
    rw [chunksOf, List.map_cons, chunkOf, String.toList_ofList]
    obtain rfl | hruns := eq_or_ne runs []
    · -- the last chunk takes the blank lines at the end
      obtain ⟨w, hw, hend⟩ := exists_blank_tail hws htail
      rw [List.flatten_nil, List.nil_append, List.append_assoc, hend, ← List.append_assoc] at hsource
      refine ⟨[w], rfl, fun b hb => List.mem_singleton.mp hb ▸ hw, ?_⟩
      rw [List.append_cancel_right hsource]
      exact (List.append_nil _).symm
    · obtain ⟨source', hsource'⟩ := (flatMap_nl_eq (runs.flatten ++ tail)).resolve_left
        (flatMap_nl_ne_nil fun hnil => by
          obtain ⟨r, rs, rfl⟩ := List.exists_cons_of_ne_nil hruns
          have := h r (List.mem_cons_of_mem _ List.mem_cons_self)
          rw [List.flatten_cons, List.append_assoc] at hnil
          exact this (List.append_eq_nil_iff.mp hnil).1)
      obtain ⟨blanks, hlen, hblank, hrest⟩ := ih (k + run.length) hruns
        (fun r hr => h r (List.mem_cons_of_mem _ hr)) hsource'.symm
      rw [hsource', ← List.append_assoc] at hsource
      refine ⟨(ws ++ ['\n']) :: blanks, by rw [List.length_cons, hlen, List.length_cons], ?_, ?_⟩
      · intro b hb c hc
        obtain rfl | hb := List.mem_cons.mp hb
        · obtain hc | hc := List.mem_append.mp hc
          · exact hws c hc
          · rw [List.mem_singleton.mp hc]
            decide
        · exact hblank b hb c hc
      · rw [List.zipWith_cons_cons, List.flatten_cons, ← hrest]
        exact List.append_cancel_right hsource

/-- **Fallback chunking.** Only a single line makes a chunk over the limit; the chunks tile the lines
up to blank ones at the end; and their texts recover the source. -/
theorem chunks_tile (limit : ℤ) (filePath : FilePath) (lang source : String) :
    (∀ c ∈ characterChunks limit filePath lang source,
      (c.text.toList.length : ℤ) ≤ limit ∨ c.startLine = c.endLine) ∧
    (∃ m ≤ (splitLines source.toList).length,
      Tiles 0 m (characterChunks limit filePath lang source) ∧
        ∀ l ∈ (splitLines source.toList).drop m, ∀ c ∈ l, isSpace c = true) ∧
    (Recovered source.toList
        ((characterChunks limit filePath lang source).map fun c => c.text.toList) ∨
      characterChunks limit filePath lang source = [] ∧ ∀ c ∈ source.toList, isSpace c = true) := by
  obtain ⟨runs, tail, hlines, htail, hchunks, hruns⟩ := exists_runs limit filePath lang source
  have hne := fun run h => (hruns run h).1
  rw [hchunks, hlines]
  refine ⟨sized_chunksOf 0 hruns, ⟨runs.flatten.length, ?_, ?_, ?_⟩, ?_⟩
  · rw [List.length_append]
    exact Nat.le_add_right _ _
  · have htiles := tiles_chunksOf filePath lang 0 hne
    rwa [Nat.zero_add] at htiles
  · rwa [List.drop_left]
  have hsource := flatMap_nl_splitLines source.toList
  rw [hlines] at hsource
  obtain rfl | hruns := eq_or_ne runs []
  · refine .inr ⟨rfl, fun c hc => ?_⟩
    have hin : c ∈ (([] : List (List (List Char))).flatten ++ tail).flatMap nl :=
      hsource ▸ List.mem_append_left _ hc
    obtain ⟨l, hl, hc⟩ := List.mem_flatMap.mp hin
    obtain hc | hc := List.mem_append.mp hc
    · exact htail l hl c hc
    · rw [List.mem_singleton.mp hc]
      decide
  · exact .inl (recovered_chunksOf 0 hruns hne htail hsource.symm)


end Model

/-- Every chunk has a text within the limit, the chunks tile all lines and recover the source. -/
def Tiled (limit : ℤ) (source : String) (chunks : List Chunk) : Prop :=
  (∀ c ∈ chunks, c.text.toList ≠ [] ∧ (c.text.toList.length : ℤ) ≤ limit) ∧
    Tiles 0 (splitLines source.toList).length chunks ∧
      Recovered source.toList (chunks.map fun c => c.text.toList)

/-- A line over the limit makes a chunk over the limit, and a blank line at the end is in none. -/
theorem long_line_and_blank_end :
    ¬ Tiled 4 "abcdef" (characterChunks 4 (.rel ["a.md"]) "markdown" "abcdef") ∧
      ¬ Tiled 4 "abcd\n" (characterChunks 4 (.rel ["a.md"]) "markdown" "abcd\n") := by
  constructor
  · rintro ⟨hsize, -, -⟩
    have hchunk : characterChunks 4 (.rel ["a.md"]) "markdown" "abcdef"
        = [⟨"abcdef", .rel ["a.md"], "markdown", 1, 1⟩] := by decide +kernel
    rw [hchunk] at hsize
    exact absurd (hsize _ List.mem_cons_self).2 (by decide)
  · rintro ⟨-, htiles, -⟩
    exact absurd htiles (by decide +kernel)

end Treeweft.FallbackChunks
