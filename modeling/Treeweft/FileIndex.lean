import Treeweft.VectorStore
import Treeweft.GraphStore
import Mathlib.Algebra.GroupWithZero.Nat

/-!
The two runners that write a URL source: the full index of a clone, and the incremental job of
a change list.

Both read files of a fresh clone, under a temporary directory. The full run names a file by its
absolute path in that directory; the incremental run names its chunks by the path in the change
list, and its entities by the absolute path again.
-/

namespace Treeweft.FileIndex

open Treeweft.Paths Treeweft.Indexer Treeweft.Extract Treeweft.VectorStore Treeweft.GraphStore

/-! ### The tree and its clone -/

/-- The files of one commit, by their path in the repository. -/
structure Tree where
  files : Keyed (Prod.fst : List String × String → List String)
  plain : ∀ f ∈ files, f.1 ≠ [] ∧ ∀ s ∈ f.1, Plain s

namespace Tree

def content (t : Tree) (ps : List String) : Option String := (t.files.get? ps).map Prod.snd

lemma content_eq_some {t : Tree} {ps : List String} {c : String} :
    t.content ps = some c ↔ (ps, c) ∈ t.files := by
  rw [content, Option.map_eq_some_iff]
  constructor
  · rintro ⟨⟨q, d⟩, h, rfl⟩
    obtain ⟨h1, rfl⟩ := Keyed.get?_eq_some.1 h
    exact h1
  · exact fun h => ⟨_, Keyed.get?_of_mem h, rfl⟩

lemma plain_of_content {t : Tree} {ps : List String} {c : String} (h : t.content ps = some c) :
    ps ≠ [] ∧ ∀ s ∈ ps, Plain s :=
  t.plain _ (content_eq_some.1 h)

end Tree

/-- A checkout of a tree in a directory of its own. -/
structure Clone where
  root : List String
  tree : Tree
  plain : ∀ s ∈ root, Plain s

namespace Clone

/-- The absolute path of a file of the clone. -/
def path (c : Clone) (ps : List String) : FilePath := .abs (c.root ++ ps)

/-- `read_source`, and `none` where `os.path.isfile` says no. -/
def read (c : Clone) (full : List String) : Option String :=
  if c.root <+: full then c.tree.content (full.drop c.root.length) else none

/-- A file keeps its name in the clone. -/
lemma name_path (c : Clone) {ps : List String} (h : ps ≠ []) :
    (FilePath.abs (c.root ++ ps)).name = (FilePath.rel ps).name := by
  simp [FilePath.name, FilePath.parts, List.getLastD_eq_getLast?,
    List.getLast?_append_of_ne_nil _ h]

@[simp] lemma read_path (c : Clone) (ps : List String) :
    c.read (c.root ++ ps) = c.tree.content ps := by
  simp [read]

end Clone

structure Stores where
  vectors : Table
  graph : Graph

def Stores.init : Stores := ⟨[], GraphStore.empty⟩

variable (tools : Tools)

/-- `_graph_index_file` of a file that could be read. -/
def graphIndexFile (p : FilePath) (source sid : String) (st : Stores) : Stores :=
  let g := extractGraph tools p source
  { st with graph := storeGraph g.1 g.2 sid st.graph }

/-! ### The full index -/

def skipFilenames : List String := ["package-lock.json"]

/-- The walk enters no hidden directory and keeps the supported files no pattern skips. -/
def walked (skipPatterns : List String) (ps : List String) : Bool :=
  ps.dropLast.all (fun d => d.toList.head? ≠ some '.') &&
    ps.getLastD "" ∉ skipFilenames &&
    supportedExtension (splitext (ps.getLastD "")) &&
    !skipPatterns.any fun pat =>
      tools.fnmatch (ps.getLastD "") pat || tools.fnmatch ("/".intercalate ps) pat

def collectFiles (skipPatterns : List String) (t : Tree) : List (List String × String) :=
  (t.files.rows.filter fun f => walked tools skipPatterns f.1).insertionSort fun a b =>
    "/".intercalate a.1 ≤ "/".intercalate b.1

def maxChunkBytes : ℕ := 65535

/-- The first `n` bytes of a text, a character cut in two replaced by U+FFFD. -/
def cutBytes : ℕ → List Char → List Char
  | _, [] => []
  | n, c :: cs =>
    if c.utf8Size ≤ n then c :: cutBytes (n - c.utf8Size) cs
    else if n = 0 then [] else [Char.ofNat 0xFFFD]

def utf8Length (cs : List Char) : ℕ := (cs.map Char.utf8Size).sum

/-- Cut an oversized chunk to the byte limit of the vector store. -/
def truncateChunk (c : Chunk) : Chunk :=
  if utf8Length c.text.toList > maxChunkBytes then
    { c with text := String.ofList (cutBytes maxChunkBytes c.text.toList) }
  else c

@[simp] lemma truncateChunk_filePath (c : Chunk) : (truncateChunk c).filePath = c.filePath := by
  unfold truncateChunk; split <;> rfl

def processFile (sid : String) (skipGraph : Bool) (p : FilePath) (source : String)
    (st : Stores) : Stores :=
  let chunks := parseAndChunk tools p source
  if chunks = [] then st
  else
    let st := { st with vectors := insertChunks sid (chunks.map truncateChunk) st.vectors }
    if skipGraph then st else graphIndexFile tools p source sid st

def resetSource (sid : String) (st : Stores) : Stores :=
  ⟨deleteChunksBySource sid st.vectors, deleteSource sid st.graph⟩

/-- `_run_index_repo_job` of a URL source: reset, then every file the walk collects. -/
def runIndexRepo (sid : String) (skipPatterns : List String) (skipGraph : Bool) (clone : Clone)
    (st : Stores) : Stores :=
  (collectFiles tools skipPatterns clone.tree).foldl
    (fun st f => processFile tools sid skipGraph (clone.path f.1) f.2 st) (resetSource sid st)

/-! ### The incremental job -/

inductive Action
  | added | modified | removed | renamed
  deriving DecidableEq, Repr

/-- One entry of a normalised change list. -/
structure Change where
  path : FilePath
  action : Action
  deriving DecidableEq, Repr

structure Counters where
  filesProcessed : ℕ
  filesRemoved : ℕ
  filesFailed : ℕ
  chunksAdded : ℕ
  deriving DecidableEq, Repr

inductive TerminalStatus
  | done | failed
  deriving DecidableEq, Repr

/-- Failed only when there was work, all of it errored and no chunk was stored. -/
def terminalStatusForIndex (totalChunks attemptedUnits errors : ℕ) : TerminalStatus :=
  if attemptedUnits > 0 ∧ errors > 0 ∧ errors ≥ attemptedUnits ∧ totalChunks = 0 then .failed
  else .done

/-- How an incremental run ends: finalised with its counters, or raised to the queue worker. -/
inductive Outcome
  | finished (c : Counters) (status : TerminalStatus)
  | raised
  deriving DecidableEq, Repr

/-- The files whose embedding, or whose graph step, raises in this run. -/
structure Faults where
  embed : FilePath → Bool
  graph : FilePath → Bool

def Faults.none : Faults := ⟨fun _ => false, fun _ => false⟩

def removeFile (sid : String) (p : FilePath) (st : Stores) : Stores :=
  ⟨deleteChunksByFile sid p st.vectors, deleteEntitiesByFile sid p st.graph⟩

/-- One added or modified entry: old chunks out, the file of the clone in. -/
def processChange (sid : String) (clone : Clone) (faults : Faults) (p : FilePath) :
    Stores × Counters → Stores × Counters := fun (st, c) =>
  match resolveInsideClone clone.root p with
  | none =>
    (st, { c with filesFailed := c.filesFailed + 1, filesProcessed := c.filesProcessed + 1 })
  | some full =>
    let st := { st with vectors := deleteChunksByFile sid p st.vectors }
    match clone.read full with
    | none =>
      (st, { c with filesFailed := c.filesFailed + 1, filesProcessed := c.filesProcessed + 1 })
    | some source =>
      let c := { c with filesProcessed := c.filesProcessed + 1 }
      let chunks := (parseAndChunk tools (.abs full) source).map fun k =>
        { k with filePath := p }
      if chunks = [] then (st, c)
      else if faults.embed p then (st, { c with filesFailed := c.filesFailed + 1 })
      else
        let st := { st with vectors := insertChunks sid chunks st.vectors }
        if faults.graph p then (st, { c with filesFailed := c.filesFailed + 1 })
        else
          (graphIndexFile tools (.abs full) source sid st,
            { c with chunksAdded := c.chunksAdded + chunks.length })

def removedPaths (changes : List Change) : List FilePath :=
  (changes.filter fun ch => ch.action = .removed).map Change.path

def processPaths (changes : List Change) : List FilePath :=
  (changes.filter fun ch => ch.action = .modified ∨ ch.action = .added).map Change.path

/-- `_finalize_incremental_job`: removals are no attempts. -/
def finalizeIncremental (c : Counters) : Outcome :=
  .finished c
    (terminalStatusForIndex c.chunksAdded (c.filesProcessed - c.filesRemoved) c.filesFailed)

/-- `_run_incremental_index`. `clone` is `none` where the URL or branch is refused or the clone
fails; the removals are done by then. -/
def runIncrementalIndex (sid : String) (clone : Option Clone) (faults : Faults)
    (changes : List Change) (st : Stores) : Stores × Outcome :=
  let removed := removedPaths changes
  let st := removed.foldl (fun st p => removeFile sid p st) st
  let c : Counters := ⟨removed.length, removed.length, 0, 0⟩
  if processPaths changes = [] then (st, finalizeIncremental c)
  else
    match clone with
    | none => (st, .raised)
    | some clone =>
      let r := (processPaths changes).foldl
        (fun s p => processChange tools sid clone faults p s) (st, c)
      (r.1, finalizeIncremental r.2)

/-! ### The rows a run leaves -/

lemma processFile_vectors (sid : String) (sg : Bool) (p : FilePath) (source : String)
    (st : Stores) :
    (processFile tools sid sg p source st).vectors =
      insertChunks sid ((parseAndChunk tools p source).map truncateChunk) st.vectors := by
  unfold processFile
  dsimp only
  split
  · rename_i h
    simp [h, insertChunks]
  · split <;> rfl

lemma mem_collectFiles {skip : List String} {t : Tree} {f : List String × String} :
    f ∈ collectFiles tools skip t ↔ f ∈ t.files ∧ walked tools skip f.1 = true := by
  rw [collectFiles, List.mem_insertionSort, List.mem_filter]
  rfl

/-- After a full index the table holds the other sources' rows, and one row for each chunk of
each file the walk collects. -/
lemma mem_runIndexRepo {sid : String} {skip : List String} {sg : Bool} {clone : Clone}
    {st : Stores} {r : Row} :
    r ∈ (runIndexRepo tools sid skip sg clone st).vectors ↔
      (r ∈ st.vectors ∧ r.sourceId ≠ sid) ∨
      ∃ f ∈ collectFiles tools skip clone.tree,
        ∃ c ∈ parseAndChunk tools (clone.path f.1) f.2, rowOf sid (truncateChunk c) = r := by
  have key : ∀ (fs : List (List String × String)) (st : Stores),
      r ∈ (fs.foldl (fun st f => processFile tools sid sg (clone.path f.1) f.2 st) st).vectors ↔
        r ∈ st.vectors ∨ ∃ f ∈ fs,
          ∃ c ∈ parseAndChunk tools (clone.path f.1) f.2, rowOf sid (truncateChunk c) = r := by
    intro fs
    induction fs with
    | nil => simp
    | cons f fs ih =>
      intro st
      rw [List.foldl_cons, ih, processFile_vectors, mem_insertChunks]
      simp only [List.mem_map, exists_exists_and_eq_and, List.mem_cons, exists_eq_or_imp, or_assoc]
  rw [runIndexRepo, key]
  simp [resetSource]

/-- The rows an incremental job writes for a path of the tree. -/
def incRows (sid : String) (t : Tree) (ps : List String) : List Row :=
  match t.content ps with
  | none => []
  | some source => (parseAndChunk tools (.rel ps) source).map (rowOf sid)

lemma of_mem_incRows {sid : String} {t : Tree} {ps : List String} {r : Row}
    (h : r ∈ incRows tools sid t ps) : r.sourceId = sid ∧ r.filePath = .rel ps := by
  unfold incRows at h
  split at h
  · cases h
  · obtain ⟨c, hc, rfl⟩ := List.mem_map.1 h
    exact ⟨rfl, parseAndChunk_filePath tools hc⟩

/-- Reading a path again replaces the rows stored under that very path. -/
lemma mem_processChange {sid : String} {clone : Clone} {ps : List String} {source : String}
    (hs : clone.tree.content ps = some source) (s : Stores × Counters) {r : Row} :
    r ∈ (processChange tools sid clone Faults.none (.rel ps) s).1.vectors ↔
      (r ∈ s.1.vectors ∧ ¬(r.sourceId = sid ∧ r.filePath = .rel ps)) ∨
        r ∈ incRows tools sid clone.tree ps := by
  obtain ⟨st, c⟩ := s
  obtain ⟨hne, hpl⟩ := Tree.plain_of_content hs
  have hname := clone.name_path hne
  have hch : (parseAndChunk tools (.abs (clone.root ++ ps)) source).map
      (fun k => { k with filePath := FilePath.rel ps }) = parseAndChunk tools (.rel ps) source :=
    (parseAndChunk_relocate tools hname source).symm
  have hrows : incRows tools sid clone.tree ps =
      (parseAndChunk tools (.rel ps) source).map (rowOf sid) := by
    rw [incRows, hs]
  simp only [processChange, resolveInsideClone_plain clone.plain hne hpl, Clone.read_path, hs, hch,
    Faults.none, Bool.false_eq_true, if_false]
  rw [hrows]
  split
  · rename_i he
    simp [he]
  · simp [graphIndexFile]

lemma mem_processChanges {sid : String} {clone : Clone} {r : Row} (qs : List (List String))
    (hq : ∀ ps ∈ qs, clone.tree.content ps ≠ none) (s : Stores × Counters) :
    r ∈ ((qs.map FilePath.rel).foldl
        (fun s p => processChange tools sid clone Faults.none p s) s).1.vectors ↔
      (r ∈ s.1.vectors ∧ ¬(r.sourceId = sid ∧ ∃ ps ∈ qs, r.filePath = .rel ps)) ∨
        ∃ ps ∈ qs, r ∈ incRows tools sid clone.tree ps := by
  induction qs generalizing s with
  | nil => simp
  | cons q qs ih =>
    obtain ⟨source, hs⟩ := Option.ne_none_iff_exists'.1 (hq q (by simp))
    rw [List.map_cons, List.foldl_cons, ih (fun ps h => hq ps (by simp [h])),
      mem_processChange tools hs]
    have hq' : r ∈ incRows tools sid clone.tree q → r.sourceId = sid ∧ r.filePath = .rel q :=
      of_mem_incRows tools
    constructor
    · rintro (⟨⟨hr, hn⟩ | hr, hn'⟩ | ⟨ps, hps, hr⟩)
      · refine .inl ⟨hr, ?_⟩
        rintro ⟨h1, ps, hps, h2⟩
        rcases List.mem_cons.1 hps with rfl | hps
        · exact hn ⟨h1, h2⟩
        · exact hn' ⟨h1, ps, hps, h2⟩
      · exact .inr ⟨q, by simp, hr⟩
      · exact .inr ⟨ps, by simp [hps], hr⟩
    · rintro (⟨hr, hn⟩ | ⟨ps, hps, hr⟩)
      · exact .inl ⟨.inl ⟨hr, fun h => hn ⟨h.1, q, by simp, h.2⟩⟩,
          fun h => hn ⟨h.1, h.2.imp fun ps h => ⟨by simp [h.1], h.2⟩⟩⟩
      · rcases List.mem_cons.1 hps with rfl | hps
        · by_cases hmem : ps ∈ qs
          · exact .inr ⟨ps, hmem, hr⟩
          · refine .inl ⟨.inr hr, ?_⟩
            rintro ⟨-, ps', hps', h⟩
            rw [(hq' hr).2] at h
            exact hmem (FilePath.rel.inj h ▸ hps')
        · exact .inr ⟨ps, hps, hr⟩

lemma mem_removeFiles {sid : String} {r : Row} (ps : List FilePath) (st : Stores) :
    r ∈ (ps.foldl (fun st p => removeFile sid p st) st).vectors ↔
      r ∈ st.vectors ∧ ¬(r.sourceId = sid ∧ r.filePath ∈ ps) := by
  induction ps generalizing st with
  | nil => simp
  | cons p ps ih =>
    rw [List.foldl_cons, ih, removeFile, mem_deleteChunksByFile, List.mem_cons]
    tauto

end Treeweft.FileIndex
