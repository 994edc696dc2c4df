import Treeweft.Replacement
import Treeweft.Webhook
import Treeweft.IncVectors

/-!
One attempt of an incremental job, any of whose steps may raise.

What an entry of the change list raises is counted and the job goes on; what deleting raises is
not even counted. The vector store is then a table whose rows are replaced path by path, and a
path is left right when the halves of its replacement that went through fit together.
-/

namespace Treeweft.ChangeRun

open Treeweft.Paths Treeweft.Indexer Treeweft.VectorStore Treeweft.GraphStore Treeweft.FileIndex
open Treeweft.Replacement Treeweft.Webhook

/-- The deletes of a removed path that raise. -/
structure RemovalFaults where
  chunks : Bool
  entities : Bool
  deriving DecidableEq, Repr

/-- The steps of an added or modified path that raise. `embed` includes creating the collection;
`insert` is the number of batches stored before `insert_chunks` raises. -/
structure StepFaults where
  delete : Bool
  parse : Bool
  embed : Bool
  insert : Option ℕ
  graph : Bool
  deriving DecidableEq, Repr

def StepFaults.none : StepFaults := ⟨false, false, false, .none, false⟩

/-- One attempt at a job: the source, its branch as a clone shows it, whether the clone comes
about, and what raises, by the position in the list of removals and in the list of files. -/
structure Attempt where
  sid : String
  clone : Clone
  cloned : Bool
  removal : ℕ → RemovalFaults
  step : ℕ → StepFaults

def maxInsertBatch : ℕ := 100

variable (tools : Tools)

/-! ### The runner -/

def removeFile (sid : String) (f : RemovalFaults) (p : FilePath) (st : Stores) : Stores :=
  ⟨if f.chunks then st.vectors else deleteChunksByFile sid p st.vectors,
    if f.entities then st.graph else deleteEntitiesByFile sid p st.graph⟩

def processChange (sid : String) (clone : Clone) (f : StepFaults) (p : FilePath) :
    Stores × Counters → Stores × Counters := fun (st, c) =>
  match resolveInsideClone clone.root p with
  | none =>
    (st, { c with filesFailed := c.filesFailed + 1, filesProcessed := c.filesProcessed + 1 })
  | some full =>
    let st := if f.delete then st
      else { st with vectors := deleteChunksByFile sid p st.vectors }
    match clone.read full with
    | none =>
      (st, { c with filesFailed := c.filesFailed + 1, filesProcessed := c.filesProcessed + 1 })
    | some source =>
      let c := { c with filesProcessed := c.filesProcessed + 1 }
      if f.parse then (st, { c with filesFailed := c.filesFailed + 1 })
      else
        let chunks := (parseAndChunk tools (.abs full) source).map fun k =>
          { k with filePath := p }
        if chunks = [] then (st, c)
        else if f.embed then (st, { c with filesFailed := c.filesFailed + 1 })
        else
          match f.insert with
          | some n =>
            let stored := chunks.take (n * maxInsertBatch)
            ({ st with vectors := insertChunks sid stored st.vectors },
              { c with filesFailed := c.filesFailed + 1 })
          | none =>
            let st := { st with vectors := insertChunks sid chunks st.vectors }
            if f.graph then (st, { c with filesFailed := c.filesFailed + 1 })
            else
              (graphIndexFile tools (.abs full) source sid st,
                { c with chunksAdded := c.chunksAdded + chunks.length })

/-- `_run_incremental_index`, one attempt. -/
def Attempt.run (a : Attempt) (changes : List Change) (st : Stores) : Stores × Outcome :=
  let removed := removedPaths changes
  let st := removed.zipIdx.foldl (fun st x => removeFile a.sid (a.removal x.2) x.1 st) st
  let c : Counters := ⟨removed.length, removed.length, 0, 0⟩
  if processPaths changes = [] then (st, finalizeIncremental c)
  else if a.cloned then
    let r := (processPaths changes).zipIdx.foldl
      (fun s x => processChange tools a.sid a.clone (a.step x.2) x.1 s) (st, c)
    (r.1, finalizeIncremental r.2)
  else (st, .raised)

/-- The runner of the other modules is this one, where only embedding and the graph may raise. -/
lemma run_eq_runIncrementalIndex (sid : String) (clone : Clone) (cloned : Bool) (faults : Faults)
    (changes : List Change) (st : Stores) (step : ℕ → StepFaults)
    (hstep : ∀ x ∈ (processPaths changes).zipIdx,
      step x.2 = ⟨false, false, faults.embed x.1, none, faults.graph x.1⟩) :
    Attempt.run tools ⟨sid, clone, cloned, fun _ => ⟨false, false⟩, step⟩ changes st =
      runIncrementalIndex tools sid (if cloned then some clone else none) faults changes st := by
  have hremove : ∀ (ps : List FilePath) (n : ℕ) (st : Stores),
      (ps.zipIdx n).foldl (fun st x => removeFile sid ⟨false, false⟩ x.1 st) st =
        ps.foldl (fun st p => FileIndex.removeFile sid p st) st := by
    intro ps
    induction ps with
    | nil => exact fun n st => rfl
    | cons p ps ih => exact fun n st => ih (n + 1) _
  have hprocess : ∀ (xs : List (FilePath × ℕ)) (s : Stores × Counters), (∀ x ∈ xs,
      step x.2 = ⟨false, false, faults.embed x.1, none, faults.graph x.1⟩) →
      xs.foldl (fun s x => processChange tools sid clone (step x.2) x.1 s) s =
        (xs.map Prod.fst).foldl
          (fun s p => FileIndex.processChange tools sid clone faults p s) s := by
    intro xs
    induction xs with
    | nil => exact fun s _ => rfl
    | cons x xs ih =>
      intro s hx
      have hone : processChange tools sid clone (step x.2) x.1 s =
          FileIndex.processChange tools sid clone faults x.1 s := by
        rw [hx x (by simp)]
        rfl
      rw [List.foldl_cons, List.map_cons, List.foldl_cons, hone]
      exact ih _ fun y hy => hx y (by simp [hy])
  unfold Attempt.run runIncrementalIndex
  dsimp only
  rw [hremove]
  cases cloned with
  | true =>
    have hfst : (processPaths changes).zipIdx.map Prod.fst = processPaths changes := by simp
    have hrun := fun s => hprocess (processPaths changes).zipIdx s hstep
    simp only [hrun, hfst, if_true]
  | false => rfl

/-! ### What a run does to a path -/

def rowKey (r : Row) : String × FilePath := (r.sourceId, r.filePath)

/-- The chunks of a path of the change list; none where there is no such file in the clone. -/
def chunksOf (clone : Clone) (p : FilePath) : List Chunk :=
  match resolveInsideClone clone.root p with
  | none => []
  | some full =>
    match clone.read full with
    | none => []
    | some source =>
      (parseAndChunk tools (.abs full) source).map fun k => { k with filePath := p }

/-- The complete new chunk set of a path. -/
def newRows (sid : String) (clone : Clone) (p : FilePath) : List Row :=
  (chunksOf tools clone p).map (rowOf sid)

def storedChunks (clone : Clone) (f : StepFaults) (p : FilePath) : List Chunk :=
  if f.parse || f.embed then []
  else match f.insert with
    | none => chunksOf tools clone p
    | some n => (chunksOf tools clone p).take (n * maxInsertBatch)

/-- The entry is counted as failed. -/
def fails (clone : Clone) (f : StepFaults) (p : FilePath) : Bool :=
  match resolveInsideClone clone.root p with
  | none => true
  | some full =>
    match clone.read full with
    | none => true
    | some _ => f.parse ||
        (chunksOf tools clone p ≠ [] && (f.embed || f.insert.isSome || f.graph))

def removalEvent (sid : String) (f : RemovalFaults) (p : FilePath) :
    Event Row (String × FilePath) :=
  ⟨(sid, p), !f.chunks, []⟩

def changeEvent (sid : String) (clone : Clone) (f : StepFaults) (p : FilePath) :
    Event Row (String × FilePath) :=
  ⟨(sid, p), (resolveInsideClone clone.root p).isSome && !f.delete,
    (storedChunks tools clone f p).map (rowOf sid)⟩

/-- The deletes and inserts of an attempt that go through, in their order. -/
def Attempt.events (a : Attempt) (changes : List Change) : List (Event Row (String × FilePath)) :=
  (removedPaths changes).zipIdx.map (fun x => removalEvent a.sid (a.removal x.2) x.1) ++
    if a.cloned then
      (processPaths changes).zipIdx.map fun x => changeEvent tools a.sid a.clone (a.step x.2) x.1
    else []

/-- What an attempt does under a path: whether the old rows stay, and the rows it adds since. -/
def Attempt.effect (a : Attempt) (changes : List Change) (p : FilePath) : Effect Row :=
  Replacement.effect (a.events tools changes) (a.sid, p)

/-- Some entry of the change list is worked on without an error, or there is nothing to work on. -/
def Attempt.Succeeds (a : Attempt) (changes : List Change) : Prop :=
  processPaths changes = [] ∨ (a.cloned = true ∧
    ∃ x ∈ (processPaths changes).zipIdx, fails tools a.clone (a.step x.2) x.1 = false)

/-- The job is finalised as done, so it is not tried again. -/
def FinishedDone (o : Outcome) : Prop := ∃ c, o = .finished c .done

variable {tools} {sid : String} {clone : Clone} {p : FilePath} {r : Row}

lemma filePath_of_mem_chunksOf {c : Chunk} (h : c ∈ chunksOf tools clone p) : c.filePath = p := by
  unfold chunksOf at h
  split at h
  · cases h
  · split at h
    · cases h
    · obtain ⟨d, -, rfl⟩ := List.mem_map.1 h
      rfl

lemma storedChunks_subset {f : StepFaults} {c : Chunk} (h : c ∈ storedChunks tools clone f p) :
    c ∈ chunksOf tools clone p := by
  unfold storedChunks at h
  split at h
  · cases h
  · split at h
    · exact h
    · exact List.mem_of_mem_take h

lemma rowKey_of_mem_newRows (h : r ∈ newRows tools sid clone p) : rowKey r = (sid, p) := by
  obtain ⟨c, hc, rfl⟩ := List.mem_map.1 h
  exact Prod.ext rfl (filePath_of_mem_chunksOf hc)

lemma mem_newRows_of_adds {f : StepFaults}
    (h : r ∈ (changeEvent tools sid clone f p).adds) : r ∈ newRows tools sid clone p := by
  obtain ⟨c, hc, rfl⟩ := List.mem_map.1 h
  exact List.mem_map_of_mem (storedChunks_subset hc)

lemma deleteChunksByFile_eq (t : Table) :
    deleteChunksByFile sid p t = t.filter fun r => rowKey r ≠ (sid, p) := by
  simp [deleteChunksByFile, rowKey]

lemma removeFile_vectors (f : RemovalFaults) (st : Stores) :
    (removeFile sid f p st).vectors = apply rowKey st.vectors (removalEvent sid f p) := by
  unfold removeFile apply removalEvent
  cases f.chunks with
  | true => simp
  | false => simp [deleteChunksByFile_eq]

lemma storedChunks_of_no_file {f : StepFaults} (h : chunksOf tools clone p = []) :
    storedChunks tools clone f p = [] := by
  unfold storedChunks
  rw [h]
  cases f.insert <;> simp

lemma processChange_vectors (f : StepFaults) (s : Stores × Counters) :
    (processChange tools sid clone f p s).1.vectors =
      apply rowKey s.1.vectors (changeEvent tools sid clone f p) := by
  have hdel : ∀ t : Table, (if (!f.delete) = true then t.filter fun r => rowKey r ≠ (sid, p)
      else t) = if f.delete = true then t else deleteChunksByFile sid p t := by
    intro t
    rw [deleteChunksByFile_eq]
    cases f.delete <;> rfl
  unfold processChange apply changeEvent
  cases hres : resolveInsideClone clone.root p with
  | none =>
    have hno : chunksOf tools clone p = [] := by rw [chunksOf, hres]
    simp [storedChunks_of_no_file hno]
  | some full =>
    simp only [Option.isSome_some, Bool.true_and, hdel]
    cases hread : clone.read full with
    | none =>
      have hno : chunksOf tools clone p = [] := by rw [chunksOf, hres]; simp only [hread]
      cases f.delete <;> simp [storedChunks_of_no_file hno]
    | some source =>
      have hch : (parseAndChunk tools (.abs full) source).map (fun k => { k with filePath := p }) =
          chunksOf tools clone p := by rw [chunksOf, hres]; simp only [hread]
      simp only [hch]
      unfold storedChunks insertChunks
      cases f.delete <;> cases f.parse <;> cases f.embed <;> cases f.insert <;> cases f.graph <;>
        by_cases hnil : chunksOf tools clone p = [] <;>
        simp [hnil, graphIndexFile]

lemma processChange_counters (f : StepFaults) (s : Stores × Counters) :
    (processChange tools sid clone f p s).2 =
      if fails tools clone f p then
        { s.2 with filesProcessed := s.2.filesProcessed + 1, filesFailed := s.2.filesFailed + 1 }
      else { s.2 with
        filesProcessed := s.2.filesProcessed + 1
        chunksAdded := s.2.chunksAdded + (chunksOf tools clone p).length } := by
  unfold processChange fails
  cases hres : resolveInsideClone clone.root p with
  | none => rfl
  | some full =>
    dsimp only
    rcases Option.eq_none_or_eq_some (clone.read full) with hread | ⟨source, hread⟩
    · simp [hread]
    · have hch : (parseAndChunk tools (.abs full) source).map (fun k => { k with filePath := p }) =
          chunksOf tools clone p := by rw [chunksOf, hres]; simp only [hread]
      simp only [hread, hch]
      cases f.parse <;> cases f.embed <;> cases f.insert <;> cases f.graph <;>
        by_cases hnil : chunksOf tools clone p = [] <;> simp [hnil]

/-! ### A whole attempt -/

variable {a : Attempt} {changes : List Change} {st : Stores}

lemma run_vectors : (a.run tools changes st).1.vectors =
    (a.events tools changes).foldl (apply rowKey) st.vectors := by
  have hremove : ∀ (xs : List (FilePath × ℕ)) (st : Stores),
      (xs.foldl (fun st x => removeFile a.sid (a.removal x.2) x.1 st) st).vectors =
        (xs.map fun x => removalEvent a.sid (a.removal x.2) x.1).foldl (apply rowKey)
          st.vectors := by
    intro xs
    induction xs with
    | nil => exact fun st => rfl
    | cons x xs ih =>
      intro st
      rw [List.foldl_cons, ih, removeFile_vectors]
      rfl
  have hprocess : ∀ (xs : List (FilePath × ℕ)) (s : Stores × Counters),
      (xs.foldl (fun s x => processChange tools a.sid a.clone (a.step x.2) x.1 s) s).1.vectors =
        (xs.map fun x => changeEvent tools a.sid a.clone (a.step x.2) x.1).foldl (apply rowKey)
          s.1.vectors := by
    intro xs
    induction xs with
    | nil => exact fun s => rfl
    | cons x xs ih =>
      intro s
      rw [List.foldl_cons, ih, processChange_vectors]
      rfl
  unfold Attempt.run Attempt.events
  dsimp only
  rw [List.foldl_append]
  split
  · rename_i hnil
    rw [hremove, hnil]
    cases a.cloned <;> rfl
  · cases a.cloned with
    | true => simp only [if_true, hprocess, hremove]
    | false => simp only [Bool.false_eq_true, if_false, hremove, List.foldl_nil]

lemma events_proper : ∀ e ∈ a.events tools changes, e.Proper rowKey := by
  intro e he r hr
  rcases List.mem_append.1 he with he | he
  · obtain ⟨x, -, rfl⟩ := List.mem_map.1 he
    cases hr
  · split at he
    · obtain ⟨x, -, rfl⟩ := List.mem_map.1 he
      exact rowKey_of_mem_newRows (mem_newRows_of_adds hr)
    · cases he

/-- What a path held stays where no delete of it went through, and what was inserted since the
last one is there. -/
lemma mem_run (h : rowKey r = (a.sid, p)) : r ∈ (a.run tools changes st).1.vectors ↔
    (r ∈ st.vectors ∧ (a.effect tools changes p).keeps = true) ∨
      r ∈ (a.effect tools changes p).added := by
  rw [run_vectors, mem_foldl_apply events_proper, h]
  rfl

/-- What the counters say of the entries: how many there were, and whether all of them failed. -/
lemma counters_of_entries (tools : Tools) (sid : String) (clone : Clone) (step : ℕ → StepFaults)
    (xs : List (FilePath × ℕ)) (s : Stores × Counters) :
    let c := (xs.foldl (fun s x => processChange tools sid clone (step x.2) x.1 s) s).2
    let ok := xs.countP fun x => !fails tools clone (step x.2) x.1
    c.filesRemoved = s.2.filesRemoved ∧
      c.filesProcessed = s.2.filesProcessed + xs.length ∧
      c.filesFailed + ok = s.2.filesFailed + xs.length ∧
      (ok = 0 → c.chunksAdded = s.2.chunksAdded) := by
  induction xs generalizing s with
  | nil => simp
  | cons x xs ih =>
    obtain ⟨h1, h2, h3, h4⟩ := ih (processChange tools sid clone (step x.2) x.1 s)
    rw [processChange_counters] at h1 h2 h3 h4
    rw [List.foldl_cons, List.countP_cons, List.length_cons]
    cases hf : fails tools clone (step x.2) x.1 with
    | true =>
      simp only [hf, if_true] at h1 h2 h3 h4
      refine ⟨h1, by omega, by simp; omega, by simpa using h4⟩
    | false =>
      simp only [hf, Bool.false_eq_true, if_false] at h1 h2 h3
      refine ⟨h1, by omega, by simp; omega, by simp⟩

lemma finishedDone_finalize (c : Counters) : FinishedDone (finalizeIncremental c) ↔
    ¬(c.filesProcessed - c.filesRemoved > 0 ∧ c.filesFailed > 0 ∧
      c.filesFailed ≥ c.filesProcessed - c.filesRemoved ∧ c.chunksAdded = 0) := by
  unfold FinishedDone finalizeIncremental terminalStatusForIndex
  split
  · rename_i h
    simp [h]
  · rename_i h
    simpa using h

lemma finishedDone_iff :
    FinishedDone (a.run tools changes st).2 ↔ a.Succeeds tools changes := by
  unfold Attempt.run Attempt.Succeeds
  dsimp only
  split
  · rename_i hnil
    simp [hnil, finishedDone_finalize]
  · rename_i hne
    split
    · rename_i hcloned
      obtain ⟨h1, h2, h3, h4⟩ := counters_of_entries tools a.sid a.clone
        a.step (processPaths changes).zipIdx
        ((removedPaths changes).zipIdx.foldl
            (fun st x => removeFile a.sid (a.removal x.2) x.1 st) st,
          ⟨(removedPaths changes).length, (removedPaths changes).length, 0, 0⟩)
      dsimp only at h1 h2 h3 h4
      have hlen : 0 < (processPaths changes).zipIdx.length := by
        rw [List.length_zipIdx]
        exact List.length_pos_iff.2 hne
      have hok : (∃ x ∈ (processPaths changes).zipIdx,
          fails tools a.clone (a.step x.2) x.1 = false) ↔
          0 < (processPaths changes).zipIdx.countP
            (fun x => !fails tools a.clone (a.step x.2) x.1) := by
        rw [List.countP_pos_iff]
        simp
      simp only [finishedDone_finalize, hne, hcloned, true_and, false_or, hok]
      constructor
      · intro h
        by_contra hz
        exact h ⟨by omega, by omega, by omega, h4 (by omega)⟩
      · rintro h ⟨-, -, hge, -⟩
        omega
    · rename_i hcloned
      simp [hne, hcloned, FinishedDone]

/-- The rows an attempt adds under a path are of its complete new chunk set, and the job works on
the path. -/
lemma of_mem_effect_added (h : r ∈ (a.effect tools changes p).added) :
    p ∈ processPaths changes ∧ r ∈ newRows tools a.sid a.clone p := by
  obtain ⟨e, he, hk, hr⟩ := of_mem_added h
  rcases List.mem_append.1 he with he | he
  · obtain ⟨x, -, rfl⟩ := List.mem_map.1 he
    cases hr
  · split at he
    · obtain ⟨x, hx, rfl⟩ := List.mem_map.1 he
      have hxp : x.1 = p := congrArg Prod.snd hk
      exact hxp ▸ ⟨List.fst_mem_of_mem_zipIdx hx, mem_newRows_of_adds hr⟩
    · cases he

/-- A path that is neither removed nor worked on is left as it was. -/
lemma effect_of_unlisted (h1 : p ∉ removedPaths changes) (h2 : p ∉ processPaths changes) :
    a.effect tools changes p = ⟨true, []⟩ := by
  apply effect_of_untouched
  intro e he hk
  rcases List.mem_append.1 he with he | he
  · obtain ⟨x, hx, rfl⟩ := List.mem_map.1 he
    have hxp : x.1 = p := congrArg Prod.snd hk
    exact h1 (hxp ▸ List.fst_mem_of_mem_zipIdx hx)
  · split at he
    · obtain ⟨x, hx, rfl⟩ := List.mem_map.1 he
      have hxp : x.1 = p := congrArg Prod.snd hk
      exact h2 (hxp ▸ List.fst_mem_of_mem_zipIdx hx)
    · cases he

/-! ### Old or new -/

/-- Each path the job reads holds its old chunks or its complete new ones, and a job that left one
with neither is not done. -/
def Attempt.Atomic (tools : Tools) (a : Attempt) (changes : List Change) (st : Stores) : Prop :=
  (∀ p ∈ processPaths changes, Replaced rowKey (a.sid, p) (newRows tools a.sid a.clone p)
    st.vectors (a.run tools changes st).1.vectors) ∧
  ((∃ p ∈ processPaths changes, ¬Replaced rowKey (a.sid, p) (newRows tools a.sid a.clone p)
    st.vectors (a.run tools changes st).1.vectors) → ¬FinishedDone (a.run tools changes st).2)

/-- **Delete then insert, each on its own**: a path is replaced whole exactly when the deletes and
inserts of it that went through fit together, and the job is done exactly when some entry went
through or none had to. -/
theorem replaced_iff_exact (tools : Tools) (a : Attempt) (changes : List Change) (st : Stores) :
    (∀ p ∈ processPaths changes,
      (Replaced rowKey (a.sid, p) (newRows tools a.sid a.clone p) st.vectors
          (a.run tools changes st).1.vectors ↔
        (a.effect tools changes p).Exact rowKey (a.sid, p) (newRows tools a.sid a.clone p)
          st.vectors)) ∧
    (FinishedDone (a.run tools changes st).2 ↔ a.Succeeds tools changes) := by
  refine ⟨fun p _ => ?_, finishedDone_iff⟩
  rw [run_vectors]
  exact replaced_iff events_proper (fun r hr => rowKey_of_mem_newRows hr)
    fun r hr => (of_mem_effect_added hr).2

def twoFiles : Tree :=
  ⟨⟨[(["a.py"], "y = 2"), (["b.py"], "z = 3")], by decide⟩, by
    rintro f hf
    rcases List.mem_cons.1 hf with rfl | hf
    · decide
    · rw [List.mem_singleton.1 hf]
      decide⟩

lemma plain_firstClone : Plain "treeweft_inc_1" := by decide

/-- Embedding the first file raises. -/
def embedFails : Attempt :=
  ⟨"s", IncVectors.cloneOf "treeweft_inc_1" plain_firstClone twoFiles, true, fun _ => ⟨false, false⟩,
    fun i => if i = 0 then { StepFaults.none with embed := true } else StepFaults.none⟩

def twoModified : List Change := [⟨.rel ["a.py"], .modified⟩, ⟨.rel ["b.py"], .modified⟩]

def oldRow : Row := ⟨"x = 1", .rel ["a.py"], "python", 1, 1, "s"⟩

/-- The job is done, and the file that could not be embedded has lost its chunks. -/
theorem failed_embedding_loses_the_file : ¬∀ (tools : Tools) (a : Attempt)
    (changes : List Change) (st : Stores), a.Atomic tools changes st := by
  intro hclaim
  have h := (hclaim IncVectors.wholeFile embedFails twoModified ⟨[oldRow], GraphStore.empty⟩).1
    (.rel ["a.py"]) (by decide)
  rcases h with h | h
  · have hold := (h oldRow rfl).2 (by decide)
    revert hold
    decide
  · have hnew := (h ⟨"y = 2", .rel ["a.py"], "python", 1, 1, "s"⟩ rfl).2 (by decide)
    revert hnew
    decide

/-! ### Every entry of the change list -/

/-- The paths whose chunks an entry makes old: its own, or the one a renamed file had before. -/
def oldPaths (provider : Provider) (f : RawFile) : List FilePath :=
  match f.action provider with
  | .removed => [(f.change provider).path]
  | .modified => [(f.change provider).path]
  | .renamed => ((f.get? "previous_filename").map pathOfString).toList
  | .added => []

def indexedPaths (changes : List Change) : List FilePath :=
  (changes.filter fun ch => ch.action ≠ .removed).map Change.path

/-- The rows that belong under a path after the job. -/
def Attempt.wanted (tools : Tools) (a : Attempt) (changes : List Change) (p : FilePath) :
    List Row :=
  if p ∈ indexedPaths changes then newRows tools a.sid a.clone p else []

/-- No entry left an old chunk, and each that is no removal has its new ones. -/
def Attempt.ActsOn (tools : Tools) (a : Attempt) (provider : Provider) (files : List RawFile)
    (t : Table) : Prop :=
  ∀ f ∈ files,
    (∀ p ∈ oldPaths provider f, ∀ r ∈ t, rowKey r = (a.sid, p) →
      r ∈ a.wanted tools (normalizeChangedFiles provider files) p) ∧
    (f.action provider ≠ .removed →
      ∀ r ∈ newRows tools a.sid a.clone (f.change provider).path, r ∈ t)

/-- Under each old path a delete went through, or only what belongs there was stored; each new
chunk was inserted after it, or was stored before. -/
def Attempt.Handles (tools : Tools) (a : Attempt) (provider : Provider) (files : List RawFile)
    (t : Table) : Prop :=
  ∀ f ∈ files,
    (∀ p ∈ oldPaths provider f,
      (a.effect tools (normalizeChangedFiles provider files) p).keeps = false ∨
      ∀ r ∈ t, rowKey r = (a.sid, p) →
        r ∈ a.wanted tools (normalizeChangedFiles provider files) p) ∧
    (f.action provider ≠ .removed → ∀ r ∈ newRows tools a.sid a.clone (f.change provider).path,
      let e := a.effect tools (normalizeChangedFiles provider files) (f.change provider).path
      r ∈ e.added ∨ (e.keeps = true ∧ r ∈ t))

/-- What is added under a path belongs there. -/
lemma mem_wanted_of_added (h : r ∈ (a.effect tools changes p).added) :
    r ∈ a.wanted tools changes p := by
  obtain ⟨hp, hr⟩ := of_mem_effect_added h
  obtain ⟨ch, hch, rfl⟩ := List.mem_map.1 hp
  rw [List.mem_filter, decide_eq_true_eq] at hch
  have hne : ch.action ≠ .removed := by rcases hch.2 with h | h <;> simp [h]
  have hin : ch.path ∈ indexedPaths changes :=
    List.mem_map_of_mem (List.mem_filter.2 ⟨hch.1, by simpa using hne⟩)
  rw [Attempt.wanted, if_pos hin]
  exact hr

/-- `b.py` is now `a.py`. -/
def renamedFile : RawFile :=
  ⟨[("filename", "a.py"), ("previous_filename", "b.py"), ("status", "renamed")]⟩

def faultless : Attempt :=
  ⟨"s", IncVectors.cloneOf "treeweft_inc_1" plain_firstClone (IncVectors.oneFile "x = 1"), true,
    fun _ => ⟨false, false⟩, fun _ => StepFaults.none⟩

end Treeweft.ChangeRun
