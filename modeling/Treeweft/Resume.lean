import Treeweft.RequestOptions
import Treeweft.FileIndex

/-!
What a process that takes over an index job knows of the one that died.

Recovery marks the dictionary of the job in the table of the process. The worker that claims the
job builds another dictionary from the row, and it is this one that the runner asks whether it
resumes.
-/

namespace Treeweft.Resume

open Treeweft.Jobs Treeweft.SourceId Treeweft.Dispatch Treeweft.RequestOptions
open Treeweft.Paths Treeweft.Indexer Treeweft.VectorStore Treeweft.FileIndex

/-! ### The job of a dead process -/

structure Row extends JobRow where
  committed_files : ℕ

/-- `resume` is the key `_resume`, which no row has. -/
structure Dict extends LiveDict where
  committed_files : ℕ
  resume : Option Bool

/-- The table `_jobs` of a process. -/
abbrev Table := ℕ → Option Dict

/-- `dispatch_job`: a dictionary from the row, in the table and for the runner. -/
def dispatchJob (fs : FileSystem) (job : Row) (jobs : Table) : Option (Execution × Dict × Table) :=
  (dispatch fs job.toJobRow).map fun (e, jd) =>
    let jd : Dict := ⟨jd, job.committed_files, none⟩
    (e, jd, Function.update jobs job.id (some jd))

/-- `startup`, for one job that it enqueues again: the runner it gets is only a probe. -/
def recover (fs : FileSystem) (job : Row) (jobs : Table) : Option Table :=
  (dispatchJob fs job jobs).map fun (_, _, jobs) =>
    Function.update jobs job.id ((jobs job.id).map fun jd => { jd with resume := some true })

/-- `_run_one`, to the runner and its dictionary. -/
def runOne (fs : FileSystem) (job : Row) (jobs : Table) : Option (Execution × Dict) :=
  (dispatchJob fs job jobs).map fun (e, jd, _) => (e, jd)

/-- The mark is on the dictionary that the table has. -/
lemma resume_of_recover {fs : FileSystem} {job : Row} {jobs jobs' : Table}
    (h : recover fs job jobs = some jobs') : (jobs' job.id).bind (·.resume) = some true := by
  obtain ⟨⟨e, jd, jobs⟩, hd, rfl⟩ := Option.map_eq_some_iff.1 h
  obtain ⟨⟨e, jd⟩, -, hd⟩ := Option.map_eq_some_iff.1 hd
  cases hd
  simp

lemma resume_of_runOne {fs : FileSystem} {job : Row} {jobs : Table} {e : Execution} {jd : Dict}
    (h : runOne fs job jobs = some (e, jd)) : jd.resume = none := by
  obtain ⟨⟨e, jd, jobs⟩, hd, h⟩ := Option.map_eq_some_iff.1 h
  obtain ⟨⟨e, jd⟩, -, hd⟩ := Option.map_eq_some_iff.1 hd
  cases hd
  cases h
  rfl

/-! ### The runners -/

/-- What a run does to the stores. -/
inductive Event
  | reset
  | stored (file_path : FilePath)
  deriving DecidableEq, Repr

structure Trace where
  stores : Stores
  events : List Event

def listIndexedPaths (sid : String) (st : Stores) : List FilePath :=
  (st.vectors.filter fun r => r.sourceId = sid).map (·.filePath)

variable (tools : Tools)

/-- A file of a file source; its chunks are stored as they are. -/
def indexFile (sid : String) (skip_graph : Bool) (p : FilePath) (source : String) (st : Stores) :
    Stores :=
  let chunks := parseAndChunk tools p source
  if chunks = [] then st
  else
    let st := { st with vectors := insertChunks sid chunks st.vectors }
    if skip_graph then st else graphIndexFile tools p source sid st

/-- A source is reset unless its job is resumed. -/
def start (sid : String) (resuming : Bool) (st : Stores) : Trace :=
  if resuming then ⟨st, []⟩ else ⟨resetSource sid st, [.reset]⟩

/-- The files one by one, in the order in which they are done. -/
def storeAll (store : FilePath → String → Stores → Stores) (files : List (FilePath × String))
    (t : Trace) : Trace :=
  files.foldl (fun t f => ⟨store f.1 f.2 t.stores, t.events ++ [.stored f.1]⟩) t

/-- `_run_index_file_job`. -/
def runFile (jd : Dict) (files : List (FilePath × String)) (st : Stores) : Trace :=
  let resuming := jd.resume.getD false
  if resuming = true ∧ jd.committed_files ≥ 1 then ⟨st, []⟩
  else storeAll (indexFile tools jd.sourceId (jd.skip_graph.getD false)) files
    (start jd.sourceId resuming st)

/-- `_run_index_directory_job` and `_run_index_repo_job`, with `_walk_and_index`. -/
def runWalk (jd : Dict) (files : List (FilePath × String)) (st : Stores) : Trace :=
  let resuming := jd.resume.getD false
  let skip_count := if resuming then jd.committed_files else 0
  let t := start jd.sourceId resuming st
  let files := if skip_count > 0 then
      files.filter fun f => f.1 ∉ listIndexedPaths jd.sourceId t.stores
    else files
  storeAll (processFile tools jd.sourceId (jd.skip_graph.getD false)) files t

/-- A runner that finds `files`. -/
def run (e : Execution) (jd : Dict) (files : List (FilePath × String)) (st : Stores) : Trace :=
  match e with
  | .file _ _ => runFile tools jd files st
  | .directory _ _ _ _ => runWalk tools jd files st
  | .repo _ _ => runWalk tools jd files st

/-! ### What a recovered job does -/

def rows (sid : String) (st : Stores) : List VectorStore.Row :=
  st.vectors.filter fun r => r.sourceId = sid

section Rows
variable {sid : String} {store : FilePath → String → Stores → Stores}
  {new : FilePath → String → List Chunk} {files : List (FilePath × String)} {t : Trace}

lemma rows_reset (sid : String) (st : Stores) : rows sid (resetSource sid st) = [] := by
  simp [rows, resetSource, deleteChunksBySource]

lemma rows_storeAll
    (hstore : ∀ p s st, (store p s st).vectors = insertChunks sid (new p s) st.vectors) :
    rows sid (storeAll store files t).stores =
      rows sid t.stores ++ files.flatMap fun f => (new f.1 f.2).map (rowOf sid) := by
  induction files generalizing t with
  | nil => simp [storeAll]
  | cons f files ih =>
    have hnew : rows sid (store f.1 f.2 t.stores) =
        rows sid t.stores ++ (new f.1 f.2).map (rowOf sid) := by
      have hall : ((new f.1 f.2).map (rowOf sid)).filter (fun r => r.sourceId = sid) =
          (new f.1 f.2).map (rowOf sid) := by
        refine List.filter_eq_self.2 fun r hr => ?_
        obtain ⟨c, -, rfl⟩ := List.mem_map.1 hr
        exact decide_eq_true rfl
      rw [rows, hstore, insertChunks, List.filter_append, hall]
      rfl
    have hrest := ih (t := ⟨store f.1 f.2 t.stores, t.events ++ [.stored f.1]⟩)
    rw [storeAll, List.foldl_cons]
    refine hrest.trans ?_
    rw [hnew, List.flatMap_cons, List.append_assoc]

lemma indexFile_vectors (sid : String) (skip_graph : Bool) (p : FilePath) (source : String)
    (st : Stores) : (indexFile tools sid skip_graph p source st).vectors =
      insertChunks sid (parseAndChunk tools p source) st.vectors := by
  unfold indexFile
  dsimp only
  split
  · rename_i h
    simp [h, insertChunks]
  · split <;> rfl

lemma reset_mem_storeAll (h : Event.reset ∈ t.events) :
    Event.reset ∈ (storeAll store files t).events := by
  induction files generalizing t with
  | nil => exact h
  | cons f files ih => exact ih (List.mem_append_left _ h)

end Rows

section Fresh
variable {tools} {e : Execution} {jd : Dict} {files : List (FilePath × String)} {st st' : Stores}

/-- A run without the mark begins with a reset. -/
lemma reset_mem_run (h : jd.resume = none) : Event.reset ∈ (run tools e jd files st).events := by
  have hstart : Event.reset ∈ (start jd.sourceId (jd.resume.getD false) st).events := by
    simp [start, h]
  cases e with
  | file path skip_graph =>
    have hrun : ¬(jd.resume.getD false = true ∧ jd.committed_files ≥ 1) := by simp [h]
    rw [run, runFile, if_neg hrun]
    exact reset_mem_storeAll hstart
  | directory | repo => exact reset_mem_storeAll hstart

/-- Such a run leaves the same rows whatever was there, each chunk of each file once. -/
lemma rows_run (h : jd.resume = none) :
    rows jd.sourceId (run tools e jd files st).stores =
      rows jd.sourceId (run tools e jd files st').stores := by
  have hstart : ∀ st, rows jd.sourceId (start jd.sourceId (jd.resume.getD false) st).stores = [] :=
    fun st => by
      rw [h]
      exact rows_reset jd.sourceId st
  cases e with
  | file path skip_graph =>
    have hrun : ¬(jd.resume.getD false = true ∧ jd.committed_files ≥ 1) := by simp [h]
    rw [run, run, runFile, runFile, if_neg hrun, if_neg hrun,
      rows_storeAll (indexFile_vectors tools jd.sourceId (jd.skip_graph.getD false)),
      rows_storeAll (indexFile_vectors tools jd.sourceId (jd.skip_graph.getD false)),
      hstart, hstart]
  | directory | repo =>
    have hall : ∀ st, rows jd.sourceId (runWalk tools jd files st).stores =
        files.flatMap fun f => ((parseAndChunk tools f.1 f.2).map truncateChunk).map
          (rowOf jd.sourceId) := by
      intro st
      have hskip : ¬(if jd.resume.getD false = true then jd.committed_files else 0) > 0 := by
        simp [h]
      rw [runWalk]
      simp only [if_neg hskip]
      rw [rows_storeAll (processFile_vectors tools jd.sourceId (jd.skip_graph.getD false)), hstart]
      rfl
    rw [run, run, hall, hall]

end Fresh

/-- The run `t` goes on from what a dead one left, and ends as a `whole` one does. -/
structure Resumes (sid : String) (dead : Stores) (t : Trace) (whole : Stores) : Prop where
  no_reset : Event.reset ∉ t.events
  not_again : ∀ p ∈ listIndexedPaths sid dead, Event.stored p ∉ t.events
  same_rows : (rows sid t.stores).Perm (rows sid whole)

/-- **No recovered job resumes.** A process runs a job until it dies after some file; another
recovers the job, and a worker runs it from its row: the source is reset, and its files are stored
from the first one on. -/
theorem never_resumes (tools : Tools) {fs fs' fs'' : FileSystem} {job job' job'' : Row}
    {jobs jobs' jobs'' : Table} {e e' : Execution} {jd jd' : Dict}
    (files files' : List (FilePath × String)) (k : ℕ) (st : Stores)
    (_ : runOne fs job jobs = some (e, jd)) (_ : recover fs' job' jobs' = some jobs'')
    (hrun : runOne fs'' job'' jobs'' = some (e', jd')) :
    ¬Resumes jd.sourceId (run tools e jd (files.take k) st).stores
      (run tools e' jd' files' (run tools e jd (files.take k) st).stores)
      (run tools e jd files st).stores :=
  fun h => h.no_reset (reset_mem_run (resume_of_runOne hrun))

/-! ### A directory of two files -/

def noTools : Tools := ⟨fun _ _ => none, fun _ _ => none, fun _ p => p, fun _ _ => false⟩

def twoNotes : List (FilePath × String) :=
  [(.abs ["repo", "a.md"], "# a"), (.abs ["repo", "b.md"], "# b")]

/-- The job, after the first `n` files. -/
def notesJob (n : ℕ) : Row :=
  ⟨upsert none (build oneDirectory true fresh (.directory "/repo" "**/*" false none true)), n⟩

def notesDict (n : ℕ) : Dict :=
  ⟨(restoreRequestOptions (live (notesJob n).toJobRow.toDict)).1, n, none⟩

def notesRun : Execution := .directory "/repo" "**/*" [] true

theorem notes_not_resumed : ¬Resumes (notesDict 0).sourceId
    (run noTools notesRun (notesDict 0) (twoNotes.take 1) .init).stores
    (run noTools notesRun (notesDict 1) twoNotes
      (run noTools notesRun (notesDict 0) (twoNotes.take 1) .init).stores)
    (run noTools notesRun (notesDict 0) twoNotes .init).stores :=
  never_resumes noTools twoNotes twoNotes 1 .init
    (rfl : runOne oneDirectory (notesJob 0) (fun _ => none) = some (notesRun, notesDict 0))
    (rfl : recover oneDirectory (notesJob 1) (fun _ => none) = some _)
    (rfl : runOne oneDirectory (notesJob 1) _ = some (notesRun, notesDict 1))

/-- The process dies after the first of two files. -/
theorem recovered_job_resets : ¬∀ (tools : Tools) (fs fs' fs'' : FileSystem)
    (job job' job'' : Row) (jobs jobs' jobs'' : Table) (e e' : Execution) (jd jd' : Dict)
    (files files' : List (FilePath × String)) (k : ℕ) (st : Stores),
    runOne fs job jobs = some (e, jd) → recover fs' job' jobs' = some jobs'' →
    runOne fs'' job'' jobs'' = some (e', jd') →
    Resumes jd.sourceId (run tools e jd (files.take k) st).stores
      (run tools e' jd' files' (run tools e jd (files.take k) st).stores)
      (run tools e jd files st).stores := by
  intro hclaim
  have h := hclaim noTools oneDirectory oneDirectory oneDirectory (notesJob 0) (notesJob 1)
    (notesJob 1) (fun _ => none) (fun _ => none) _ notesRun notesRun (notesDict 0) (notesDict 1)
    twoNotes twoNotes 1 .init rfl rfl rfl
  exact h.no_reset (by decide +kernel)

end Treeweft.Resume
