import Treeweft.FileIndex
import Treeweft.Guarded
import Treeweft.Jobs

/-!
The two records of a source: the row of `sources` in the graph store and the one of
`source_records` in PostgreSQL.

A pass over the chunks takes the first away and writes both at its end. A pass over the graph takes
the first away as well, and writes it with what such a pass knows.
-/

namespace Treeweft.Registries

open Treeweft.Jobs (JobKind)
open Treeweft.FileIndex (terminalStatusForIndex)

/-! ### Records -/

/-- What both stores have of a source. -/
structure Common where
  path : String
  url : String
  branch : String
  file_count : ℕ
  chunk_count : ℕ
  commit_sha : String
  deriving DecidableEq, Repr

structure GraphSource extends Common where
  indexed_at : ℕ
  deriving DecidableEq, Repr

/-- A row of `source_records` without the state of its graph. -/
structure Core extends Common where
  indexed_at : ℕ
  created_by : Option String
  kind : JobKind
  deriving DecidableEq, Repr

structure SourceRecord extends Core where
  graph_indexed : Bool
  graph_indexed_at : Option ℕ
  deriving DecidableEq, Repr

structure Records where
  graph : String → Option GraphSource
  pg : String → Option SourceRecord

namespace Records

variable (r : Records) (sid : String)

/-- `graph_store.upsert_source`. -/
def upsertSource (row : GraphSource) : Records :=
  { r with graph := Function.update r.graph sid (some row) }

/-- What `graph_store.delete_source` does to the row. -/
def deleteSource : Records := { r with graph := Function.update r.graph sid none }

def save (record : SourceRecord) : Records :=
  { r with pg := Function.update r.pg sid (some record) }

def setGraphIndexed (now : ℕ) : Records :=
  { r with pg := Function.update r.pg sid ((r.pg sid).map fun record =>
      { record with graph_indexed := true, graph_indexed_at := some now }) }

end Records

/-! ### Jobs -/

structure Job where
  kind : JobKind
  source_id : String
  source_path : String
  source_url : String
  source_branch : String
  commit_sha : String
  created_by : Option String
  skip_graph : Bool
  deriving DecidableEq, Repr

/-- How a run ended: it raised before it took anything away, or later, or it counted. -/
inductive Outcome
  | raisedFirst
  | raised
  | counted (chunks files errors : ℕ)
  deriving DecidableEq, Repr

/-- A job that has finished, with what it found: whether the path of the record is there, the
branch and the commit of the working tree. -/
structure Finished where
  job : Job
  resuming : Bool
  accessible : Bool
  branch : String
  head : String
  now : ℕ
  outcome : Outcome
  deriving DecidableEq, Repr

def commonOf (job : Job) (total_chunks total_files : ℕ) : Common :=
  ⟨job.source_path, job.source_url, job.source_branch, total_files, total_chunks, job.commit_sha⟩

/-- The record `_finalize_job` builds, where the kind is `kind`. -/
def recordOf (job : Job) (kind : JobKind) (now total_chunks total_files : ℕ) : SourceRecord :=
  let skipped_graph := job.skip_graph && job.kind ≠ .graph
  ⟨⟨commonOf job total_chunks total_files, now, job.created_by, kind⟩, !skipped_graph,
    if skipped_graph then none else some now⟩

def indexKinds : List JobKind := [.repo, .directory, .file]

def finalizeJob (job : Job) (now total_chunks total_files errors : ℕ) (r : Records) :
    Records :=
  if terminalStatusForIndex total_chunks total_files errors = .failed then r
  else
    let r := r.upsertSource job.source_id ⟨commonOf job total_chunks total_files, now⟩
    let existing := if job.kind ∈ indexKinds then none else r.pg job.source_id
    let kind := if job.kind ∈ indexKinds then job.kind
      else (existing.map fun record => record.kind).getD .repo
    -- a graph-only job leaves a record that is there alone
    if job.kind = .graph ∧ existing ≠ none then r
    else r.save job.source_id (recordOf job kind now total_chunks total_files)

/-- What a runner of a full index has set on its job. -/
def ran (f : Finished) : Job :=
  { f.job with
    source_branch := if f.job.kind = .repo then f.branch else f.job.source_branch
    commit_sha := if f.job.kind = .repo ∨ f.resuming = false then f.head else f.job.commit_sha }

/-- `_run_index_file_job`, `_run_index_directory_job` and `_run_index_repo_job`. -/
def runIndexJob (f : Finished) (r : Records) : Records :=
  let reset := if f.resuming then r else r.deleteSource f.job.source_id
  match f.outcome with
  | .raisedFirst => r
  | .raised => reset
  | .counted chunks files errors => finalizeJob (ran f) f.now chunks files errors reset

/-- `_run_index_graph_job`: it counts no chunks. -/
def runGraphJob (f : Finished) (r : Records) : Records :=
  match r.pg f.job.source_id with
  | none => r
  | some record =>
    if record.path = "" ∨ f.accessible = false then r
    else
      let r := r.deleteSource f.job.source_id
      match f.outcome with
      | .counted _ files errors =>
        let r := if files > errors then r.setGraphIndexed f.job.source_id f.now else r
        finalizeJob f.job f.now 0 files errors r
      | _ => r

/-- An incremental job and a refresh of the summaries write neither record. -/
def finish (r : Records) (f : Finished) : Records :=
  match f.job.kind with
  | .graph => runGraphJob f r
  | .incremental | .resummarize => r
  | _ => runIndexJob f r

/-! ### Agreement -/

/-- The two stores have the same of every source. -/
def Agree (r : Records) : Prop :=
  ∀ sid, (r.graph sid).map GraphSource.toCommon = (r.pg sid).map fun record => record.toCommon

/-- Nothing has changed in either record but the state of the graph. -/
structure Unchanged (r r' : Records) : Prop where
  graph : r'.graph = r.graph
  pg : ∀ sid, (r'.pg sid).map SourceRecord.toCore = (r.pg sid).map SourceRecord.toCore

/-- After the job the records agree; a graph-only job changes nothing. -/
def Right (r : Records) (f : Finished) : Prop :=
  Agree (finish r f) ∧ (f.job.kind = .graph → Unchanged r (finish r f))

/-- The job leaves the records as they have to be: a full index has not failed after it took a
row away, and a graph-only job either refuses, or writes the row that is there. -/
def MayFinish (r : Records) (f : Finished) : Prop :=
  match f.job.kind with
  | .graph =>
    (∀ record, r.pg f.job.source_id = some record → record.path = "" ∨ f.accessible = false) ∨
      ∃ chunks files errors, f.outcome = .counted chunks files errors ∧
        terminalStatusForIndex 0 files errors = .done ∧
        r.graph f.job.source_id = some ⟨commonOf f.job 0 files, f.now⟩
  | .incremental | .resummarize => True
  | _ => f.resuming = true ∨ f.outcome = .raisedFirst ∨ r.pg f.job.source_id = none ∨
      ∃ chunks files errors, f.outcome = .counted chunks files errors ∧
        terminalStatusForIndex chunks files errors = .done

section Steps
variable {r : Records} {f : Finished}

/-- Both stores have nothing of a source, or both have it. -/
lemma Agree.graph_eq_none (h : Agree r) (sid : String) : r.graph sid = none ↔ r.pg sid = none := by
  rw [← Option.map_eq_none_iff (f := GraphSource.toCommon), h sid, Option.map_eq_none_iff]

/-- Where the stores agree, they do so after a row is gone exactly if there was none. -/
lemma agree_deleteSource_iff (h : Agree r) (sid : String) :
    Agree (r.deleteSource sid) ↔ r.pg sid = none := by
  have hself : (r.deleteSource sid).graph sid = none := Function.update_self ..
  constructor
  · intro hd
    exact (hd.graph_eq_none sid).1 hself
  · intro hnone sid'
    by_cases hsid : sid' = sid
    · subst hsid
      rw [hself]
      simp [Records.deleteSource, hnone]
    · have hother : (r.deleteSource sid).graph sid' = r.graph sid' := Function.update_of_ne hsid ..
      rw [hother]
      exact h sid'

/-- A full index that is done writes the same to both stores. -/
lemma agree_finalizeJob (job : Job) {now chunks files errors : ℕ} (hk : job.kind ∈ indexKinds)
    (h : ∀ sid, sid ≠ job.source_id →
      (r.graph sid).map GraphSource.toCommon = (r.pg sid).map fun record => record.toCommon)
    (hd : terminalStatusForIndex chunks files errors = .done) :
    Agree (finalizeJob job now chunks files errors r) := by
  have hgraph : job.kind ≠ .graph := by
    rintro hg
    simp [hg, indexKinds] at hk
  intro sid
  by_cases hsid : sid = job.source_id
  · subst hsid
    simp [finalizeJob, hd, hk, hgraph, Records.upsertSource, Records.save, recordOf]
  · simpa [finalizeJob, hd, hk, hgraph, Records.upsertSource, Records.save,
      Function.update_of_ne hsid] using h sid hsid

lemma finalizeJob_failed {job : Job} {now chunks files errors : ℕ}
    (hd : terminalStatusForIndex chunks files errors = .failed) :
    finalizeJob job now chunks files errors r = r := if_pos hd

lemma agree_runIndexJob_iff (h : Agree r) (hk : f.job.kind ∈ indexKinds) :
    Agree (runIndexJob f r) ↔ f.resuming = true ∨ f.outcome = .raisedFirst ∨
      r.pg f.job.source_id = none ∨ ∃ chunks files errors,
        f.outcome = .counted chunks files errors ∧
        terminalStatusForIndex chunks files errors = .done := by
  have hreset : Agree (if f.resuming then r else r.deleteSource f.job.source_id) ↔
      f.resuming = true ∨ r.pg f.job.source_id = none := by
    cases f.resuming with
    | true => simp [h]
    | false => simp [agree_deleteSource_iff h]
  unfold runIndexJob
  cases ho : f.outcome with
  | raisedFirst => simp [h]
  | raised => simpa using hreset
  | counted chunks files errors =>
    cases hd : terminalStatusForIndex chunks files errors with
    | failed => simp [finalizeJob_failed hd, hreset, hd]
    | done =>
      have hother : ∀ sid, sid ≠ (ran f).source_id →
          ((if f.resuming then r else r.deleteSource f.job.source_id).graph sid).map
            GraphSource.toCommon =
          ((if f.resuming then r else r.deleteSource f.job.source_id).pg sid).map
            fun record => record.toCommon := by
        intro sid hsid
        have hsid : sid ≠ f.job.source_id := hsid
        split
        · exact h sid
        · simpa [Records.deleteSource, Function.update_of_ne hsid] using h sid
      simp [agree_finalizeJob (ran f) hk hother hd, hd]

lemma Unchanged.agree {r' : Records} (hu : Unchanged r r') (h : Agree r) : Agree r' := by
  intro sid
  have hpg : (r'.pg sid).map (fun record => record.toCommon) =
      (r.pg sid).map fun record => record.toCommon := by
    have hc := congrArg (Option.map Core.toCommon) (hu.pg sid)
    simpa [Option.map_map, Function.comp_def] using hc
  rw [hu.graph, hpg]
  exact h sid

/-- The records before the end of a graph-only job: the row is gone. -/
structure Dropped (r r' : Records) (sid : String) : Prop where
  graph : r'.graph = Function.update r.graph sid none
  pg : ∀ sid, (r'.pg sid).map SourceRecord.toCore = (r.pg sid).map SourceRecord.toCore

lemma dropped_graph (now files errors : ℕ) (sid : String) : Dropped r
    (if files > errors then (r.deleteSource sid).setGraphIndexed sid now else r.deleteSource sid)
    sid := by
  split
  · refine ⟨rfl, fun sid' => ?_⟩
    by_cases hsid : sid' = sid
    · subst hsid
      simp [Records.setGraphIndexed, Records.deleteSource, Option.map_map, Function.comp_def]
    · simp [Records.setGraphIndexed, Records.deleteSource, Function.update_of_ne hsid]
  · exact ⟨rfl, fun _ => rfl⟩

/-- Such a job ends with the row it writes, or with none. -/
lemma unchanged_finalizeJob_iff {r' : Records} {job : Job} (now files errors : ℕ)
    (hk : job.kind = .graph) (hd : Dropped r r' job.source_id)
    (hpg : r.pg job.source_id ≠ none) (hgraph : r.graph job.source_id ≠ none) :
    Unchanged r (finalizeJob job now 0 files errors r') ↔
      terminalStatusForIndex 0 files errors = .done ∧
        r.graph job.source_id = some ⟨commonOf job 0 files, now⟩ := by
  cases hs : terminalStatusForIndex 0 files errors with
  | failed =>
    rw [finalizeJob_failed hs]
    simp only [reduceCtorEq, false_and, iff_false]
    intro hu
    apply hgraph
    rw [← hu.graph, hd.graph, Function.update_self]
  | done =>
    have hex : r'.pg job.source_id ≠ none := by
      intro hnone
      have hc := hd.pg job.source_id
      rw [hnone] at hc
      exact hpg (Option.map_eq_none_iff.1 hc.symm)
    have hfin : finalizeJob job now 0 files errors r' =
        r'.upsertSource job.source_id ⟨commonOf job 0 files, now⟩ := by
      simp [finalizeJob, hs, hk, indexKinds, Records.upsertSource, hex]
    rw [hfin]
    have hup : (r'.upsertSource job.source_id ⟨commonOf job 0 files, now⟩).graph =
        Function.update r.graph job.source_id (some ⟨commonOf job 0 files, now⟩) := by
      simp [Records.upsertSource, hd.graph]
    constructor
    · intro hu
      refine ⟨rfl, ?_⟩
      rw [← hu.graph, hup, Function.update_self]
    · rintro ⟨-, hrow⟩
      exact ⟨by rw [hup, ← hrow, Function.update_eq_self], hd.pg⟩

/-- A graph-only job whose path is there takes the row away, and puts back one without chunks. -/
lemma right_runGraphJob_iff (h : Agree r) (hk : f.job.kind = .graph) :
    (Agree (runGraphJob f r) ∧ Unchanged r (runGraphJob f r)) ↔
      (∀ record, r.pg f.job.source_id = some record → record.path = "" ∨ f.accessible = false) ∨
      ∃ chunks files errors, f.outcome = .counted chunks files errors ∧
        terminalStatusForIndex 0 files errors = .done ∧
        r.graph f.job.source_id = some ⟨commonOf f.job 0 files, f.now⟩ := by
  have hsame : Agree r ∧ Unchanged r r := ⟨h, rfl, fun _ => rfl⟩
  unfold runGraphJob
  cases hpg : r.pg f.job.source_id with
  | none => simp [hsame]
  | some record =>
    by_cases hrefuse : record.path = "" ∨ f.accessible = false
    · simp [hrefuse, hsame]
    · have hne : r.graph f.job.source_id ≠ none := by
        rw [ne_eq, h.graph_eq_none, hpg]
        simp
      have hgone : ¬ Unchanged r (r.deleteSource f.job.source_id) := by
        intro hu
        apply hne
        rw [← hu.graph]
        exact Function.update_self ..
      have hboth : ∀ {r'}, (Agree r' ∧ Unchanged r r') ↔ Unchanged r r' :=
        ⟨fun hr => hr.2, fun hu => ⟨hu.agree h, hu⟩⟩
      simp only [hrefuse, if_false, Option.some.injEq, forall_eq', false_or]
      rw [hboth]
      cases ho : f.outcome with
      | raisedFirst => simpa using hgone
      | raised => simpa using hgone
      | counted chunks files errors =>
        have hiff := unchanged_finalizeJob_iff f.now files errors hk
          (dropped_graph f.now files errors f.job.source_id) (by simp [hpg]) hne
        simpa using hiff

theorem mayFinish_iff (h : Agree r) (f : Finished) : MayFinish r f ↔ Right r f := by
  unfold MayFinish Right finish
  cases hk : f.job.kind with
  | graph =>
    rw [← right_runGraphJob_iff h hk]
    simp
  | incremental => simp [h]
  | resummarize => simp [h]
  | file => simpa using (agree_runIndexJob_iff h (by simp [hk, indexKinds])).symm
  | directory => simpa using (agree_runIndexJob_iff h (by simp [hk, indexKinds])).symm
  | repo => simpa using (agree_runIndexJob_iff h (by simp [hk, indexKinds])).symm

end Steps

/-- In a sequence of finished jobs the stores agree after every job, and no graph-only job changes
more than the state of the graph, exactly where every job may finish as it does. -/
theorem right_iff_along {r : Records} (hr : Agree r) (jobs : List Finished) :
    (∀ pre f post, jobs = pre ++ f :: post → Right (pre.foldl finish r) f) ↔
      Guarded.Along finish MayFinish r jobs := by
  have hstep : ∀ r f, Agree r → (MayFinish r f ↔ Right r f) := fun _ f h => mayFinish_iff h f
  have hgood : ∀ r f, Right r f → Agree (finish r f) := fun _ _ h => h.1
  exact Guarded.steps_iff_along hstep hgood hr

/-! A file is indexed, then its graph again: the graph store has no chunks of it any more. -/

def noRecords : Records := ⟨fun _ => none, fun _ => none⟩

lemma agree_noRecords : Agree noRecords := fun _ => rfl

def fileJob : Job := ⟨.file, "f", "/r/a.py", "", "", "", none, false⟩

def fileDone : Finished := ⟨fileJob, false, true, "", "c0ffee", 10, .counted 5 1 0⟩

def fileGraphDone : Finished :=
  ⟨{ fileJob with kind := .graph }, false, true, "", "", 20, .counted 0 1 0⟩

theorem right_fileDone : Right noRecords fileDone :=
  (right_iff_along agree_noRecords [fileDone]).2
    ⟨.inr (.inr (.inl rfl)), trivial⟩ [] fileDone [] rfl

theorem graph_pass_drops_chunks :
    ¬ ∀ (r : Records) (jobs : List Finished), Agree r →
      ∀ pre f post, jobs = pre ++ f :: post → Right (pre.foldl finish r) f := by
  intro h
  have hright := h noRecords [fileDone, fileGraphDone] agree_noRecords [fileDone] fileGraphDone []
    rfl
  have hagree := hright.1 "f"
  exact absurd hagree (by decide +kernel)

end Treeweft.Registries
