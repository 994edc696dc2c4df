import Treeweft.Resume

/-!
A full run of a repository while the stores fail.

A run goes on where a file of it raises, and where the rows of the source could not be dropped at
its start. How it ends is decided by what its files have counted.
-/

namespace Treeweft.Upsert

open Treeweft.Paths Treeweft.Indexer Treeweft.VectorStore Treeweft.FileIndex
open Treeweft.Resume (rows rows_reset noTools)

/-! ### The Run -/

/-- How a file goes: to its end, or it raises, or is timed out, before its chunks are stored, when
the first `n` of them are, or in its graph. -/
inductive Fate
  | ended
  | raised
  | cut (n : ℕ)
  | ungraphed
  deriving DecidableEq, Repr

/-- What fails. A delete of the rows that raises leaves those that `rowsLeft` names. -/
structure Faults where
  rowsLeft : Option (Row → Bool)
  graphLeft : Bool
  version : Bool
  opens : Bool
  walk : Bool
  upsertSource : Bool
  fate : FilePath → Fate

variable (tools : Tools)

/-- The files that the walk collects, in the order in which they are done. -/
structure Order (skipPatterns : List String) (clone : Clone) where
  files : List (List String × String)
  perm : files.Perm (collectFiles tools skipPatterns clone.tree)

structure Tally where
  chunks : ℕ
  errors : ℕ
  deriving DecidableEq, Repr

section Run
variable (sid : String) (skipGraph : Bool) (w : Faults)

/-- Both errors are only printed. -/
def resetSource (st : Stores) : Stores where
  vectors := match w.rowsLeft with
    | none => deleteChunksBySource sid st.vectors
    | some left => st.vectors.filter fun r => r.sourceId ≠ sid ∨ left r
  graph := if w.graphLeft then st.graph else GraphStore.deleteSource sid st.graph

/-- The chunks it has indexed, and `none` where it raises. -/
def processFile (p : FilePath) (source : String) (st : Stores) : Stores × Option ℕ :=
  if w.fate p = .raised then (st, none)
  else
    let chunks := parseAndChunk tools p source
    if chunks = [] then (st, some 0)
    else
      match w.fate p with
      | .cut n =>
        ({ st with vectors := insertChunks sid ((chunks.map truncateChunk).take n) st.vectors },
          none)
      | fate =>
        let st := { st with vectors := insertChunks sid (chunks.map truncateChunk) st.vectors }
        if skipGraph then (st, some chunks.length)
        else if fate = .ungraphed then (st, none)
        else (graphIndexFile tools p source sid st, some chunks.length)

/-- `_process_one`. -/
def processOne (p : FilePath) (source : String) (x : Stores × Tally) : Stores × Tally :=
  match processFile tools sid skipGraph w p source x.1 with
  | (st, some n) => (st, { x.2 with chunks := x.2.chunks + n })
  | (st, none) => (st, { x.2 with errors := x.2.errors + 1 })

def walkAndIndex (clone : Clone) (files : List (List String × String)) (x : Stores × Tally) :
    Stores × Tally :=
  files.foldl (fun x f => processOne tools sid skipGraph w (clone.path f.1) f.2 x) x

/-- The registry's errors are swallowed, those of the graph store are not. -/
def finalizeJob (t : Tally) (totalFiles : ℕ) : TerminalStatus :=
  if terminalStatusForIndex t.chunks totalFiles t.errors = .failed then .failed
  else if w.upsertSource then .failed
  else .done

/-- `_run_index_repo_job` of a job that does not resume. Its row may have errors of an earlier
attempt. -/
def runIndexRepoJob {skipPatterns : List String} {clone : Clone}
    (order : Order tools skipPatterns clone) (errors : ℕ) (st : Stores) :
    Stores × TerminalStatus :=
  if w.version then (st, .failed)
  else
    let st := resetSource sid w st
    if w.opens then (st, .failed)
    else
      let x := walkAndIndex tools sid skipGraph w clone order.files (st, ⟨0, errors⟩)
      if w.walk then (x.1, .failed)
      else (x.1, finalizeJob w x.2 order.files.length)

/-! ### What it Leaves -/

/-- One row for each chunk of a file. -/
def chunkRows (p : FilePath) (source : String) : List Row :=
  ((parseAndChunk tools p source).map truncateChunk).map (rowOf sid)

/-- The rows of a file that its run has come to store. -/
def storedRows (p : FilePath) (source : String) : List Row :=
  match w.fate p with
  | .raised => []
  | .cut n => (chunkRows tools sid p source).take n
  | _ => chunkRows tools sid p source

/-- A file that the run counts as an error. -/
def Fails (p : FilePath) (source : String) : Prop :=
  (processFile tools sid skipGraph w p source .init).2 = none

instance (p : FilePath) (source : String) : Decidable (Fails tools sid skipGraph w p source) :=
  inferInstanceAs (Decidable (_ = none))

/-- Where the job ends done, the rows of the source are the chunks of the files, each once. -/
def Upserts {skipPatterns : List String} {clone : Clone} (order : Order tools skipPatterns clone)
    (errors : ℕ) (st : Stores) : Prop :=
  (runIndexRepoJob tools sid skipGraph w order errors st).2 = .done →
    (rows sid (runIndexRepoJob tools sid skipGraph w order errors st).1).Perm
      ((collectFiles tools skipPatterns clone.tree).flatMap fun f =>
        chunkRows tools sid (clone.path f.1) f.2)

end Run

section Rows
variable {tools} {sid : String} {skipGraph : Bool} {w : Faults} {p : FilePath} {source : String}
  {clone : Clone}

lemma processFile_vectors (st : Stores) :
    (processFile tools sid skipGraph w p source st).1.vectors =
      st.vectors ++ storedRows tools sid w p source := by
  unfold processFile storedRows chunkRows
  cases hfate : w.fate p with
  | raised => simp
  | cut n =>
    by_cases hnil : parseAndChunk tools p source = []
    · simp [hnil]
    · simp [hnil, insertChunks, List.map_take]
  | ended =>
    by_cases hnil : parseAndChunk tools p source = []
    · simp [hnil]
    · cases skipGraph <;> simp [hnil, insertChunks, graphIndexFile]
  | ungraphed =>
    by_cases hnil : parseAndChunk tools p source = []
    · simp [hnil]
    · cases skipGraph <;> simp [hnil, insertChunks]

/-- Whether a file raises does not depend on what is stored. -/
lemma processFile_outcome (st st' : Stores) :
    (processFile tools sid skipGraph w p source st).2 =
      (processFile tools sid skipGraph w p source st').2 := by
  unfold processFile
  cases w.fate p <;> simp only [reduceCtorEq, if_true, if_false] <;> split <;> try rfl
  all_goals cases skipGraph <;> rfl

lemma prefix_storedRows : storedRows tools sid w p source <+: chunkRows tools sid p source := by
  unfold storedRows
  split
  · exact List.nil_prefix
  · exact List.take_prefix _ _
  · exact List.prefix_rfl

lemma storedRows_of_not_fails (h : ¬Fails tools sid skipGraph w p source) :
    storedRows tools sid w p source = chunkRows tools sid p source := by
  unfold Fails processFile at h
  unfold storedRows
  cases hfate : w.fate p with
  | raised => simp [hfate] at h
  | cut n =>
    by_cases hnil : parseAndChunk tools p source = []
    · simp [chunkRows, hnil]
    · simp [hfate, hnil] at h
  | ended => rfl
  | ungraphed => rfl

lemma rows_storedRows : rows sid ⟨storedRows tools sid w p source, GraphStore.empty⟩ =
    storedRows tools sid w p source := by
  refine List.filter_eq_self.mpr fun r hr => ?_
  obtain ⟨c, -, rfl⟩ := List.mem_map.mp (prefix_storedRows.subset hr)
  exact decide_eq_true rfl

lemma processOne_stores (x : Stores × Tally) : (processOne tools sid skipGraph w p source x).1 =
    (processFile tools sid skipGraph w p source x.1).1 := by
  unfold processOne
  split <;> rename_i h <;> rw [h]

/-- A walk adds what its files store. -/
lemma rows_walkAndIndex (files : List (List String × String)) (x : Stores × Tally) :
    rows sid (walkAndIndex tools sid skipGraph w clone files x).1 =
      rows sid x.1 ++ files.flatMap fun f => storedRows tools sid w (clone.path f.1) f.2 := by
  induction files generalizing x with
  | nil => simp [walkAndIndex]
  | cons f files ih =>
    have hone : rows sid (processOne tools sid skipGraph w (clone.path f.1) f.2 x).1 =
        rows sid x.1 ++ storedRows tools sid w (clone.path f.1) f.2 := by
      rw [processOne_stores, rows, processFile_vectors, List.filter_append]
      exact congrArg (rows sid x.1 ++ ·) rows_storedRows
    rw [List.flatMap_cons, ← List.append_assoc, ← hone]
    exact ih _

/-- Files that fail are counted, and index nothing. -/
lemma tally_of_fails {files : List (List String × String)}
    (h : ∀ f ∈ files, Fails tools sid skipGraph w (clone.path f.1) f.2) (x : Stores × Tally) :
    (walkAndIndex tools sid skipGraph w clone files x).2 =
      ⟨x.2.chunks, x.2.errors + files.length⟩ := by
  induction files generalizing x with
  | nil => rfl
  | cons f files ih =>
    have hfails : (processFile tools sid skipGraph w (clone.path f.1) f.2 x.1).2 = none :=
      (processFile_outcome _ _).trans (h f List.mem_cons_self)
    have hone : (processOne tools sid skipGraph w (clone.path f.1) f.2 x).2 =
        ⟨x.2.chunks, x.2.errors + 1⟩ := by
      unfold processOne
      split
      · rename_i hsome
        rw [hsome] at hfails
        cases hfails
      · rfl
    refine (ih (fun g hg => h g (List.mem_cons_of_mem f hg)) _).trans ?_
    rw [hone, List.length_cons, Nat.add_right_comm, Nat.add_assoc]

lemma rows_resetSource (h : w.rowsLeft = none) (st : Stores) :
    rows sid (resetSource sid w st) = [] := by
  rw [rows, resetSource, h]
  exact rows_reset sid st

end Rows

/-- **What a full run leaves**, once the rows that were there are dropped: if it ends done, of each
file the first of its chunks, each once, and all of them unless the file was counted as an error.
A run whose files all were does not end done. -/
theorem upserts_what_ended (tools : Tools) (sid : String) (skipGraph : Bool) (w : Faults)
    (hreset : w.rowsLeft = none) {skipPatterns : List String} {clone : Clone}
    (order : Order tools skipPatterns clone) (errors : ℕ) (st : Stores) :
    ((runIndexRepoJob tools sid skipGraph w order errors st).2 = .done →
      (rows sid (runIndexRepoJob tools sid skipGraph w order errors st).1).Perm
        ((collectFiles tools skipPatterns clone.tree).flatMap fun f =>
          storedRows tools sid w (clone.path f.1) f.2)) ∧
      (∀ f ∈ collectFiles tools skipPatterns clone.tree,
        storedRows tools sid w (clone.path f.1) f.2 <+: chunkRows tools sid (clone.path f.1) f.2 ∧
          (¬Fails tools sid skipGraph w (clone.path f.1) f.2 →
            storedRows tools sid w (clone.path f.1) f.2 =
              chunkRows tools sid (clone.path f.1) f.2)) ∧
      ((∀ f ∈ collectFiles tools skipPatterns clone.tree,
        ¬Fails tools sid skipGraph w (clone.path f.1) f.2) →
          Upserts tools sid skipGraph w order errors st) ∧
      (collectFiles tools skipPatterns clone.tree ≠ [] →
        (∀ f ∈ collectFiles tools skipPatterns clone.tree,
          Fails tools sid skipGraph w (clone.path f.1) f.2) →
            (runIndexRepoJob tools sid skipGraph w order errors st).2 ≠ .done) := by
  have hrows : (runIndexRepoJob tools sid skipGraph w order errors st).2 = .done →
      (rows sid (runIndexRepoJob tools sid skipGraph w order errors st).1).Perm
        ((collectFiles tools skipPatterns clone.tree).flatMap fun f =>
          storedRows tools sid w (clone.path f.1) f.2) := by
    unfold runIndexRepoJob
    split
    · rintro ⟨⟩
    · dsimp only
      split
      · rintro ⟨⟩
      · split
        · rintro ⟨⟩
        · intro _
          rw [rows_walkAndIndex, rows_resetSource hreset, List.nil_append]
          exact order.perm.flatMap_right _
  refine ⟨hrows, fun f _ => ⟨prefix_storedRows, storedRows_of_not_fails⟩, fun hall hdone => ?_,
    fun hne hall => ?_⟩
  · refine (hrows hdone).trans (.of_eq ?_)
    exact List.flatMap_congr fun f hf => storedRows_of_not_fails (hall f hf)
  · have hlen : 0 < order.files.length := by
      rw [order.perm.length_eq]
      exact List.length_pos_iff.mpr hne
    have htally := tally_of_fails (fun f hf => hall f (order.perm.mem_iff.mp hf))
      (resetSource sid w st, ⟨0, errors⟩)
    unfold runIndexRepoJob
    split
    · simp
    · dsimp only
      split
      · simp
      · split
        · simp
        · rw [htally, finalizeJob, if_pos]
          · simp
          · rw [terminalStatusForIndex, if_pos]
            dsimp only
            omega

/-- A repository of two notes. -/
def notes : Clone where
  root := ["tmp"]
  tree := ⟨⟨[(["a.md"], "# a"), (["b.md"], "# b")], by decide⟩, by decide⟩
  plain := by decide

def inOrder : Order noTools [] notes := ⟨collectFiles noTools [] notes.tree, .refl _⟩

def faultless : Faults := ⟨none, false, false, false, false, false, fun _ => .ended⟩

/-- The store is down when the second note is stored. -/
def secondRaises : Faults :=
  { faultless with fate := fun p => if p = .abs ["tmp", "b.md"] then .raised else .ended }

/-- The rows that are there cannot be dropped. -/
def resetRaises : Faults := { faultless with rowsLeft := some fun _ => true }

def earlier : Stores := ⟨[⟨"gone", .abs ["tmp", "c.md"], "markdown", 1, 1, "s"⟩], GraphStore.empty⟩

theorem notes_upserted : (runIndexRepoJob noTools "s" true faultless inOrder 0 earlier).2 = .done ∧
    Upserts noTools "s" true faultless inOrder 0 earlier :=
  ⟨by decide +kernel, (upserts_what_ended noTools "s" true faultless rfl inOrder 0 earlier).2.2.1
    (by decide +kernel)⟩

/-- Neither run leaves the two notes alone, and both end done. -/
theorem done_with_other_rows : ¬Upserts noTools "s" true secondRaises inOrder 0 .init ∧
    ¬Upserts noTools "s" true resetRaises inOrder 0 earlier := by
  unfold Upserts
  decide +kernel

end Treeweft.Upsert
