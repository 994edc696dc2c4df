import Treeweft.JobStore

/-!
The coroutines that run jobs, as far as the shared tables and the stores can see them.

What a run reads from files and remotes, how many files there are and what fails is asked of
outside. A runner persists its job as `running` while it works and as a terminal status at its
end; a full run publishes `done` in the background before its last writes, and an incremental
run reports its progress the same way.
-/

namespace Treeweft.Runners

open Treeweft.Jobs Treeweft.JobStore
open Treeweft.FileIndex (Change Action)

def persistJob (j : Job) : Act Unit := do
  if ← upsert j then pure () else .raise .uniqueViolation

/-- Fire and forget. -/
def persistJobSync (j : Job) : Act Unit := .op (Op.background j) .ret

def newJob (kind : JobKind) (sid label : String) : Act Job := do
  let (i, now) : ℕ × ℕ ← .op Op.newJob .ret
  pure ⟨i, sid, .queued, kind, now, label, "", "", "", noPayload, 0, none, ""⟩

/-- Writes whose failure is logged or counted. -/
def writeAll (ws : List Write) : Act Unit := Prog.forEach ws fun w => do
  let _ ← write w
  pure ()

/-- A write whose failure ends the run. -/
def writeOrRaise (w : Write) : Act Unit := do
  if ← write w then pure () else .raise .fault

/-- A step that may raise. -/
def mayRaise : Act Unit := do
  if (← ask .fails) = 0 then pure () else .raise .fault

def withSummaryVersion (version : ℕ) (j : Job) : Job :=
  { j with payload.summaryVersion := some version }

/-- A resumed job keeps the version it started with. -/
def resolveSummaryVersion (j : Job) : Act Job :=
  if j.payload.summaryVersion.isSome then pure j
  else do
    let version ← ask .targetVersion
    persistJob (withSummaryVersion version j)
    pure (withSummaryVersion version j)

def failJob (j : Job) (e : Exc) : Act Unit := persistJob (j.failed e.text)

def sourceOf (j : Job) : Source := ⟨j.sourceId, j.kind, j.sourcePath, j.sourceUrl, j.sourceBranch⟩

/-- A graph run leaves the record of its source to the chunk run. -/
def registerSource (j : Job) : Act Unit :=
  if j.kind = .graph then pure ()
  else writeAll [.registry (sourceOf j), .registryMark j.sourceId]

/-- An error that is there is kept. -/
def failAll (j : Job) (error : String) : Act Unit :=
  persistJob (j.failed (if j.error = "" then error else j.error))

/-- A full run of which every file failed registers nothing. -/
def finalizeJob (j : Job) : Act Unit := do
  if (← ask .allFailed) = 0 then
    persistJobSync { j with status := .done }
    writeOrRaise (.graph j.sourceId)
    registerSource j
    persistJob { j with status := .done }
  else failAll j "All files failed during indexing"

def resetSource (sid : String) : Act Unit := writeAll [.chunks sid, .graph sid]

/-- Files are worked on side by side. Where one raises, the run does not wait for the others: what
they write, and the job as they persist it, is still on its way. -/
def leaveBehind (j : Job) (ws : List Write) (e : Exc) : Act Unit := do
  let n ← ask .files
  Prog.times n do
    Prog.forEach ws fun w => .op (Op.leave w) .ret
    persistJobSync j
  .raise e

/-- Every file of a tree, and the progress persisted now and then. -/
def walkAndIndex (j : Job) (ws : List Write) : Act Unit := do
  let n ← ask .files
  Prog.catching (Prog.times n do
    writeAll ws
    if (← ask .persists) = 0 then pure () else persistJob j) (leaveBehind j ws)
  persistJob j

def walked (sid : String) : Act Unit := .op (Op.walked sid) .ret

def runIndexFileJob (j : Job) : Act Unit :=
  let j := { j with status := .running }
  Prog.catching (do
    let j ← resolveSummaryVersion j
    resetSource j.sourceId
    mayRaise
    writeOrRaise (.chunks j.sourceId)
    writeOrRaise (.graph j.sourceId)
    walked j.sourceId
    finalizeJob j) (failJob j)

/-- A directory, or the clone of a repository. -/
def runTreeJob (j : Job) : Act Unit :=
  let j := { j with status := .running }
  Prog.catching (do
    let j ← resolveSummaryVersion j
    resetSource j.sourceId
    mayRaise
    walkAndIndex j [.chunks j.sourceId, .graph j.sourceId]
    walked j.sourceId
    writeAll [.graph j.sourceId]
    finalizeJob j) (failJob j)

def runIndexDirectoryJob (j : Job) : Act Unit := runTreeJob j

def runIndexRepoJob (j : Job) : Act Unit := runTreeJob j

/-- The graph of a source that has its chunks. -/
def runIndexGraphJob (j : Job) : Act Unit :=
  let j := { j with status := .running }
  Prog.catching (do
    mayRaise
    writeOrRaise (.graph j.sourceId)
    walkAndIndex j [.graph j.sourceId]
    writeAll [.registryMark j.sourceId]
    finalizeJob j) (failJob j)

def finalizeIncrementalJob (j : Job) : Act Unit := do
  if (← ask .allFailed) = 0 then persistJob { j with status := .done }
  else failAll j "All changed files failed during incremental indexing"

def removedFiles (j : Job) : List Change :=
  j.payload.changedFiles.filter fun c => c.action = .removed

def processFiles (j : Job) : List Change :=
  j.payload.changedFiles.filter fun c => c.action = .modified ∨ c.action = .added

/-- One added or modified file; a path outside the clone is refused untouched. -/
def processChange (j : Job) (c : Change) : Act Unit := do
  if (← ask (.pathExists c.path.str)) = 0 then
    writeAll [.chunks j.sourceId]
    if (← ask .fails) = 0 then
      writeAll [.chunks j.sourceId, .graph j.sourceId]
      persistJobSync j
    else pure ()
  else pure ()

/-- The exception is raised again after the job has failed, for the worker to retry. -/
def runIncrementalIndex (j : Job) : Act Unit :=
  let j := { j with status := .running }
  Prog.catching (do
    Prog.forEach (removedFiles j) fun _ => do
      writeAll [.chunks j.sourceId, .graph j.sourceId]
      persistJobSync j
    if processFiles j = [] then finalizeIncrementalJob j
    else do
      mayRaise
      Prog.forEach (processFiles j) (processChange j)
      finalizeIncrementalJob j) fun e => do
    failJob j e
    .raise e

/-- The batches of a refresh; it stops where index work has come to wait for it. -/
def refreshBatches (j : Job) : ℕ → Act Unit
  | 0 => do
    if (← ask .allFailed) = 0 then
      mayRaise
      writeOrRaise (.registryMark j.sourceId)
      persistJob { j with status := .done }
    else persistJob (j.failed "all chunks failed to summarize")
  | n + 1 => do
    match ← findWaitingAfter j.id with
    | _ :: _ => persistJob { j with status := .done }
    | [] => do
      if (← ask .sourceDeleted) = 0 then
        writeOrRaise (.chunks j.sourceId)
        if (← ask .sourceDeleted) = 0 then
          persistJob j
          refreshBatches j n
        else
          writeAll [.chunks j.sourceId]
          persistJob { j with status := .done }
      else persistJob { j with status := .done }

def withTargetVersion (version : ℕ) (j : Job) : Job :=
  { j with payload.targetVersion := some version }

/-- The job follows the version that is current when it starts. -/
def retarget (j : Job) (current : ℕ) : Act Unit :=
  if j.payload.targetVersion = some current then pure ()
  else persistJob (withTargetVersion current j)

def runResummarizeJob (j : Job) : Act Unit :=
  let j := { j with status := .running }
  Prog.catching (do
    let current ← ask .targetVersion
    retarget j current
    let j := withTargetVersion current j
    if (← ask .disabled) = 0 then
      writeOrRaise (.registryMark j.sourceId)
      persistJob j
      let n ← ask .batches
      refreshBatches j n
    else persistJob { j with status := .done }) (failJob j)

def targetPath (j : Job) : String := if j.sourcePath = "" then j.source else j.sourcePath

/-- A job over a path runs only where the path is there. -/
def dispatchPath (target : String) (runner : Act Unit) : Act (Option (Act Unit)) :=
  if target = "" then pure none
  else do
    if (← ask (.pathExists target)) = 0 then pure (some runner) else pure none

/-- The runner of a job, or nothing where its row does not say what to run. -/
def dispatchJob (j : Job) : Act (Option (Act Unit)) :=
  match j.kind with
  | .file => dispatchPath (targetPath j) (runIndexFileJob j)
  | .directory => dispatchPath (targetPath j) (runIndexDirectoryJob j)
  | .repo =>
    if j.sourcePath = "" ∧ j.sourceUrl = "" then pure none else pure (some (runIndexRepoJob j))
  | .graph => if j.sourceId = "" then pure none else pure (some (runIndexGraphJob j))
  | .incremental =>
    if j.payload.changedFiles = [] ∨ j.sourceUrl = "" ∨ j.sourceId = "" then pure none
    else pure (some (runIncrementalIndex j))
  | .resummarize => if j.sourceId = "" then pure none else pure (some (runResummarizeJob j))

/-! ### What a runner does to the tables -/

/-- What stays of a job over all its runs. -/
def core (j : Job) : Job :=
  { j with
    status := .queued
    attempts := 0
    error := ""
    payload := { j.payload with targetVersion := none, summaryVersion := none } }

lemma id_of_core {j k : Job} (h : core k = core j) : k.id = j.id := by
  injection h

lemma sourceId_of_core {j k : Job} (h : core k = core j) : k.sourceId = j.sourceId := by
  injection h

/-- The operations of a run of `j`: it writes to the stores, and of the jobs only its own row. -/
def RunnerOp (j : Job) : Op → Prop
  | .upsert j' => core j' = core j ∧
      (j'.status = .running ∨ j'.status = .done ∨ j'.status = .failed)
  | .background j' => core j' = core j ∧ (j'.status = .running ∨ j'.status = .done)
  | .write w => w ≠ .dropIndex
  | .leave w => w ≠ .dropIndex
  | .walked s => s = j.sourceId
  | .findWaitingAfter _ => True
  | .ask _ => True
  | _ => False

/-- The job of a run before its end. -/
structure Current (j j' : Job) : Prop where
  core : core j' = core j
  status : j'.status = .running
  error : j'.error = j.error
  attempts : j'.attempts = j.attempts

/-- What a run does before its end: the job stays as running. -/
def WorkOp (j : Job) : Op → Prop
  | .upsert j' => Current j j'
  | .background j' => Current j j'
  | .write w => w ≠ .dropIndex
  | .leave w => w ≠ .dropIndex
  | .walked s => s = j.sourceId
  | .findWaitingAfter _ => True
  | .ask _ => True
  | _ => False

/-- What a run does at its end: the job gets its terminal status. -/
def EndOp (j : Job) : Op → Prop
  | .upsert j' => core j' = core j ∧ (j'.status = .done ∧ j'.error = j.error ∨ j'.status = .failed)
  | .background j' => core j' = core j ∧ j'.status = .done ∧ j'.error = j.error
  | .write w => w ≠ .dropIndex
  | .ask _ => True
  | _ => False

/-- What a run does before it stores its terminal status; `done` may be on its way already. -/
def BusyOp (j : Job) : Op → Prop
  | .upsert j' => Current j j'
  | .background j' => core j' = core j
  | .write w => w ≠ .dropIndex
  | .leave w => w ≠ .dropIndex
  | .walked s => s = j.sourceId
  | .findWaitingAfter _ => True
  | .ask _ => True
  | _ => False

/-- What an incremental run does at its end: nothing is left in the background. -/
def StoreOp (j : Job) : Op → Prop
  | .upsert j' => core j' = core j ∧ j'.attempts = j.attempts ∧
      (j'.status = .done ∧ j'.error = j.error ∨ j'.status = .failed)
  | .ask _ => True
  | _ => False

lemma Current.start {j : Job} : Current j { j with status := .running } := ⟨rfl, rfl, rfl, rfl⟩

lemma StoreOp.endOp {j : Job} {o : Op} (h : StoreOp j o) : EndOp j o := by
  cases o <;> first | exact ⟨h.1, h.2.2⟩ | exact h.elim | exact h

lemma WorkOp.busyOp {j : Job} {o : Op} (h : WorkOp j o) : BusyOp j o := by
  cases o <;> first | exact h.core | exact h

lemma WorkOp.runnerOp {j : Job} {o : Op} (h : WorkOp j o) : RunnerOp j o := by
  cases o <;> first | exact ⟨h.core, .inl h.status⟩ | exact h

lemma EndOp.runnerOp {j : Job} {o : Op} (h : EndOp j o) : RunnerOp j o := by
  cases o <;> first
    | exact ⟨h.1, .inr (h.2.imp_left And.left)⟩
    | exact ⟨h.1, .inr h.2.1⟩
    | trivial

section RunnerOps
variable {j j' : Job} {A : Op → Prop}

lemma uses_persistJob (h : A (.upsert j)) : Uses A (persistJob j) := by
  refine Uses.bind ⟨h, fun _ => trivial⟩ fun r => ?_
  split <;> trivial

lemma uses_writeAll {ws : List Write} (hws : .dropIndex ∉ ws)
    (h : ∀ w, w ≠ .dropIndex → A (.write w)) : Uses A (writeAll ws) :=
  Uses.forEach fun w hw =>
    Uses.bind ⟨h w (ne_of_mem_of_not_mem hw hws), fun _ => trivial⟩ fun _ => trivial

lemma uses_writeOrRaise {w : Write} (h : A (.write w)) : Uses A (writeOrRaise w) := by
  refine Uses.bind ⟨h, fun _ => trivial⟩ fun r => ?_
  split <;> trivial

lemma uses_mayRaise (h : A (.ask .fails)) : Uses A mayRaise := by
  refine Uses.bind ⟨h, fun _ => trivial⟩ fun r => ?_
  split <;> trivial

/-! The end of a run -/

lemma stores_done (h : Current j j') : Uses (StoreOp j) (persistJob { j' with status := .done }) :=
  uses_persistJob ⟨h.core, h.attempts, .inl ⟨rfl, h.error⟩⟩

lemma stores_failed (h : core j' = core j) (ha : j'.attempts = j.attempts) (error : String) :
    Uses (StoreOp j) (persistJob (j'.failed error)) :=
  uses_persistJob ⟨h, ha, .inr rfl⟩

lemma stores_finalizeIncrementalJob (h : Current j j') :
    Uses (StoreOp j) (finalizeIncrementalJob j') := by
  refine Uses.bind ⟨trivial, fun _ => trivial⟩ fun r => ?_
  split
  · exact stores_done h
  · exact stores_failed h.core h.attempts _

lemma uses_persist_done (h : Current j j') :
    Uses (EndOp j) (persistJob { j' with status := .done }) :=
  (stores_done h).mono fun _ => StoreOp.endOp

lemma uses_persist_failed (h : core j' = core j) (error : String) :
    Uses (EndOp j) (persistJob (j'.failed error)) :=
  uses_persistJob ⟨h, .inr rfl⟩

lemma uses_registerSource (h : ∀ w, w ≠ .dropIndex → A (.write w)) : Uses A (registerSource j) := by
  unfold registerSource
  split
  · trivial
  · exact uses_writeAll (by simp) h

lemma uses_finalizeJob (h : Current j j') : Uses (EndOp j) (finalizeJob j') := by
  refine Uses.bind ⟨trivial, fun _ => trivial⟩ fun r => ?_
  split
  · refine Uses.bind ⟨⟨h.core, rfl, h.error⟩, fun _ => trivial⟩ fun _ => ?_
    refine Uses.bind (uses_writeOrRaise nofun) fun _ => ?_
    exact Uses.bind (uses_registerSource fun _ hw => hw) fun _ => uses_persist_done h
  · exact uses_persist_failed h.core _

lemma phased_finalizeJob (h : Current j j') : Phased (BusyOp j) (StoreOp j) (finalizeJob j') := by
  refine Uses.bind_phased ⟨trivial, fun _ => trivial⟩ fun r => ?_
  split
  · refine Uses.bind_phased ⟨h.core, fun _ => trivial⟩ fun _ => ?_
    refine Uses.bind_phased (uses_writeOrRaise nofun) fun _ => ?_
    exact Uses.bind_phased (uses_registerSource fun _ hw => hw) fun _ => (stores_done h).phased
  · exact (stores_failed h.core h.attempts _).phased

/-! Before the end -/

lemma uses_persist_running (h : Current j j') :
    Uses (WorkOp j) (persistJob j') :=
  uses_persistJob h

lemma uses_walkAndIndex {ws : List Write} (hws : .dropIndex ∉ ws) (h : Current j j') :
    Uses (WorkOp j) (walkAndIndex j' ws) := by
  refine Uses.bind ⟨trivial, fun _ => trivial⟩ fun n =>
    Uses.bind (Uses.catching (Uses.times ?_) fun e => ?_) fun _ => uses_persist_running h
  · refine Uses.bind (uses_writeAll hws fun _ hw => hw) fun _ =>
      Uses.bind ⟨trivial, fun _ => trivial⟩ fun r => ?_
    split
    · trivial
    · exact uses_persist_running h
  · refine Uses.bind ⟨trivial, fun _ => trivial⟩ fun n =>
      Uses.bind (Uses.times (Uses.bind (Uses.forEach fun w hw => ?_) fun _ => ?_)) fun _ => trivial
    · exact ⟨ne_of_mem_of_not_mem hw hws, fun _ => trivial⟩
    · exact ⟨h, fun _ => trivial⟩

lemma uses_processChange {c : Change} (h : Current j j') :
    Uses (WorkOp j) (processChange j' c) := by
  refine Uses.bind ⟨trivial, fun _ => trivial⟩ fun r => ?_
  split
  · refine Uses.bind (uses_writeAll (by simp) fun _ hw => hw) fun _ =>
      Uses.bind ⟨trivial, fun _ => trivial⟩ fun r => ?_
    split
    · exact Uses.bind (uses_writeAll (by simp) fun _ hw => hw) fun _ => ⟨h, fun _ => trivial⟩
    · trivial
  · trivial

/-! Whole runs -/

section Whole
variable {B : Op → Prop} (hA : ∀ o, WorkOp j o → A o) (hB : ∀ o, StoreOp j o → B o)
  (hend : ∀ k, Current j k → Phased A B (finalizeJob k))
include hA

lemma phased_resolveSummaryVersion {f : Job → Act Unit} (h : Current j j')
    (hf : ∀ k, Current j k → Phased A B (f k)) : Phased A B (resolveSummaryVersion j' >>= f) := by
  unfold resolveSummaryVersion
  split
  · exact hf j' h
  · rw [Prog.bind_assoc]
    refine Uses.bind_phased ⟨hA _ trivial, fun _ => trivial⟩ fun version => ?_
    rw [Prog.bind_assoc]
    have hv : Current j (withSummaryVersion version j') := ⟨h.core, h.status, h.error, h.attempts⟩
    exact ((uses_persist_running hv).mono hA).bind_phased fun _ => hf _ hv

include hB hend

lemma phased_runIndexFileJob : Phased A B (runIndexFileJob j) := by
  refine Phased.catching (phased_resolveSummaryVersion hA .start fun k h => ?_)
    fun e => (stores_failed rfl rfl e.text).mono hB
  refine Uses.bind_phased (uses_writeAll (by simp) fun _ hw => hA _ hw) fun _ =>
    Uses.bind_phased (uses_mayRaise (hA _ trivial)) fun _ => ?_
  refine Uses.bind_phased (uses_writeOrRaise (hA _ nofun)) fun _ =>
    Uses.bind_phased (uses_writeOrRaise (hA _ nofun)) fun _ => ?_
  exact Uses.bind_phased ⟨hA _ (sourceId_of_core h.core), fun _ => trivial⟩ fun _ => hend k h

lemma phased_runTreeJob : Phased A B (runTreeJob j) := by
  refine Phased.catching (phased_resolveSummaryVersion hA .start fun k h => ?_)
    fun e => (stores_failed rfl rfl e.text).mono hB
  refine Uses.bind_phased (uses_writeAll (by simp) fun _ hw => hA _ hw) fun _ =>
    Uses.bind_phased (uses_mayRaise (hA _ trivial)) fun _ => ?_
  refine Uses.bind_phased ((uses_walkAndIndex (by simp) h).mono hA) fun _ =>
    Uses.bind_phased ⟨hA _ (sourceId_of_core h.core), fun _ => trivial⟩ fun _ => ?_
  exact Uses.bind_phased (uses_writeAll (by simp) fun _ hw => hA _ hw) fun _ => hend k h

lemma phased_runIndexGraphJob : Phased A B (runIndexGraphJob j) := by
  refine Phased.catching ?_ fun e => (stores_failed rfl rfl e.text).mono hB
  refine Uses.bind_phased (uses_mayRaise (hA _ trivial)) fun _ =>
    Uses.bind_phased (uses_writeOrRaise (hA _ nofun)) fun _ => ?_
  refine Uses.bind_phased ((uses_walkAndIndex (by simp) .start).mono hA) fun _ => ?_
  exact Uses.bind_phased (uses_writeAll (by simp) fun _ hw => hA _ hw) fun _ => hend _ .start

omit hend

lemma phased_runIncrementalIndex : Phased A B (runIncrementalIndex j) := by
  have hfinal : Phased A B (finalizeIncrementalJob { j with status := .running }) :=
    ((stores_finalizeIncrementalJob .start).mono hB).phased
  refine Phased.catching ?_ fun e => ((stores_failed rfl rfl e.text).mono hB).bind fun _ => trivial
  refine Uses.bind_phased (Uses.forEach fun _ _ => ?_) fun _ => ?_
  · exact Uses.bind (uses_writeAll (by simp) fun _ hw => hA _ hw) fun _ => ⟨hA _ .start, fun _ => trivial⟩
  · split
    · exact hfinal
    · refine Uses.bind_phased (uses_mayRaise (hA _ trivial)) fun _ =>
        Uses.bind_phased (Uses.forEach fun c _ => ?_) fun _ => hfinal
      exact (uses_processChange .start).mono hA

lemma phased_refreshBatches (h : Current j j') (n : ℕ) : Phased A B (refreshBatches j' n) := by
  have hdone : Phased A B (persistJob { j' with status := .done }) :=
    ((stores_done h).mono hB).phased
  induction n with
  | zero =>
    refine Uses.bind_phased ⟨hA _ trivial, fun _ => trivial⟩ fun r => ?_
    split
    · refine Uses.bind_phased (uses_mayRaise (hA _ trivial)) fun _ => ?_
      exact Uses.bind_phased (uses_writeOrRaise (hA _ nofun)) fun _ => hdone
    · exact ((stores_failed h.core h.attempts _).mono hB).phased
  | succ n ih =>
    refine Uses.bind_phased ⟨hA _ trivial, fun _ => trivial⟩ fun waiters => ?_
    split
    · exact hdone
    · refine Uses.bind_phased ⟨hA _ trivial, fun _ => trivial⟩ fun r => ?_
      split
      · refine Uses.bind_phased (uses_writeOrRaise (hA _ nofun)) fun _ =>
          Uses.bind_phased ⟨hA _ trivial, fun _ => trivial⟩ fun r => ?_
        split
        · exact Uses.bind_phased ((uses_persist_running h).mono hA) fun _ => ih
        · exact Uses.bind_phased (uses_writeAll (by simp) fun _ hw => hA _ hw) fun _ => hdone
      · exact hdone

lemma phased_runResummarizeJob : Phased A B (runResummarizeJob j) := by
  refine Phased.catching ?_ fun e => (stores_failed rfl rfl e.text).mono hB
  refine Uses.bind_phased ⟨hA _ trivial, fun _ => trivial⟩ fun current => ?_
  have hv : Current j (withTargetVersion current { j with status := .running }) := ⟨rfl, rfl, rfl, rfl⟩
  refine Uses.bind_phased ?_ fun _ => Uses.bind_phased ⟨hA _ trivial, fun _ => trivial⟩ fun r => ?_
  · unfold retarget
    split
    · trivial
    · exact (uses_persist_running hv).mono hA
  · split
    · refine Uses.bind_phased (uses_writeOrRaise (hA _ nofun)) fun _ =>
        Uses.bind_phased ((uses_persist_running hv).mono hA) fun _ => ?_
      exact Uses.bind_phased ⟨hA _ trivial, fun _ => trivial⟩ fun n =>
        phased_refreshBatches hA hB hv n
    · exact ((stores_done hv).mono hB).phased

end Whole

/-! The last operation of a run -/

/-- The terminal status is stored. -/
def Stores (j : Job) : Op → Prop
  | .upsert j' => core j' = core j ∧ j'.status.terminal = true
  | _ => False

lemma ends_persistJob (h : A (.upsert j)) : EndsAfter A (persistJob j) := by
  intro r
  refine .inr ⟨h, ?_⟩
  change (∃ a, (if r = true then pure () else .raise .uniqueViolation : Act Unit) = .ret a) ∨
    ∃ e, (if r = true then pure () else .raise .uniqueViolation : Act Unit) = .raise e
  split
  · exact .inl ⟨(), rfl⟩
  · exact .inr ⟨_, rfl⟩

lemma ends_persist_failed (h : core j' = core j) (error : String) :
    EndsAfter (Stores j) (persistJob (j'.failed error)) :=
  ends_persistJob ⟨h, rfl⟩

lemma ends_persist_done (h : Current j j') :
    EndsAfter (Stores j) (persistJob { j' with status := .done }) :=
  ends_persistJob ⟨h.core, rfl⟩

lemma returns_finalizeJob (h : Current j j') : ReturnsAfter (Stores j) (finalizeJob j') := by
  refine ReturnsAfter.bind fun r => ?_
  split
  · exact ReturnsAfter.bind fun _ => ReturnsAfter.bind fun _ => ReturnsAfter.bind fun _ =>
      (ends_persist_done h).returnsAfter
  · exact (ends_persist_failed h.core _).returnsAfter

lemma returns_finalizeIncrementalJob (h : Current j j') :
    ReturnsAfter (Stores j) (finalizeIncrementalJob j') := by
  refine ReturnsAfter.bind fun r => ?_
  split
  · exact (ends_persist_done h).returnsAfter
  · exact (ends_persist_failed h.core _).returnsAfter

lemma returns_resolveSummaryVersion {f : Job → Act Unit} (h : Current j j')
    (hf : ∀ k, Current j k → ReturnsAfter (Stores j) (f k)) :
    ReturnsAfter (Stores j) (resolveSummaryVersion j' >>= f) := by
  unfold resolveSummaryVersion
  split
  · exact hf j' h
  · rw [Prog.bind_assoc]
    refine ReturnsAfter.bind fun version => ?_
    rw [Prog.bind_assoc]
    exact ReturnsAfter.bind fun _ => hf _ ⟨h.core, h.status, h.error, h.attempts⟩

lemma returns_refreshBatches (h : Current j j') (n : ℕ) :
    ReturnsAfter (Stores j) (refreshBatches j' n) := by
  have hdone := (ends_persist_done h).returnsAfter
  induction n with
  | zero =>
    refine ReturnsAfter.bind fun r => ?_
    split
    · exact ReturnsAfter.bind fun _ => ReturnsAfter.bind fun _ => hdone
    · exact (ends_persist_failed h.core _).returnsAfter
  | succ n ih =>
    refine ReturnsAfter.bind fun waiters => ?_
    split
    · exact hdone
    · refine ReturnsAfter.bind fun r => ?_
      split
      · refine ReturnsAfter.bind fun _ => ReturnsAfter.bind fun r => ?_
        split
        · exact ReturnsAfter.bind fun _ => ih
        · exact ReturnsAfter.bind fun _ => hdone
      · exact hdone

/-- The coroutine is a run of the job. -/
def IsRunner (j : Job) (p : Act Unit) : Prop :=
  (p = runIndexFileJob j ∧ j.kind = .file) ∨
    (p = runTreeJob j ∧ (j.kind = .directory ∨ j.kind = .repo)) ∨
    (p = runIndexGraphJob j ∧ j.kind = .graph) ∨
    (p = runIncrementalIndex j ∧ j.kind = .incremental) ∨
    (p = runResummarizeJob j ∧ j.kind = .resummarize)

lemma IsRunner.phased_of {p : Act Unit} {B : Op → Prop} (h : IsRunner j p)
    (hA : ∀ o, WorkOp j o → A o) (hB : ∀ o, StoreOp j o → B o)
    (hend : ∀ k, Current j k → Phased A B (finalizeJob k)) : Phased A B p := by
  rcases h with ⟨rfl, -⟩ | ⟨rfl, -⟩ | ⟨rfl, -⟩ | ⟨rfl, -⟩ | ⟨rfl, -⟩
  · exact phased_runIndexFileJob hA hB hend
  · exact phased_runTreeJob hA hB hend
  · exact phased_runIndexGraphJob hA hB hend
  · exact phased_runIncrementalIndex hA hB
  · exact phased_runResummarizeJob hA hB

lemma IsRunner.phased {p : Act Unit} (h : IsRunner j p) : Phased (WorkOp j) (EndOp j) p :=
  h.phased_of (fun _ ho => ho) (fun _ => StoreOp.endOp) fun _ hk => (uses_finalizeJob hk).phased

/-- Once a run has stored a terminal status it writes to no store any more. -/
lemma IsRunner.closing {p : Act Unit} (h : IsRunner j p) : Phased (BusyOp j) (StoreOp j) p :=
  h.phased_of (fun _ => WorkOp.busyOp) (fun _ ho => ho) fun _ => phased_finalizeJob

lemma IsRunner.uses {p : Act Unit} (h : IsRunner j p) : Uses (RunnerOp j) p :=
  h.phased.uses (fun _ => WorkOp.runnerOp) fun _ => EndOp.runnerOp

/-- A run does not end before it has stored the terminal status of its job. -/
lemma IsRunner.ends {p : Act Unit} (h : IsRunner j p) : EndsAfter (Stores j) p := by
  have hfail : ∀ e, EndsAfter (Stores j) (failJob { j with status := .running } e) := fun e =>
    ends_persist_failed rfl e.text
  rcases h with ⟨rfl, -⟩ | ⟨rfl, -⟩ | ⟨rfl, -⟩ | ⟨rfl, -⟩ | ⟨rfl, -⟩
  · refine ReturnsAfter.catching (returns_resolveSummaryVersion .start fun k h => ?_) hfail
    exact ReturnsAfter.bind fun _ => ReturnsAfter.bind fun _ => ReturnsAfter.bind fun _ =>
      ReturnsAfter.bind fun _ => ReturnsAfter.bind fun _ => returns_finalizeJob h
  · refine ReturnsAfter.catching (returns_resolveSummaryVersion .start fun k h => ?_) hfail
    exact ReturnsAfter.bind fun _ => ReturnsAfter.bind fun _ => ReturnsAfter.bind fun _ =>
      ReturnsAfter.bind fun _ => ReturnsAfter.bind fun _ => returns_finalizeJob h
  · refine ReturnsAfter.catching ?_ hfail
    exact ReturnsAfter.bind fun _ => ReturnsAfter.bind fun _ => ReturnsAfter.bind fun _ =>
      ReturnsAfter.bind fun _ => returns_finalizeJob .start
  · refine ReturnsAfter.catching ?_ fun e => (hfail e).bind_raise
    refine ReturnsAfter.bind fun _ => ?_
    split
    · exact returns_finalizeIncrementalJob .start
    · exact ReturnsAfter.bind fun _ => ReturnsAfter.bind fun _ => returns_finalizeIncrementalJob .start
  · refine ReturnsAfter.catching ?_ hfail
    refine ReturnsAfter.bind fun current => ReturnsAfter.bind fun _ => ReturnsAfter.bind fun r => ?_
    have hv : Current j (withTargetVersion current { j with status := .running }) := ⟨rfl, rfl, rfl, rfl⟩
    split
    · exact ReturnsAfter.bind fun _ => ReturnsAfter.bind fun _ => ReturnsAfter.bind fun n =>
        returns_refreshBatches hv n
    · exact (ends_persist_done hv).returnsAfter

/-- Dispatching only asks whether a path exists, and what it returns is a run of the job. -/
lemma wp_dispatchJob {D : Discipline sig} {Q : Option (Act Unit) → D.Local → Prop}
    {X : Exc → D.Local → Prop} {l : D.Local}
    (hask : ∀ q, D.may l (Op.ask q) ∧ ∀ r, D.after l (Op.ask q) r = l) (hnone : Q none l)
    (hsome : ∀ p, IsRunner j p → Q (some p) l) : D.wp (dispatchJob j) Q X l := by
  have hpath : ∀ {p : Act Unit}, IsRunner j p → D.wp (dispatchPath (targetPath j) p) Q X l := by
    intro p hp
    unfold dispatchPath
    split
    · exact hnone
    · refine ⟨(hask _).1, fun (r : ℕ) _ => ?_⟩
      rw [(hask _).2 r]
      change D.wp (if r = 0 then pure (some p) else pure none) Q X l
      split
      · exact hsome p hp
      · exact hnone
  unfold dispatchJob
  split
  · exact hpath (.inl ⟨rfl, ‹_›⟩)
  · exact hpath (.inr (.inl ⟨rfl, .inl ‹_›⟩))
  · split
    · exact hnone
    · exact hsome _ (.inr (.inl ⟨rfl, .inr ‹_›⟩))
  · split
    · exact hnone
    · exact hsome _ (.inr (.inr (.inl ⟨rfl, ‹_›⟩)))
  · split
    · exact hnone
    · exact hsome _ (.inr (.inr (.inr (.inl ⟨rfl, ‹_›⟩))))
  · split
    · exact hnone
    · exact hsome _ (.inr (.inr (.inr (.inr ⟨rfl, ‹_›⟩))))

end RunnerOps

end Treeweft.Runners
