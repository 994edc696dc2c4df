import Treeweft.Queue

/-!
The entry points of an indexer process, and the system of all processes.

A process starts with the recovery of what earlier ones left behind, its workers already
running; after that requests come in any order. Any number of processes share the tables.
-/

namespace Treeweft.Service

open Treeweft.Jobs Treeweft.JobStore Treeweft.Runners Treeweft.PromptRefresh Treeweft.IndexGuard
open Treeweft.Queue (maybeEnqueueRefresh afterRaise)
open Treeweft.FileIndex (Change)

/-! ### Startup recovery -/

/-- A queued or running job that was found at startup. -/
def recoverJob (doneSources : List String) (j : Job) : Act Unit := do
  if j.sourceId ≠ "" ∧ j.sourceId ∈ doneSources ∧ j.kind ≠ .resummarize then
    persistJob { j with status := .done }
  else
    match ← dispatchJob j with
    | none => persistJob (j.failed "Cannot resume job after restart")
    | some _ => enqueue j.id

/-- A predecessor that is itself waiting will be promoted, and will promote then. -/
def promoteOrphans (after : ℕ) : Act Unit := do
  let ref ← get after
  if ref.any fun r => r.status.active || r.status = .waiting then pure ()
  else promoteWaitingAfter after

/-- A waiting job whose predecessor will not promote it any more. Each predecessor is looked at
once. -/
def recoverWaiting : List ℕ → List Job → Act Unit
  | _, [] => pure ()
  | checked, j :: js =>
    match j.payload.afterJob with
    | none => recoverWaiting checked js
    | some after =>
      if after ∈ checked then recoverWaiting checked js
      else do
        promoteOrphans after
        recoverWaiting (after :: checked) js

def doneSourceIds (done : List Job) : List String :=
  (done.map Job.sourceId).filter fun s => s ≠ ""

def startup : Act Unit := do
  let done ← listByStatus .done
  let running ← listByStatus .running
  let queued ← listByStatus .queued
  Prog.forEach (running ++ queued) (recoverJob (doneSourceIds done))
  let waiting ← listByStatus .waiting
  recoverWaiting [] waiting

/-! ### Requests -/

/-- A merge event that passed validation; `sourceId` is that of its repository and branch. -/
structure Event where
  repoUrl : String
  branch : String
  sourceId : String
  changedFiles : List Change
  deriving DecidableEq, Repr

def maxChangedFiles : ℕ := 5000

def maxQueueDepth : ℕ := 500

def newRepoJob (ev : Event) : Act Job := do
  let j ← newJob .repo ev.sourceId ev.repoUrl
  pure { j with sourceUrl := ev.repoUrl, sourceBranch := ev.branch }

/-- Too many files for one payload are one full index. -/
def buildIncrementalOrFallbackJob (ev : Event) : Act Job :=
  if maxChangedFiles < ev.changedFiles.length then newRepoJob ev
  else do
    let j ← newJob .incremental ev.sourceId ev.repoUrl
    pure { j with
      sourceUrl := ev.repoUrl
      sourceBranch := ev.branch
      payload := { noPayload with changedFiles := ev.changedFiles, branch := ev.branch } }

def accept (ev : Event) (since : ℕ) : Act Unit :=
  .op (Op.accept (ev.changedFiles.map Change.path) since) .ret

/-- `act`, unless the queue is saturated. -/
def unlessSaturated (act : Act Unit) : Act Unit := do
  if maxQueueDepth ≤ (← queueDepth) then pure () else act

/-- The repository is not registered: an active job of any kind answers the event. -/
def webhookNewSource (ev : Event) (since : ℕ) : Act Unit := do
  match ← findActiveForSource ev.sourceId with
  | some _ => accept ev since
  | none =>
    unlessSaturated do
      persistAndEnqueue (newRepoJob ev)
      accept ev since

/-- The repository is registered: an active job that is not a refresh answers the event. -/
def webhookExistingSource (ev : Event) (since : ℕ) : Act Unit := do
  match ← findActiveForSource ev.sourceId with
  | some active =>
    if active.kind ≠ .resummarize then accept ev since
    else
      unlessSaturated do
        preemptActiveRefresh ev.sourceId (buildIncrementalOrFallbackJob ev)
        accept ev since
  | none =>
    unlessSaturated do
      persistAndEnqueue (buildIncrementalOrFallbackJob ev)
      accept ev since

def handleWebhook (ev : Event) : Act Unit := do
  let since : ℕ ← .op Op.arrive .ret
  let sources ← listSources
  if (← ask .writable) = 0 then
    if sources.any fun s => s.url = ev.repoUrl then webhookExistingSource ev since
    else webhookNewSource ev since
  else pure ()

/-- What a request to index a source asks for. -/
structure Submission where
  kind : JobKind
  sourceId : String
  path : String
  url : String
  branch : String
  deriving DecidableEq, Repr

def buildSubmitted (r : Submission) : Act Job := do
  let j ← newJob r.kind r.sourceId (if r.url = "" then r.path else r.url)
  pure { j with
    sourcePath := if r.url = "" then r.path else ""
    sourceUrl := r.url
    sourceBranch := r.branch }

/-- `POST /index-file`, `/index-directory`, `/index-repo`, `/index-graph` and the fleet refresh:
an active job that is not a refresh answers the request. -/
def submit (r : Submission) : Act Unit := do
  if (← ask .writable) = 0 then
    match ← findActiveForSource r.sourceId with
    | some active =>
      if active.kind ≠ .resummarize then pure ()
      else preemptActiveRefresh r.sourceId (buildSubmitted r)
    | none => persistAndEnqueue (buildSubmitted r)
  else pure ()

/-- `POST /jobs/{id}/retry`. -/
def retryJob (i : ℕ) : Act Unit := do
  if (← ask .writable) = 0 then
    match ← get i with
    | none => .raise .refused
    | some j =>
      if j.status.terminal then
        persistJob { j with status := .queued, error := "" }
        enqueue i
      else .raise .refused
  else pure ()

/-! ### The system -/

inductive Entry
  | worker
  | startup
  | webhook (ev : Event)
  | submit (r : Submission)
  | retry (i : ℕ)
  | refresh (sid : String)
  | rebuild
  deriving DecidableEq, Repr

def Entry.main : Entry → Act Unit
  | worker => Queue.worker
  | startup => Service.startup
  | webhook ev => handleWebhook ev
  | submit r => Service.submit r
  | retry i => retryJob i
  | refresh sid => enqueueIfStale sid
  | rebuild => IndexGuard.rebuild

abbrev machine : Machine sig Exc where
  Store := Db
  exec := exec
  Entry := Entry
  main := Entry.main
  kill := kill
  Own := Own
  own := own

/-- `n` steps of a task, with nothing going wrong. -/
def steps (t : Tid) (n : ℕ) : List (Machine.Label machine) := List.replicate n (.run t 0)

/-! ### What only a worker does -/

/-- Neither claims a job nor begins or ends a run, and leaves no upsert behind. -/
def Quiet : Op → Prop
  | .claim => False
  | .background _ => False
  | .begin _ => False
  | .finish _ => False
  | _ => True

/-- Nor persists a job. -/
def Silent : Op → Prop
  | .upsert _ => False
  | o => Quiet o

section Quiet

lemma quiet_of_silent {α : Type} {p : Act α} (h : Uses Silent p) : Uses Quiet p :=
  h.mono fun o ho => by cases o <;> first | exact ho | exact ho.elim

lemma quiet_persist {j : Job} : Uses Quiet (persistJob j) := uses_persistJob trivial

lemma silent_findActive {sid : String} : Uses Silent (findActiveForSource sid) := by
  unfold findActiveForSource
  split
  · trivial
  · exact ⟨trivial, fun _ => trivial⟩

lemma silent_promote (after : ℕ) : Uses Silent (promoteWaitingAfter after) :=
  (uses_promoteWaitingAfter after).mono fun o ho => by cases o <;> trivial

lemma silent_newJob {k : JobKind} {sid label : String} : Uses Silent (newJob k sid label) :=
  Uses.bind ⟨trivial, fun _ => trivial⟩ fun _ => trivial

lemma quiet_enqueueIfStale (sid : String) : Uses Quiet (enqueueIfStale sid) := by
  refine Uses.bind ⟨trivial, fun _ => trivial⟩ fun r => ?_
  split
  · refine Uses.bind (quiet_of_silent silent_findActive) fun active => ?_
    split
    · trivial
    · refine Uses.bind ⟨trivial, fun _ => trivial⟩ fun r => ?_
      split
      · refine Uses.bind ⟨trivial, fun _ => trivial⟩ fun target => Uses.bind (quiet_of_silent silent_newJob) fun j =>
          Uses.bind ⟨trivial, fun _ => trivial⟩ fun ok => ?_
        split
        · exact ⟨trivial, fun _ => trivial⟩
        · trivial
      · trivial
  · trivial

lemma quiet_maybeEnqueueRefresh (j : Job) : Uses Quiet (maybeEnqueueRefresh j) := by
  unfold maybeEnqueueRefresh
  split
  · trivial
  · refine Uses.bind (quiet_of_silent (silent_promote j.id)).swallow fun _ => ?_
    split
    · refine Uses.swallow (Uses.bind ⟨trivial, fun _ => trivial⟩ fun fresh =>
        Uses.bind ⟨trivial, fun _ => trivial⟩ fun current => ?_)
      split
      · trivial
      · exact quiet_enqueueIfStale _
    · exact (quiet_enqueueIfStale _).swallow

lemma quiet_afterRaise (j : Job) (e : Exc) : Uses Quiet (afterRaise j e) := by
  have hend : ∀ k, Uses Quiet (persistJob k >>= fun _ => maybeEnqueueRefresh j) := fun k =>
    quiet_persist.bind fun _ => quiet_maybeEnqueueRefresh j
  unfold afterRaise
  split
  · refine Uses.bind ⟨trivial, fun _ => trivial⟩ fun attempts => ?_
    split
    · exact quiet_persist.bind fun _ => ⟨trivial, fun _ => trivial⟩
    · exact hend _
  · exact hend _

lemma quiet_persistAndEnqueue {build : Act Job} (h : Uses Quiet build) :
    Uses Quiet (persistAndEnqueue build) :=
  h.bind fun _ => quiet_persist.bind fun _ => ⟨trivial, fun _ => trivial⟩

lemma quiet_preempt {sid : String} {build : Act Job} (h : Uses Quiet build) :
    Uses Quiet (preemptActiveRefresh sid build) := by
  refine (quiet_of_silent silent_findActive).bind fun active => ?_
  split
  · exact quiet_persistAndEnqueue h
  · split
    · exact quiet_persistAndEnqueue h
    · refine h.bind fun j => Uses.bind ⟨trivial, fun _ => trivial⟩ fun cancelled => ?_
      split
      · exact quiet_persist.bind fun _ => ⟨trivial, fun _ => trivial⟩
      · refine quiet_persist.bind fun _ => Uses.bind ⟨trivial, fun _ => trivial⟩ fun r => ?_
        split
        · trivial
        · exact quiet_of_silent (silent_promote _)

lemma quiet_unlessSaturated {p : Act Unit} (h : Uses Quiet p) : Uses Quiet (unlessSaturated p) := by
  refine Uses.bind ⟨trivial, fun _ => trivial⟩ fun n => ?_
  split
  · trivial
  · exact h

lemma silent_newRepoJob (ev : Event) : Uses Silent (newRepoJob ev) :=
  silent_newJob.bind fun _ => trivial

lemma silent_build (ev : Event) : Uses Silent (buildIncrementalOrFallbackJob ev) := by
  unfold buildIncrementalOrFallbackJob
  split
  · exact silent_newRepoJob ev
  · exact silent_newJob.bind fun _ => trivial

lemma silent_accept (ev : Event) (n : ℕ) : Uses Silent (accept ev n) := ⟨trivial, fun _ => trivial⟩

lemma quiet_handleWebhook (ev : Event) : Uses Quiet (handleWebhook ev) := by
  refine Uses.bind ⟨trivial, fun _ => trivial⟩ fun since =>
    Uses.bind ⟨trivial, fun _ => trivial⟩ fun sources =>
      Uses.bind ⟨trivial, fun _ => trivial⟩ fun r => ?_
  split
  · split
    · refine (quiet_of_silent silent_findActive).bind fun active => ?_
      split
      · split
        · exact quiet_of_silent (silent_accept ev since)
        · exact quiet_unlessSaturated
            ((quiet_preempt (quiet_of_silent (silent_build ev))).bind fun _ => quiet_of_silent (silent_accept ev since))
      · exact quiet_unlessSaturated
          ((quiet_persistAndEnqueue (quiet_of_silent (silent_build ev))).bind fun _ => quiet_of_silent (silent_accept ev since))
    · refine (quiet_of_silent silent_findActive).bind fun active => ?_
      split
      · exact quiet_of_silent (silent_accept ev since)
      · exact quiet_unlessSaturated
          ((quiet_persistAndEnqueue (quiet_of_silent (silent_newRepoJob ev))).bind fun _ => quiet_of_silent (silent_accept ev since))
  · trivial

lemma quiet_submit (r : Submission) : Uses Quiet (submit r) := by
  have hb : Uses Quiet (buildSubmitted r) := (quiet_of_silent silent_newJob).bind fun _ => trivial
  refine Uses.bind ⟨trivial, fun _ => trivial⟩ fun w => ?_
  split
  · refine (quiet_of_silent silent_findActive).bind fun active => ?_
    split
    · split
      · trivial
      · exact quiet_preempt hb
    · exact quiet_persistAndEnqueue hb
  · trivial

lemma quiet_retryJob (i : ℕ) : Uses Quiet (retryJob i) := by
  refine Uses.bind ⟨trivial, fun _ => trivial⟩ fun w => ?_
  split
  · refine Uses.bind ⟨trivial, fun _ => trivial⟩ fun j => ?_
    split
    · trivial
    · split
      · exact quiet_persist.bind fun _ => ⟨trivial, fun _ => trivial⟩
      · trivial
  · trivial

lemma silent_dispatchPath (target : String) (p : Act Unit) : Uses Silent (dispatchPath target p) := by
  unfold dispatchPath
  split
  · trivial
  · refine Uses.bind ⟨trivial, fun _ => trivial⟩ fun r => ?_
    split <;> trivial

lemma silent_dispatchJob (j : Job) : Uses Silent (dispatchJob j) := by
  unfold dispatchJob
  split
  · exact silent_dispatchPath _ _
  · exact silent_dispatchPath _ _
  all_goals split <;> trivial

lemma silent_recoverWaiting (js : List Job) : ∀ checked, Uses Silent (recoverWaiting checked js) := by
  induction js with
  | nil => exact fun _ => trivial
  | cons j js ih =>
    intro checked
    unfold recoverWaiting
    split
    · exact ih checked
    · split
      · exact ih checked
      · refine Uses.bind (Uses.bind ⟨trivial, fun _ => trivial⟩ fun ref => ?_) fun _ => ih _
        split
        · trivial
        · exact silent_promote _

lemma quiet_startup : Uses Quiet startup := by
  refine Uses.bind ⟨trivial, fun _ => trivial⟩ fun done =>
    Uses.bind ⟨trivial, fun _ => trivial⟩ fun running =>
      Uses.bind ⟨trivial, fun _ => trivial⟩ fun queued => Uses.bind (Uses.forEach fun j _ => ?_) fun _ =>
        Uses.bind ⟨trivial, fun _ => trivial⟩ fun waiting => quiet_of_silent (silent_recoverWaiting _ _)
  unfold recoverJob
  split
  · exact quiet_persist
  · refine (quiet_of_silent (silent_dispatchJob j)).bind fun runner => ?_
    split
    · exact quiet_persist
    · exact ⟨trivial, fun _ => trivial⟩

lemma silent_jobBlockers : Uses Silent jobBlockers :=
  Uses.bind ⟨trivial, fun _ => trivial⟩ fun _ => Uses.bind ⟨trivial, fun _ => trivial⟩ fun _ => trivial

lemma silent_recreateStores : Uses Silent recreateStores := by
  refine Uses.bind ⟨trivial, fun _ => trivial⟩ fun r => ?_
  split
  · refine Uses.bind ⟨trivial, fun _ => trivial⟩ fun r => ?_
    split
    · refine Uses.bind ⟨trivial, fun _ => trivial⟩ fun r => ?_
      split
      · exact ⟨trivial, fun _ => trivial⟩
      · trivial
    · trivial
  · trivial

lemma quiet_enqueueReindex (g : ℕ) (src : Source) : Uses Quiet (enqueueReindex g src) := by
  refine Uses.bind (Uses.bind ?_ fun kind => (quiet_of_silent silent_newJob).bind fun _ => trivial) fun j =>
    quiet_persist.bind fun _ => ⟨trivial, fun _ => trivial⟩
  unfold resolveReindexKind
  split
  · trivial
  · split
    · trivial
    · refine Uses.bind ⟨trivial, fun _ => trivial⟩ fun r => ?_
      split <;> trivial

lemma quiet_rebuild : Uses Quiet rebuild := by
  have hunlock : ∀ e, Uses Quiet (unlock >>= fun _ => (.raise e : Act Unit)) := fun e =>
    Uses.bind ⟨trivial, fun _ => trivial⟩ fun _ => trivial
  refine Uses.bind ⟨trivial, fun _ => trivial⟩ fun sources => (quiet_of_silent silent_jobBlockers).bind fun blocked =>
    Uses.bind ⟨trivial, fun _ => trivial⟩ fun locked => ?_
  split
  · trivial
  · refine Uses.bind ⟨trivial, fun _ => trivial⟩ fun granted => ?_
    split
    · refine Uses.bind ⟨trivial, fun _ => trivial⟩ fun g => (quiet_of_silent silent_jobBlockers).bind fun blocked => ?_
      split
      · exact Uses.bind ⟨trivial, fun _ => trivial⟩ fun _ => hunlock .refused
      · refine (quiet_of_silent silent_recreateStores).bind fun ok => ?_
        split
        · exact Uses.bind (Uses.forEach fun src _ => quiet_enqueueReindex g src) fun _ =>
            ⟨trivial, fun _ => trivial⟩
        · exact hunlock .fault
    · trivial

end Quiet

end Treeweft.Service
