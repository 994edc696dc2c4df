import Treeweft.IndexGuard
import Treeweft.PromptRefresh

/-!
A worker of the queue: claim a job, run it, and see to what its end calls for.

Claiming deletes the queue row, so the status of the job is all that is left to say that it is
being worked on. Of a run that raises only an incremental one is tried again.
-/

namespace Treeweft.Queue

open Treeweft.Jobs Treeweft.JobStore Treeweft.Runners Treeweft.PromptRefresh

def maxJobAttempts : ℕ := 3

/-- After every terminal status: promote what waits on the job, then refresh what is stale. A
refresh that reached its target does not start another. -/
def maybeEnqueueRefresh (j : Job) : Act Unit := do
  if j.sourceId = "" then pure ()
  else
    Prog.swallow (promoteWaitingAfter j.id)
    if j.kind = .resummarize then
      Prog.swallow do
        let fresh ← get j.id
        let current ← ask .targetVersion
        if (fresh.getD j).payload.targetVersion = some current then pure ()
        else enqueueIfStale j.sourceId
    else Prog.swallow (enqueueIfStale j.sourceId)

/-- A run that raised: another attempt, or the end. -/
def afterRaise (j : Job) (e : Exc) : Act Unit := do
  if j.kind = .incremental then
    let attempts ← incrementAttempts j.id
    if attempts < maxJobAttempts then
      persistJob { j with status := .queued, attempts := attempts, error := "" }
      enqueue j.id
    else
      persistJob { j with status := .deadLetter, attempts := attempts }
      maybeEnqueueRefresh j
  else
    persistJob (j.failed e.text)
    maybeEnqueueRefresh j

/-- Run the coroutine of a job, counted as active meanwhile. -/
def runCoroutine (j : Job) (runner : Act Unit) : Act Unit := do
  let _ : Unit ← .op (Op.begin j) .ret
  let raised ← Prog.attempt runner
  let _ : Unit ← .op (Op.finish j) .ret
  match raised with
  | some e => afterRaise j e
  | none => maybeEnqueueRefresh j

def runClaimed (j : Job) : Act Unit := do
  persistJob { j with status := .running }
  if ← IndexGuard.dispatchAllowed j then
    match ← dispatchJob j with
    | some runner => runCoroutine j runner
    | none => do
      persistJob (j.failed "Cannot dispatch job from queue")
      maybeEnqueueRefresh j
  else
    persistJob (j.failed "Index requires rebuild. See GET /health.")
    maybeEnqueueRefresh j

def runOne (i : ℕ) : Act Unit := do
  match ← get i with
  | none => pure ()
  | some j => if j.status.terminal then pure () else runClaimed j

/-- One round of a worker. -/
def worker : Act Unit := do
  match ← claimOne with
  | none => pure ()
  | some i => runOne i

end Treeweft.Queue
