import Treeweft.Runners

/-!
Summary refreshes, and index work that comes while one is active.

A refresh does not cover a change of code, so index work takes its place: a refresh still in the
queue is cancelled, and behind one that a worker has claimed the new job waits until that job's
end promotes it.
-/

namespace Treeweft.PromptRefresh

open Treeweft.Jobs Treeweft.JobStore Treeweft.Runners

def promoteWaitingAfter (after : ℕ) : Act Unit := do
  let _ ← promoteNextWaiting after
  pure ()

/-- A refresh that loses the race for its source is not created. -/
def createResummarizeJob (sid : String) : Act Unit := do
  let target ← ask .targetVersion
  let j ← newJob .resummarize sid sid
  let j := { j with payload.targetVersion := some target }
  if ← upsert j then enqueue j.id else pure ()

def enqueueIfStale (sid : String) : Act Unit := do
  if (← ask .stale) = 0 then
    match ← findActiveForSource sid with
    | some _ => pure ()
    | none => do
      if (← ask .writable) = 0 then createResummarizeJob sid else pure ()
  else pure ()

def persistAndEnqueue (build : Act Job) : Act Unit := do
  let j ← build
  persistJob j
  enqueue j.id

/-- Behind a claimed refresh. The refresh may have ended since it was looked up, and then nobody
else will promote the job. -/
def waitFor (refresh : ℕ) (j : Job) : Act Unit := do
  persistJob { j with status := .waiting, payload.afterJob := some refresh }
  let refreshed ← get refresh
  if refreshed.any fun r => r.status.active then pure () else promoteWaitingAfter refresh

def preemptActiveRefresh (sid : String) (build : Act Job) : Act Unit := do
  match ← findActiveForSource sid with
  | none => persistAndEnqueue build
  | some refresh =>
    if refresh.kind ≠ .resummarize then persistAndEnqueue build
    else do
      let j ← build
      if ← cancelIfQueued refresh.id then
        persistJob j
        enqueue j.id
      else waitFor refresh.id j

/-! ### What a promotion does to the tables -/

/-- A promotion persists no job of its own. -/
def PromoteOp : Op → Prop
  | .lockWaiting _ => True
  | .activeRow _ => True
  | .relink _ _ => True
  | .promote _ _ _ => True
  | _ => False

lemma uses_promoteAttempt (n after : ℕ) : Uses PromoteOp (promoteAttempt n after) := by
  refine Uses.bind ⟨trivial, fun _ => trivial⟩ fun rows => ?_
  split
  · trivial
  · refine Uses.bind ⟨trivial, fun _ => trivial⟩ fun active => ?_
    split
    · exact Uses.bind ⟨trivial, fun _ => trivial⟩ fun _ => trivial
    · refine Uses.bind ⟨trivial, fun _ => trivial⟩ fun p => ?_
      split <;> trivial

lemma uses_promoteWaitingAfter (after : ℕ) : Uses PromoteOp (promoteWaitingAfter after) := by
  refine Uses.bind (Uses.bind (uses_promoteAttempt 0 after) fun r => ?_) fun _ => trivial
  split
  · trivial
  · refine Uses.bind (uses_promoteAttempt 1 after) fun r => ?_
    split <;> trivial

end Treeweft.PromptRefresh
