import Treeweft.Runners

/-!
The index guard: the state of the latest rebuild as the tables show it, the gate a worker asks
before it runs a job, and the rebuild itself.

A rebuild publishes itself by the exclusive maintenance lock and looks for active jobs
afterwards; a worker publishes its job as running and looks for the lock afterwards.
-/

namespace Treeweft.IndexGuard

open Treeweft.Jobs Treeweft.JobStore Treeweft.Runners

inductive RebuildState
  | none | preparing | rebuilding | interrupted | complete
  deriving DecidableEq, Repr

def probeLock : Act Bool := .op Op.probeLock .ret

def latestGroup : Act (Option Group) := .op Op.latestGroup .ret

/-- The state of a group that is not being prepared, from the jobs it has. -/
def stateOfGroup (g : Group) (jobs : List Job) : RebuildState :=
  if jobs.any fun j => j.status.active then .rebuilding
  else if jobs.length < g.taskCount then .interrupted
  else .complete

/-- The rebuild state, and the latest group of kind `index-rebuild`. -/
def rebuildStateAndGroup : Act (RebuildState × Option ℕ) := do
  let locked ← probeLock
  let group ← latestGroup
  if locked then pure (.preparing, group.map Group.id)
  else
    match group with
    | none => pure (.none, none)
    | some g =>
      if g.taskCount = 0 then pure (.complete, some g.id)
      else do
        let jobs ← listByGroup g.id
        pure (stateOfGroup g jobs, some g.id)

/-- A job of the rebuild passes; any other waits for the stores to be in order. -/
def dispatchAllowed (j : Job) : Act Bool := do
  let (state, latest) ← rebuildStateAndGroup
  if latest.isSome ∧ j.groupId = latest ∧ state ≠ .interrupted then pure true
  else if state = .preparing ∨ state = .interrupted then pure false
  else do
    let stamps ← ask .stamps
    pure (stamps = 0)

/-- Whether some job is queued or running. -/
def jobBlockers : Act Bool := do
  let queued ← listByStatus .queued
  let running ← listByStatus .running
  pure (queued ≠ [] || running ≠ [])

def recreateStores : Act Bool := do
  if ← write .dropIndex then
    if ← write .initCollection then
      if ← write .clearGraph then write .stamp else pure false
    else pure false
  else pure false

/-- A source is indexed again as the kind it was indexed as. -/
def resolveReindexKind (src : Source) : Act JobKind :=
  if src.kind = .file ∨ src.kind = .directory ∨ src.kind = .repo then pure src.kind
  else if src.url ≠ "" then pure .repo
  else do
    if (← ask (.isFile src.path)) = 0 then pure .file else pure .repo

def buildSourceReindexJob (groupId : Option ℕ) (src : Source) : Act Job := do
  let kind ← resolveReindexKind src
  let label := if src.url ≠ "" then src.url else if src.path ≠ "" then src.path else src.id
  let j ← newJob kind src.id label
  pure { j with
    sourceUrl := src.url
    sourcePath := if src.url ≠ "" then "" else src.path
    sourceBranch := src.branch
    groupId := groupId }

def unlock : Act Unit := .op Op.unlock .ret

def enqueueReindex (groupId : ℕ) (src : Source) : Act Unit := do
  let j ← buildSourceReindexJob (some groupId) src
  persistJob j
  enqueue j.id

/-- `POST /index/rebuild`. -/
def rebuild : Act Unit := do
  let sources ← listSources
  let blocked ← jobBlockers
  let locked ← probeLock
  if blocked || locked then .raise .refused
  else
    let granted : Bool ← .op Op.tryLock .ret
    if granted then
      let g : ℕ ← .op (Op.createGroup (sources.map Source.id)) .ret
      if ← jobBlockers then
        let _ : Unit ← .op (Op.deleteGroup g) .ret
        unlock
        .raise .refused
      else if ← recreateStores then
        Prog.forEach sources (enqueueReindex g)
        unlock
      else
        unlock
        .raise .fault
    else .raise .refused

/-- The gate only looks. -/
def GateOp : Op → Prop
  | .probeLock => True
  | .latestGroup => True
  | .listByGroup _ => True
  | .ask _ => True
  | _ => False

variable {D : Discipline sig} {l : D.Local}

lemma wp_rebuildState {Q : RebuildState × Option ℕ → D.Local → Prop} {X : Exc → D.Local → Prop}
    (hD : ∀ o, GateOp o → D.may l o ∧ ∀ r, D.admits l o r → D.after l o r = l)
    (hQ : ∀ x, Q x l) : D.wp rebuildStateAndGroup Q X l := by
  refine Discipline.wp_op_same (hD _ trivial) fun locked =>
    Discipline.wp_op_same (hD _ trivial) fun (group : Option Group) => ?_
  change D.wp (if locked = true then _ else _) Q X l
  split
  · exact hQ _
  · cases group with
    | none => exact hQ _
    | some g =>
      change D.wp (if g.taskCount = 0 then _ else _) Q X l
      split
      · exact hQ _
      · exact Discipline.wp_op_same (hD _ trivial) fun _ => hQ _

/-- A discipline that takes no notice of the gate. -/
lemma wp_dispatchAllowed {j : Job} {Q : Bool → D.Local → Prop} {X : Exc → D.Local → Prop}
    (hD : ∀ o, GateOp o → D.may l o ∧ ∀ r, D.admits l o r → D.after l o r = l)
    (hQ : ∀ b, Q b l) : D.wp (dispatchAllowed j) Q X l := by
  unfold dispatchAllowed
  rw [Discipline.wp_bind]
  refine wp_rebuildState hD fun x => ?_
  split
  split
  · exact hQ _
  · split
    · exact hQ _
    · exact Discipline.wp_op_same (hD _ trivial) fun _ => hQ _

end Treeweft.IndexGuard
