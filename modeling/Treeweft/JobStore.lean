import Treeweft.Jobs

/-!
The operations as programs call them, and the methods of the job store made of several.
-/

namespace Treeweft.JobStore

open Treeweft.Jobs

inductive Exc
  | uniqueViolation | fault | refused
  deriving DecidableEq, Repr

/-- How the text of an exception begins: with its type. -/
def Exc.text : Exc → String
  | uniqueViolation => "UniqueViolationError"
  | fault => "RuntimeError"
  | refused => "HTTPException"

/-- A coroutine of the indexer. -/
abbrev Act := Prog sig Exc

@[simp] def upsert (j : Job) : Act Bool := .op (Op.upsert j) .ret
@[simp] def get (i : ℕ) : Act (Option Job) := .op (Op.get i) .ret
@[simp] def listByStatus (st : JobStatus) : Act (List Job) := .op (Op.listByStatus st) .ret
@[simp] def listByGroup (g : ℕ) : Act (List Job) := .op (Op.listByGroup g) .ret
@[simp] def activeRow (sid : String) : Act (Option Job) := .op (Op.activeRow sid) .ret
@[simp] def findWaitingAfter (i : ℕ) : Act (List Job) := .op (Op.findWaitingAfter i) .ret
@[simp] def incrementAttempts (i : ℕ) : Act ℕ := .op (Op.incrementAttempts i) .ret
@[simp] def cancelIfQueued (i : ℕ) : Act Bool := .op (Op.cancelIfQueued i) .ret
@[simp] def enqueue (i : ℕ) : Act Unit := .op (Op.enqueue i) .ret
@[simp] def claimOne : Act (Option ℕ) := .op Op.claim .ret
@[simp] def queueDepth : Act ℕ := .op Op.depth .ret
@[simp] def listSources : Act (List Source) := .op Op.sources .ret
@[simp] def write (w : Write) : Act Bool := .op (Op.write w) .ret
@[simp] def ask (q : Question) : Act ℕ := .op (Op.ask q) .ret

/-- `find_active_for_source`. -/
def findActiveForSource (sid : String) : Act (Option Job) :=
  if sid = "" then pure none else activeRow sid

/-- One attempt of `promote_next_waiting`; `none` is a unique violation. -/
def promoteAttempt (attempt after : ℕ) : Act (Option (Option ℕ)) := do
  let rows : List Job ← .op (Op.lockWaiting after) .ret
  match rows with
  | [] => pure (some none)
  | first :: rest => do
    match ← activeRow first.sourceId with
    | some active => do
      let _ : Unit ← .op (Op.relink (rows.map Job.id) active.id) .ret
      pure (some none)
    | none => do
      let p : Promotion ← .op (Op.promote attempt first.id (rest.map Job.id)) .ret
      match p with
      | .promoted => pure (some (some first.id))
      | .gone => pure (some none)
      | .conflict => pure none

/-- Promote the oldest job that waits on `after`. A unique violation is retried once. -/
def promoteNextWaiting (after : ℕ) : Act (Option ℕ) := do
  match ← promoteAttempt 0 after with
  | some r => pure r
  | none => do
    match ← promoteAttempt 1 after with
    | some r => pure r
    | none => .raise .uniqueViolation

end Treeweft.JobStore
