import Treeweft.FileIndex
import Treeweft.Interleaving
import Mathlib.Data.List.Sort

/-!
Jobs, and the tables processes share: `jobs`, `job_queue`, the rebuild groups, the maintenance
lock and the source registry.

Each operation is one statement or the commit of one transaction. What a transaction read keeps
its rows locked until it commits, so a write to them by another task blocks; an upsert started in
the background, or a write that a run has left behind, lands in a step of its own. A partial
unique index admits one queued or running job per source.
-/

namespace Treeweft.Jobs

open Treeweft.FileIndex (Change Action)
open Treeweft.Paths (FilePath)

inductive JobStatus
  | queued | running | done | failed | deadLetter | waiting
  deriving DecidableEq, Repr

inductive JobKind
  | file | directory | repo | graph | incremental | resummarize
  deriving DecidableEq, Repr

structure Payload where
  changedFiles : List Change
  branch : String
  afterJob : Option ℕ
  targetVersion : Option ℕ
  summaryVersion : Option ℕ
  deriving DecidableEq, Repr

def noPayload : Payload := ⟨[], "", none, none, none⟩

structure Job where
  id : ℕ
  sourceId : String
  status : JobStatus
  kind : JobKind
  startTime : ℕ
  source : String
  sourcePath : String
  sourceUrl : String
  sourceBranch : String
  payload : Payload
  attempts : ℕ
  groupId : Option ℕ
  error : String
  deriving DecidableEq, Repr

def JobStatus.active : JobStatus → Bool
  | .queued => true
  | .running => true
  | _ => false

def JobStatus.terminal : JobStatus → Bool
  | .done => true
  | .failed => true
  | .deadLetter => true
  | _ => false

lemma JobStatus.cases (st : JobStatus) : st.active = true ∨ st.terminal = true ∨ st = .waiting := by
  cases st <;> simp [active, terminal]

lemma inactive_of_terminal {st : JobStatus} (h : st.terminal = true) : st.active = false := by
  cases st <;> first | rfl | cases h

def Job.failed (error : String) (j : Job) : Job := { j with status := .failed, error := error }

/-- A job nobody has claimed is closed; any other is left as it is. -/
def Job.cancelled (j : Job) : Job := if j.status = .queued then { j with status := .done } else j

@[simp] lemma Job.cancelled_id (j : Job) : j.cancelled.id = j.id := by
  unfold Job.cancelled
  split <;> rfl

def Job.promoted (j : Job) : Job := { j with status := .queued }

@[simp] lemma Job.promoted_id (j : Job) : j.promoted.id = j.id := rfl

def Job.behind (target : ℕ) (j : Job) : Job := { j with payload.afterJob := some target }

@[simp] lemma Job.behind_id (target : ℕ) (j : Job) : (j.behind target).id = j.id := rfl

def Job.tried (j : Job) : Job := { j with attempts := j.attempts + 1 }

@[simp] lemma Job.tried_id (j : Job) : j.tried.id = j.id := rfl

/-- A row of the source registry. -/
structure Source where
  id : String
  kind : JobKind
  path : String
  url : String
  branch : String
  deriving DecidableEq, Repr

/-- A group of kind `index-rebuild`, with the sources the rebuild read; the table keeps only
their number. -/
structure Group where
  id : ℕ
  sources : List String
  deriving DecidableEq, Repr

def Group.taskCount (g : Group) : ℕ := g.sources.length

inductive Write
  | chunks (sourceId : String)
  | graph (sourceId : String)
  | registry (src : Source)
  | registryMark (sourceId : String)
  | dropIndex | initCollection | clearGraph | stamp
  deriving DecidableEq, Repr

/-- A webhook event that was answered with success, and how many runs had begun when it came. -/
structure Accepted where
  paths : List FilePath
  since : ℕ
  deriving DecidableEq, Repr

/-- The shared state. The last three fields are history: no program reads them. -/
structure Db where
  jobs : Keyed Job.id
  queue : Keyed (id : ℕ → ℕ)
  groups : List Group
  lock : Option Tid
  rowLocks : List (Tid × ℕ)
  background : List (Tid × Job)
  /-- The writes of files that a run has not waited for. -/
  stray : List (Tid × Write)
  sources : Keyed Source.id
  nextJob : ℕ
  nextGroup : ℕ
  /-- The sources that were walked to the end since the stores were last dropped. -/
  reindexed : List String
  /-- The jobs whose runs have begun, in order. -/
  begun : List Job
  accepted : List Accepted

def empty : Db := ⟨.empty, .empty, [], none, [], [], [], .empty, 0, 0, [], [], []⟩

/-! ### Operations -/

/-- What a program learns from outside the tables: files, remotes, cached status, counters. A
yes-or-no question is answered by zero where all is well. -/
inductive Question
  | fails | files | allFailed | persists | batches | sourceDeleted | disabled
  | pathExists (path : String)
  | isFile (path : String)
  | writable | stamps | stale | targetVersion
  deriving DecidableEq, Repr

inductive Promotion
  | promoted | gone | conflict
  deriving DecidableEq, Repr

inductive Op
  | newJob
  | upsert (j : Job)
  | get (i : ℕ)
  | listByStatus (st : JobStatus)
  | listByGroup (g : ℕ)
  | activeRow (sourceId : String)
  | findWaitingAfter (i : ℕ)
  | incrementAttempts (i : ℕ)
  | enqueue (i : ℕ)
  | depth
  | claim
  | cancelIfQueued (i : ℕ)
  | lockWaiting (after : ℕ)
  | relink (ids : List ℕ) (target : ℕ)
  | promote (attempt : ℕ) (first : ℕ) (rest : List ℕ)
  | background (j : Job)
  | leave (w : Write)
  | tryLock
  | unlock
  | probeLock
  | createGroup (sources : List String)
  | deleteGroup (g : ℕ)
  | latestGroup
  | sources
  | write (w : Write)
  | walked (sourceId : String)
  | begin (j : Job)
  | finish (j : Job)
  | ask (q : Question)
  | arrive
  | accept (paths : List FilePath) (since : ℕ)
  deriving DecidableEq, Repr

@[reducible] def Op.Answer : Op → Type
  | .newJob => ℕ × ℕ
  | .upsert _ => Bool
  | .get _ => Option Job
  | .listByStatus _ => List Job
  | .listByGroup _ => List Job
  | .activeRow _ => Option Job
  | .findWaitingAfter _ => List Job
  | .incrementAttempts _ => ℕ
  | .depth => ℕ
  | .claim => Option ℕ
  | .cancelIfQueued _ => Bool
  | .lockWaiting _ => List Job
  | .promote _ _ _ => Promotion
  | .tryLock => Bool
  | .probeLock => Bool
  | .createGroup _ => ℕ
  | .latestGroup => Option Group
  | .sources => List Source
  | .write _ => Bool
  | .ask _ => ℕ
  | .arrive => ℕ
  | _ => Unit

@[reducible] def sig : Signature := ⟨Op, Op.Answer⟩

namespace Db

variable (db : Db)

def row (i : ℕ) : Option Job := db.jobs.get? i

/-- Another row holds the source in the partial unique index. -/
def conflicts (j : Job) : Bool :=
  j.status.active && j.sourceId ≠ "" &&
    db.jobs.rows.any fun r => r.id ≠ j.id && r.status.active && r.sourceId = j.sourceId

def lockedFor (t : Tid) (i : ℕ) : Bool := db.rowLocks.any fun x => x.1 ≠ t && x.2 = i

def locked (i : ℕ) : Bool := db.rowLocks.any fun x => x.2 = i

/-- The row an upsert writes: a group that was set is never replaced by none. -/
def upserted (j : Job) : Job :=
  { j with groupId := j.groupId <|> (db.row j.id).bind Job.groupId }

def put (j : Job) : Db := { db with jobs := db.jobs.put (db.upserted j) }

/-- Rewrite the row of a job. -/
def modify (i : ℕ) (f : Job → Job) (hf : ∀ j, (f j).id = j.id) : Db :=
  { db with
    jobs := db.jobs.map (fun j => if j.id = i then f j else j)
      (fun j => by split <;> simp [hf]) }

/-- `jsonb_set(payload, '{after_job}', ..)` for every row of `ids`. -/
def setAfter (ids : List ℕ) (target : ℕ) : Db :=
  { db with
    jobs := db.jobs.map (fun j => if j.id ∈ ids then j.behind target else j)
      (fun j => by split <;> rfl) }

def enqueue (i : ℕ) : Db := { db with queue := db.queue.insertNew i }

/-- The newest queued or running job of the source. -/
def activeRow (sourceId : String) : Option Job :=
  ((db.jobs.rows.filter fun r => r.status.active && r.sourceId = sourceId).insertionSort
    fun a b => b.startTime ≤ a.startTime).head?

def waitingAfter (i : ℕ) : List Job :=
  (db.jobs.rows.filter fun r => r.status = .waiting && r.payload.afterJob = some i).insertionSort
    fun a b => a.startTime ≤ b.startTime

def endTransaction (t : Tid) : Db :=
  { db with rowLocks := db.rowLocks.filter fun x => x.1 ≠ t }

def cancelIfQueued (i : ℕ) : Bool × Db :=
  if i ∈ db.queue.rows then
    (true, { db.modify i Job.cancelled Job.cancelled_id with queue := db.queue.erase i })
  else (false, db)

/-- The last statements of `promote_next_waiting`, and its commit or rollback. -/
def promote (t : Tid) (first : ℕ) (rest : List ℕ) : Promotion × Db :=
  match db.row first with
  | none => (.gone, db.endTransaction t)
  | some j =>
    if j.status ≠ .waiting then (.gone, db.endTransaction t)
    else if db.conflicts j.promoted then (.conflict, db.endTransaction t)
    else
      (.promoted, (((db.modify first Job.promoted Job.promoted_id).setAfter rest first).enqueue
        first).endTransaction t)

def write : Write → Db
  | .registry src => { db with sources := db.sources.put src }
  | .dropIndex => { db with reindexed := [] }
  | _ => db

end Db

/-- One operation of a task; `none` where it waits for a lock. -/
def exec (db : Db) (t : Tid) (env : ℕ) : (o : Op) → Option (o.Answer × Db)
  | .newJob => some ((db.nextJob, env), { db with nextJob := db.nextJob + 1 })
  | .upsert j =>
    if db.lockedFor t j.id then none
    else if db.conflicts j then some (false, db)
    else some (true, db.put j)
  | .get i => some (db.row i, db)
  | .listByStatus st => some (db.jobs.rows.filter fun r => r.status = st, db)
  | .listByGroup g => some (db.jobs.rows.filter fun r => r.groupId = some g, db)
  | .activeRow sid => some (db.activeRow sid, db)
  | .findWaitingAfter i => some (db.waitingAfter i, db)
  | .incrementAttempts i =>
    if db.lockedFor t i then none
    else some (((db.row i).elim 0 fun j => j.attempts + 1 : ℕ),
      db.modify i Job.tried Job.tried_id)
  | .enqueue i => some ((), db.enqueue i)
  | .depth => some (db.queue.rows.length, db)
  | .claim =>
    match db.queue.rows.head? with
    | none => some (none, db)
    | some i => some (some i, { db with queue := db.queue.erase i })
  | .cancelIfQueued i => if db.lockedFor t i then none else some (db.cancelIfQueued i)
  | .lockWaiting i =>
    let rows := db.waitingAfter i
    if rows.any fun r => db.lockedFor t r.id then none
    else some (rows, { db with rowLocks := rows.map (fun r => (t, r.id)) ++ db.rowLocks })
  | .relink ids target => some ((), (db.setAfter ids target).endTransaction t)
  | .promote _ first rest => some (db.promote t first rest)
  | .background j => some ((), { db with background := db.background ++ [(t, j)] })
  | .leave w => some ((), { db with stray := db.stray ++ [(t, w)] })
  | .tryLock =>
    if db.lock = none ∧ env = 0 then some (true, { db with lock := some t }) else some (false, db)
  | .unlock => some ((), { db with lock := none })
  | .probeLock => some (db.lock.isSome, db)
  | .createGroup sources => some (db.nextGroup,
      { db with groups := ⟨db.nextGroup, sources⟩ :: db.groups, nextGroup := db.nextGroup + 1 })
  | .deleteGroup g => some ((), { db with groups := db.groups.filter fun x => x.id ≠ g })
  | .latestGroup => some (db.groups.head?, db)
  | .sources => some (db.sources.rows, db)
  | .write w => some ((env = 0 : Bool), if env = 0 ∨ w = .dropIndex then db.write w else db)
  | .walked sid => some ((), { db with reindexed := sid :: db.reindexed })
  | .begin j => some ((), { db with begun := db.begun ++ [j] })
  | .finish _ => some ((), db)
  | .ask _ => some (env, db)
  | .arrive => some (db.begun.length, db)
  | .accept paths since => some ((), { db with accepted := db.accepted ++ [⟨paths, since⟩] })

/-- What is lost with a process: its locks, and what has not landed yet. -/
def kill (p : ℕ) (db : Db) : Db :=
  { db with
    lock := db.lock.filter fun t => t.proc ≠ p
    rowLocks := db.rowLocks.filter fun x => x.1.proc ≠ p
    background := db.background.filter fun x => x.1.proc ≠ p
    stray := db.stray.filter fun x => x.1.proc ≠ p }

/-- Steps no task takes: a background upsert or a stray write lands, a source is deleted. -/
inductive Own
  | land (n : ℕ)
  | flush (n : ℕ)
  | deleteSource (sourceId : String)
  deriving DecidableEq, Repr

def own (db : Db) : Own → Option Db
  | .land n =>
    match db.background[n]? with
    | none => none
    | some (_, j) =>
      if db.locked j.id then none
      else
        let db := { db with background := db.background.eraseIdx n }
        some (if db.conflicts j then db else db.put j)
  | .flush n => (db.stray[n]?).map fun x => { db.write x.2 with stray := db.stray.eraseIdx n }
  | .deleteSource sid => some { db with sources := db.sources.erase sid }

/-! ### What an operation can change -/

section Frame
variable {db db' : Db} {t : Tid} {env : ℕ} {o : Op} {r : o.Answer}

@[simp] lemma write_jobs (w : Write) : (db.write w).jobs = db.jobs := by cases w <;> rfl
@[simp] lemma write_queue (w : Write) : (db.write w).queue = db.queue := by cases w <;> rfl
@[simp] lemma write_groups (w : Write) : (db.write w).groups = db.groups := by cases w <;> rfl
@[simp] lemma write_lock (w : Write) : (db.write w).lock = db.lock := by cases w <;> rfl
@[simp] lemma write_rowLocks (w : Write) : (db.write w).rowLocks = db.rowLocks := by cases w <;> rfl
@[simp] lemma write_background (w : Write) : (db.write w).background = db.background := by
  cases w <;> rfl
@[simp] lemma write_stray (w : Write) : (db.write w).stray = db.stray := by cases w <;> rfl
@[simp] lemma write_begun (w : Write) : (db.write w).begun = db.begun := by cases w <;> rfl
@[simp] lemma write_nextJob (w : Write) : (db.write w).nextJob = db.nextJob := by cases w <;> rfl
@[simp] lemma write_accepted (w : Write) : (db.write w).accepted = db.accepted := by cases w <;> rfl

/-! Rows -/

lemma id_of_row {i : ℕ} {j : Job} (h : db.row i = some j) : j.id = i := Keyed.key_of_get? h

@[simp] lemma row_put (j : Job) (i : ℕ) :
    (db.put j).row i = if i = j.id then some (db.upserted j) else db.row i :=
  Keyed.get?_put _ _ _

@[simp] lemma row_modify {f : Job → Job} (hf : ∀ j, (f j).id = j.id) (k i : ℕ) :
    (db.modify k f hf).row i = if i = k then (db.row i).map f else db.row i := by
  rw [Db.row, Db.modify, Keyed.get?_map]
  change (db.row i).map _ = _
  cases h : db.row i with
  | none => simp
  | some j =>
    simp only [Option.map_some, id_of_row h]
    split <;> rfl

@[simp] lemma row_setAfter (ids : List ℕ) (target i : ℕ) :
    (db.setAfter ids target).row i =
      if i ∈ ids then (db.row i).map (Job.behind target) else db.row i := by
  rw [Db.row, Db.setAfter, Keyed.get?_map]
  change (db.row i).map _ = _
  cases h : db.row i with
  | none => simp
  | some j =>
    simp only [Option.map_some, id_of_row h]
    split <;> rfl

@[simp] lemma row_enqueue (k i : ℕ) : (db.enqueue k).row i = db.row i := rfl

@[simp] lemma row_endTransaction (i : ℕ) : (db.endTransaction t).row i = db.row i := rfl

lemma row_congr (h : db'.jobs = db.jobs) (i : ℕ) : db'.row i = db.row i := by
  rw [Db.row, h]
  rfl

/-- The operations that write to the table of jobs. -/
def writesJobs : Op → Bool
  | .upsert _ => true
  | .incrementAttempts _ => true
  | .cancelIfQueued _ => true
  | .relink _ _ => true
  | .promote _ _ _ => true
  | _ => false

lemma jobs_of_exec (h : exec db t env o = some (r, db')) (ho : writesJobs o = false) :
    db'.jobs = db.jobs := by
  cases o <;> simp only [writesJobs] at ho <;> (try cases ho) <;> simp only [exec] at h <;>
    (repeat' split at h) <;> cases h <;> first
    | rfl
    | exact write_jobs _

/-- A transaction is opened by its reading statement and closed by its last one. -/
def writesLocks : Op → Bool
  | .lockWaiting _ => true
  | .relink _ _ => true
  | .promote _ _ _ => true
  | _ => false

lemma rowLocks_of_exec (h : exec db t env o = some (r, db')) (ho : writesLocks o = false) :
    db'.rowLocks = db.rowLocks := by
  cases o <;> simp only [writesLocks] at ho <;> (try cases ho) <;>
    simp only [exec, Db.cancelIfQueued] at h <;> (repeat' split at h) <;> cases h <;> first
    | rfl
    | exact write_rowLocks _

lemma background_of_exec (h : exec db t env o = some (r, db')) {x : Tid × Job}
    (hx : x ∈ db'.background) : x ∈ db.background ∨ ∃ j, o = .background j ∧ x = (t, j) := by
  cases o <;> simp only [exec, Db.cancelIfQueued, Db.promote] at h <;> (repeat' split at h) <;>
    cases h <;> first
    | exact .inl hx
    | exact .inl (by simpa using hx)
    | skip
  rcases List.mem_append.1 hx with hx | hx
  · exact .inl hx
  · exact .inr ⟨_, rfl, List.mem_singleton.1 hx⟩

lemma exec_upsert {j : Job} {r : Bool} (h : exec db t env (.upsert j) = some (r, db')) :
    db.lockedFor t j.id = false ∧
      ((r = true ∧ db.conflicts j = false ∧ db' = db.put j) ∨
        (r = false ∧ db.conflicts j = true ∧ db' = db)) := by
  simp only [exec] at h
  split at h
  · cases h
  · rename_i hl
    refine ⟨by simpa using hl, ?_⟩
    split at h
    · rename_i hc
      cases h
      exact .inr ⟨rfl, hc, rfl⟩
    · rename_i hc
      cases h
      exact .inl ⟨rfl, by simpa using hc, rfl⟩

lemma exec_cancel {i : ℕ} {r : Bool} (h : exec db t env (.cancelIfQueued i) = some (r, db')) :
    db.lockedFor t i = false ∧
      ((r = true ∧ i ∈ db.queue ∧
          db' = { db.modify i Job.cancelled Job.cancelled_id with queue := db.queue.erase i }) ∨
        (r = false ∧ i ∉ db.queue ∧ db' = db)) := by
  simp only [exec] at h
  split at h
  · cases h
  · rename_i hl
    refine ⟨by simpa using hl, ?_⟩
    unfold Db.cancelIfQueued at h
    split at h
    · rename_i hq
      cases h
      exact .inl ⟨rfl, hq, rfl⟩
    · rename_i hq
      cases h
      exact .inr ⟨rfl, hq, rfl⟩

lemma exec_increment {i r : ℕ} (h : exec db t env (.incrementAttempts i) = some (r, db')) :
    db.lockedFor t i = false ∧ db' = db.modify i Job.tried Job.tried_id := by
  simp only [exec] at h
  split at h
  · cases h
  · rename_i hl
    cases h
    exact ⟨by simpa using hl, rfl⟩

lemma exec_lockWaiting {i : ℕ} {rows : List Job}
    (h : exec db t env (.lockWaiting i) = some (rows, db')) :
    rows = db.waitingAfter i ∧ (∀ j ∈ db.waitingAfter i, db.lockedFor t j.id = false) ∧
      db' = { db with rowLocks := (db.waitingAfter i).map (fun r => (t, r.id)) ++ db.rowLocks } := by
  simp only [exec] at h
  split at h
  · cases h
  · rename_i hl
    cases h
    exact ⟨rfl, by simpa using hl, rfl⟩

/-- The row that a promotion finds, and what becomes of it. -/
lemma exec_promote {n first : ℕ} {rest : List ℕ} {r : Promotion}
    (h : exec db t env (.promote n first rest) = some (r, db')) :
    (r = .gone ∧ (∀ j, db.row first = some j → j.status ≠ .waiting) ∧ db' = db.endTransaction t) ∨
      ∃ j, db.row first = some j ∧ j.status = .waiting ∧
        ((r = .conflict ∧ db.conflicts j.promoted = true ∧ db' = db.endTransaction t) ∨
          (r = .promoted ∧ db.conflicts j.promoted = false ∧
            db' = (((db.modify first Job.promoted Job.promoted_id).setAfter rest first).enqueue
              first).endTransaction t)) := by
  simp only [exec, Db.promote] at h
  split at h
  · rename_i hr
    cases h
    exact .inl ⟨rfl, fun j hj => (by rw [hr] at hj; cases hj), rfl⟩
  · rename_i j hj
    split at h
    · rename_i hs
      cases h
      refine .inl ⟨rfl, fun k hk => ?_, rfl⟩
      rw [hj] at hk
      cases hk
      exact hs
    · rename_i hs
      refine .inr ⟨j, hj, of_not_not hs, ?_⟩
      split at h
      · rename_i hc
        cases h
        exact .inl ⟨rfl, hc, rfl⟩
      · rename_i hc
        cases h
        exact .inr ⟨rfl, by simpa using hc, rfl⟩

lemma not_conflicts {j : Job} (h : j.status.active = false) : db.conflicts j = false := by
  simp [Db.conflicts, h]

lemma not_lockedFor {i : ℕ} : db.lockedFor t i = false ↔ ∀ u, (u, i) ∈ db.rowLocks → u = t := by
  simp only [Db.lockedFor, Bool.eq_false_iff, ne_eq, List.any_eq_true, Bool.and_eq_true,
    decide_eq_true_eq]
  constructor
  · intro h u hu
    by_contra hne
    exact h ⟨(u, i), hu, hne, rfl⟩
  · rintro h ⟨⟨u, k⟩, hu, hne, rfl⟩
    exact hne (h u hu)

lemma not_locked {i : ℕ} : db.locked i = false ↔ ∀ u, (u, i) ∉ db.rowLocks := by
  simp only [Db.locked, Bool.eq_false_iff, ne_eq, List.any_eq_true, decide_eq_true_eq]
  constructor
  · exact fun h u hu => h ⟨(u, i), hu, rfl⟩
  · rintro h ⟨⟨u, k⟩, hu, rfl⟩
    exact h u hu

/-- What a step of the store does: a row written in the background lands or is dropped for its
source's active one, or the jobs are left alone. -/
lemma own_land {n : ℕ} (h : own db (.land n) = some db') :
    ∃ t j, db.background[n]? = some (t, j) ∧ db.locked j.id = false ∧
      ((db.conflicts j = true ∧ db' = { db with background := db.background.eraseIdx n }) ∨
        (db.conflicts j = false ∧
          db' = { db with background := db.background.eraseIdx n }.put j)) := by
  simp only [own] at h
  split at h
  · cases h
  · rename_i t j hj
    split at h
    · cases h
    · rename_i hl
      cases h
      refine ⟨t, j, hj, by simpa using hl, ?_⟩
      by_cases hc : db.conflicts j = true
      · exact .inl ⟨hc, if_pos hc⟩
      · exact .inr ⟨by simpa using hc, if_neg hc⟩

/-- A stray write lands: it concerns neither the jobs nor the queue. -/
lemma own_flush {n : ℕ} (h : own db (.flush n) = some db') :
    ∃ t w, db.stray[n]? = some (t, w) ∧
      db' = { db.write w with stray := db.stray.eraseIdx n } := by
  obtain ⟨⟨t, w⟩, hw, rfl⟩ := Option.map_eq_some_iff.1 h
  exact ⟨t, w, hw, rfl⟩

lemma mem_waitingAfter {i : ℕ} {j : Job} :
    j ∈ db.waitingAfter i ↔
      db.row j.id = some j ∧ j.status = .waiting ∧ j.payload.afterJob = some i := by
  simp only [Db.waitingAfter, List.mem_insertionSort, List.mem_filter, Bool.and_eq_true,
    decide_eq_true_eq]
  exact and_congr_left fun _ => ⟨fun h => Keyed.get?_of_mem h, fun h => Keyed.mem_of_get? h⟩

lemma activeRow_eq_some {sid : String} {j : Job} (h : db.activeRow sid = some j) :
    db.row j.id = some j ∧ j.status.active = true ∧ j.sourceId = sid := by
  have h := List.mem_of_mem_head? h
  simp only [List.mem_insertionSort, List.mem_filter, Bool.and_eq_true, decide_eq_true_eq] at h
  exact ⟨Keyed.get?_of_mem h.1, h.2⟩

lemma mem_enqueue {i k : ℕ} (h : k ∈ (db.enqueue i).queue) : k ∈ db.queue ∨ i = k := by
  rcases Keyed.mem_insertNew.1 h with h | ⟨rfl, -⟩
  · exact .inl h
  · exact .inr rfl

lemma mem_enqueue_self {i : ℕ} : i ∈ (db.enqueue i).queue := by
  by_cases h : i ∈ db.queue
  · exact Keyed.mem_insertNew.2 (.inl h)
  · refine Keyed.mem_insertNew.2 (.inr ⟨rfl, fun b hb hbi => h ?_⟩)
    have hbi : b = i := hbi
    exact hbi ▸ hb

lemma mem_enqueue_of_mem {i k : ℕ} (h : k ∈ db.queue) : k ∈ (db.enqueue i).queue :=
  Keyed.mem_insertNew.2 (.inl h)

/-- The job an operation puts into the queue. -/
def inserts : Op → Option ℕ
  | .enqueue i => some i
  | .promote _ first _ => some first
  | _ => none

lemma mem_queue_of_exec (h : exec db t env o = some (r, db')) {i : ℕ} (hi : i ∈ db'.queue) :
    i ∈ db.queue ∨ inserts o = some i := by
  cases o <;> simp only [exec, Db.cancelIfQueued, Db.promote] at h <;> (repeat' split at h) <;>
    cases h <;> first
    | exact .inl hi
    | exact .inl (Keyed.mem_erase.1 hi).1
    | exact (mem_enqueue hi).imp_right (congrArg some)
    | exact .inl (by simpa using hi)

/-- Claiming takes a job out of the queue. -/
lemma exec_claim {r : Option ℕ} (h : exec db t env .claim = some (r, db')) :
    (r = none ∧ db' = db) ∨
      ∃ i ∈ db.queue, r = some i ∧ db' = { db with queue := db.queue.erase i } := by
  simp only [exec] at h
  split at h
  · cases h
    exact .inl ⟨rfl, rfl⟩
  · rename_i i hi
    cases h
    exact .inr ⟨i, List.mem_of_mem_head? hi, rfl, rfl⟩

end Frame

end Treeweft.Jobs
