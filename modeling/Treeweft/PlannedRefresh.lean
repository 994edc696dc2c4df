import Treeweft.Jobs
import Treeweft.PromptPins
import Treeweft.SourceListing
import Treeweft.WriteGate

/-!
The plan of the refreshes that a change of a pin asks for, and the jobs that it becomes.

A stale source is enqueued, or deferred to the job that is active for it, or, where the index
takes no writes, not enqueued at all. Making the jobs again looks at the table: the source of a
job that meets another is deferred then.
-/

namespace Treeweft.PlannedRefresh

open Treeweft.Jobs Treeweft.WriteGate
open Treeweft.SourceListing (SourceRecord isStale)
open Treeweft.PromptPins (PinRow PinView)
open Treeweft.IndexStamp (IndexStatus ConfiguredIndex)
open Treeweft.IndexCheck (World CheckEnv)

def PinKey (row : PinRow) : String × String := (row.operation, row.scope)

/-- A row of `job_groups`. -/
structure GroupRow where
  id : ℕ
  label : String
  kind : String
  createdBy : Option String
  taskCount : ℕ
  deriving DecidableEq, Repr

/-- The tables, the stores of the index, and what the process has in memory: its view of the pins
and the status of the index. -/
structure St where
  pins : Keyed PinKey
  view : PinView
  sources : Keyed SourceRecord.id
  db : Db
  groups : List GroupRow
  index : World
  status : IndexStatus

/-- What the calls meet: the registered versions, the limit of a listing, the configured index,
what a check of it meets, and the time. -/
structure Env where
  registry : List (String × List ℕ)
  sourceListMax : ℕ
  configured : ConfiguredIndex
  check : CheckEnv
  now : ℕ

/-! ### Planning -/

structure RefreshItem where
  sourceId : String
  currentVersion : Option ℕ
  targetVersion : ℕ
  chunkCount : ℕ
  jobId : Option ℕ
  blockingJobId : Option ℕ
  reason : Option String
  deriving DecidableEq, Repr

structure RefreshPlan where
  enqueued : List RefreshItem
  deferred : List RefreshItem
  notEnqueued : List RefreshItem
  groupId : Option ℕ
  deriving DecidableEq, Repr

def RefreshPlan.items (p : RefreshPlan) : List RefreshItem :=
  p.enqueued ++ p.deferred ++ p.notEnqueued

def RefreshPlan.totalChunks (p : RefreshPlan) : ℕ := (p.items.map RefreshItem.chunkCount).sum

def noPlan : RefreshPlan := ⟨[], [], [], none⟩

def findActiveJobForSource (db : Db) (sourceId : String) : Option Job :=
  if sourceId = "" then none else db.activeRow sourceId

def stalePairs (sources : List SourceRecord) (targetFor : String → Option ℕ) :
    List (SourceRecord × ℕ) :=
  sources.filterMap fun s => do
    let target ← targetFor s.id
    if isStale s.summaryPromptVersion s.summaryRefreshTarget target then some (s, target)
    else none

def itemOf (x : SourceRecord × ℕ) : RefreshItem :=
  ⟨x.1.id, x.1.summaryPromptVersion, x.2, x.1.chunkCount, none, none, none⟩

/-- One source goes into one bucket. -/
def place (guardReason : Option String) (db : Db) (plan : RefreshPlan) (x : SourceRecord × ℕ) :
    RefreshPlan :=
  match guardReason with
  | some reason =>
    { plan with notEnqueued := plan.notEnqueued ++ [{ itemOf x with reason := some reason }] }
  | none =>
    match findActiveJobForSource db x.1.id with
    | some active =>
      { plan with deferred := plan.deferred ++ [{ itemOf x with blockingJobId := some active.id }] }
    | none => { plan with enqueued := plan.enqueued ++ [itemOf x] }

/-- What the gate leaves in memory and in the stores. -/
def St.asked (st : St) (a : Asked) : St := { st with index := a.index, status := a.status }

/-- `none` where the check of the gate raises. -/
def planRefreshes (env : Env) (sources : List SourceRecord) (targetFor : String → Option ℕ)
    (st : St) : Option RefreshPlan × St :=
  let stale := stalePairs sources targetFor
  if stale = [] then (some noPlan, st)
  else
    let a := requireWritable env.configured env.check st.index st.status
    (a.answer.map fun gate => stale.foldl (place (gate.map guardReason) st.db) noPlan, st.asked a)

/-! ### Making the Jobs -/

/-- `JobGroupStore.create`. -/
def createGroup (label kind : String) (createdBy : Option String) (taskCount : ℕ) (st : St) :
    ℕ × St :=
  let g : GroupRow := ⟨st.db.nextGroup, if label = "" then "(unnamed)" else label, kind, createdBy,
    taskCount⟩
  (g.id, { st with
    groups := st.groups ++ [g]
    db := { st.db with nextGroup := st.db.nextGroup + 1 } })

/-- A single refresh is a group of one. -/
def attachSingleGroup (jobId : ℕ) (sourceId : String) (createdBy : Option String) (st : St) :
    ℕ × St :=
  createGroup (if sourceId = "" then toString jobId else sourceId) "resummarize" createdBy 1 st

def resummarizeJob (env : Env) (id groupId : ℕ) (item : RefreshItem) : Job :=
  ⟨id, item.sourceId, .queued, .resummarize, env.now, item.sourceId, "", "", "",
    { noPayload with targetVersion := some item.targetVersion }, 0, some groupId, ""⟩

/-- `none` where another job holds the source in the partial unique index. -/
def createResummarizeJob (env : Env) (createdBy : Option String) (groupId : Option ℕ)
    (item : RefreshItem) (st : St) : Option ℕ × St :=
  let id := st.db.nextJob
  let st := { st with db := { st.db with nextJob := id + 1 } }
  let (g, st) :=
    match groupId with
    | some g => (g, st)
    | none => attachSingleGroup id item.sourceId createdBy st
  let job := resummarizeJob env id g item
  if st.db.conflicts job then (none, st)
  else (some id, { st with db := (st.db.put job).enqueue id })

def enqueueOne (env : Env) (createdBy : Option String) (groupId : Option ℕ)
    (x : RefreshPlan × St) (item : RefreshItem) : RefreshPlan × St :=
  let (plan, st) := x
  match createResummarizeJob env createdBy groupId item st with
  | (none, st) =>
    let blocking := (findActiveJobForSource st.db item.sourceId).map Job.id
    ({ plan with deferred := plan.deferred ++ [{ item with blockingJobId := blocking }] }, st)
  | (some id, st) =>
    ({ plan with enqueued := plan.enqueued ++ [{ item with jobId := some id }] }, st)

/-- Two or more jobs share a group. -/
def sharedGroup (createdBy : Option String) (jobs : ℕ) (st : St) : Option ℕ × St :=
  if 2 ≤ jobs then
    let (g, st) := createGroup "prompt refresh" "prompt-refresh" createdBy jobs st
    (some g, st)
  else (none, st)

def enqueueRefreshes (env : Env) (createdBy : Option String) (plan : RefreshPlan) (st : St) :
    RefreshPlan × St :=
  if plan.enqueued = [] then (plan, st)
  else
    let (groupId, st) := sharedGroup createdBy plan.enqueued.length st
    plan.enqueued.foldl (enqueueOne env createdBy groupId)
      ({ plan with enqueued := [], groupId := groupId }, st)

/-! ### One Bucket for Each Source -/

def RefreshPlan.ids (p : RefreshPlan) : List String := p.items.map RefreshItem.sourceId

/-- No queued or running job is of the source, as far as anybody looks. -/
def Free (db : Db) (sourceId : String) : Prop :=
  sourceId = "" ∨ ∀ r ∈ db.jobs, r.status.active = true → r.sourceId ≠ sourceId

/-- The sources that are to be enqueued are free, and have no jobs yet. -/
def Ready (db : Db) (p : RefreshPlan) : Prop :=
  p.groupId = none ∧ ∀ i ∈ p.enqueued, Free db i.sourceId ∧ i.jobId = none

section Plan
variable {env : Env} {st : St} {db : Db}

lemma findActiveJobForSource_eq_none {sid : String} :
    findActiveJobForSource db sid = none ↔ Free db sid := by
  unfold findActiveJobForSource Free
  by_cases hs : sid = ""
  · simp [hs]
  · simp only [hs, if_false, false_or, Db.activeRow]
    rw [List.head?_eq_none_iff, ← List.length_eq_zero_iff, List.length_insertionSort,
      List.length_eq_zero_iff, List.filter_eq_nil_iff]
    simp

lemma place_spec (reason : Option String) {p : RefreshPlan} (h : Ready db p)
    (x : SourceRecord × ℕ) :
    Ready db (place reason db p x) ∧ (place reason db p x).ids.Perm (p.ids ++ [x.1.id]) := by
  unfold place
  cases reason with
  | some reason =>
    refine ⟨h, ?_⟩
    simp [RefreshPlan.ids, RefreshPlan.items, itemOf]
  | none =>
    cases ha : findActiveJobForSource db x.1.id with
    | some active =>
      refine ⟨h, ?_⟩
      simp only [RefreshPlan.ids, RefreshPlan.items, List.map_append, List.append_assoc]
      exact (List.perm_append_comm).append_left _ |>.append_left _
    | none =>
      refine ⟨⟨h.1, fun i hi => ?_⟩, ?_⟩
      · rcases List.mem_append.mp hi with hi | hi
        · exact h.2 i hi
        · rw [List.mem_singleton.mp hi]
          exact ⟨findActiveJobForSource_eq_none.mp ha, rfl⟩
      · simp only [RefreshPlan.ids, RefreshPlan.items, List.map_append, List.append_assoc]
        refine List.Perm.append_left _ ?_
        rw [← List.append_assoc _ _ [x.1.id]]
        exact List.perm_append_comm

lemma foldl_place_spec {reason : Option String} (stale : List (SourceRecord × ℕ))
    {p : RefreshPlan} (h : Ready db p) :
    Ready db (stale.foldl (place reason db) p) ∧
      (stale.foldl (place reason db) p).ids.Perm (p.ids ++ stale.map fun x => x.1.id) := by
  induction stale generalizing p with
  | nil => exact ⟨h, by simp⟩
  | cons x stale ih =>
    obtain ⟨hr, hp⟩ := place_spec reason h x
    obtain ⟨hr', hp'⟩ := ih hr
    refine ⟨hr', hp'.trans ?_⟩
    rw [List.map_cons, List.append_cons]
    exact hp.append_right _

/-- **Each stale source is in one bucket** of a plan. -/
lemma planRefreshes_spec {sources : List SourceRecord} {targetFor : String → Option ℕ}
    {p : RefreshPlan} (h : (planRefreshes env sources targetFor st).1 = some p) :
    Ready st.db p ∧ p.ids.Perm ((stalePairs sources targetFor).map fun x => x.1.id) := by
  have hnone : Ready st.db noPlan := ⟨rfl, by simp [noPlan]⟩
  unfold planRefreshes at h
  dsimp only at h
  split at h
  · rename_i hs
    cases h
    rw [hs]
    exact ⟨hnone, .nil⟩
  · obtain ⟨gate, -, rfl⟩ := Option.map_eq_some_iff.mp h
    exact foldl_place_spec _ hnone

lemma stalePairs_const (sources : List SourceRecord) (version : ℕ) :
    stalePairs sources (fun _ => some version) =
      (sources.filter fun s => isStale s.summaryPromptVersion s.summaryRefreshTarget version).map
        fun s => (s, version) := by
  induction sources with
  | nil => rfl
  | cons s sources ih =>
    unfold stalePairs at ih ⊢
    rw [List.filterMap_cons, List.filter_cons, ih]
    cases hs : isStale s.summaryPromptVersion s.summaryRefreshTarget version <;> simp [hs]

/-- Planning touches what the gate touches. -/
lemma planRefreshes_snd (sources : List SourceRecord) (targetFor : String → Option ℕ) :
    (planRefreshes env sources targetFor st).2 =
      if stalePairs sources targetFor = [] then st
      else st.asked (requireWritable env.configured env.check st.index st.status) := by
  unfold planRefreshes
  dsimp only
  split <;> rfl

lemma planRefreshes_fst_eq_none {sources : List SourceRecord} {targetFor : String → Option ℕ} :
    (planRefreshes env sources targetFor st).1 = none ↔
      stalePairs sources targetFor ≠ [] ∧
        (requireWritable env.configured env.check st.index st.status).answer = none := by
  unfold planRefreshes
  dsimp only
  split <;> rename_i h <;> simp [h]

/-- Planning again plans the same, where the gate left the stores alone. -/
lemma planRefreshes_again {sources : List SourceRecord} {targetFor : String → Option ℕ}
    (h : (requireWritable env.configured env.check st.index st.status).index = st.index) :
    (planRefreshes env sources targetFor
        (st.asked (requireWritable env.configured env.check st.index st.status))).1 =
      (planRefreshes env sources targetFor st).1 := by
  have hagain : requireWritable env.configured env.check
      (st.asked (requireWritable env.configured env.check st.index st.status)).index
      (st.asked (requireWritable env.configured env.check st.index st.status)).status =
      requireWritable env.configured env.check st.index st.status := by
    dsimp only [St.asked]
    rw [h]
    exact requireWritable_again h
  unfold planRefreshes
  rw [hagain]
  dsimp only
  split <;> rfl

end Plan

/-! ### What Becomes of a Plan -/

def RefreshItem.unmade (i : RefreshItem) : RefreshItem := { i with jobId := none }

/-- A plan without the jobs that were made of it. -/
def RefreshPlan.bare (p : RefreshPlan) : RefreshPlan :=
  { p with enqueued := p.enqueued.map RefreshItem.unmade, groupId := none }

lemma totalChunks_bare (p : RefreshPlan) : p.bare.totalChunks = p.totalChunks := by
  have hmap : RefreshItem.chunkCount ∘ RefreshItem.unmade = RefreshItem.chunkCount := rfl
  simp [RefreshPlan.totalChunks, RefreshPlan.items, RefreshPlan.bare, hmap]

section Enqueue
variable (env : Env) (createdBy : Option String) {st : St}

lemma Ready.bare {db : Db} {p : RefreshPlan} (h : Ready db p) : p.bare = p := by
  have hmap : p.enqueued.map RefreshItem.unmade = p.enqueued := by
    conv_rhs => rw [← List.map_id p.enqueued]
    refine List.map_congr_left fun i hi => ?_
    simp [RefreshItem.unmade, ← (h.2 i hi).2]
  rw [RefreshPlan.bare, hmap, ← h.1]

lemma Free.put {db : Db} {sid : String} {j : Job} (h : Free db sid) (hj : j.sourceId ≠ sid) :
    Free (db.put j) sid := by
  refine h.imp_right fun h r hr ha => ?_
  rcases Keyed.mem_put.mp hr with rfl | ⟨hr, -⟩
  · exact hj
  · exact h r hr ha

lemma not_conflicts {db : Db} {j : Job} (h : Free db j.sourceId) : db.conflicts j = false := by
  rcases h with h | h
  · simp [Db.conflicts, h]
  · have hany : (db.jobs.rows.any fun r =>
        r.id ≠ j.id && r.status.active && r.sourceId = j.sourceId) = false := by
      rw [List.any_eq_false]
      intro r hr
      have := h r hr
      simp only [Bool.and_eq_true, decide_eq_true_eq, not_and]
      exact fun hx => this hx.2
    rw [Db.conflicts, hany, Bool.and_false]

/-- **A free source gets its job**, and the other sources stay free. -/
lemma createResummarizeJob_spec (groupId : Option ℕ) {item : RefreshItem}
    (h : Free st.db item.sourceId) :
    ∃ id st', createResummarizeJob env createdBy groupId item st = (some id, st') ∧
      ∀ sid ≠ item.sourceId, Free st.db sid → Free st'.db sid := by
  unfold createResummarizeJob
  cases groupId with
  | some g =>
    dsimp only
    rw [if_neg (by rw [not_conflicts h]; simp)]
    exact ⟨_, _, rfl, fun sid hne hf => Free.put hf hne.symm⟩
  | none =>
    dsimp only [attachSingleGroup, createGroup]
    rw [if_neg (by rw [not_conflicts h]; simp)]
    exact ⟨_, _, rfl, fun sid hne hf => Free.put hf hne.symm⟩

lemma foldl_enqueueOne (groupId : Option ℕ) (items : List RefreshItem) {plan : RefreshPlan}
    (hfree : ∀ i ∈ items, Free st.db i.sourceId ∧ i.jobId = none)
    (hnd : (items.map RefreshItem.sourceId).Nodup) :
    ∃ made, (items.foldl (enqueueOne env createdBy groupId) (plan, st)).1 =
        { plan with enqueued := plan.enqueued ++ made } ∧
      made.map RefreshItem.unmade = items := by
  induction items generalizing plan st with
  | nil => exact ⟨[], by simp, rfl⟩
  | cons i items ih =>
    obtain ⟨hi, hfree⟩ := List.forall_mem_cons.mp hfree
    obtain ⟨hni, hnd⟩ := List.nodup_cons.mp hnd
    obtain ⟨id, st', hc, hkeep⟩ := createResummarizeJob_spec env createdBy groupId hi.1
    have hstep : enqueueOne env createdBy groupId (plan, st) i =
        ({ plan with enqueued := plan.enqueued ++ [{ i with jobId := some id }] }, st') := by
      simp only [enqueueOne, hc]
    rw [List.foldl_cons, hstep]
    have hrest : ∀ k ∈ items, Free st'.db k.sourceId ∧ k.jobId = none := fun k hk =>
      ⟨hkeep _ (fun e => hni (e ▸ List.mem_map_of_mem hk)) (hfree k hk).1, (hfree k hk).2⟩
    obtain ⟨made, hmade, hbare⟩ := ih hrest hnd
    refine ⟨{ i with jobId := some id } :: made, ?_, ?_⟩
    · rw [hmade, List.append_assoc, List.singleton_append]
    · rw [List.map_cons, hbare]
      simp [RefreshItem.unmade, ← hi.2]

lemma free_sharedGroup {jobs : ℕ} {sid : String} :
    Free (sharedGroup createdBy jobs st).2.db sid ↔ Free st.db sid := by
  unfold sharedGroup
  split <;> rfl

/-- **Every job of a plan is made**: what becomes of the plan is the plan, with their ids. -/
lemma enqueueRefreshes_bare {plan : RefreshPlan} (h : Ready st.db plan) (hnd : plan.ids.Nodup) :
    (enqueueRefreshes env createdBy plan st).1.bare = plan := by
  unfold enqueueRefreshes
  split
  · exact h.bare
  · have hids : (plan.enqueued.map RefreshItem.sourceId).Nodup := by
      refine List.Nodup.sublist ?_ hnd
      rw [RefreshPlan.ids, RefreshPlan.items, List.append_assoc, List.map_append]
      exact List.sublist_append_left _ _
    dsimp only
    have hfree : ∀ i ∈ plan.enqueued,
        Free (sharedGroup createdBy plan.enqueued.length st).2.db i.sourceId ∧ i.jobId = none :=
      fun i hi => ⟨(free_sharedGroup createdBy).mpr (h.2 i hi).1, (h.2 i hi).2⟩
    obtain ⟨made, hmade, hbare⟩ := foldl_enqueueOne env createdBy
      (sharedGroup createdBy plan.enqueued.length st).1 plan.enqueued hfree hids
    rw [hmade, RefreshPlan.bare, List.nil_append, hbare, ← h.1]

end Enqueue

end Treeweft.PlannedRefresh
