import Treeweft.Dispatch

/-!
The owner of a source: who asked for its first index, in the `created_by` of its registry record.

The request sets it on the job in memory. The row has no such field, so a worker finishes the job
without it, and the record it saves takes the place of the one before.
-/

namespace Treeweft.Ownership

open Treeweft.Jobs Treeweft.SourceId Treeweft.Dispatch

abbrev Registry := Keyed SourceRecord.id
abbrev JobTable := Keyed fun j : JobRow => j.id

/-- The two tables, and the jobs in the memory of workers. -/
structure State where
  registry : Registry
  jobs : JobTable
  running : List JobDict

/-- How a run ended: it raised or every file failed, or there is an index. -/
inductive Outcome
  | failed (error : String)
  | indexed (branch commitSha : String)
  deriving DecidableEq, Repr

def Outcome.status : Outcome → JobStatus
  | failed _ => .failed
  | indexed _ _ => .done

/-- What a runner has set on the job; a repository's branch is the one it found checked out. -/
def ran (job : JobDict) : Outcome → JobDict
  | .failed error => { job with status := .failed, error := error }
  | .indexed branch _ =>
    { job with
      status := .done
      sourceBranch := if job.kind = .repo then branch else job.sourceBranch }

/-- `_finalize_job`, after the status. -/
def finalizeJob (job : JobDict) (commitSha : String) (registry : Registry) : Registry :=
  let existing := if job.kind ∈ indexKinds then none else registry.get? job.sourceId
  let kind := if job.kind ∈ indexKinds then some job.kind
    else existing.elim (some .repo) SourceRecord.kind
  let record : SourceRecord :=
    ⟨job.sourceId, job.sourcePath, job.sourceUrl, job.sourceBranch, kind, commitSha,
      job.createdBy⟩
  -- the chunk pass owns a record that is there
  if job.kind = .graph ∧ existing.isSome then registry else registry.put record

/-- The end of a runner: an incremental job and a refresh have one of their own. -/
def finishRun (job : JobDict) (outcome : Outcome) (registry : Registry) : Registry :=
  match outcome with
  | .failed _ => registry
  | .indexed _ commitSha =>
    if job.kind = .incremental ∨ job.kind = .resummarize then registry
    else finalizeJob (ran job outcome) commitSha registry

inductive Action
  | submit (n : Fresh) (t : Trigger)
  /-- A queued job again, by hand or by the queue. -/
  | retry (id : ℕ)
  | start (id : ℕ)
  | finish (k : ℕ) (outcome : Outcome)
  /-- Every process stops. -/
  | stop
  | backfill (resolve : String → Provenance) (force : Bool)
  | deleteSource (sid : String)

lemma backfill_id (resolve : String → Provenance) (force : Bool) (record : SourceRecord) :
    (backfill resolve force record).id = record.id := by
  unfold backfill
  cases planSource resolve force record <;> rfl

lemma backfill_createdBy (resolve : String → Provenance) (force : Bool) (record : SourceRecord) :
    (backfill resolve force record).createdBy = record.createdBy := by
  unfold backfill
  cases planSource resolve force record <;> rfl

/-- Any worker may claim any active row, and workers finish in any order. -/
def step (fs : FileSystem) (st : State) : Action → State
  | .submit n t => { st with jobs := st.jobs.put (t.job fs n).fromDict }
  | .retry id =>
    match st.jobs.get? id with
    | none => st
    | some job => { st with jobs := st.jobs.put { job.toDict with status := .queued, error := "" }.fromDict }
  | .start id =>
    match st.jobs.get? id with
    | none => st
    | some job =>
      if job.status.active = true ∧ (dispatchJob fs job).isSome then
        { st with running := st.running ++ [job.toDict] }
      else st
  | .finish k outcome =>
    match st.running[k]? with
    | none => st
    | some job =>
      ⟨finishRun job outcome st.registry, st.jobs.put (ran job outcome).fromDict,
        st.running.eraseIdx k⟩
  | .stop => { st with running := [] }
  | .backfill resolve force =>
    { st with registry := st.registry.map (backfill resolve force) (backfill_id resolve force) }
  | .deleteSource sid => { st with registry := st.registry.erase sid }

def exec (fs : FileSystem) (st : State) (actions : List Action) : State :=
  actions.foldl (step fs) st

@[simp] lemma exec_nil (fs : FileSystem) (st : State) : exec fs st [] = st := rfl

@[simp] lemma exec_cons (fs : FileSystem) (st : State) (a : Action) (actions : List Action) :
    exec fs st (a :: actions) = exec fs (step fs st a) actions := rfl

/-- No worker has a job yet. -/
def initial (registry : Registry) (jobs : JobTable) : State := ⟨registry, jobs, []⟩

def Reachable (fs : FileSystem) (st : State) : Prop :=
  ∃ registry jobs actions, st = exec fs (initial registry jobs) actions

/-! ### Jobs in memory come from rows -/

/-- No job that a worker has knows who asked for it. -/
def Rebuilt (st : State) : Prop := ∀ job ∈ st.running, job.createdBy = none

/-- A worker gets its job from a row. -/
lemma mem_running_step {fs : FileSystem} {st : State} {a : Action} {jd : JobDict}
    (h : jd ∈ (step fs st a).running) : jd ∈ st.running ∨ ∃ row : JobRow, jd = row.toDict := by
  cases a with
  | submit n t => exact .inl h
  | retry id =>
    simp only [step] at h
    split at h <;> exact .inl h
  | start id =>
    simp only [step] at h
    split at h
    · exact .inl h
    · split at h
      · rcases List.mem_append.1 h with h | h
        · exact .inl h
        · exact .inr ⟨_, List.mem_singleton.1 h⟩
      · exact .inl h
  | finish k outcome =>
    simp only [step] at h
    split at h
    · exact .inl h
    · exact .inl (List.mem_of_mem_eraseIdx h)
  | stop => exact absurd h List.not_mem_nil
  | backfill resolve force => exact .inl h
  | deleteSource sid => exact .inl h

lemma rebuilt_step {fs : FileSystem} {st : State} (h : Rebuilt st) (a : Action) :
    Rebuilt (step fs st a) := by
  intro jd hjd
  rcases mem_running_step hjd with hjd | ⟨row, rfl⟩
  · exact h jd hjd
  · rfl

lemma rebuilt_exec {fs : FileSystem} {st : State} (h : Rebuilt st) (actions : List Action) :
    Rebuilt (exec fs st actions) := by
  induction actions generalizing st with
  | nil => exact h
  | cons a actions ih => exact ih (rebuilt_step h a)

lemma rebuilt_of_reachable {fs : FileSystem} {st : State} (h : Reachable fs st) : Rebuilt st := by
  obtain ⟨registry, jobs, actions, rfl⟩ := h
  exact rebuilt_exec (fun jd hjd => absurd hjd List.not_mem_nil) actions

/-! ### The owner -/

/-- A record of the source, if there is one, says that it is this user's. -/
def Owned (u sid : String) (st : State) : Prop :=
  ∀ record, st.registry.get? sid = some record → record.createdBy = some u

/-- The run of a job saves a record of its source. -/
def Job.saves (job : JobDict) (registry : Registry) : Prop :=
  job.kind ∈ indexKinds ∨ (job.kind = .graph ∧ registry.get? job.sourceId = none)

/-- A worker has indexed the source, and saves its record. -/
def Saves (sid : String) (st : State) : Action → Prop
  | .finish k outcome => outcome.status = .done ∧
      ∃ job, st.running[k]? = some job ∧ job.sourceId = sid ∧ Job.saves job st.registry
  | _ => False

/-- What `_finalize_job` leaves in the registry when it saves. -/
lemma get?_finalizeJob (job : JobDict) {sha sid : String} {registry : Registry}
    (hsaves : Job.saves job registry) :
    ∃ record : SourceRecord, record.createdBy = job.createdBy ∧
      (finalizeJob job sha registry).get? sid =
        if sid = job.sourceId then some record else registry.get? sid := by
  refine ⟨⟨job.sourceId, job.sourcePath, job.sourceUrl, job.sourceBranch,
    some (if job.kind ∈ indexKinds then job.kind else .repo), sha, job.createdBy⟩, rfl, ?_⟩
  unfold finalizeJob
  rcases hsaves with hk | ⟨hk, hnone⟩
  · have hgraph : job.kind ≠ .graph := by
      intro h
      rw [h] at hk
      simp [indexKinds] at hk
    simp [hk, hgraph, Keyed.get?_put]
  · simp [hk, indexKinds, hnone, Keyed.get?_put]

lemma finishRun_of_not_saves {job : JobDict} {outcome : Outcome} {registry : Registry}
    (h : ¬(outcome.status = .done ∧ Job.saves job registry)) :
    finishRun job outcome registry = registry := by
  cases outcome with
  | failed error => rfl
  | indexed branch sha =>
    have hnot : ¬Job.saves job registry := fun hs => h ⟨rfl, hs⟩
    unfold Job.saves indexKinds at hnot
    unfold finishRun finalizeJob ran
    cases hk : job.kind <;> simp_all [indexKinds, Option.isSome_iff_ne_none]

/-- What a run leaves in the registry when it saves. -/
lemma get?_finishRun {job : JobDict} {outcome : Outcome} (sid : String) {registry : Registry}
    (hdone : outcome.status = .done) (hsaves : Job.saves job registry) :
    ∃ record : SourceRecord, record.createdBy = job.createdBy ∧
      (finishRun job outcome registry).get? sid =
        if sid = job.sourceId then some record else registry.get? sid := by
  have hother : ¬(job.kind = .incremental ∨ job.kind = .resummarize) := by
    rcases hsaves with hk | ⟨hk, -⟩
    · revert hk
      cases job.kind <;> simp [indexKinds]
    · simp [hk]
  cases outcome with
  | failed error => cases hdone
  | indexed branch sha =>
    simp only [finishRun, if_neg hother]
    exact get?_finalizeJob (ran job (.indexed branch sha)) hsaves

/-- The registry changes when a run ends, when provenance is filled in, and when a source goes. -/
lemma registry_step (fs : FileSystem) (st : State) (a : Action) :
    (step fs st a).registry = st.registry ∧ (∀ k outcome, a ≠ .finish k outcome) ∨
    (∃ k outcome, a = .finish k outcome ∧ st.running[k]? = none ∧
      (step fs st a).registry = st.registry) ∨
    (∃ k outcome job, a = .finish k outcome ∧ st.running[k]? = some job ∧
      (step fs st a).registry = finishRun job outcome st.registry) ∨
    (∃ resolve force, a = .backfill resolve force ∧ (step fs st a).registry =
      st.registry.map (backfill resolve force) (backfill_id resolve force)) ∨
    ∃ sid, a = .deleteSource sid ∧ (step fs st a).registry = st.registry.erase sid := by
  cases a with
  | submit n t => exact .inl ⟨rfl, fun _ _ h => by cases h⟩
  | retry id =>
    refine .inl ⟨?_, fun _ _ h => by cases h⟩
    simp only [step]
    split <;> rfl
  | start id =>
    refine .inl ⟨?_, fun _ _ h => by cases h⟩
    simp only [step]
    split
    · rfl
    · split <;> rfl
  | finish k outcome =>
    refine .inr ?_
    simp only [step]
    cases hk : st.running[k]? with
    | none => exact .inl ⟨k, outcome, rfl, hk, rfl⟩
    | some job => exact .inr (.inl ⟨k, outcome, job, rfl, hk, rfl⟩)
  | stop => exact .inl ⟨rfl, fun _ _ h => by cases h⟩
  | backfill resolve force => exact .inr (.inr (.inr (.inl ⟨resolve, force, rfl, rfl⟩)))
  | deleteSource sid => exact .inr (.inr (.inr (.inr ⟨sid, rfl, rfl⟩)))

/-- The end of a run takes the owner away exactly when it saves the record. -/
lemma owned_finishRun_iff {u sid : String} {job : JobDict} {outcome : Outcome}
    {registry : Registry} (hjob : job.createdBy = none)
    (ho : ∀ record, registry.get? sid = some record → record.createdBy = some u) :
    (∀ record, (finishRun job outcome registry).get? sid = some record →
      record.createdBy = some u) ↔
      ¬(outcome.status = .done ∧ job.sourceId = sid ∧ Job.saves job registry) := by
  by_cases hs : outcome.status = .done ∧ Job.saves job registry
  · obtain ⟨record, hcreated, hget⟩ := get?_finishRun sid hs.1 hs.2
    by_cases hsid : sid = job.sourceId
    · refine iff_of_false ?_ (not_not.2 ⟨hs.1, hsid.symm, hs.2⟩)
      intro howned
      have hnull := howned record (hget.trans (if_pos hsid))
      rw [hcreated, hjob] at hnull
      cases hnull
    · rw [hget, if_neg hsid]
      exact iff_of_true ho fun h => hsid h.2.1.symm
  · rw [finishRun_of_not_saves hs]
    exact iff_of_true ho fun h => hs ⟨h.1, h.2.2⟩

/-- One step takes the owner away exactly when it saves the record. -/
lemma owned_step_iff (fs : FileSystem) {u sid : String} {st : State} (hr : Rebuilt st)
    (ho : Owned u sid st) (a : Action) : Owned u sid (step fs st a) ↔ ¬Saves sid st a := by
  unfold Owned
  rcases registry_step fs st a with ⟨hreg, ha⟩ | ⟨k, outcome, rfl, hk, hreg⟩ |
    ⟨k, outcome, job, rfl, hk, hreg⟩ | ⟨resolve, force, rfl, hreg⟩ | ⟨sid', rfl, hreg⟩
  · rw [hreg]
    refine iff_of_true ho ?_
    cases a with
    | finish k outcome => exact absurd rfl (ha k outcome)
    | _ => exact id
  · rw [hreg]
    refine iff_of_true ho ?_
    rintro ⟨-, job, hjob, -⟩
    rw [hk] at hjob
    cases hjob
  · rw [hreg]
    have hnull : job.createdBy = none := hr job (List.mem_of_getElem? hk)
    refine (owned_finishRun_iff hnull ho).trans (not_congr ?_)
    constructor
    · rintro ⟨hdone, hsid, hsaves⟩
      exact ⟨hdone, job, hk, hsid, hsaves⟩
    · rintro ⟨hdone, j, hj, hsid, hsaves⟩
      obtain rfl := Option.some.inj (hk.symm.trans hj)
      exact ⟨hdone, hsid, hsaves⟩
  · rw [hreg]
    refine iff_of_true ?_ id
    intro record hrec
    rw [Keyed.get?_map] at hrec
    obtain ⟨old, hold, rfl⟩ := Option.map_eq_some_iff.1 hrec
    rw [backfill_createdBy]
    exact ho old hold
  · rw [hreg]
    refine iff_of_true ?_ id
    intro record hrec
    rw [Keyed.get?_erase] at hrec
    split at hrec
    · cases hrec
    · exact ho record hrec

/-- **A source keeps its owner** through a run exactly as long as no worker finishes an index of
it: a file, a directory or a repository, or a graph whose record was deleted meanwhile. -/
theorem owner_kept_iff (fs : FileSystem) (u sid : String) (st : State) (hst : Reachable fs st)
    (ho : Owned u sid st) (run : List Action) :
    (∀ before, before <+: run → Owned u sid (exec fs st before)) ↔
      ∀ before a, before ++ [a] <+: run → ¬Saves sid (exec fs st before) a := by
  have hr := rebuilt_of_reachable hst
  clear hst
  -- the run from its first action on, both invariants carried along
  induction run generalizing st with
  | nil => simpa using ho
  | cons a run ih =>
    have hstep := owned_step_iff fs hr ho a
    constructor
    · intro howned before b hbefore
      cases before with
      | nil =>
        obtain rfl : b = a := by simpa using (List.cons_prefix_cons.1 hbefore).1
        exact hstep.1 (howned [b] (by simp))
      | cons c before =>
        rw [List.cons_append] at hbefore
        obtain ⟨rfl, hrest⟩ := List.cons_prefix_cons.1 hbefore
        have ho' := howned [c] (by simp)
        exact (ih (step fs st c) ho' (rebuilt_step hr c)).1
          (fun pre hpre => howned (c :: pre) (List.cons_prefix_cons.2 ⟨rfl, hpre⟩)) before b hrest
    · intro hsaves before hbefore
      have hfirst : ¬Saves sid st a := hsaves [] a (by simp)
      cases before with
      | nil => exact ho
      | cons c before =>
        obtain ⟨rfl, hrest⟩ := List.cons_prefix_cons.1 hbefore
        exact (ih (step fs st c) (hstep.2 hfirst) (rebuilt_step hr c)).2
          (fun pre b hpre => hsaves (c :: pre) b (List.cons_prefix_cons.2 ⟨rfl, hpre⟩)) before hrest

/-! ### A directory that is indexed once -/

/-- A user asks for the first index of a path or a repository. -/
def Creates (fs : FileSystem) (u : String) (n : Fresh) (t : Trigger) (st : State) : Prop :=
  n.caller = some u ∧ st.registry.get? (t.job fs n).sourceId = none ∧
    match t with
    | .indexDirectory _ _ => True
    | .indexRepo _ _ _ _ => True
    | _ => False

def alices : Registry := ⟨[{ indexedDirectory with createdBy := some "alice" }], by simp⟩

/-- Filling in the provenance of a source leaves it to its owner. -/
theorem owner_kept_by_backfill :
    Owned "alice" indexedDirectory.id (exec oneDirectory (initial alices Keyed.empty)
      [.backfill (fun _ => ⟨"c0ffee", "https://github.com/o/r", "main"⟩) false]) := by
  refine (owner_kept_iff oneDirectory "alice" indexedDirectory.id (initial alices Keyed.empty)
    ⟨alices, Keyed.empty, [], rfl⟩ ?_ _).2 ?_ _ (List.prefix_refl _)
  · intro record hrec
    have hmem : record ∈ alices.rows := Keyed.mem_of_get? hrec
    rw [List.mem_singleton.1 hmem]
  · intro before a hbefore
    obtain ⟨rest, hrest⟩ := hbefore
    cases before with
    | nil =>
      obtain ⟨rfl, -⟩ := List.cons_eq_cons.1 hrest
      exact id
    | cons b before => simp at hrest

/-- Alice's directory is indexed, and its record is nobody's. -/
theorem first_index_is_nobodys : ¬∀ (fs : FileSystem) (u : String) (n : Fresh) (t : Trigger)
    (st : State) (run : List Action), Reachable fs st → Creates fs u n t st →
    ∀ before, before <+: .submit n t :: run →
      Owned u (t.job fs n).sourceId (exec fs st before) := by
  intro hclaim
  let n : Fresh := ⟨1, 0, none, some "alice"⟩
  let t : Trigger := .indexDirectory "/repo" noOptions
  let done := exec oneDirectory (initial Keyed.empty Keyed.empty)
    [.submit n t, .start 1, .finish 0 (.indexed "" "c0ffee")]
  have howned : Owned "alice" (t.job oneDirectory n).sourceId done :=
    hclaim oneDirectory "alice" n t (initial Keyed.empty Keyed.empty)
      [.start 1, .finish 0 (.indexed "" "c0ffee")] ⟨Keyed.empty, Keyed.empty, [], rfl⟩
      ⟨rfl, rfl, trivial⟩ _ (List.prefix_refl _)
  have hget : (done.registry.get? (t.job oneDirectory n).sourceId).map SourceRecord.createdBy =
      some none := by
    decide +kernel
  obtain ⟨record, hrec, hnull⟩ := Option.map_eq_some_iff.1 hget
  have hsome := howned record hrec
  rw [hnull] at hsome
  cases hsome

end Treeweft.Ownership
