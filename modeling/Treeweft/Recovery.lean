import Treeweft.Alone
import Treeweft.Service

/-!
What startup recovery makes of the jobs that a process left when it died.

A queued or running job goes back to the queue, unless its row does not say what to run, or some
job of its source is done. Which work that one did, and when, is not looked at.
-/

namespace Treeweft.Recovery

open Treeweft.Jobs Treeweft.JobStore Treeweft.Runners Treeweft.PromptRefresh Treeweft.Service
open Treeweft.Machine

/-- The files that are there while recovery runs. -/
def Told (present : String → Prop) (o : Op) (env : ℕ) : Prop :=
  ∀ path, o = .ask (.pathExists path) → (env = 0 ↔ present path)

/-- The payload of the job is one that can be run. -/
def Valid (present : String → Prop) (j : Job) : Prop :=
  match j.kind with
  | .file => targetPath j ≠ "" ∧ present (targetPath j)
  | .directory => targetPath j ≠ "" ∧ present (targetPath j)
  | .repo => ¬(j.sourcePath = "" ∧ j.sourceUrl = "")
  | .graph => j.sourceId ≠ ""
  | .incremental => ¬(j.payload.changedFiles = [] ∨ j.sourceUrl = "" ∨ j.sourceId = "")
  | .resummarize => j.sourceId ≠ ""

/-- The work of `k` includes that of `j`, a job of the same source. -/
def Includes (k j : Job) : Prop :=
  match k.kind with
  | .file => j.kind ≠ .resummarize
  | .directory => j.kind ≠ .resummarize
  | .repo => j.kind ≠ .resummarize
  | .graph => j.kind = .graph
  | .incremental => j.kind = .incremental ∧
      ∀ c ∈ j.payload.changedFiles, ∃ d ∈ k.payload.changedFiles, d.path = c.path
  | .resummarize => j.kind = .resummarize

/-- A job that started after `j` is done, and with it the work of `j`. -/
def Covered (db : Db) (j : Job) : Prop :=
  ∃ k ∈ db.jobs, k.status = .done ∧ k.sourceId = j.sourceId ∧ j.startTime < k.startTime ∧
    Includes k j

/-- A worker that claims the job will run it. -/
def Claimable (db : Db) (i : ℕ) : Prop :=
  i ∈ db.queue ∧ ∃ k, db.row i = some k ∧ k.status.terminal = false

/-- The job is still there to be claimed or its work is done, and it is closed only if its work
is done. -/
structure Recovers (db db' : Db) (j : Job) : Prop where
  kept : Claimable db' j.id ∨ Covered db j
  closed : ∀ k, db'.row j.id = some k → k.status = .done → Covered db j

/-- Some job of the source is done. A refresh of summaries is run again all the same. -/
def Superseded (db : Db) (j : Job) : Prop :=
  j.sourceId ≠ "" ∧ (∃ k ∈ db.jobs, k.status = .done ∧ k.sourceId = j.sourceId) ∧
    j.kind ≠ .resummarize

abbrev Sys := State machine (.only fun _ => True)

/-- A process starts over the tables as they are. -/
def restarted (db : Db) (t : Tid) : Sys := ⟨db, Keyed.empty.put ⟨t, startup, ()⟩⟩

/-! ### One operation -/

section Ops
variable {db db' : Db} {t : Tid} {env i : ℕ} {o : Op} {r : o.Answer}

/-- The row is as it was, and the job is in the queue if it was. -/
def Apart (i : ℕ) (db db' : Db) : Prop := db'.row i = db.row i ∧ (i ∈ db.queue → i ∈ db'.queue)

/-- The job as recovery left it, whatever the promotions after it. -/
def Left (i : ℕ) (st : JobStatus) (queued : Prop) (db : Db) : Prop :=
  ∃ k, db.row i = some k ∧ k.status = st ∧ (queued → i ∈ db.queue)

/-- What recovery does for the jobs that wait. -/
def WaitingOp : Op → Prop
  | .get _ => True
  | o => PromoteOp o

lemma left_setAfter {st : JobStatus} {queued : Prop} (ids : List ℕ) (target : ℕ)
    (h : Left i st queued db) : Left i st queued (db.setAfter ids target) := by
  obtain ⟨k, hk, hst, hq⟩ := h
  rw [Left, row_setAfter, hk]
  split
  · exact ⟨k.behind target, rfl, hst, hq⟩
  · exact ⟨k, rfl, hst, hq⟩

lemma left_of_waitingOp {st : JobStatus} {queued : Prop} (hw : st ≠ .waiting) (ho : WaitingOp o)
    (he : exec db t env o = some (r, db')) (h : Left i st queued db) : Left i st queued db' := by
  cases o with
  | get k =>
    cases he
    exact h
  | activeRow s =>
    cases he
    exact h
  | lockWaiting k =>
    obtain ⟨-, -, rfl⟩ := exec_lockWaiting he
    exact h
  | relink ids target =>
    cases he
    exact left_setAfter ids target h
  | promote n first rest =>
    rcases exec_promote he with ⟨-, -, rfl⟩ | ⟨j, hj, hjw, ⟨-, -, rfl⟩ | ⟨-, -, rfl⟩⟩
    · exact h
    · exact h
    · obtain ⟨k, hk, hst, hq⟩ := h
      have hne : i ≠ first := by
        rintro rfl
        rw [hj] at hk
        cases hk
        exact hw (hst.symm.trans hjw)
      have hrow : Left i st queued (db.modify first Job.promoted Job.promoted_id) :=
        ⟨k, by rw [row_modify, if_neg hne, hk], hst, hq⟩
      obtain ⟨k', hk', hst', hq'⟩ := left_setAfter rest first hrow
      exact ⟨k', hk', hst', fun hx => mem_enqueue_of_mem (hq' hx)⟩
  | _ => exact ho.elim

end Ops

/-! ### The recovery -/

section Startup
variable {present : String → Prop} {t : Tid} {db : Db} {j : Job}
  {X : Exc → Db → Prop}

lemma mem_doneSourceIds {sid : String} :
    sid ∈ doneSourceIds (db.jobs.rows.filter fun r => r.status = .done) ↔
      sid ≠ "" ∧ ∃ k ∈ db.jobs, k.status = .done ∧ k.sourceId = sid := by
  simp only [doneSourceIds, List.mem_filter, List.mem_map, decide_eq_true_eq, Keyed.mem_rows]
  constructor
  · rintro ⟨⟨k, ⟨hk, hst⟩, hs⟩, hne⟩
    exact ⟨hne, k, hk, hst, hs⟩
  · rintro ⟨hne, k, hk, hst, hs⟩
    exact ⟨⟨k, ⟨hk, hst⟩, hs⟩, hne⟩

/-- Probing a job leaves the tables alone. -/
lemma wlp_probe {Q : Option (Act Unit) → Db → Prop} {st : Db} (hQ : ∀ x, Q x st) :
    wlp machine (Told present) t (dispatchJob j) Q X st := by
  have hpath : ∀ target p, wlp machine (Told present) t (dispatchPath target p) Q X st := by
    intro target p
    unfold dispatchPath
    split
    · exact hQ _
    · intro env r st' _ he
      cases he
      change wlp machine (Told present) t (if env = 0 then pure (some p) else pure none) Q X st
      split <;> exact hQ _
  unfold dispatchJob
  split
  · exact hpath _ _
  · exact hpath _ _
  all_goals split <;> exact hQ _

/-- A job with a valid payload has a runner. -/
lemma wlp_dispatchJob {Q : Option (Act Unit) → Db → Prop} {st : Db} (hv : Valid present j)
    (hQ : ∀ p, Q (some p) st) : wlp machine (Told present) t (dispatchJob j) Q X st := by
  have hpath : ∀ p, targetPath j ≠ "" ∧ present (targetPath j) →
      wlp machine (Told present) t (dispatchPath (targetPath j) p) Q X st := by
    intro p ⟨hne, hp⟩
    rw [dispatchPath, if_neg hne]
    intro env r st' hG he
    cases he
    have h0 : env = 0 := (hG _ rfl).2 hp
    change wlp machine (Told present) t (if env = 0 then pure (some p) else pure none) Q X st
    rw [if_pos h0]
    exact hQ p
  have hrow : ∀ (c : Prop) [Decidable c] (p : Act Unit), ¬c →
      wlp machine (Told present) t (if c then pure none else pure (some p)) Q X st := by
    intro c _ p hc
    rw [if_neg hc]
    exact hQ p
  unfold Valid at hv
  unfold dispatchJob
  cases hk : j.kind with
  | file => exact hpath _ (by rwa [hk] at hv)
  | directory => exact hpath _ (by rwa [hk] at hv)
  | repo => exact hrow _ _ (by rwa [hk] at hv)
  | graph => exact hrow _ _ (by rwa [hk, ne_eq] at hv)
  | incremental => exact hrow _ _ (by rwa [hk] at hv)
  | resummarize => exact hrow _ _ (by rwa [hk, ne_eq] at hv)

/-- The job has not been looked at. -/
def Untouched (db : Db) (j : Job) (st : Db) : Prop :=
  ∃ k, st.row j.id = some k ∧ (¬Superseded db j → k.status = j.status)

/-- The job has been looked at. -/
def Handled (db : Db) (j : Job) (st : Db) : Prop :=
  (Superseded db j → Left j.id .done False st) ∧ (¬Superseded db j → Left j.id j.status True st)

lemma Handled.untouched {st : Db} (h : Handled db j st) : Untouched db j st := by
  by_cases hs : Superseded db j
  · obtain ⟨k, hk, -⟩ := h.1 hs
    exact ⟨k, hk, fun hn => absurd hs hn⟩
  · obtain ⟨k, hk, hst, -⟩ := h.2 hs
    exact ⟨k, hk, fun _ => hst⟩

lemma Untouched.of_apart {st st' : Db} (ha : Apart j.id st st') (h : Untouched db j st) :
    Untouched db j st' := by
  obtain ⟨k, hk, hst⟩ := h
  exact ⟨k, ha.1.trans hk, hst⟩

lemma Handled.of_apart {st st' : Db} (ha : Apart j.id st st') (h : Handled db j st) :
    Handled db j st' := by
  refine ⟨fun hs => ?_, fun hs => ?_⟩
  · obtain ⟨k, hk, hst, hq⟩ := h.1 hs
    exact ⟨k, ha.1.trans hk, hst, fun hx => ha.2 (hq hx)⟩
  · obtain ⟨k, hk, hst, hq⟩ := h.2 hs
    exact ⟨k, ha.1.trans hk, hst, fun hx => ha.2 (hq hx)⟩

/-- The sources recovery takes for indexed. -/
abbrev doneSources (db : Db) : List String :=
  doneSourceIds (db.jobs.rows.filter fun r => r.status = .done)

lemma superseded_iff : (j.sourceId ≠ "" ∧ j.sourceId ∈ doneSources db ∧ j.kind ≠ .resummarize) ↔
    Superseded db j := by
  rw [doneSources, mem_doneSourceIds, Superseded]
  tauto

/-- A terminal status is stored; the unique index does not look at it. -/
lemma wlp_persist_terminal {k : Job} {Q : Unit → Db → Prop} {st : Db}
    (hk : k.status.terminal = true) (hQ : Q () (st.put k)) :
    wlp machine (Told present) t (persistJob k) Q X st := by
  have hc : st.conflicts k = false := not_conflicts (inactive_of_terminal hk)
  intro env r st' _ he
  have he : exec st t env (.upsert k) = some (r, st') := he
  rcases (exec_upsert he).2 with ⟨rfl, -, rfl⟩ | ⟨-, hc', -⟩
  · exact hQ
  · rw [hc] at hc'
    cases hc'

lemma apart_put {k : Job} {st : Db} {i : ℕ} (hne : k.id ≠ i) : Apart i st (st.put k) :=
  ⟨by rw [row_put, if_neg fun h => hne h.symm], id⟩

/-- The round of another job. -/
lemma wlp_recover_other {k : Job} (hne : k.id ≠ j.id) {I : Db → Prop}
    (hI : ∀ st st', Apart j.id st st' → I st → I st') {st : Db} (h : I st) :
    wlp machine (Told present) t (recoverJob (doneSources db) k) (fun _ => I) X st := by
  unfold recoverJob
  split
  · exact wlp_persist_terminal rfl (hI _ _ (apart_put hne) h)
  · rw [wlp_bind]
    refine wlp_probe fun runner => ?_
    split
    · exact wlp_persist_terminal rfl (hI _ _ (apart_put hne) h)
    · intro env r st' _ he
      cases he
      exact hI st _ ⟨rfl, fun hq => mem_enqueue_of_mem hq⟩ h

/-- The round of the job itself. -/
lemma wlp_recover_self (hv : Valid present j) {st : Db} (h : Untouched db j st) :
    wlp machine (Told present) t (recoverJob (doneSources db) j) (fun _ => Handled db j) X st := by
  unfold recoverJob
  split
  · rename_i hs
    have hs : Superseded db j := superseded_iff.1 hs
    refine wlp_persist_terminal rfl ⟨fun _ => ⟨st.upserted { j with status := .done }, ?_, rfl,
      False.elim⟩, fun hn => absurd hs hn⟩
    exact (row_put _ _).trans (if_pos rfl)
  · rename_i hs
    have hs : ¬Superseded db j := fun h => hs (superseded_iff.2 h)
    rw [wlp_bind]
    refine wlp_dispatchJob hv fun p env r st' _ he => ?_
    cases he
    obtain ⟨k, hk, hst⟩ := h
    exact ⟨fun hn => absurd hn hs, fun _ => ⟨k, hk, hst hs, fun _ => mem_enqueue_self⟩⟩

lemma uses_recoverWaiting (js : List Job) : ∀ checked, Uses WaitingOp (recoverWaiting checked js) := by
  induction js with
  | nil => exact fun _ => trivial
  | cons j js ih =>
    intro checked
    unfold recoverWaiting
    split
    · exact ih checked
    · rename_i after _
      split
      · exact ih checked
      · refine Uses.bind (Uses.bind ⟨trivial, fun _ => trivial⟩ fun ref => ?_) fun _ => ih _
        split
        · trivial
        · exact (uses_promoteWaitingAfter after).mono fun o ho => by cases o <;> first | exact ho | exact ho.elim

/-- **Recovery of one job**, up to and through the promotions at the end. -/
lemma wlp_startup (hj : j ∈ db.jobs) (ha : j.status.active = true) (hv : Valid present j) :
    wlp machine (Told present) t startup (fun _ => Handled db j) (fun _ => Handled db j) db := by
  intro env r st' _ he
  cases he
  intro env r st' _ he
  cases he
  intro env r st' _ he
  cases he
  have hmem : j ∈ (db.jobs.rows.filter fun r => r.status = .running) ++
      db.jobs.rows.filter fun r => r.status = .queued := by
    simp only [List.mem_append, List.mem_filter, decide_eq_true_eq]
    cases hst : j.status with
    | queued => exact .inr ⟨hj, rfl⟩
    | running => exact .inl ⟨hj, rfl⟩
    | _ =>
      rw [hst] at ha
      cases ha
  have hother : ∀ k ∈ (db.jobs.rows.filter fun r => r.status = .running) ++
      db.jobs.rows.filter (fun r => r.status = .queued), k ≠ j → k.id ≠ j.id := by
    intro k hk hne hid
    have hk : k ∈ db.jobs := by
      rcases List.mem_append.1 hk with hk | hk <;> exact (List.mem_filter.1 hk).1
    exact hne (Keyed.eq_of_key hk hj hid)
  have hnw : j.status ≠ .waiting := by
    intro hw
    rw [hw] at ha
    cases ha
  change wlp machine (Told present) t
    (Prog.forEach (_ ++ _) (recoverJob (doneSources db)) >>= fun _ =>
      listByStatus .waiting >>= recoverWaiting []) _ _ db
  rw [wlp_bind]
  refine wlp_mono (fun _ st h => ?_) (fun _ _ h => h) (wlp_forEach_mem
    (fun k hk hne st => wlp_recover_other (hother k hk hne) fun _ _ => Untouched.of_apart)
    (fun k hk hne st => wlp_recover_other (hother k hk hne) fun _ _ => Handled.of_apart)
    (fun st => wlp_recover_self hv) (fun _ => Handled.untouched) hmem
    ⟨j, Keyed.get?_of_mem hj, fun _ => rfl⟩)
  intro env r st' _ he
  cases he
  refine wlp_uses (uses_recoverWaiting _ []) (fun o ho env r st st' he h => ?_) h
  exact ⟨fun hs => left_of_waitingOp (by simp) ho he (h.1 hs),
    fun hs => left_of_waitingOp hnw ho he (h.2 hs)⟩

end Startup

/-! ### A refresh, and an update -/

/-- Steps of `t`, with every file there. -/
def lone (t : Tid) (_ : Sys) : Label machine → Bool
  | .run u env => u = t && env = 0
  | _ => false

lemma lone_iff {t : Tid} (s : Sys) (l : Label machine) (h : lone t s l = true) :
    Alone (Told fun _ => True) t s l := by
  cases l with
  | run u env =>
    simp only [lone, Bool.and_eq_true, decide_eq_true_eq] at h
    obtain ⟨rfl, rfl⟩ := h
    exact ⟨0, rfl, fun _ _ _ _ => iff_of_true rfl trivial⟩
  | _ => cases h

def indexed : Job :=
  ⟨0, "s", .done, .repo, 0, "https://git/s", "", "https://git/s", "main",
    { noPayload with summaryVersion := some 0 }, 0, none, ""⟩

def refresh : Job := ⟨1, "s", .running, .resummarize, 1, "s", "", "", "", noPayload, 0, none, ""⟩

/-- The process died during the refresh of an indexed source. -/
def interrupted : Db := { empty with jobs := ⟨[indexed, refresh], by decide⟩ }

/-- A full index of a repository. -/
def index : Submission := ⟨.repo, "s", "", "https://git/s", "main"⟩

/-- A push that modifies a file of it. -/
def merged : Event := ⟨"https://git/s", "main", "s", [⟨.rel ["a.py"], .modified⟩]⟩

/-- The repository is indexed, and the push comes after that. -/
def updated : List (Label machine) :=
  .start ⟨0, 0⟩ (.submit index) :: steps ⟨0, 0⟩ 6 ++
    (.start ⟨0, 1⟩ .worker :: steps ⟨0, 1⟩ 24 ++ [.run ⟨0, 1⟩ 1, .run ⟨0, 1⟩ 0]) ++
    (.start ⟨0, 2⟩ (.webhook merged) :: steps ⟨0, 2⟩ 5 ++ .run ⟨0, 2⟩ 1 :: steps ⟨0, 2⟩ 4) ++
    [.kill 0]

def update : Job :=
  ⟨1, "s", .queued, .incremental, 1, "https://git/s", "", "https://git/s", "main",
    { noPayload with changedFiles := merged.changedFiles, branch := "main" }, 0, none, ""⟩

end Treeweft.Recovery
