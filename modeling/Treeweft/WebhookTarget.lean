import Treeweft.Service
import Treeweft.SourceId
import Treeweft.Webhook

/-!
The source a webhook's incremental job is for.

The event is looked up in the graph store's listing by its URL alone, and the job is created for
the digest of the URL and the branch. The two are the same source where the record that was
found carries that digest as its id.
-/

namespace Treeweft.WebhookTarget

open Treeweft.Jobs Treeweft.JobStore Treeweft.Runners Treeweft.PromptRefresh Treeweft.Service
open Treeweft.SourceId Treeweft.Webhook

/-- A row of the graph store's table of sources. -/
structure SourceRow where
  id : String
  path : String
  url : String
  branch : String
  indexedAt : ℕ
  deriving DecidableEq, Repr

abbrev Registry := Keyed SourceRow.id

def listLimit : ℕ := 1000

/-- The newest sources, as many as a listing has. -/
def listSources (reg : Registry) : List SourceRow :=
  (reg.rows.insertionSort fun a b => b.indexedAt ≤ a.indexedAt).take listLimit

def existingSource (reg : Registry) (repoUrl : String) : Option SourceRow :=
  (listSources reg).find? fun s => s.url = repoUrl

def SourceRow.source (s : SourceRow) : Source := ⟨s.id, .repo, s.path, s.url, s.branch⟩

/-- The event a delivery is taken for. -/
def eventOf (fs : FileSystem) (p : WebhookPayload) : Event :=
  ⟨p.repoUrl, p.branch, makeSourceId fs "" p.repoUrl p.branch, p.changedFiles⟩

/-- The registry answers as it stands; everything else may answer anything. -/
def Answers (reg : Registry) : (o : Op) → o.Answer → Prop
  | .sources, r => r = (listSources reg).map SourceRow.source
  | _, _ => True

/-- The request may come to create the job. -/
def MayCreate (fs : FileSystem) (reg : Registry) (p : WebhookPayload) (j : Job) : Prop :=
  Reaches (Answers reg) (handleWebhook (eventOf fs p)) (.upsert j)

/-- An incremental job is for the record that was found, and so for a source whose index is
recorded. -/
def TargetsIndexed (fs : FileSystem) (reg : Registry) (p : WebhookPayload) : Prop :=
  ∀ j, MayCreate fs reg p j → j.kind = .incremental →
    ∃ s ∈ reg, existingSource reg p.repoUrl = some s ∧ j.sourceId = s.id

/-! ### The jobs a request creates -/

/-- Only jobs that are `P` are persisted. -/
def Persists (P : Job → Prop) : Op → Prop
  | .upsert j => P j
  | _ => True

def discipline (P : Job → Prop) : Discipline sig := Discipline.only (Persists P)

/-- `build` returns a job that is `P`, and persists none. -/
def Builds (P : Job → Prop) (build : Act Job) : Prop :=
  ∀ (Q : Job → Unit → Prop) (X : Exc → Unit → Prop),
    (∀ j, P j → Q j ()) → (discipline P).wp build Q X ()

section Programs
variable {P : Job → Prop}

lemma wp_findActive {Q : Option Job → Unit → Prop} {X : Exc → Unit → Prop} (s : String)
    (h : ∀ r, Q r ()) : (discipline P).wp (findActiveForSource s) Q X () := by
  unfold findActiveForSource
  split
  · exact h none
  · exact ⟨trivial, fun r _ => h r⟩

lemma builds_newRepoJob {ev : Event} (h : ∀ j, j.kind = .repo → P j) : Builds P (newRepoJob ev) :=
  fun _ _ hQ => ⟨trivial, fun _ _ => hQ _ (h _ rfl)⟩

lemma uses_persistAndEnqueue {j : Job} {i : ℕ} (h : P j) :
    Uses (Persists P) (persistJob j >>= fun _ => enqueue i) :=
  (uses_persistJob h).bind fun _ => ⟨trivial, fun _ => trivial⟩

lemma wp_persistAndEnqueue {build : Act Job} (h : Builds P build) :
    (discipline P).wp (persistAndEnqueue build) (fun _ _ => True) (fun _ _ => True) () := by
  unfold persistAndEnqueue
  rw [Discipline.wp_bind]
  exact h _ _ fun j hj => (uses_persistAndEnqueue hj).wp_only

lemma wp_unlessSaturated {act : Act Unit} {ev : Event} {n : ℕ}
    (h : (discipline P).wp act (fun _ _ => True) (fun _ _ => True) ()) :
    (discipline P).wp (unlessSaturated (act >>= fun _ => accept ev n)) (fun _ _ => True)
      (fun _ _ => True) () := by
  refine ⟨trivial, fun (depth : ℕ) _ => ?_⟩
  change (discipline P).wp (if maxQueueDepth ≤ depth then pure () else _) _ _ _
  split
  · trivial
  · rw [Discipline.wp_bind]
    exact Discipline.wp_mono (fun _ _ _ => ⟨trivial, fun _ _ => trivial⟩) (fun _ _ h => h) h

/-- A repository that is not registered is indexed whole. -/
lemma wp_webhookNewSource {ev : Event} (h : ∀ j, j.kind = .repo → P j) (since : ℕ) :
    (discipline P).wp (webhookNewSource ev since) (fun _ _ => True) (fun _ _ => True) () := by
  unfold webhookNewSource
  rw [Discipline.wp_bind]
  refine wp_findActive _ fun active => ?_
  cases active with
  | none => exact wp_unlessSaturated (wp_persistAndEnqueue (builds_newRepoJob h))
  | some active => exact ⟨trivial, fun _ _ => trivial⟩

end Programs

section Existing
variable {ev : Event}

/-- An incremental job is for the event's source, and of a list that fits a payload. -/
def AimedAt (ev : Event) (j : Job) : Prop :=
  j.kind = .incremental → j.sourceId = ev.sourceId ∧ ev.changedFiles.length ≤ maxChangedFiles

lemma aimedAt_of_repo (j : Job) (h : j.kind = .repo) : AimedAt ev j := by
  intro hk
  rw [h] at hk
  cases hk

lemma builds_incrementalOrFallback (ev : Event) :
    Builds (AimedAt ev) (buildIncrementalOrFallbackJob ev) := by
  unfold buildIncrementalOrFallbackJob
  split
  · exact builds_newRepoJob aimedAt_of_repo
  · rename_i hlen
    exact fun _ _ hQ => ⟨trivial, fun _ _ => hQ _ fun _ => ⟨rfl, by omega⟩⟩

lemma uses_waitFor {j : Job} (h : AimedAt ev j) (refresh : ℕ) :
    Uses (Persists (AimedAt ev)) (waitFor refresh j) := by
  refine Uses.bind (uses_persistJob h) fun _ => Uses.bind ⟨trivial, fun _ => trivial⟩ fun r => ?_
  split
  · trivial
  · exact (uses_promoteWaitingAfter refresh).mono fun o ho => by cases o <;> trivial

lemma wp_preempt {build : Act Job} (h : Builds (AimedAt ev) build) (s : String) :
    (discipline (AimedAt ev)).wp (preemptActiveRefresh s build) (fun _ _ => True)
      (fun _ _ => True) () := by
  unfold preemptActiveRefresh
  rw [Discipline.wp_bind]
  refine wp_findActive s fun refresh => ?_
  cases refresh with
  | none => exact wp_persistAndEnqueue h
  | some refresh =>
    change (discipline (AimedAt ev)).wp (if refresh.kind ≠ .resummarize then _ else _) _ _ _
    split
    · exact wp_persistAndEnqueue h
    · rw [Discipline.wp_bind]
      refine h _ _ fun j hj => ⟨trivial, fun (cancelled : Bool) _ => ?_⟩
      cases cancelled with
      | true => exact (uses_persistAndEnqueue hj).wp_only
      | false => exact (uses_waitFor hj refresh.id).wp_only

lemma wp_webhookExistingSource (since : ℕ) :
    (discipline (AimedAt ev)).wp (webhookExistingSource ev since) (fun _ _ => True)
      (fun _ _ => True) () := by
  have hb := builds_incrementalOrFallback ev
  unfold webhookExistingSource
  rw [Discipline.wp_bind]
  refine wp_findActive _ fun active => ?_
  cases active with
  | none => exact wp_unlessSaturated (wp_persistAndEnqueue hb)
  | some active =>
    change (discipline (AimedAt ev)).wp (if active.kind ≠ .resummarize then _ else _) _ _ _
    split
    · exact ⟨trivial, fun _ _ => trivial⟩
    · exact wp_unlessSaturated (wp_preempt hb ev.sourceId)

end Existing

/-! ### What the job is for -/

variable {fs : FileSystem} {reg : Registry} {p : WebhookPayload} {j : Job}

lemma of_existingSource {s : SourceRow} (h : existingSource reg p.repoUrl = some s) :
    s ∈ reg ∧ s.url = p.repoUrl := by
  obtain ⟨hmem, hurl⟩ : s ∈ listSources reg ∧ s.url = p.repoUrl :=
    ⟨List.mem_of_find?_eq_some h, by simpa using List.find?_some h⟩
  exact ⟨(List.mem_insertionSort _).1 (List.mem_of_mem_take hmem), hurl⟩

/-- The program asks whether the listing has the URL. -/
lemma any_iff_existing : ((listSources reg).map SourceRow.source).any
    (fun s => s.url = p.repoUrl) = (existingSource reg p.repoUrl).isSome := by
  rw [List.any_map, existingSource, List.isSome_find?]
  rfl

/-- What follows the questions of a request. -/
lemma mayCreate_iff : MayCreate fs reg p j ↔ ∃ since, Reaches (Answers reg)
    (if (existingSource reg p.repoUrl).isSome then webhookExistingSource (eventOf fs p) since
      else webhookNewSource (eventOf fs p) since) (.upsert j) := by
  have hgo : ∀ since, (if (((listSources reg).map SourceRow.source).any
        fun s => s.url = (eventOf fs p).repoUrl) = true
      then webhookExistingSource (eventOf fs p) since
      else webhookNewSource (eventOf fs p) since) =
        if (existingSource reg p.repoUrl).isSome then webhookExistingSource (eventOf fs p) since
        else webhookNewSource (eventOf fs p) since := by
    intro since
    rw [← any_iff_existing]
    rfl
  constructor
  · intro h
    rcases reaches_op.1 h with h | ⟨since, -, h⟩
    · cases h
    rcases reaches_op.1 h with h | ⟨sources, hs, h⟩
    · cases h
    obtain rfl : sources = (listSources reg).map SourceRow.source := hs
    rcases reaches_op.1 h with h | ⟨w, -, h⟩
    · cases h
    change Reaches _ (if w = 0 then _ else pure ()) _ at h
    split at h
    · rw [hgo] at h
      exact ⟨since, h⟩
    · cases h
  · rintro ⟨since, h⟩
    refine .there since trivial (.there _ rfl (.there 0 trivial ?_))
    change Reaches _ (if (0 : ℕ) = 0 then _ else pure ()) _
    rw [if_pos rfl, hgo]
    exact h

/-- An incremental job comes only of a URL that is registered and a list that fits, and is for the
event's digest. -/
lemma of_mayCreate (h : MayCreate fs reg p j) (hk : j.kind = .incremental) :
    (existingSource reg p.repoUrl).isSome = true ∧ p.changedFiles.length ≤ maxChangedFiles ∧
      j.sourceId = makeSourceId fs "" p.repoUrl p.branch := by
  obtain ⟨since, h⟩ := mayCreate_iff.1 h
  split at h
  · rename_i hs
    obtain ⟨hid, hlen⟩ := Discipline.of_reaches (wp_webhookExistingSource since) h hk
    exact ⟨hs, hlen, hid⟩
  · have hrepo : j.kind = .repo :=
      Discipline.of_reaches (wp_webhookNewSource (P := fun j => j.kind = .repo)
        (fun _ h => h) since) h
    rw [hk] at hrepo
    cases hrepo

/-- A change list that fits a payload gets its incremental job where nothing else is going on. -/
lemma mayCreate_incremental (fs : FileSystem) (reg : Registry) (hs : (existingSource reg p.repoUrl).isSome = true)
    (hlen : p.changedFiles.length ≤ maxChangedFiles) :
    ∃ j, MayCreate fs reg p j ∧ j.kind = .incremental := by
  have hbuild : buildIncrementalOrFallbackJob (eventOf fs p) = (do
      let j ← newJob .incremental (eventOf fs p).sourceId p.repoUrl
      pure { j with
        sourceUrl := p.repoUrl
        sourceBranch := p.branch
        payload := { noPayload with changedFiles := p.changedFiles, branch := p.branch } }) :=
    if_neg (by simpa [eventOf] using hlen)
  refine ⟨⟨0, (eventOf fs p).sourceId, .queued, .incremental, 0, p.repoUrl, "", p.repoUrl, p.branch,
    { noPayload with changedFiles := p.changedFiles, branch := p.branch }, 0, none, ""⟩,
    mayCreate_iff.2 ⟨0, ?_⟩, rfl⟩
  have hrest : Reaches (Answers reg) (unlessSaturated do
      persistAndEnqueue (buildIncrementalOrFallbackJob (eventOf fs p))
      accept (eventOf fs p) 0) (.upsert ⟨0, (eventOf fs p).sourceId, .queued, .incremental, 0,
        p.repoUrl, "", p.repoUrl, p.branch,
        { noPayload with changedFiles := p.changedFiles, branch := p.branch }, 0, none, ""⟩) := by
    rw [hbuild]
    exact .there (0 : ℕ) trivial (.there ((0, 0) : ℕ × ℕ) trivial .here)
  rw [if_pos hs]
  unfold webhookExistingSource findActiveForSource
  split
  · exact hrest
  · exact .there none trivial hrest

/-- **A webhook's job is for an indexed source** exactly when the record found by the URL has the
digest of the event's URL and branch for its id, or the change list is too long for an
incremental job. -/
theorem targetsIndexed_iff (fs : FileSystem) (reg : Registry) (p : WebhookPayload) :
    TargetsIndexed fs reg p ↔ ∀ s, existingSource reg p.repoUrl = some s →
      p.changedFiles.length ≤ maxChangedFiles → s.id = makeSourceId fs "" p.repoUrl p.branch := by
  constructor
  · intro h s hs hlen
    obtain ⟨j, hj, hk⟩ := mayCreate_incremental fs reg (by rw [hs]; rfl) hlen
    obtain ⟨s', -, hs', hid⟩ := h j hj hk
    rw [hs, Option.some.injEq] at hs'
    rw [hs', ← hid]
    exact (of_mayCreate hj hk).2.2
  · intro h j hj hk
    obtain ⟨hsome, hlen, hid⟩ := of_mayCreate hj hk
    obtain ⟨s, hs⟩ := Option.isSome_iff_exists.1 hsome
    exact ⟨s, (of_existingSource hs).1, hs, hid.trans (h s hs hlen).symm⟩

/-! ### A branch that was not named -/

lemma id_idem (p : String) : id (id p) = id p := rfl

def noFiles : FileSystem :=
  ⟨id, id, id, fun _ => false, fun _ => false, rfl, rfl, id_idem⟩

/-- A repository indexed by its URL alone. -/
def defaultBranch : Registry :=
  ⟨[⟨makeSourceId noFiles "" "https://github.com/o/r" "", "", "https://github.com/o/r", "", 0⟩],
    List.nodup_singleton _⟩

/-- A merge into `main` of a repository that was indexed without naming the branch: the job is for
a source that is not registered. -/
theorem job_for_unindexed_source : ¬∀ (fs : FileSystem) (reg : Registry) (p : WebhookPayload),
    (∀ s ∈ reg, s.id = makeSourceId fs s.path s.url s.branch) → TargetsIndexed fs reg p := by
  intro hclaim
  have hreg : ∀ s ∈ defaultBranch, s.id = makeSourceId noFiles s.path s.url s.branch := by
    intro s hs
    rw [List.mem_singleton.1 hs]
  obtain ⟨j, hj, hk⟩ := mayCreate_incremental noFiles defaultBranch
    (p := ⟨.github, "https://github.com/o/r", "main", [⟨.rel ["a.py"], .modified⟩]⟩) rfl (by decide)
  obtain ⟨s, hs, -, hid⟩ := hclaim noFiles defaultBranch _ hreg j hj hk
  rw [(of_mayCreate hj hk).2.2, List.mem_singleton.1 hs] at hid
  revert hid
  decide +kernel

end Treeweft.WebhookTarget
