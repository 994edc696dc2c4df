import Treeweft.Dispatch

/-!
The options of an index request, on their way to the runner.

A job is a dictionary in the memory of some process, a row, and a `Job` that was read from the
row; each is made from another, in any order and from copies as old as one likes. The options are
in the payload, which every copy has. Whether a request was forced is not among them: the route
decides on it before there is a job.
-/

namespace Treeweft.RequestOptions

open Treeweft.Jobs Treeweft.SourceId Treeweft.Dispatch
open Treeweft.Webhook (startsWith)

/-! ### Requests -/

/-- The dictionary of a job with the keys that no row has. -/
structure LiveDict extends JobDict where
  skip_patterns : Option (List String)
  skip_graph : Option Bool

def live (d : JobDict) : LiveDict := ⟨d, none, none⟩

def setRequestOptions (job : LiveDict) (pattern : Option String)
    (skip_patterns : Option (List String)) (skip_graph : Bool) : LiveDict :=
  let given := skip_patterns.filter fun s => decide (s ≠ [])
  { job with
    options := ⟨pattern.or job.options.pattern, given.getD job.options.skipPatterns,
      skip_graph || job.options.skipGraph⟩
    skip_patterns := given.or job.skip_patterns
    skip_graph := if skip_graph then some true else job.skip_graph }

/-- `_restore_request_options`. -/
def restoreRequestOptions (jd : LiveDict) : LiveDict × String :=
  ({ jd with
      skip_patterns :=
        if jd.options.skipPatterns ≠ [] then some jd.options.skipPatterns else jd.skip_patterns
      skip_graph := some jd.options.skipGraph },
    jd.toJobRow.pattern)

/-- What the three routes are asked; an empty string stands for a URL, a path or a branch that is
not given. -/
inductive Request
  | file (file_path : String) (force skip_graph : Bool)
  | directory (directory pattern : String) (force : Bool) (skip_patterns : Option (List String))
      (skip_graph : Bool)
  | repo (path url branch : String) (force : Bool) (skip_patterns : Option (List String))
      (skip_graph : Bool)

/-- The checks of the routes. -/
def Request.Accepted (fs : FileSystem) (g : GitPolicy) : Request → Prop
  | .file path _ _ => fs.pathExists (fs.purePath (fs.expanduser path)) = true
  | .directory d _ _ _ _ => fs.isDir (fs.expanduser d) = true
  | .repo path url branch _ _ _ => (path ≠ "" ∨ url ≠ "") ∧
      (url ≠ "" → isSafeGitUrl g url = true) ∧ startsWith "-" branch = false

/-- `_build` of the routes; `feature` is `FEATURE_SKIP_PATTERNS`. -/
def build (fs : FileSystem) (feature : Bool) (n : Fresh) : Request → LiveDict
  | .file path _ skip_graph =>
    setRequestOptions (live (indexFileJob fs n (fs.expanduser path) false)) none none skip_graph
  | .directory directory pattern _ skip_patterns skip_graph =>
    setRequestOptions (live (indexDirectoryJob fs n (fs.expanduser directory) noOptions))
      (some pattern) (if feature then skip_patterns else none) skip_graph
  | .repo path url branch _ skip_patterns skip_graph =>
    setRequestOptions (live (indexRepoJob fs n path url branch noOptions)) none
      (if feature then skip_patterns else none) skip_graph

/-! ### Runners -/

/-- `_RepoJobSpec`. -/
structure RepoJobSpec where
  path : String
  url : String
  branch : String
  force : Bool := false
  skip_graph : Bool := false
  deriving DecidableEq, Repr

/-- A runner with what it reads of its arguments. -/
inductive Execution
  | file (file_path : String) (skip_graph : Bool)
  | directory (directory pattern : String) (skip_patterns : List String) (skip_graph : Bool)
  | repo (req : RepoJobSpec) (skip_patterns : List String)
  deriving DecidableEq, Repr

/-- `dispatch_job` of the three kinds of request, with the dictionary of the runner. -/
def dispatch (fs : FileSystem) (job : JobRow) : Option (Execution × LiveDict) :=
  let (jd, pattern) := restoreRequestOptions (live job.toDict)
  let skip_graph := jd.skip_graph.getD false
  let skip_patterns := jd.skip_patterns.getD []
  match job.kind with
  | .file =>
    if job.target = "" ∨ fs.pathExists job.target = false then none
    else some (.file job.target skip_graph, jd)
  | .directory =>
    if job.target = "" ∨ fs.isDir job.target = false then none
    else some (.directory job.target pattern skip_patterns skip_graph, jd)
  | .repo =>
    let rebuilt_req : RepoJobSpec :=
      { path := job.sourcePath, url := job.sourceUrl, branch := job.sourceBranch,
        skip_graph := skip_graph }
    if rebuilt_req.path = "" ∧ rebuilt_req.url = "" then none
    else some (.repo rebuilt_req skip_patterns, jd)
  | _ => none

def Execution.runner : Execution → Runner
  | .file path _ => .indexFile path
  | .directory d pattern _ _ => .indexDirectory d pattern
  | .repo req _ => .indexRepo req.path req.url req.branch req.skip_graph

/-- The runner is the one the worker gets. -/
lemma dispatchJob_of_dispatch {fs : FileSystem} {job : JobRow} {e : Execution} {jd : LiveDict}
    (h : dispatch fs job = some (e, jd)) : dispatchJob fs job = some e.runner := by
  unfold dispatch at h
  unfold dispatchJob
  cases hk : job.kind with
  | file | directory | repo =>
    simp only [hk] at h ⊢
    split at h
    · cases h
    · rename_i hc
      cases h
      rw [if_neg hc]
      rfl
  | _ =>
    simp only [hk] at h
    cases h

/-! ### The life of a job -/

/-- The row, the `Job`s that were read from it, the dictionaries, and the runs. -/
structure Life where
  row : Option JobRow
  jobs : List JobRow
  dicts : List LiveDict
  runs : List Execution

/-- What happens to a dictionary: its end or its beginning, a refresh to wait for, a version, the
count of attempts, and the branch that a runner finds. -/
inductive Change
  | status (st : JobStatus) (error : String)
  | after (refresh : ℕ)
  | summaryVersion (version : ℕ)
  | attempts (n : ℕ)
  | branch (active : Option String)

/-- `active` is the branch of the working tree, where there is one. -/
def foundBranch (active : Option String) (jd : LiveDict) : LiveDict :=
  if jd.kind = .repo ∧ jd.sourceUrl = "" ∧ jd.sourceBranch = "" then
    { jd with sourceBranch := active.getD "" }
  else jd

def Change.apply : Change → LiveDict → LiveDict
  | .status st error, jd => { jd with status := st, error := error }
  | .after refresh, jd => { jd with payload.afterJob := some refresh }
  | .summaryVersion version, jd => { jd with payload.summaryVersion := some version }
  | .attempts n, jd => { jd with attempts := n }
  | .branch active, jd => foundBranch active jd

inductive Step
  | read
  | toDict (k : ℕ)
  | change (k : ℕ) (c : Change)
  | persist (k : ℕ)
  | dispatch (k : ℕ) (fs : FileSystem)
  | relink (refresh : ℕ)
  | updateStatus (st : JobStatus)
  | incrementAttempts
  | restart

/-- The row a dictionary is stored as; a group is never taken away. -/
def upsert (old : Option JobRow) (d : LiveDict) : JobRow :=
  { d.fromDict with groupId := d.groupId.or (old.bind fun j => j.groupId) }

def Life.step (l : Life) : Step → Life
  | .read => { l with jobs := l.row.toList ++ l.jobs }
  | .toDict k => { l with dicts := (l.jobs[k]?.map fun j => live j.toDict).toList ++ l.dicts }
  | .change k c => { l with dicts := l.dicts.modify k c.apply }
  | .persist k => { l with row := (l.dicts[k]?.map (upsert l.row)).or l.row }
  | .dispatch k fs =>
    match l.jobs[k]?.bind (RequestOptions.dispatch fs) with
    | some (e, jd) => { l with dicts := jd :: l.dicts, runs := e :: l.runs }
    | none => l
  | .relink refresh =>
    { l with row := l.row.map fun j => { j with payload.afterJob := some refresh } }
  | .updateStatus st => { l with row := l.row.map fun j => { j with status := st } }
  | .incrementAttempts =>
    { l with row := l.row.map fun j => { j with attempts := j.attempts + 1 } }
  | .restart => { l with jobs := [], dicts := [] }

/-- A job that was built, after any steps. -/
def life (d : LiveDict) (steps : List Step) : Life :=
  steps.foldl Life.step ⟨none, [], [d], []⟩

/-! ### What every copy says -/

/-- The options and the source of `d`; a branch that was not given may have been found. -/
structure Copy (d j : JobRow) : Prop where
  kind : j.kind = d.kind
  sourceId : j.sourceId = d.sourceId
  source : j.source = d.source
  sourcePath : j.sourcePath = d.sourcePath
  sourceUrl : j.sourceUrl = d.sourceUrl
  options : j.options = d.options
  branch : j.sourceBranch = d.sourceBranch ∨
    d.kind = .repo ∧ d.sourceUrl = "" ∧ d.sourceBranch = ""

/-- Every copy of the job is one, and so was what every run began with. -/
structure Copies (d : JobRow) (l : Life) : Prop where
  row : ∀ j, l.row = some j → Copy d j
  jobs : ∀ j ∈ l.jobs, Copy d j
  dicts : ∀ x ∈ l.dicts, Copy d x.toJobRow
  runs : ∀ e ∈ l.runs, ∃ fs j jd, Copy d j ∧ dispatch fs j = some (e, jd)

section Copies
variable {d j : JobRow} {l : Life}

lemma Copy.refl (d : JobRow) : Copy d d := ⟨rfl, rfl, rfl, rfl, rfl, rfl, .inl rfl⟩

lemma Copy.foundBranch {x : LiveDict} (h : Copy d x.toJobRow) (active : Option String) :
    Copy d (foundBranch active x).toJobRow := by
  unfold RequestOptions.foundBranch
  split
  · rename_i hc
    refine ⟨h.kind, h.sourceId, h.source, h.sourcePath, h.sourceUrl, h.options, .inr ?_⟩
    refine ⟨h.kind.symm.trans hc.1, h.sourceUrl.symm.trans hc.2.1, ?_⟩
    exact h.branch.elim (fun hb => hb.symm.trans hc.2.2) fun hb => hb.2.2
  · exact h

lemma Copy.change {x : LiveDict} (h : Copy d x.toJobRow) (c : Change) :
    Copy d (c.apply x).toJobRow := by
  cases c with
  | branch active => exact h.foundBranch active
  | _ => exact ⟨h.kind, h.sourceId, h.source, h.sourcePath, h.sourceUrl, h.options, h.branch⟩

/-- The runner's dictionary is that of the `Job`, with the options of its payload. -/
lemma dict_of_dispatch {fs : FileSystem} {e : Execution} {jd : LiveDict}
    (h : dispatch fs j = some (e, jd)) : jd = (restoreRequestOptions (live j.toDict)).1 := by
  unfold dispatch at h
  simp only at h
  split at h
  · split at h <;> cases h
    rfl
  · split at h <;> cases h
    rfl
  · split at h <;> cases h
    rfl
  · cases h

lemma toJobRow_of_dispatch {fs : FileSystem} {e : Execution} {jd : LiveDict}
    (h : dispatch fs j = some (e, jd)) : jd.toJobRow = j :=
  congrArg (fun jd : LiveDict => jd.toJobRow) (dict_of_dispatch h)

lemma Copies.step (h : Copies d l) (s : Step) : Copies d (l.step s) := by
  cases s with
  | read =>
    refine ⟨h.row, fun j hj => ?_, h.dicts, h.runs⟩
    rcases List.mem_append.1 hj with hj | hj
    · exact h.row j (Option.mem_toList.1 hj)
    · exact h.jobs j hj
  | toDict k =>
    refine ⟨h.row, h.jobs, fun x hx => ?_, h.runs⟩
    rcases List.mem_append.1 hx with hx | hx
    · obtain ⟨j, hj, rfl⟩ := Option.map_eq_some_iff.1 (Option.mem_toList.1 hx)
      exact h.jobs j (List.mem_of_getElem? hj)
    · exact h.dicts x hx
  | change k c =>
    refine ⟨h.row, h.jobs, fun x hx => ?_, h.runs⟩
    obtain ⟨i, hi⟩ := List.mem_iff_getElem?.1 hx
    rw [Life.step, List.getElem?_modify] at hi
    obtain ⟨y, hy, rfl⟩ := Option.map_eq_some_iff.1 hi
    have hcopy := h.dicts y (List.mem_of_getElem? hy)
    split
    · exact hcopy.change c
    · exact hcopy
  | persist k =>
    refine ⟨fun j hj => ?_, h.jobs, h.dicts, h.runs⟩
    rcases Option.or_eq_some_iff.1 hj with hj | ⟨-, hj⟩
    · obtain ⟨x, hx, rfl⟩ := Option.map_eq_some_iff.1 hj
      have hcopy := h.dicts x (List.mem_of_getElem? hx)
      exact ⟨hcopy.kind, hcopy.sourceId, hcopy.source, hcopy.sourcePath, hcopy.sourceUrl,
        hcopy.options, hcopy.branch⟩
    · exact h.row j hj
  | dispatch k fs =>
    simp only [Life.step]
    split
    · rename_i e jd hd
      obtain ⟨j, hj, hd⟩ := Option.bind_eq_some_iff.1 hd
      have hcopy := h.jobs j (List.mem_of_getElem? hj)
      refine ⟨h.row, h.jobs, fun x hx => ?_, fun e' he => ?_⟩
      · rcases List.mem_cons.1 hx with rfl | hx
        · rw [toJobRow_of_dispatch hd]
          exact hcopy
        · exact h.dicts x hx
      · rcases List.mem_cons.1 he with rfl | he
        · exact ⟨fs, j, jd, hcopy, hd⟩
        · exact h.runs e' he
    · exact h
  | relink | updateStatus | incrementAttempts =>
    refine ⟨fun j hj => ?_, h.jobs, h.dicts, h.runs⟩
    obtain ⟨k, hk, rfl⟩ := Option.map_eq_some_iff.1 hj
    have hcopy := h.row k hk
    exact ⟨hcopy.kind, hcopy.sourceId, hcopy.source, hcopy.sourcePath, hcopy.sourceUrl,
      hcopy.options, hcopy.branch⟩
  | restart => exact ⟨h.row, by simp [Life.step], by simp [Life.step], h.runs⟩

lemma Copies.run (h : Copies d l) (steps : List Step) :
    Copies d (steps.foldl Life.step l) := by
  induction steps generalizing l with
  | nil => exact h
  | cons s steps ih => exact ih (h.step s)

lemma copies_life (x : LiveDict) (steps : List Step) : Copies x.toJobRow (life x steps) := by
  have hstart : Copies x.toJobRow ⟨none, [], [x], []⟩ := by
    refine ⟨by simp, by simp, fun y hy => ?_, by simp⟩
    rw [List.mem_singleton.1 hy]
    exact .refl _
  exact hstart.run steps

end Copies

/-! ### What the runner is executed with -/

/-- The execution that a request asks for: paths as the route reads them, no pattern and an empty
one for every file, and skip patterns where the deployment has them. -/
def asked (fs : FileSystem) (feature : Bool) : Request → Execution
  | .file path _ skip_graph => .file (fs.purePath (fs.expanduser path)) skip_graph
  | .directory directory pattern _ skip_patterns skip_graph =>
    .directory (fs.expanduser directory) (if pattern = "" then allFiles else pattern)
      (if feature then skip_patterns.getD [] else []) skip_graph
  | .repo path url branch force skip_patterns skip_graph =>
    .repo ⟨if url = "" then fs.expanduser path else "", url, branch, force, skip_graph⟩
      (if feature then skip_patterns.getD [] else [])

/-- The executions that serve a request: nothing in them says whether it was forced, and the branch
of a path may be any where the request names none. -/
def Executions (fs : FileSystem) (feature : Bool) : Request → Set Execution
  | .repo path url branch _ skip_patterns skip_graph =>
    { e | ∃ b, (url ≠ "" ∨ branch ≠ "" → b = branch) ∧
      e = asked fs feature (.repo path url b false skip_patterns skip_graph) }
  | r => {asked fs feature r}

/-- The options that a request's job keeps. -/
def kept (feature : Bool) : Request → Options
  | .file _ _ skip_graph => ⟨none, [], skip_graph⟩
  | .directory _ pattern _ skip_patterns skip_graph =>
    ⟨some pattern, if feature then skip_patterns.getD [] else [], skip_graph⟩
  | .repo _ _ _ _ skip_patterns skip_graph =>
    ⟨none, if feature then skip_patterns.getD [] else [], skip_graph⟩

section Executed
variable {fs fs' : FileSystem} {g : GitPolicy} {feature : Bool} {n : Fresh} {j : JobRow}
  {e : Execution} {jd : LiveDict}

lemma build_options (fs : FileSystem) (feature : Bool) (n : Fresh) (r : Request) :
    (build fs feature n r).options = kept feature r := by
  have hskip : ∀ o : Option (List String), ((if feature then o else none).filter
      fun s => decide (s ≠ [])).getD [] = if feature then o.getD [] else [] := by
    intro o
    cases feature with
    | false => rfl
    | true =>
      cases o with
      | none => rfl
      | some s => cases s <;> rfl
  cases r with
  | file => simp [build, setRequestOptions, live, indexFileJob, newJob, noOptions, kept]
  | directory | repo =>
    simp only [build, setRequestOptions, live, indexDirectoryJob, indexRepoJob, newJob, noOptions,
      kept, hskip, Option.or_none, Bool.or_false]

/-- The restored skip patterns and graph flag are those of the payload. -/
lemma restored (j : JobRow) :
    (restoreRequestOptions (live j.toDict)).1.skip_patterns.getD [] = j.options.skipPatterns ∧
      (restoreRequestOptions (live j.toDict)).1.skip_graph.getD false = j.options.skipGraph := by
  refine ⟨?_, rfl⟩
  simp only [restoreRequestOptions, live, JobRow.toDict]
  by_cases h : j.options.skipPatterns = [] <;> simp [h]

/-- What a runner is given, by the kind of its job. -/
def given (j : JobRow) : Option Execution :=
  match j.kind with
  | .file => some (.file j.target j.options.skipGraph)
  | .directory => some (.directory j.target j.pattern j.options.skipPatterns j.options.skipGraph)
  | .repo => some (.repo ⟨j.sourcePath, j.sourceUrl, j.sourceBranch, false, j.options.skipGraph⟩
      j.options.skipPatterns)
  | _ => none

lemma given_of_dispatch (h : dispatch fs j = some (e, jd)) : given j = some e := by
  unfold dispatch at h
  simp only [(restored j).1, (restored j).2] at h
  unfold given
  cases hk : j.kind with
  | file | directory | repo =>
    simp only [hk] at h
    split at h
    · cases h
    · cases h
      rfl
  | _ =>
    simp only [hk] at h
    cases h

/-- A run of a copy of a request's job is the one the request asks for, but for the force, and for a
branch that was left open. -/
lemma executed {r : Request} (ha : r.Accepted fs g) (hc : Copy (build fs feature n r).toJobRow j)
    (hd : dispatch fs' j = some (e, jd)) : e ∈ Executions fs feature r := by
  have hoptions := hc.options.trans (build_options fs feature n r)
  have hgiven := given_of_dispatch hd
  unfold given at hgiven
  cases r with
  | file path force skip_graph =>
    have hkind : j.kind = .file := hc.kind
    have hpath : j.sourcePath = fs.purePath (fs.expanduser path) := hc.sourcePath
    have hthere : fs.pathExists (fs.purePath (fs.expanduser path)) = true := ha
    have htarget : j.target = fs.purePath (fs.expanduser path) := by
      rw [JobRow.target, hpath, if_pos (FileSystem.ne_empty_of_pathExists hthere)]
    simp only [hkind, htarget, hoptions] at hgiven
    exact (Option.some.inj hgiven).symm
  | directory directory pattern force skip_patterns skip_graph =>
    have hkind : j.kind = .directory := hc.kind
    have hpath : j.sourcePath = fs.expanduser directory := hc.sourcePath
    have hthere : fs.isDir (fs.expanduser directory) = true := ha
    have htarget : j.target = fs.expanduser directory := by
      rw [JobRow.target, hpath, if_pos (FileSystem.ne_empty_of_isDir hthere)]
    have hpattern : j.pattern = if pattern = "" then allFiles else pattern := by
      rw [JobRow.pattern, hoptions]
      by_cases hp : pattern = "" <;> simp [kept, Option.filter, hp]
    simp only [hkind, htarget, hpattern, hoptions] at hgiven
    exact (Option.some.inj hgiven).symm
  | repo path url branch force skip_patterns skip_graph =>
    have hkind : j.kind = .repo := hc.kind
    have hurl : j.sourceUrl = url := hc.sourceUrl
    have hpath : j.sourcePath = if url ≠ "" then "" else
        if url ≠ "" then url else fs.expanduser path := hc.sourcePath
    have hbranch : j.sourceBranch = branch ∨ JobKind.repo = .repo ∧ url = "" ∧ branch = "" :=
      hc.branch
    have hpath : j.sourcePath = if url = "" then fs.expanduser path else "" := by
      rw [hpath]
      by_cases hu : url = "" <;> simp [hu]
    simp only [hkind, hpath, hurl, hoptions] at hgiven
    refine ⟨j.sourceBranch, fun hgiven => ?_, (Option.some.inj hgiven).symm⟩
    rcases hbranch with hb | ⟨-, hu, hb⟩
    · exact hb
    · exact (hgiven.elim (· hu) (· hb)).elim

end Executed

/-- **The runner gets the request**, whatever becomes of its job before: the kind, the URL or the
path, the branch where one is named, the pattern, the skip patterns where they are a feature, and
whether the graph is skipped. -/
theorem runner_gets_request {fs : FileSystem} {g : GitPolicy} {feature : Bool} {n : Fresh}
    {r : Request} (steps : List Step) {e : Execution} (ha : r.Accepted fs g)
    (he : e ∈ (life (build fs feature n r) steps).runs) : e ∈ Executions fs feature r := by
  obtain ⟨fs', j, jd, hcopy, hd⟩ := (copies_life _ steps).runs e he
  exact executed ha hcopy hd

/-- A directory, its Python files but the tests, for the chunks only. -/
def pythonOnly : Request := .directory "/repo" "**/*.py" false (some ["test_*"]) true

/-- The job waits for a refresh and is promoted, fails and is retried, and is recovered after a
restart. -/
def everyRoute : List Step :=
  [.change 0 (.after 7), .change 0 (.status .waiting ""), .persist 0, .updateStatus .queued,
    .read, .dispatch 0 oneDirectory, .change 0 (.status .failed "timed out"), .persist 0,
    .read, .toDict 0, .change 0 (.status .queued ""), .persist 0, .restart,
    .read, .dispatch 0 oneDirectory, .read, .dispatch 0 oneDirectory]

theorem pythonOnly_every_route :
    (life (build oneDirectory true fresh pythonOnly) everyRoute).runs.length = 3 ∧
      .directory "/repo" "**/*.py" ["test_*"] true ∈ Executions oneDirectory true pythonOnly :=
  ⟨by decide +kernel, runner_gets_request (g := anyHost) (n := fresh) everyRoute rfl
    (by decide +kernel)⟩

/-- Nothing of a runner's arguments says that the request was forced. -/
theorem force_not_passed : ¬∀ (fs : FileSystem) (g : GitPolicy) (feature : Bool) (n : Fresh)
    (r : Request) (steps : List Step) (e : Execution), r.Accepted fs g →
    e ∈ (life (build fs feature n r) steps).runs → e = asked fs feature r := by
  intro hclaim
  have h := hclaim oneDirectory anyHost true fresh (.repo "/repo" "" "" true none false)
    [.persist 0, .read, .dispatch 0 oneDirectory] (.repo ⟨"/repo", "", "", false, false⟩ [])
    ⟨.inl (by decide), nofun, by decide +kernel⟩ (by decide +kernel)
  revert h
  decide +kernel

end Treeweft.RequestOptions
