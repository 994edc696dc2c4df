import Treeweft.WebhookTarget

/-!
From the request for an index to the runner a worker gets for its job.

A job is built as a dictionary, stored as a row, and rebuilt from the row by the worker that
claims it; only what the row has survives. The worker derives what to read from the row's kind,
path, URL and payload.
-/

namespace Treeweft.Dispatch

open Treeweft.Jobs Treeweft.SourceId Treeweft.Webhook
open Treeweft.Service (maxChangedFiles)
open Treeweft.FileIndex (Change Action)

/-! ### Jobs as dictionaries and as rows -/

/-- The options of a request that its job's payload keeps. -/
structure Options where
  pattern : Option String
  skipPatterns : List String
  skipGraph : Bool
  deriving DecidableEq, Repr

def noOptions : Options := ⟨none, [], false⟩

structure JobRow extends Job where
  options : Options
  deriving DecidableEq, Repr

/-- A job in the memory of a process; who created it is no field of a row. -/
structure JobDict extends JobRow where
  createdBy : Option String
  deriving DecidableEq, Repr

/-- `Job.from_dict`. -/
def JobDict.fromDict (d : JobDict) : JobRow := d.toJobRow

/-- `Job.to_dict`. -/
def JobRow.toDict (j : JobRow) : JobDict := { j with createdBy := none }

/-- What a new job gets besides its source: an id, the time, its group and the caller. -/
structure Fresh where
  id : ℕ
  now : ℕ
  group : Option ℕ
  caller : Option String

def newJob (n : Fresh) (kind : JobKind) (sid label : String) : JobDict :=
  ⟨⟨⟨n.id, sid, .queued, kind, n.now, label, "", "", "", noPayload, 0, n.group, ""⟩, noOptions⟩,
    n.caller⟩

/-! ### The remote -/

/-- The host policy of a deployment, and `urlsplit(url).hostname`. -/
structure GitPolicy where
  hostname : String → Option String
  hostIsForbidden : String → Bool
  allowedHosts : List String

def gitUrlSchemes : List String := ["https", "http", "ssh", "git"]

/-- What precedes the first occurrence of a separator, if there is one. -/
def beforeFirst (sep s : String) : Option String :=
  (afterFirst sep.toList s.toList).map fun rest =>
    String.ofList (s.toList.take (s.toList.length - sep.toList.length - rest.length))

def contains (sep s : String) : Bool := (afterFirst sep.toList s.toList).isSome

/-- `user@host:path`. -/
def scpHost (url : String) : Option String :=
  let head := ((beforeFirst "/" url).getD url).toList.reverse
  if ':' ∈ head then
    let host := ((head.dropWhile (· ≠ ':')).drop 1).takeWhile (· ≠ '@')
    if host = [] then none else some (String.ofList host.reverse).toLower
  else none

def gitUrlHost (g : GitPolicy) (url : String) : Option String :=
  if contains "://" url then (g.hostname url).bind fun h => if h = "" then none else some h.toLower
  else scpHost url

def isSafeGitUrl (g : GitPolicy) (url : String) : Bool :=
  url ≠ "" && !startsWith "-" url && !contains "::" url &&
    ((beforeFirst "://" url).all fun scheme => scheme.toLower ∈ gitUrlSchemes) &&
    match gitUrlHost g url with
    | none => false
    | some host => !g.hostIsForbidden host && (g.allowedHosts = [] || host ∈ g.allowedHosts)

/-- A clone is attempted. -/
def cloneable (g : GitPolicy) (url branch : String) : Bool :=
  isSafeGitUrl g url && !startsWith "-" branch

/-! ### The registry -/

/-- A source record; the kind is absent in rows older than the column. -/
structure SourceRecord where
  id : String
  path : String
  url : String
  branch : String
  kind : Option JobKind
  commitSha : String
  createdBy : Option String
  deriving DecidableEq, Repr

def indexKinds : List JobKind := [.repo, .directory, .file]

def resolveReindexKind (storedKind : Option JobKind) (hasUrl pathIsFile : Bool) : JobKind :=
  match storedKind.filter fun k => k ∈ indexKinds with
  | some k => k
  | none => if hasUrl then .repo else if pathIsFile then .file else .repo

/-! ### The jobs that requests store -/

section Producers
variable (fs : FileSystem) (n : Fresh)

/-- `/index-file`, with the path as `os.path.expanduser` gives it. -/
def indexFileJob (filePath : String) (skipGraph : Bool) : JobDict :=
  let sid := makeSourceId fs (fs.purePath filePath) "" ""
  { newJob n .file sid filePath with
    sourcePath := fs.purePath filePath
    options := { noOptions with skipGraph := skipGraph } }

def indexDirectoryJob (directory : String) (options : Options) : JobDict :=
  { newJob n .directory (makeSourceId fs directory "" "") directory with
    sourcePath := directory
    options := options }

/-- `/index-repo` of a path or a URL; an empty string stands for one that is not given. -/
def indexRepoJob (path url branch : String) (options : Options) : JobDict :=
  let label := if url ≠ "" then url else fs.expanduser path
  { newJob n .repo (makeSourceId fs path url branch) label with
    sourceUrl := url
    sourcePath := if url ≠ "" then "" else label
    sourceBranch := branch
    options := { options with pattern := none } }

def indexGraphJob (record : SourceRecord) : JobDict :=
  { newJob n .graph record.id (if record.url ≠ "" then record.url else record.path) with
    sourcePath := record.path
    sourceUrl := record.url
    sourceBranch := record.branch }

/-- A whole index for a repository that is not registered, or for too many files. -/
def webhookRepoJob (p : WebhookPayload) : JobDict :=
  { newJob n .repo (makeSourceId fs "" p.repoUrl p.branch) p.repoUrl with
    sourceUrl := p.repoUrl
    sourceBranch := p.branch }

def webhookIncrementalJob (p : WebhookPayload) : JobDict :=
  { newJob n .incremental (makeSourceId fs "" p.repoUrl p.branch) p.repoUrl with
    sourceUrl := p.repoUrl
    sourceBranch := p.branch
    payload := { noPayload with changedFiles := p.changedFiles, branch := p.branch } }

def webhookJob (registered : Bool) (p : WebhookPayload) : JobDict :=
  if registered ∧ p.changedFiles.length ≤ maxChangedFiles then webhookIncrementalJob fs n p
  else webhookRepoJob fs n p

/-- The number and the time of a new job. -/
def Numbered (n : Fresh) : (o : Op) → o.Answer → Prop
  | .newJob, r => r = (n.id, n.now)
  | _, _ => True

/-- It is the job that the request of the shared tables builds. -/
lemma webhookJob_of_build {j : Job} (hg : n.group = none) {p : WebhookPayload}
    (h : Returns (Numbered n)
      (Service.buildIncrementalOrFallbackJob (WebhookTarget.eventOf fs p)) j) :
    j = (webhookJob fs n true p).toJob := by
  unfold Service.buildIncrementalOrFallbackJob at h
  unfold webhookJob
  split at h
  · rename_i hlen
    have hlen : ¬p.changedFiles.length ≤ maxChangedFiles := by
      simpa [WebhookTarget.eventOf] using hlen
    obtain ⟨r, hr, h⟩ := returns_op.1 h
    obtain rfl : r = (n.id, n.now) := hr
    rw [← returns_pure.1 h]
    simp [hlen, webhookRepoJob, newJob, hg, WebhookTarget.eventOf]
  · rename_i hlen
    have hlen : p.changedFiles.length ≤ maxChangedFiles := by
      simpa [WebhookTarget.eventOf] using hlen
    obtain ⟨r, hr, h⟩ := returns_op.1 h
    obtain rfl : r = (n.id, n.now) := hr
    rw [← returns_pure.1 h]
    simp [hlen, webhookIncrementalJob, newJob, hg, WebhookTarget.eventOf]

/-- `_build_source_reindex_job`: the fleet refresh and the rebuild. -/
def buildSourceReindexJob (src : SourceRecord) : JobDict :=
  let expanded := if src.path ≠ "" then fs.expanduser src.path else ""
  let kind := resolveReindexKind src.kind (src.url ≠ "") (fs.isFile expanded)
  let label := if src.url ≠ "" then src.url else if src.path ≠ "" then src.path else src.id
  { newJob n kind src.id label with
    sourceUrl := src.url
    sourcePath := if src.url ≠ "" then "" else expanded
    sourceBranch := src.branch
    createdBy := src.createdBy }

end Producers

/-! ### The worker -/

inductive Runner
  | indexFile (path : String)
  | indexDirectory (directory pattern : String)
  | indexRepo (path url branch : String) (skipGraph : Bool)
  | indexGraph (sourceId : String)
  | incremental (sourceId repoUrl branch : String) (changedFiles : List Change)
  | resummarize (sourceId : String)
  deriving DecidableEq, Repr

def allFiles : String := "**/*"

def JobRow.target (job : JobRow) : String :=
  if job.sourcePath ≠ "" then job.sourcePath else job.source

def JobRow.pattern (job : JobRow) : String :=
  (job.options.pattern.filter fun p => p ≠ "").getD allFiles

/-- `dispatch_job`. -/
def dispatchJob (fs : FileSystem) (job : JobRow) : Option Runner :=
  match job.kind with
  | .file =>
    if job.target = "" ∨ fs.pathExists job.target = false then none
    else some (.indexFile job.target)
  | .directory =>
    if job.target = "" ∨ fs.isDir job.target = false then none
    else some (.indexDirectory job.target job.pattern)
  | .repo =>
    if job.sourcePath = "" ∧ job.sourceUrl = "" then none
    else some (.indexRepo job.sourcePath job.sourceUrl job.sourceBranch job.options.skipGraph)
  | .graph => if job.sourceId = "" then none else some (.indexGraph job.sourceId)
  | .incremental =>
    if job.payload.changedFiles = [] then none
    else
      let branch := if job.payload.branch ≠ "" then job.payload.branch else job.sourceBranch
      if job.sourceUrl = "" ∨ job.sourceId = "" then none
      else some (.incremental job.sourceId job.sourceUrl branch job.payload.changedFiles)
  | .resummarize => if job.sourceId = "" then none else some (.resummarize job.sourceId)

/-- What a job's worker sees of the machine. -/
def Looks (fs : FileSystem) (kind : JobKind) : (o : Op) → o.Answer → Prop
  | .ask (.pathExists p), (r : ℕ) =>
    r = 0 ↔ (if kind = .file then fs.pathExists p else fs.isDir p) = true
  | _, _ => True

lemma isSome_dispatchPath {fs : FileSystem} {kind : JobKind} {t : String} {run : JobStore.Act Unit}
    {r : Option (JobStore.Act Unit)}
    (h : Returns (Looks fs kind) (Runners.dispatchPath t run) r) :
    r.isSome = !(t = "" || (if kind = .file then fs.pathExists t else fs.isDir t) = false) := by
  unfold Runners.dispatchPath at h
  split at h
  · rename_i ht
    rw [← returns_pure.1 h, ht]
    rfl
  · rename_i ht
    obtain ⟨n, hn, h⟩ := returns_op.1 h
    change Returns _ (if n = 0 then pure (some run) else pure none) r at h
    have hn : n = 0 ↔ (if kind = .file then fs.pathExists t else fs.isDir t) = true := hn
    split at h
    · rename_i h0
      rw [← returns_pure.1 h]
      simp [ht, hn.1 h0]
    · rename_i h0
      rw [← returns_pure.1 h]
      simpa [ht] using fun hh => h0 (hn.2 hh)

/-- The worker of the shared tables gets a runner for the same jobs. -/
lemma isSome_dispatchJob {fs : FileSystem} {job : JobRow} {r : Option (JobStore.Act Unit)}
    (h : Returns (Looks fs job.kind) (Runners.dispatchJob job.toJob) r) :
    r.isSome = (dispatchJob fs job).isSome := by
  unfold Runners.dispatchJob at h
  unfold dispatchJob
  have htarget : Runners.targetPath job.toJob = job.target := by
    unfold Runners.targetPath JobRow.target
    by_cases hp : job.sourcePath = "" <;> simp [hp]
  cases hk : job.kind with
  | file =>
    rw [hk] at h
    rw [isSome_dispatchPath h, htarget]
    by_cases ht : job.target = "" <;> by_cases hf : fs.pathExists job.target = true <;>
      simp [ht, hf]
  | directory =>
    rw [hk] at h
    rw [isSome_dispatchPath h, htarget]
    by_cases ht : job.target = "" <;> by_cases hf : fs.isDir job.target = true <;> simp [ht, hf]
  | repo =>
    rw [hk] at h
    dsimp only at h ⊢
    split at h <;> rename_i hc <;> rw [← returns_pure.1 h] <;> simp [hc]
  | graph =>
    rw [hk] at h
    dsimp only at h ⊢
    split at h <;> rename_i hc <;> rw [← returns_pure.1 h] <;> simp [hc]
  | incremental =>
    rw [hk] at h
    dsimp only at h ⊢
    split at h <;> rename_i hc <;> rw [← returns_pure.1 h]
    · rcases hc with hc | hc | hc <;> simp [hc]
    · obtain ⟨h1, h2, h3⟩ := by simpa only [not_or] using hc
      simp [h1, h2, h3]
  | resummarize =>
    rw [hk] at h
    dsimp only at h ⊢
    split at h <;> rename_i hc <;> rw [← returns_pure.1 h] <;> simp [hc]

/-- Where the files of a source are. -/
inductive Origin
  | path (p : String)
  | clone (url branch : String)
  deriving DecidableEq, Repr

/-- What a runner reads, or nothing where it raises before it has read a file. -/
def Runner.reads (fs : FileSystem) (g : GitPolicy) (registry : String → Option SourceRecord) :
    Runner → Option Origin
  | .indexFile p => if fs.pathExists p then some (.path p) else none
  | .indexDirectory d _ => if fs.isDir d then some (.path d) else none
  | .indexRepo path url branch _ =>
    if url ≠ "" then if cloneable g url branch then some (.clone url branch) else none
    else if fs.isDir (fs.expanduser path) then some (.path (fs.expanduser path)) else none
  | .indexGraph sid =>
    (registry sid).bind fun record =>
      if record.path ≠ "" ∧ fs.pathExists record.path then some (.path record.path) else none
  | .incremental _ url branch changes =>
    if FileIndex.processPaths changes = [] ∨ cloneable g url branch then some (.clone url branch)
    else none
  | .resummarize _ => none

/-- A worker gets a runner for the row, and the runner reads from there. -/
def RunsOn (fs : FileSystem) (g : GitPolicy) (registry : String → Option SourceRecord)
    (job : JobRow) (o : Origin) : Prop :=
  ∃ r, dispatchJob fs job = some r ∧ r.reads fs g registry = some o

section RunsOn
variable {fs : FileSystem} {g : GitPolicy} {registry : String → Option SourceRecord}
  {job : JobRow} {o : Origin}

lemma runsOn_file (hk : job.kind = .file) :
    RunsOn fs g registry job o ↔ fs.pathExists job.target = true ∧ o = .path job.target := by
  unfold RunsOn dispatchJob
  rw [hk]
  by_cases h : fs.pathExists job.target = true
  · have hne := FileSystem.ne_empty_of_pathExists h
    simp [h, hne, Runner.reads, eq_comm (a := o)]
  · simp [h]

lemma runsOn_directory (hk : job.kind = .directory) :
    RunsOn fs g registry job o ↔ fs.isDir job.target = true ∧ o = .path job.target := by
  unfold RunsOn dispatchJob
  rw [hk]
  by_cases h : fs.isDir job.target = true
  · have hne := FileSystem.ne_empty_of_isDir h
    simp [h, hne, Runner.reads, eq_comm (a := o)]
  · simp [h]

/-- A URL goes before a path. -/
lemma runsOn_repo (hk : job.kind = .repo) : RunsOn fs g registry job o ↔
    if job.sourceUrl ≠ "" then
      cloneable g job.sourceUrl job.sourceBranch = true ∧ o = .clone job.sourceUrl job.sourceBranch
    else job.sourcePath ≠ "" ∧ fs.isDir (fs.expanduser job.sourcePath) = true ∧
      o = .path (fs.expanduser job.sourcePath) := by
  unfold RunsOn dispatchJob
  rw [hk]
  by_cases hurl : job.sourceUrl = ""
  · by_cases hpath : job.sourcePath = ""
    · simp [hurl, hpath]
    · simp [hurl, hpath, Runner.reads, eq_comm (a := o)]
  · simp [hurl, Runner.reads, eq_comm (a := o)]

lemma runsOn_graph (hk : job.kind = .graph) (hid : job.sourceId ≠ "") :
    RunsOn fs g registry job o ↔ ∃ record, registry job.sourceId = some record ∧
      record.path ≠ "" ∧ fs.pathExists record.path = true ∧ o = .path record.path := by
  unfold RunsOn dispatchJob
  rw [hk]
  cases hr : registry job.sourceId with
  | none => simp [hid, Runner.reads, hr]
  | some record => simp [hid, Runner.reads, hr, and_assoc, eq_comm (a := o)]

lemma runsOn_incremental (hk : job.kind = .incremental) (hid : job.sourceId ≠ "")
    (hurl : job.sourceUrl ≠ "") (hbranch : job.payload.branch ≠ "") :
    RunsOn fs g registry job o ↔ job.payload.changedFiles ≠ [] ∧
      (FileIndex.processPaths job.payload.changedFiles = [] ∨
        cloneable g job.sourceUrl job.payload.branch = true) ∧
      o = .clone job.sourceUrl job.payload.branch := by
  unfold RunsOn dispatchJob
  rw [hk]
  by_cases hnil : job.payload.changedFiles = []
  · simp [hnil]
  · simp [hnil, hid, hurl, hbranch, Runner.reads, or_iff_not_imp_left,
      eq_comm (a := o)]

end RunsOn

/-! ### Provenance of records that were indexed without it -/

structure Provenance where
  commitSha : String
  url : String
  branch : String

/-- What the backfill finds out about a record, if it updates it. `resolve` asks git about the
working tree at a path; the commit is empty where there is none. -/
def planSource (resolve : String → Provenance) (force : Bool) (record : SourceRecord) :
    Option Provenance :=
  let path := strip record.path
  if path = "" then none
  else if record.commitSha ≠ "" ∧ force = false then none
  else if (resolve path).commitSha = "" then none
  else some (resolve path)

/-- The id, the path and the kind stay. -/
def applyUpdate (record : SourceRecord) (outcome : Provenance) : SourceRecord :=
  { record with
    commitSha := outcome.commitSha
    url := if outcome.url ≠ "" then outcome.url else record.url
    branch := if outcome.branch ≠ "" then outcome.branch else record.branch }

def backfill (resolve : String → Provenance) (force : Bool) (record : SourceRecord) :
    SourceRecord :=
  (planSource resolve force record).elim record (applyUpdate record)

/-! ### Every job runs -/

/-- What stores and enqueues a job. -/
inductive Trigger
  | indexFile (filePath : String) (skipGraph : Bool)
  | indexDirectory (directory : String) (options : Options)
  | indexRepo (path url branch : String) (options : Options)
  | indexGraph (record : SourceRecord)
  | webhook (registered : Bool) (p : WebhookPayload)
  | reindex (src : SourceRecord)

namespace Trigger

variable (fs : FileSystem) (g : GitPolicy) (registry : String → Option SourceRecord)

def job (n : Fresh) : Trigger → JobDict
  | indexFile filePath skipGraph => indexFileJob fs n filePath skipGraph
  | indexDirectory directory options => indexDirectoryJob fs n directory options
  | indexRepo path url branch options => indexRepoJob fs n path url branch options
  | indexGraph record => indexGraphJob n record
  | webhook registered p => webhookJob fs n registered p
  | reindex src => buildSourceReindexJob fs n src

/-- The checks of the request. -/
def Accepted : Trigger → Prop
  | indexFile filePath _ => fs.pathExists (fs.purePath filePath) = true
  | indexDirectory directory _ => fs.isDir directory = true
  | indexRepo path url branch _ => (path ≠ "" ∨ url ≠ "") ∧
      (url ≠ "" → isSafeGitUrl g url = true) ∧ startsWith "-" branch = false
  | indexGraph record => record.id ≠ "" ∧ registry record.id = some record
  | webhook _ p => p.repoUrl ≠ "" ∧ p.branch ≠ ""
  | reindex _ => True

def reindexPath (src : SourceRecord) : String :=
  if src.path ≠ "" then fs.expanduser src.path else ""

def reindexKind (src : SourceRecord) : JobKind :=
  resolveReindexKind src.kind (src.url ≠ "") (fs.isFile (reindexPath fs src))

/-- The source the job is for: a record that has a path was indexed from there. -/
def origin : Trigger → Origin
  | indexFile filePath _ => .path (fs.purePath filePath)
  | indexDirectory directory _ => .path directory
  | indexRepo path url branch _ =>
    if url ≠ "" then .clone url branch else .path (fs.expanduser path)
  | indexGraph record =>
    if record.path ≠ "" then .path record.path else .clone record.url record.branch
  | webhook _ p => .clone p.repoUrl p.branch
  | reindex src =>
    if src.path ≠ "" then .path (reindexPath fs src) else .clone src.url src.branch

/-- The files are still there; a remote is not looked at. -/
def Present : Trigger → Prop
  | indexFile filePath _ => fs.pathExists (fs.purePath filePath) = true
  | indexDirectory directory _ => fs.isDir directory = true
  | indexRepo path url _ _ => url ≠ "" ∨ fs.isDir (fs.expanduser path) = true
  | indexGraph record => record.path = "" ∨ fs.pathExists record.path = true
  | webhook _ _ => True
  | reindex src => src.path = "" ∨
      if reindexKind fs src = .file then fs.pathExists (reindexPath fs src) = true
      else fs.isDir (reindexPath fs src) = true

/-- A graph job has a path to walk, a change list some entry, a record only one place it could be
read from; and what is cloned may be. -/
def Runnable : Trigger → Prop
  | indexFile _ _ => True
  | indexDirectory _ _ => True
  | indexRepo _ _ _ _ => True
  | indexGraph record => record.path ≠ ""
  | webhook registered p =>
    if registered ∧ p.changedFiles.length ≤ maxChangedFiles then
      p.changedFiles ≠ [] ∧
        (FileIndex.processPaths p.changedFiles = [] ∨ cloneable g p.repoUrl p.branch = true)
    else cloneable g p.repoUrl p.branch = true
  | reindex src =>
    if src.path ≠ "" then
      src.url = "" ∨ (reindexKind fs src ≠ .repo ∧ src.url = reindexPath fs src)
    else reindexKind fs src = .repo ∧ cloneable g src.url src.branch = true

/-- A worker gets a runner for the stored row, and the runner reads the source. -/
def Runs (n : Fresh) (t : Trigger) : Prop :=
  RunsOn fs g registry (t.job fs n).fromDict (t.origin fs)

variable {fs g registry} {n : Fresh}

lemma runs_indexRepo {path url branch : String} {options : Options}
    (hsafe : url ≠ "" → isSafeGitUrl g url = true) (hbranch : startsWith "-" branch = false)
    (hdir : url ≠ "" ∨ fs.isDir (fs.expanduser path) = true) :
    Runs fs g registry n (.indexRepo path url branch options) := by
  refine (runsOn_repo rfl).2 ?_
  by_cases hurl : url = ""
  · have hdir := hdir.resolve_left fun h => h hurl
    have hne := FileSystem.ne_empty_of_isDir hdir
    simp [job, indexRepoJob, JobDict.fromDict, origin, hurl, hne, hdir, fs.expanduser_idem]
  · simp [job, indexRepoJob, JobDict.fromDict, origin, hurl, cloneable, hsafe hurl, hbranch]

lemma runs_indexGraph {record : SourceRecord} (hid : record.id ≠ "")
    (hreg : registry record.id = some record)
    (hp : record.path = "" ∨ fs.pathExists record.path = true) :
    Runs fs g registry n (.indexGraph record) ↔ record.path ≠ "" := by
  refine (runsOn_graph rfl hid).trans ?_
  by_cases hpath : record.path = ""
  · simp [job, indexGraphJob, newJob, JobDict.fromDict, hreg, hpath]
  · simp [job, indexGraphJob, newJob, JobDict.fromDict, hreg, hpath, origin, hp.resolve_left hpath]

lemma runs_webhook {registered : Bool} {p : WebhookPayload} (hurl : p.repoUrl ≠ "")
    (hbranch : p.branch ≠ "") :
    Runs fs g registry n (.webhook registered p) ↔ Runnable fs g (.webhook registered p) := by
  unfold Runs Runnable job webhookJob
  dsimp only
  split
  · have hsid : (webhookIncrementalJob fs n p).fromDict.sourceId ≠ "" :=
      makeSourceId_ne_empty fs "" p.repoUrl p.branch
    refine (runsOn_incremental rfl hsid hurl hbranch).trans ?_
    simp [webhookIncrementalJob, JobDict.fromDict, origin]
  · refine (runsOn_repo rfl).trans ?_
    simp [webhookRepoJob, JobDict.fromDict, origin, hurl]

lemma resolveReindexKind_cases (k : Option JobKind) (hasUrl pathIsFile : Bool) :
    resolveReindexKind k hasUrl pathIsFile = .file ∨
      resolveReindexKind k hasUrl pathIsFile = .directory ∨
      resolveReindexKind k hasUrl pathIsFile = .repo := by
  unfold resolveReindexKind indexKinds
  rcases k with _ | k
  · cases hasUrl <;> cases pathIsFile <;> simp
  · cases k <;> cases hasUrl <;> cases pathIsFile <;> simp [Option.filter]

/-- A worker that wants a file or a directory looks at the URL where there is one. -/
lemma target_reindex_iff {src : SourceRecord} {there : String → Bool}
    (hempty : there "" = false) (hp : src.path = "" ∨ there (reindexPath fs src) = true) :
    (there (job fs n (.reindex src)).fromDict.target = true ∧
      origin fs (.reindex src) = .path (job fs n (.reindex src)).fromDict.target) ↔
    src.path ≠ "" ∧ (src.url = "" ∨ src.url = reindexPath fs src) := by
  by_cases hpath : src.path = ""
  · simp [origin, hpath]
  · have hthere := hp.resolve_left hpath
    have hne : reindexPath fs src ≠ "" := by
      intro h
      rw [h, hempty] at hthere
      cases hthere
    have hpathRow : (job fs n (.reindex src)).fromDict.sourcePath =
        if src.url ≠ "" then "" else reindexPath fs src := rfl
    have hlabel : (job fs n (.reindex src)).fromDict.source =
        if src.url ≠ "" then src.url else if src.path ≠ "" then src.path else src.id := rfl
    by_cases hurl : src.url = ""
    · simp [JobRow.target, hpathRow, hurl, hne, hthere, origin, hpath]
    · simp only [JobRow.target, hpathRow, hlabel, ne_eq, hurl, not_false_eq_true, if_true,
        not_true_eq_false, if_false, origin, hpath, Origin.path.injEq, true_and, false_or]
      constructor
      · exact fun h => h.2.symm
      · exact fun h => ⟨h ▸ hthere, h.symm⟩

lemma runs_reindex {src : SourceRecord} (hp : Present fs (.reindex src)) :
    Runs fs g registry n (.reindex src) ↔ Runnable fs g (.reindex src) := by
  have hkind : (job fs n (.reindex src)).fromDict.kind = reindexKind fs src := rfl
  have hunsafe : cloneable g "" src.branch = false := by simp [cloneable, isSafeGitUrl]
  have hpresent : src.path = "" ∨ if reindexKind fs src = .file then
      fs.pathExists (reindexPath fs src) = true else fs.isDir (reindexPath fs src) = true := hp
  have hrunnable : Runnable fs g (.reindex src) ↔ if src.path ≠ "" then
      src.url = "" ∨ (reindexKind fs src ≠ .repo ∧ src.url = reindexPath fs src)
    else reindexKind fs src = .repo ∧ cloneable g src.url src.branch = true := Iff.rfl
  rw [hrunnable]
  unfold Runs
  rcases resolveReindexKind_cases src.kind (src.url ≠ "") (fs.isFile (reindexPath fs src)) with
    hk | hk | hk
  · have hk : reindexKind fs src = .file := hk
    rw [hk] at hkind hpresent ⊢
    have hempty : fs.pathExists "" = false := by
      rw [FileSystem.pathExists, fs.isFile_empty, fs.isDir_empty]
      rfl
    rw [runsOn_file hkind, target_reindex_iff hempty (by simpa using hpresent)]
    by_cases hpath : src.path = "" <;> simp [hpath]
  · have hk : reindexKind fs src = .directory := hk
    rw [hk] at hkind hpresent ⊢
    rw [runsOn_directory hkind, target_reindex_iff fs.isDir_empty (by simpa using hpresent)]
    by_cases hpath : src.path = "" <;> simp [hpath]
  · have hk : reindexKind fs src = .repo := hk
    rw [hk] at hkind hpresent ⊢
    have hpathRow : (job fs n (.reindex src)).fromDict.sourcePath =
        if src.url ≠ "" then "" else reindexPath fs src := rfl
    have hurlRow : (job fs n (.reindex src)).fromDict.sourceUrl = src.url := rfl
    have hbranchRow : (job fs n (.reindex src)).fromDict.sourceBranch = src.branch := rfl
    rw [runsOn_repo hkind, hpathRow, hurlRow, hbranchRow]
    by_cases hpath : src.path = ""
    · by_cases hurl : src.url = ""
      · simp [hpath, hurl, reindexPath, hunsafe]
      · simp [hpath, hurl, origin]
    · have hdir : fs.isDir (reindexPath fs src) = true := by simpa [hpath] using hpresent
      have hidem : fs.expanduser (reindexPath fs src) = reindexPath fs src := by
        simp [reindexPath, hpath, fs.expanduser_idem]
      by_cases hurl : src.url = ""
      · simp [hpath, hurl, origin, hidem, hdir, FileSystem.ne_empty_of_isDir hdir]
      · simp [hpath, hurl, origin]

end Trigger

open Trigger

/-- **Every stored job runs** and reads its source exactly when its trigger is one of these: a
request for a path or a repository; a graph job of a record with a path; a webhook with a change,
of a repository that may be cloned; a re-index of a record with only a path, or only a URL. -/
theorem runs_iff (fs : FileSystem) (g : GitPolicy) (registry : String → Option SourceRecord)
    (n : Fresh) (t : Trigger) (ha : t.Accepted fs g registry) (hp : t.Present fs) :
    t.Runs fs g registry n ↔ t.Runnable fs g := by
  cases t with
  | indexFile filePath skipGraph =>
    have hthere : fs.pathExists (fs.purePath filePath) = true := hp
    have hne := FileSystem.ne_empty_of_pathExists hthere
    refine iff_of_true ((runsOn_file rfl).2 ?_) trivial
    simp [JobRow.target, job, indexFileJob, JobDict.fromDict, hne, origin, hthere]
  | indexDirectory directory options =>
    have hthere : fs.isDir directory = true := hp
    have hne := FileSystem.ne_empty_of_isDir hthere
    refine iff_of_true ((runsOn_directory rfl).2 ?_) trivial
    simp [JobRow.target, job, indexDirectoryJob, JobDict.fromDict, hne, origin, hthere]
  | indexRepo path url branch options =>
    exact iff_of_true (runs_indexRepo ha.2.1 ha.2.2 hp) trivial
  | indexGraph record => exact runs_indexGraph ha.1 ha.2 hp
  | webhook registered p => exact runs_webhook ha.1 ha.2
  | reindex src => exact runs_reindex hp

/-! ### A directory whose URL was filled in -/

/-- A machine with one directory, `/repo`. -/
def oneDirectory : FileSystem :=
  ⟨id, id, id, fun _ => false, fun p => p = "/repo", rfl, rfl, WebhookTarget.id_idem⟩

def anyHost : GitPolicy := ⟨fun _ => some "github.com", fun _ => false, []⟩

def fresh : Fresh := ⟨1, 0, none, some "u"⟩

def indexedDirectory : SourceRecord :=
  ⟨makeSourceId oneDirectory "/repo" "" "", "/repo", "", "", some .directory, "", none⟩

/-- A directory is indexed again where it is. -/
theorem runs_directory_record :
    (Trigger.reindex indexedDirectory).Runs oneDirectory anyHost (fun _ => none) fresh :=
  (runs_iff oneDirectory anyHost (fun _ => none) fresh (.reindex indexedDirectory) trivial
    (.inr rfl)).2 (.inl rfl)

/-- The record of a directory in a working tree, after the backfill. -/
def backfilled : SourceRecord :=
  backfill (fun _ => ⟨"c0ffee", "https://github.com/o/r", "main"⟩) false indexedDirectory

/-- The directory is still there, and the worker gets no runner for the job. -/
theorem backfilled_directory_never_runs : ¬∀ (fs : FileSystem) (g : GitPolicy)
    (registry : String → Option SourceRecord) (n : Fresh) (t : Trigger),
    t.Accepted fs g registry → t.Present fs → t.Runs fs g registry n := by
  intro hclaim
  obtain ⟨r, hr, -⟩ := hclaim oneDirectory anyHost (fun _ => none) fresh (.reindex backfilled)
    trivial (.inr (by decide +kernel))
  revert hr
  have hnone : (dispatchJob oneDirectory
      ((Trigger.reindex backfilled).job oneDirectory fresh).fromDict).isNone = true := by
    decide +kernel
  rw [Option.isNone_iff_eq_none.1 hnone]
  simp

end Treeweft.Dispatch
