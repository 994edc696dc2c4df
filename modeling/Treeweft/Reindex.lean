import Treeweft.RequestOptions

/-!
Indexing a source again from its record in the registry.

What a run is given of the request's options is on its job. The record that the run saves has a
place for the kind and for whether there is a graph; the job that is built from the record reads
the kind.
-/

namespace Treeweft.Reindex

open Treeweft.Jobs Treeweft.SourceId Treeweft.Dispatch Treeweft.RequestOptions

/-! ### The files of a run -/

/-- A deployment and what is in its places; a home directory is never empty. `rglob` says whether a
glob matches a file below the directory. -/
structure Machine where
  fs : FileSystem
  expanduser_ne_empty : ∀ p, p ≠ "" → fs.expanduser p ≠ ""
  tools : Indexer.Tools
  rglob : String → List String → Bool
  featureSkipPatterns : Bool
  tree : Origin → FileIndex.Tree

namespace Machine

variable (m : Machine)

def everyFile : List String := ["", "**/*", "**"]

def wanted (pattern : Option String) (f : List String) : Bool :=
  pattern.all fun p => p ∈ everyFile || m.rglob p f

def patterns (skip_patterns : List String) : List String :=
  if m.featureSkipPatterns then skip_patterns else []

def skipped (skip_patterns : List String) (f : List String) : Bool :=
  (m.patterns skip_patterns).any fun pat =>
    m.tools.fnmatch (f.getLastD "") pat || m.tools.fnmatch ("/".intercalate f) pat

/-- `_collect_files`, by their paths below the directory. -/
def collectFiles (o : Origin) (skip_patterns : List String) (pattern : Option String) :
    List (List String) :=
  ((FileIndex.collectFiles m.tools (m.patterns skip_patterns) (m.tree o)).map Prod.fst).filter
    (m.wanted pattern)

variable {m} {o : Origin} {skip_patterns : List String} {pattern : Option String} {f : List String}

lemma mem_collectFiles : f ∈ m.collectFiles o skip_patterns pattern ↔
    f ∈ m.collectFiles o [] none ∧ m.wanted pattern f = true ∧
      m.skipped skip_patterns f = false := by
  have hwalked : ∀ skips : List String, FileIndex.walked m.tools (m.patterns skips) f =
      (FileIndex.walked m.tools (m.patterns []) f && !m.skipped skips f) := by
    intro skips
    have hnil : m.patterns [] = [] := by simp [patterns]
    simp [FileIndex.walked, skipped, hnil]
  have hmem : ∀ skips, f ∈ (FileIndex.collectFiles m.tools (m.patterns skips) (m.tree o)).map
      Prod.fst ↔ (∃ c, (f, c) ∈ (m.tree o).files) ∧
        FileIndex.walked m.tools (m.patterns skips) f = true := by
    intro skips
    simp [FileIndex.mem_collectFiles]
  simp only [collectFiles, List.mem_filter, hmem, hwalked skip_patterns, Bool.and_eq_true,
    Bool.not_eq_true']
  simp only [wanted, Option.all_none, and_true]
  tauto

end Machine

/-- Where a repository is read from. -/
def place (m : Machine) (req : RepoJobSpec) : Origin :=
  if req.url ≠ "" then .clone req.url req.branch else .path (m.fs.expanduser req.path)

/-- The files that a run indexes: what it is given and what it finds there. -/
def indexed (m : Machine) : Execution → List (Origin × List String)
  | .file path _ => [(.path path, [])]
  | .directory d pattern skip_patterns _ =>
    (m.collectFiles (.path d) skip_patterns (some pattern)).map fun f => (.path d, f)
  | .repo req skip_patterns =>
    (m.collectFiles (place m req) skip_patterns none).map fun f => (place m req, f)

/-! ### The record of a run -/

structure IndexedRecord extends SourceRecord where
  graph_indexed : Bool
  deriving DecidableEq, Repr

/-- The record that `_finalize_job` saves of a run of one of the three kinds. -/
def finalizeJob (commit_sha : String) (job : LiveDict) : IndexedRecord :=
  ⟨⟨job.sourceId, job.sourcePath, job.sourceUrl, job.sourceBranch, some job.kind, commit_sha,
    job.createdBy⟩, !job.skip_graph.getD false⟩

/-- A run of a job that was stored as `d`: any life of the job, a `Job` that was read in it, and what
the runner finds. -/
structure Run (d : LiveDict) where
  steps : List Step
  job : JobRow
  read : job ∈ (life d steps).jobs
  dispatchFs : FileSystem
  execution : Execution
  dict : LiveDict
  dispatched : dispatch dispatchFs job = some (execution, dict)
  active : Option String
  commit_sha : String

namespace Run

variable {d : LiveDict} (run : Run d)

def record : IndexedRecord := finalizeJob run.commit_sha (foundBranch run.active run.dict)

lemma copy : Copy d.toJobRow run.job := (copies_life d run.steps).jobs run.job run.read

lemma dict_eq : run.dict.toJobRow = run.job := toJobRow_of_dispatch run.dispatched

/-- The record is of the kind and the path, or the URL and its branch, of the job. -/
lemma record_source : run.record.path = d.sourcePath ∧ run.record.url = d.sourceUrl ∧
    run.record.kind = some d.kind ∧ (d.sourceUrl ≠ "" → run.record.branch = d.sourceBranch) := by
  have hfound : Copy d.toJobRow (foundBranch run.active run.dict).toJobRow := by
    refine Copy.foundBranch ?_ run.active
    rw [run.dict_eq]
    exact run.copy
  exact ⟨hfound.sourcePath, hfound.sourceUrl, congrArg some hfound.kind, fun hurl =>
    hfound.branch.resolve_right fun h => hurl h.2.1⟩

lemma record_graph_indexed : run.record.graph_indexed = !d.options.skipGraph := by
  have hfound : (foundBranch run.active run.dict).skip_graph = run.dict.skip_graph := by
    unfold foundBranch
    split <;> rfl
  rw [record, finalizeJob, hfound, dict_of_dispatch run.dispatched, (restored run.job).2,
    run.copy.options]

end Run

/-! ### Both runs -/

section Both
variable {m : Machine} {n : Fresh} {src : SourceRecord}

/-- The job of a record has no options, and its worker expands the path again. -/
lemma given_reindex (run : Run (live (buildSourceReindexJob m.fs n src))) {k : JobKind}
    (hk : src.kind = some k) (hindex : k ∈ indexKinds) :
    (k = .file → src.url = "" → src.path ≠ "" →
      run.execution = .file (m.fs.expanduser src.path) false) ∧
    (k = .directory → src.url = "" → src.path ≠ "" →
      run.execution = .directory (m.fs.expanduser src.path) allFiles [] false) ∧
    (k = .repo → ∃ b, (src.url ≠ "" → b = src.branch) ∧ run.execution = .repo
      ⟨if src.url ≠ "" then "" else Trigger.reindexPath m.fs src, src.url, b, false, false⟩ []) := by
  have hkind : run.job.kind = k := by
    refine run.copy.kind.trans ?_
    change resolveReindexKind src.kind _ _ = k
    rw [hk, resolveReindexKind]
    simp [Option.filter, hindex]
  have hoptions : run.job.options = noOptions := run.copy.options
  have hurl : run.job.sourceUrl = src.url := run.copy.sourceUrl
  have hpath : run.job.sourcePath = if src.url ≠ "" then "" else Trigger.reindexPath m.fs src :=
    run.copy.sourcePath
  have hbranch : src.url ≠ "" → run.job.sourceBranch = src.branch := fun hne =>
    run.copy.branch.resolve_right fun h => hne h.2.1
  have htarget : src.url = "" → src.path ≠ "" → run.job.target = m.fs.expanduser src.path := by
    intro hu hp
    have hexpanded : Trigger.reindexPath m.fs src = m.fs.expanduser src.path := if_pos hp
    rw [JobRow.target, hpath, hu, if_neg (not_not.2 rfl), hexpanded,
      if_pos (m.expanduser_ne_empty _ hp)]
  have hgiven := given_of_dispatch run.dispatched
  rw [given, hkind] at hgiven
  refine ⟨?_, ?_, ?_⟩
  · rintro rfl hu hp
    rw [htarget hu hp, hoptions] at hgiven
    exact (Option.some.inj hgiven).symm
  · rintro rfl hu hp
    rw [htarget hu hp, JobRow.pattern, hoptions] at hgiven
    exact (Option.some.inj hgiven).symm
  · rintro rfl
    rw [hpath, hurl, hoptions] at hgiven
    exact ⟨_, hbranch, (Option.some.inj hgiven).symm⟩

/-- The same files, and a graph or none again. -/
def SameShape (m : Machine) {d d' : LiveDict} (run : Run d) (again : Run d') : Prop :=
  (∀ x, x ∈ indexed m again.execution ↔ x ∈ indexed m run.execution) ∧
    again.record.graph_indexed = run.record.graph_indexed

/-- No option of the request leaves anything out, and the path of a file stays as it is when it is
expanded. -/
def Plain (m : Machine) : Request → Prop
  | .file path _ skip_graph => skip_graph = false ∧
      m.fs.expanduser (m.fs.purePath (m.fs.expanduser path)) =
        m.fs.purePath (m.fs.expanduser path)
  | .directory d pattern _ skip_patterns skip_graph => skip_graph = false ∧
      ∀ f ∈ m.collectFiles (.path (m.fs.expanduser d)) [] none,
        m.wanted (some pattern) f = true ∧ m.skipped (skip_patterns.getD []) f = false
  | .repo path url branch _ skip_patterns skip_graph => skip_graph = false ∧
      ∀ f ∈ m.collectFiles (if url ≠ "" then .clone url branch else .path (m.fs.expanduser path))
        [] none, m.skipped (skip_patterns.getD []) f = false

/-- Two walks of one place find the same files if the options of one leave nothing out. -/
lemma same_files_iff {o : Origin} {skip_patterns : List String} {pattern pattern' : Option String}
    (hall : ∀ f, m.wanted pattern' f = true) :
    (∀ x, x ∈ (m.collectFiles o [] pattern').map (fun f => (o, f)) ↔
      x ∈ (m.collectFiles o skip_patterns pattern).map fun f => (o, f)) ↔
    ∀ f ∈ m.collectFiles o [] none,
      m.wanted pattern f = true ∧ m.skipped skip_patterns f = false := by
  have hnone : ∀ f, m.skipped [] f = false := fun f => by simp [Machine.skipped, Machine.patterns]
  have hmem : ∀ (skips : List String) (p : Option String) (f : List String),
      (o, f) ∈ (m.collectFiles o skips p).map (fun f => (o, f)) ↔ f ∈ m.collectFiles o [] none ∧
        m.wanted p f = true ∧ m.skipped skips f = false := by
    intro skips p f
    rw [← Machine.mem_collectFiles]
    simp
  constructor
  · intro h f hf
    exact ((hmem _ _ f).1 ((h (o, f)).1 ((hmem _ _ f).2 ⟨hf, hall f, hnone f⟩))).2
  · rintro h ⟨o', f⟩
    by_cases ho : o' = o
    · subst ho
      rw [hmem, hmem]
      exact ⟨fun hf => ⟨hf.1, h f hf.1⟩, fun hf => ⟨hf.1, hall f, hnone f⟩⟩
    · exact iff_of_false (by simp [Ne.symm ho]) (by simp [Ne.symm ho])

/-- The place of the request, and again that of the job of its record. -/
lemma place_again {path url branch b : String} (hgiven : path ≠ "" ∨ url ≠ "")
    (hpath : src.path = if url ≠ "" then "" else m.fs.expanduser path) (hurl : src.url = url)
    (hb : url ≠ "" → b = branch) :
    place m ⟨if src.url ≠ "" then "" else Trigger.reindexPath m.fs src, src.url, b, false, false⟩ =
      if url ≠ "" then .clone url branch else .path (m.fs.expanduser path) := by
  rw [place, hurl]
  by_cases hu : url = ""
  · have hne : m.fs.expanduser path ≠ "" :=
      m.expanduser_ne_empty path (hgiven.resolve_right fun h => h hu)
    simp [hu, Trigger.reindexPath, hpath, hne, m.fs.expanduser_idem]
  · simp [hu, hb hu]

lemma graph_iff {d d' : LiveDict} (run : Run d) (again : Run d') (h : d'.options = noOptions) :
    again.record.graph_indexed = run.record.graph_indexed ↔ d.options.skipGraph = false := by
  rw [again.record_graph_indexed, run.record_graph_indexed, h]
  cases d.options.skipGraph <;> simp [noOptions]

end Both

/-- **A source keeps its shape** when it is indexed again from its record, if and only if the
options of its request leave nothing out. -/
theorem same_shape_iff {m : Machine} {g : GitPolicy} {n n' : Fresh} {r : Request}
    (ha : r.Accepted m.fs g) (run : Run (build m.fs m.featureSkipPatterns n r))
    (again : Run (live (buildSourceReindexJob m.fs n' run.record.toSourceRecord))) :
    SameShape m run again ↔ Plain m r := by
  have hgraph := graph_iff run again rfl
  rw [build_options] at hgraph
  obtain ⟨hpath, hurl, hkind, hbranch⟩ := run.record_source
  have hrun := executed ha run.copy run.dispatched
  have hgated : ∀ (s : List String) (f : List String),
      m.skipped (if m.featureSkipPatterns then s else []) f = m.skipped s f := by
    intro s f
    cases hfeature : m.featureSkipPatterns <;> simp [Machine.skipped, Machine.patterns, hfeature]
  unfold SameShape
  rw [hgraph, and_comm]
  cases r with
  | file path force skip_graph =>
    have hthere : m.fs.pathExists (m.fs.purePath (m.fs.expanduser path)) = true := ha
    have hpath : run.record.path = m.fs.purePath (m.fs.expanduser path) := hpath
    have hkind : run.record.kind = some .file := hkind
    have hne : run.record.path ≠ "" := hpath ▸ FileSystem.ne_empty_of_pathExists hthere
    have hagain := (given_reindex again hkind (by decide)).1 rfl hurl hne
    have hrun : run.execution = asked m.fs m.featureSkipPatterns (.file path force skip_graph) :=
      hrun
    rw [hrun, hagain, hpath]
    refine and_congr_right fun _ => ?_
    simp [indexed, asked, Prod.ext_iff]
  | directory directory pattern force skip_patterns skip_graph =>
    have hthere : m.fs.isDir (m.fs.expanduser directory) = true := ha
    have hpath : run.record.path = m.fs.expanduser directory := hpath
    have hkind : run.record.kind = some .directory := hkind
    have hne : run.record.path ≠ "" := hpath ▸ FileSystem.ne_empty_of_isDir hthere
    have hagain := (given_reindex again hkind (by decide)).2.1 rfl hurl hne
    have hrun : run.execution = asked m.fs m.featureSkipPatterns
      (.directory directory pattern force skip_patterns skip_graph) := hrun
    rw [hrun, hagain, hpath, m.fs.expanduser_idem]
    refine and_congr_right fun _ => (same_files_iff fun f => ?_).trans ?_
    · rfl
    · refine forall₂_congr fun f _ => ?_
      have hpattern : m.wanted (some (if pattern = "" then allFiles else pattern)) f =
          m.wanted (some pattern) f := by
        by_cases hp : pattern = ""
        · rw [if_pos hp, hp]
          rfl
        · rw [if_neg hp]
      rw [hpattern, hgated]
  | repo path url branch force skip_patterns skip_graph =>
    have hpath : run.record.path = if url ≠ "" then "" else
      if url ≠ "" then url else m.fs.expanduser path := hpath
    have hurl : run.record.url = url := hurl
    have hkind : run.record.kind = some .repo := hkind
    obtain ⟨b, hb, hrun⟩ := hrun
    obtain ⟨b', hb', hagain⟩ := (given_reindex again hkind (by decide)).2.2 rfl
    have hpath : run.record.path = if url ≠ "" then "" else m.fs.expanduser path := by
      rw [hpath]
      by_cases hu : url = "" <;> simp [hu]
    have hbranch : url ≠ "" → run.record.branch = branch := hbranch
    have hplace := place_again ha.1 hpath hurl fun hu => (hb' (by rwa [hurl])).trans (hbranch hu)
    have hfirst : place m ⟨if url = "" then m.fs.expanduser path else "", url, b, false,
        skip_graph⟩ = if url ≠ "" then .clone url branch else .path (m.fs.expanduser path) := by
      by_cases hu : url = ""
      · simp [place, hu, m.fs.expanduser_idem]
      · simp [place, hu, hb (.inl hu)]
    rw [hrun, hagain]
    refine and_congr_right fun _ => ?_
    simp only [indexed, asked]
    rw [hplace, hfirst]
    refine (same_files_iff fun f => rfl).trans (forall₂_congr fun f _ => ?_)
    rw [hgated]
    exact and_iff_right rfl

/-! ### A program and its notes -/

/-- One directory with `app.py` and `notes.md`; the glob is for Python files. -/
def site : Machine where
  fs := oneDirectory
  expanduser_ne_empty _ h := h
  tools := ⟨fun _ _ => none, fun _ _ => none, fun _ p => p, fun _ _ => false⟩
  rglob _ f := f = ["app.py"]
  featureSkipPatterns := true
  tree _ := ⟨⟨[(["app.py"], "x = 1"), (["notes.md"], "# x")], by decide⟩, by
    intro f hf
    rcases List.mem_cons.1 hf with rfl | hf
    · exact ⟨by decide, by decide⟩
    · rw [List.mem_singleton.1 hf]
      exact ⟨by decide, by decide⟩⟩

/-- The run of a job that is read from its first row. -/
def firstRun (d : LiveDict) (e : Execution) (h : dispatch oneDirectory (upsert none d) =
    some (e, (restoreRequestOptions (live (upsert none d).toDict)).1)) : Run d :=
  ⟨[.persist 0, .read], upsert none d, List.mem_singleton_self _, oneDirectory, e, _, h, none, ""⟩

def wholeDirectory : Request := .directory "/repo" "**/*" false none false

def wholeRun : Run (build oneDirectory true fresh wholeDirectory) :=
  firstRun _ (.directory "/repo" "**/*" [] false) rfl

theorem wholeDirectory_same_shape :
    SameShape site wholeRun (firstRun
      (live (buildSourceReindexJob oneDirectory fresh wholeRun.record.toSourceRecord))
      (.directory "/repo" "**/*" [] false) rfl) :=
  (same_shape_iff (m := site) (g := anyHost) (r := wholeDirectory) rfl wholeRun _).2
    ⟨rfl, fun _ _ => ⟨rfl, rfl⟩⟩

def pythonFiles : Request := .directory "/repo" "**/*.py" false none false

def pythonRun : Run (build oneDirectory true fresh pythonFiles) :=
  firstRun _ (.directory "/repo" "**/*.py" [] false) rfl

/-- The notes are not Python, and are indexed the second time. -/
theorem pattern_not_kept : ¬∀ (m : Machine) (g : GitPolicy) (n n' : Fresh) (r : Request)
    (_ : r.Accepted m.fs g) (run : Run (build m.fs m.featureSkipPatterns n r))
    (again : Run (live (buildSourceReindexJob m.fs n' run.record.toSourceRecord))),
    SameShape m run again := by
  intro hclaim
  have h := (hclaim site anyHost fresh fresh pythonFiles rfl pythonRun (firstRun
    (live (buildSourceReindexJob oneDirectory fresh pythonRun.record.toSourceRecord))
    (.directory "/repo" "**/*" [] false) rfl)).1 (.path "/repo", ["notes.md"])
  revert h
  decide +kernel

end Treeweft.Reindex
