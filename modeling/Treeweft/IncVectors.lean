import Treeweft.FileIndex

/-!
Incremental against full indexing, for the chunks of a URL source.

A full run leaves its chunks under absolute paths that no change list ever names, so the
incremental jobs add to it and take nothing from it: what is stored in the end is the union of
the first tree's chunks with what the last read of each path left. The comparison with a full
index of the last tree is then a comparison path by path.
-/

namespace Treeweft.IncVectors

open Treeweft.Paths Treeweft.Indexer Treeweft.VectorStore Treeweft.FileIndex

/-! ### What a change list says -/

/-- One entry of a pull request's file list. The list names the new path of a rename only. -/
inductive Diff
  | added (path : List String)
  | modified (path : List String)
  | removed (path : List String)
  | renamed (old new : List String)
  deriving DecidableEq, Repr

/-- `normalize_changed_files`: the old path of a rename is dropped. -/
def normalize : Diff → Change
  | .added p => ⟨.rel p, .added⟩
  | .modified p => ⟨.rel p, .modified⟩
  | .removed p => ⟨.rel p, .removed⟩
  | .renamed _ new => ⟨.rel new, .renamed⟩

/-- The paths an entry says something about. -/
def Diff.paths : Diff → List (List String)
  | .added p => [p]
  | .modified p => [p]
  | .removed p => [p]
  | .renamed old new => [old, new]

/-- The entry is true of the two trees. -/
def Diff.Holds (t t' : Tree) : Diff → Prop
  | .added p => t.content p = none ∧ t'.content p ≠ none
  | .modified p => t.content p ≠ none ∧ t'.content p ≠ none
  | .removed p => t.content p ≠ none ∧ t'.content p = none
  | .renamed old new => t.content old ≠ none ∧ t'.content old = none ∧
      t.content new = none ∧ t'.content new ≠ none

instance (t t' : Tree) (d : Diff) : Decidable (d.Holds t t') := by
  cases d <;> unfold Diff.Holds <;> infer_instance

/-- The list describes the difference of two trees: its entries are true, and a path it does
not mention has one content in both. -/
def Describes (t t' : Tree) (ds : List Diff) : Prop :=
  (∀ d ∈ ds, d.Holds t t') ∧ ∀ p, p ∉ ds.flatMap Diff.paths → t.content p = t'.content p

/-- One incremental job: a clone of the new tree and the change list that led to it. -/
structure Step where
  clone : Clone
  diffs : List Diff

/-- Each change list describes the difference between the trees around it. -/
def Chain : Tree → List Step → Tree → Prop
  | t, [], t' => t = t'
  | t, s :: ss, t' => Describes t s.clone.tree s.diffs ∧ Chain s.clone.tree ss t'

def touched (ss : List Step) : List (List String) := ss.flatMap fun s => s.diffs.flatMap Diff.paths

lemma content_eq_of_untouched {t t' : Tree} {ss : List Step} (h : Chain t ss t')
    {p : List String} (hp : p ∉ touched ss) : t.content p = t'.content p := by
  induction ss generalizing t with
  | nil => rw [show t = t' from h]
  | cons s ss ih =>
    obtain ⟨hd, hc⟩ := h
    simp only [touched, List.flatMap_cons, List.mem_append, not_or] at hp
    rw [hd.2 p hp.1]
    exact ih hc hp.2

/-! ### What is stored -/

/-- A stored chunk as a search result names it. -/
structure Key where
  path : List String
  startLine : ℕ
  endLine : ℕ
  text : String
  deriving DecidableEq, Repr

/-- The key of a row of the source: an absolute path under `root` is read back as the path in
the repository. -/
def keyOf (root : List String) (sid : String) (r : Row) : Option Key :=
  if r.sourceId = sid then
    match r.filePath with
    | .rel ps => some ⟨ps, r.startLine, r.endLine, r.chunkText⟩
    | .abs full =>
      if root <+: full then
        some ⟨full.drop root.length, r.startLine, r.endLine, r.chunkText⟩
      else none
  else none

def view (root : List String) (sid : String) (t : Table) : List Key := t.filterMap (keyOf root sid)

variable (tools : Tools)

/-- Line range and text under which a chunk is stored. -/
def stored (c : Chunk) : ℕ × ℕ × String :=
  (c.startLine, c.endLine, String.ofList (c.text.toList.take maxTextLen))

/-- The chunks a full index stores for a path of a tree. -/
def fullChunks (skipPatterns : List String) (t : Tree) (p : List String) :
    List (ℕ × ℕ × String) :=
  match t.content p with
  | none => []
  | some source =>
    if walked tools skipPatterns p then
      (parseAndChunk tools (.rel p) source).map fun c => stored (truncateChunk c)
    else []

/-- The chunks an incremental job stores for a path of a tree. -/
def incChunks (t : Tree) (p : List String) : List (ℕ × ℕ × String) :=
  match t.content p with
  | none => []
  | some source => (parseAndChunk tools (.rel p) source).map stored

/-- The paths of a change list the job removes, and those it reads again. -/
def isRemoved (ds : List Diff) (p : List String) : Bool := Diff.removed p ∈ ds
def isRead (ds : List Diff) (p : List String) : Bool := Diff.added p ∈ ds ∨ Diff.modified p ∈ ds

/-- What a job leaves under a relative path, given what it found there. -/
def leave (found : List String → List (ℕ × ℕ × String)) (s : Step) (p : List String) :
    List (ℕ × ℕ × String) :=
  if isRead s.diffs p then incChunks tools s.clone.tree p
  else if isRemoved s.diffs p then []
  else found p

/-- What a sequence of jobs leaves under a relative path: the last read of it, unless a removal
came after. -/
def left (ss : List Step) : List String → List (ℕ × ℕ × String) :=
  ss.foldl (leave tools) fun _ => []

lemma left_of_untouched {ss : List Step} {p : List String} (hp : p ∉ touched ss) :
    left tools ss p = [] := by
  have key : ∀ (ss : List Step) (found : List String → List (ℕ × ℕ × String)),
      p ∉ touched ss → ss.foldl (leave tools) found p = found p := by
    intro ss
    induction ss with
    | nil => exact fun found _ => rfl
    | cons s ss ih =>
      intro found hp
      simp only [touched, List.flatMap_cons, List.mem_append, not_or] at hp
      have hn : ∀ d ∈ s.diffs, p ∉ d.paths := fun d hd h =>
        hp.1 (List.mem_flatMap.2 ⟨d, hd, h⟩)
      have hr : isRead s.diffs p = false := by
        simp only [isRead, decide_eq_false_iff_not, not_or]
        exact ⟨fun h => hn _ h (by simp [Diff.paths]), fun h => hn _ h (by simp [Diff.paths])⟩
      have hm : isRemoved s.diffs p = false := by
        simp only [isRemoved, decide_eq_false_iff_not]
        exact fun h => hn _ h (by simp [Diff.paths])
      rw [List.foldl_cons, ih _ hp.2, leave, hr, hm]
      rfl
  exact key ss _ hp

/-- The runs of the incremental jobs, none of which meets a fault. -/
def runSteps (sid : String) (ss : List Step) (st : Stores) : Stores :=
  ss.foldl (fun st s =>
    (runIncrementalIndex tools sid (some s.clone) Faults.none (s.diffs.map normalize) st).1) st

/-- A full index of the first tree and the jobs after it store what a full index of the last
tree stores. -/
def RefinesFull (sid : String) (skipPatterns : List String) (skipGraph : Bool) (first : Clone)
    (ss : List Step) (last : Clone) (st : Stores) : Prop :=
  ∀ k, k ∈ view first.root sid
      (runSteps tools sid ss (runIndexRepo tools sid skipPatterns skipGraph first st)).vectors ↔
    k ∈ view last.root sid (runIndexRepo tools sid skipPatterns skipGraph last st).vectors

/-- A path whose chunks come out right: none of the first tree's chunks for it is stale, what
the jobs left for it is current, and between them nothing is missing. -/
structure Settled (skipPatterns : List String) (t : Tree) (ss : List Step) (t' : Tree)
    (p : List String) : Prop where
  stale : ∀ k ∈ fullChunks tools skipPatterns t p, k ∈ fullChunks tools skipPatterns t' p
  fresh : ∀ k ∈ left tools ss p, k ∈ fullChunks tools skipPatterns t' p
  covered : ∀ k ∈ fullChunks tools skipPatterns t' p,
    k ∈ fullChunks tools skipPatterns t p ∨ k ∈ left tools ss p

/-! ### What the runs leave, read back -/

def Key.chunk (k : Key) : ℕ × ℕ × String := (k.startLine, k.endLine, k.text)

lemma mem_view {root : List String} {sid : String} {t : Table} {k : Key} :
    k ∈ view root sid t ↔ ∃ r ∈ t, keyOf root sid r = some k := by
  rw [view, List.mem_filterMap]

lemma keyOf_rowOf_abs (root : List String) (sid : String) (ps : List String) {c : Chunk}
    (hc : c.filePath = .abs (root ++ ps)) :
    keyOf root sid (rowOf sid c) = some ⟨ps, (stored c).1, (stored c).2.1, (stored c).2.2⟩ := by
  simp [keyOf, rowOf, hc, stored]

lemma stored_relocate (q : FilePath) (c : Chunk) :
    stored (truncateChunk (c.relocate q)) = stored (truncateChunk c) := by
  unfold truncateChunk Chunk.relocate stored
  dsimp only
  split <;> rfl

/-- A full index shows, path by path, the chunks of its tree. -/
lemma mem_view_runIndexRepo (sid : String) (skip : List String) (sg : Bool) (clone : Clone)
    (st : Stores) {k : Key} :
    k ∈ view clone.root sid (runIndexRepo tools sid skip sg clone st).vectors ↔
      k.chunk ∈ fullChunks tools skip clone.tree k.path := by
  rw [mem_view]
  constructor
  · rintro ⟨r, hr, hk⟩
    rcases (mem_runIndexRepo tools).1 hr with ⟨-, hne⟩ | ⟨f, hf, c, hc, rfl⟩
    · simp [keyOf, hne] at hk
    · obtain ⟨hft, hw⟩ := (mem_collectFiles tools).1 hf
      have hcp : (truncateChunk c).filePath = .abs (clone.root ++ f.1) := by
        rw [truncateChunk_filePath, parseAndChunk_filePath tools hc, Clone.path]
      rw [keyOf_rowOf_abs _ _ _ hcp, Option.some.injEq] at hk
      subst hk
      have hcont : clone.tree.content f.1 = some f.2 := Tree.content_eq_some.2 hft
      have hname := clone.name_path (Tree.plain_of_content hcont).1
      rw [Clone.path, parseAndChunk_relocate tools hname.symm] at hc
      obtain ⟨d, hd, rfl⟩ := List.mem_map.1 hc
      simp only [fullChunks, hcont, hw, if_true, Key.chunk, List.mem_map]
      exact ⟨d, hd, (stored_relocate _ d).symm⟩
  · intro h
    unfold fullChunks at h
    split at h
    · cases h
    · rename_i source hcont
      split at h
      · rename_i hw
        obtain ⟨d, hd, hdk⟩ := List.mem_map.1 h
        have hname := clone.name_path (Tree.plain_of_content hcont).1
        have hc : d.relocate (clone.path k.path) ∈
            parseAndChunk tools (clone.path k.path) source := by
          rw [Clone.path, parseAndChunk_relocate tools hname.symm]
          exact List.mem_map_of_mem hd
        refine ⟨_, (mem_runIndexRepo tools).2 (.inr ⟨(k.path, source), (mem_collectFiles tools).2
          ⟨Tree.content_eq_some.1 hcont, hw⟩, _, hc, rfl⟩), ?_⟩
        rw [keyOf_rowOf_abs _ _ k.path (by rw [truncateChunk_filePath]; rfl),
          stored_relocate, hdk]
        rfl
      · cases h

/-! ### One job -/

lemma mem_removedPaths {ds : List Diff} {p : FilePath} :
    p ∈ removedPaths (ds.map normalize) ↔ ∃ ps, p = .rel ps ∧ isRemoved ds ps = true := by
  simp only [removedPaths, List.mem_map, List.mem_filter, decide_eq_true_eq, isRemoved]
  constructor
  · rintro ⟨ch, ⟨⟨d, hd, rfl⟩, ha⟩, rfl⟩
    cases d <;> first | exact ⟨_, rfl, hd⟩ | cases ha
  · rintro ⟨ps, rfl, h⟩
    exact ⟨_, ⟨⟨_, h, rfl⟩, rfl⟩, rfl⟩

/-- The paths a job reads are relative ones, and exactly those added or modified. -/
lemma processPaths_eq (ds : List Diff) : ∃ qs : List (List String),
    processPaths (ds.map normalize) = qs.map FilePath.rel ∧ ∀ ps, ps ∈ qs ↔ isRead ds ps = true := by
  induction ds with
  | nil => exact ⟨[], rfl, by simp [isRead]⟩
  | cons d ds ih =>
    obtain ⟨qs, hqs, hmem⟩ := ih
    have hcons : processPaths ((d :: ds).map normalize) =
        processPaths [normalize d] ++ processPaths (ds.map normalize) := by
      simp only [processPaths, List.map_cons, ← List.map_append, ← List.filter_append]
      rfl
    have hr : ∀ ps, isRead (d :: ds) ps = true ↔
        (d = .added ps ∨ d = .modified ps) ∨ isRead ds ps = true := by
      intro ps
      simp only [isRead, List.mem_cons, decide_eq_true_eq, eq_comm (a := d)]
      tauto
    rw [hcons, hqs]
    cases d with
    | added p =>
      exact ⟨p :: qs, rfl, fun ps => by
        simp only [hr, List.mem_cons, hmem, Diff.added.injEq, reduceCtorEq, or_false,
          eq_comm (a := p)]⟩
    | modified p =>
      exact ⟨p :: qs, rfl, fun ps => by
        simp only [hr, List.mem_cons, hmem, Diff.modified.injEq, reduceCtorEq, false_or,
          eq_comm (a := p)]⟩
    | removed p => exact ⟨qs, rfl, fun ps => by rw [hr, hmem]; simp⟩
    | renamed p q => exact ⟨qs, rfl, fun ps => by rw [hr, hmem]; simp⟩

/-- A path that is read exists in the new tree. -/
lemma content_of_isRead {t t' : Tree} {ds : List Diff} (h : Describes t t' ds) {ps : List String}
    (hr : isRead ds ps = true) : t'.content ps ≠ none := by
  simp only [isRead, decide_eq_true_eq] at hr
  rcases hr with hr | hr
  · exact (h.1 _ hr).2
  · exact (h.1 _ hr).2

/-- What one job does to the table: the rows under a path it names go, and the rows of what it
reads come. -/
lemma mem_runIncrementalIndex {sid : String} {t : Tree} {s : Step}
    (hd : Describes t s.clone.tree s.diffs) (st : Stores) {r : Row} :
    r ∈ (runIncrementalIndex tools sid (some s.clone) Faults.none
        (s.diffs.map normalize) st).1.vectors ↔
      (r ∈ st.vectors ∧ ¬(r.sourceId = sid ∧ ∃ ps, r.filePath = .rel ps ∧
        (isRemoved s.diffs ps = true ∨ isRead s.diffs ps = true))) ∨
      ∃ ps, isRead s.diffs ps = true ∧ r ∈ incRows tools sid s.clone.tree ps := by
  obtain ⟨qs, hqs, hmem⟩ := processPaths_eq s.diffs
  have hq : ∀ ps ∈ qs, s.clone.tree.content ps ≠ none := fun ps h =>
    content_of_isRead hd ((hmem ps).1 h)
  unfold runIncrementalIndex
  dsimp only
  rw [hqs]
  split
  · rename_i hnil
    have hno : ∀ ps, isRead s.diffs ps ≠ true := by
      intro ps h
      have := (hmem ps).2 h
      simp [List.map_eq_nil_iff.1 hnil] at this
    rw [mem_removeFiles]
    simp [hno, mem_removedPaths]
  · rw [mem_processChanges tools qs hq, mem_removeFiles]
    simp only [mem_removedPaths, ← hmem]
    constructor
    · rintro (⟨⟨hr, h1⟩, h2⟩ | h)
      · refine .inl ⟨hr, ?_⟩
        rintro ⟨hs, ps, hp, hrem | hread⟩
        · exact h1 ⟨hs, ps, hp, hrem⟩
        · exact h2 ⟨hs, ps, hread, hp⟩
      · exact .inr h
    · rintro (⟨hr, hn⟩ | h)
      · exact .inl ⟨⟨hr, fun ⟨hs, ps, hp, hrem⟩ => hn ⟨hs, ps, hp, .inl hrem⟩⟩,
          fun ⟨hs, ps, hread, hp⟩ => hn ⟨hs, ps, hp, .inr hread⟩⟩
      · exact .inr h

/-! ### A run of jobs -/

def rowChunk (r : Row) : ℕ × ℕ × String := (r.startLine, r.endLine, r.chunkText)

lemma mem_incChunks (sid : String) {t : Tree} {ps : List String} {x : ℕ × ℕ × String} :
    x ∈ incChunks tools t ps ↔ ∃ r ∈ incRows tools sid t ps, rowChunk r = x := by
  unfold incChunks incRows
  cases t.content ps with
  | none => simp
  | some source => simp [rowChunk, rowOf, stored]

/-- The table after some jobs: the absolute rows are the ones `t₀` had, and the source's rows
under a relative path are those in `found`. -/
structure Holds (sid : String) (t₀ : Table) (found : List String → List (ℕ × ℕ × String))
    (t : Table) : Prop where
  rel : ∀ ps x, (∃ r ∈ t, r.sourceId = sid ∧ r.filePath = .rel ps ∧ rowChunk r = x) ↔
    x ∈ found ps
  abs : ∀ r : Row, r.filePath.isAbs = true → (r ∈ t ↔ r ∈ t₀)

lemma holds_step {sid : String} {t₀ : Table} {found : List String → List (ℕ × ℕ × String)}
    {t : Tree} {s : Step} (hd : Describes t s.clone.tree s.diffs) {st : Stores}
    (h : Holds sid t₀ found st.vectors) :
    Holds sid t₀ (leave tools found s) (runIncrementalIndex tools sid (some s.clone) Faults.none
      (s.diffs.map normalize) st).1.vectors := by
  refine ⟨fun ps x => ?_, fun r hr => ?_⟩
  · simp only [mem_runIncrementalIndex tools hd]
    unfold leave
    split
    · -- the job reads the path
      rename_i hread
      rw [mem_incChunks tools sid]
      constructor
      · rintro ⟨r, ⟨-, hn⟩ | ⟨qs, -, hr⟩, hs, hp, hx⟩
        · exact absurd ⟨hs, ps, hp, .inr hread⟩ hn
        · have := (of_mem_incRows tools hr).2
          rw [hp, FilePath.rel.injEq] at this
          exact ⟨r, this ▸ hr, hx⟩
      · rintro ⟨r, hr, hx⟩
        exact ⟨r, .inr ⟨ps, hread, hr⟩, (of_mem_incRows tools hr).1, (of_mem_incRows tools hr).2, hx⟩
    · rename_i hread
      have hno : ∀ r, r.filePath = .rel ps → ¬∃ qs, isRead s.diffs qs = true ∧
          r ∈ incRows tools sid s.clone.tree qs := by
        rintro r hp ⟨qs, hq, hr⟩
        have := (of_mem_incRows tools hr).2
        rw [hp, FilePath.rel.injEq] at this
        exact hread (this ▸ hq)
      split
      · -- the job removes it
        rename_i hrem
        simp only [List.not_mem_nil, iff_false]
        rintro ⟨r, ⟨-, hn⟩ | hr, hs, hp, -⟩
        · exact hn ⟨hs, ps, hp, .inl hrem⟩
        · exact hno r hp hr
      · -- the job does not name it
        rename_i hrem
        rw [← h.rel ps x]
        constructor
        · rintro ⟨r, ⟨hr, -⟩ | hr, hs, hp, hx⟩
          · exact ⟨r, hr, hs, hp, hx⟩
          · exact absurd hr (hno r hp)
        · rintro ⟨r, hr, hs, hp, hx⟩
          refine ⟨r, .inl ⟨hr, ?_⟩, hs, hp, hx⟩
          rintro ⟨-, qs, hq, hor⟩
          rw [hp, FilePath.rel.injEq] at hq
          subst hq
          rcases hor with h1 | h1
          · exact hrem h1
          · exact hread h1
  · rw [mem_runIncrementalIndex tools hd, ← h.abs r hr]
    constructor
    · rintro (⟨h1, -⟩ | ⟨qs, -, h1⟩)
      · exact h1
      · rw [(of_mem_incRows tools h1).2] at hr
        cases hr
    · intro h1
      refine .inl ⟨h1, ?_⟩
      rintro ⟨-, qs, hq, -⟩
      rw [hq] at hr
      cases hr

lemma holds_runSteps {sid : String} {t₀ : Table} {t t' : Tree} {ss : List Step}
    (hc : Chain t ss t') {found : List String → List (ℕ × ℕ × String)} {st : Stores}
    (h : Holds sid t₀ found st.vectors) :
    Holds sid t₀ (ss.foldl (leave tools) found) (runSteps tools sid ss st).vectors := by
  induction ss generalizing t found st with
  | nil => exact h
  | cons s ss ih => exact ih hc.2 (holds_step tools hc.1 h)

/-- A full index leaves no row of the source under a relative path. -/
lemma holds_runIndexRepo (sid : String) (skip : List String) (sg : Bool) (clone : Clone)
    (st : Stores) :
    Holds sid (runIndexRepo tools sid skip sg clone st).vectors (fun _ => [])
      (runIndexRepo tools sid skip sg clone st).vectors := by
  refine ⟨fun ps x => ?_, fun r _ => Iff.rfl⟩
  simp only [List.not_mem_nil, iff_false]
  rintro ⟨r, hr, hs, hp, -⟩
  rcases (mem_runIndexRepo tools).1 hr with ⟨-, hne⟩ | ⟨f, -, c, hc, rfl⟩
  · exact hne hs
  · rw [rowOf, truncateChunk_filePath, parseAndChunk_filePath tools hc] at hp
    cases hp

/-- What a full index and the jobs after it show: the first tree's chunks, and what the jobs
left. -/
lemma mem_view_runSteps {sid : String} {skip : List String} {sg : Bool} {first : Clone}
    {ss : List Step} {t' : Tree} (hc : Chain first.tree ss t') {st : Stores} {k : Key} :
    k ∈ view first.root sid
        (runSteps tools sid ss (runIndexRepo tools sid skip sg first st)).vectors ↔
      k.chunk ∈ fullChunks tools skip first.tree k.path ∨ k.chunk ∈ left tools ss k.path := by
  have h := holds_runSteps tools hc
    (holds_runIndexRepo tools sid skip sg first st)
  rw [← mem_view_runIndexRepo tools sid skip sg first st, mem_view, mem_view]
  constructor
  · rintro ⟨r, hr, hk⟩
    cases hp : r.filePath with
    | abs full => exact .inl ⟨r, (h.abs r (by rw [hp]; rfl)).1 hr, hk⟩
    | rel ps =>
      by_cases hs : r.sourceId = sid
      · simp only [keyOf, hs, if_true, hp, Option.some.injEq] at hk
        subst hk
        exact .inr ((h.rel ps _).1 ⟨r, hr, hs, hp, rfl⟩)
      · simp [keyOf, hs] at hk
  · rintro (⟨r, hr, hk⟩ | hx)
    · refine ⟨r, (h.abs r ?_).2 hr, hk⟩
      cases hp : r.filePath with
      | abs full => rfl
      | rel ps =>
        have hs : r.sourceId = sid := by
          by_contra hs
          simp [keyOf, hs] at hk
        have hnone := (holds_runIndexRepo tools sid skip sg first st).rel ps (rowChunk r)
        exact absurd (hnone.1 ⟨r, hr, hs, hp, rfl⟩) List.not_mem_nil
    · obtain ⟨r, hr, hs, hp, hx⟩ := (h.rel k.path k.chunk).2 hx
      refine ⟨r, hr, ?_⟩
      simp only [rowChunk, Key.chunk, Prod.mk.injEq] at hx
      simp [keyOf, hs, hp, hx.1, hx.2.1, hx.2.2]

/-- **When incremental indexing refines full indexing**: exactly when every path the change
lists mention comes out settled. -/
theorem refinesFull_iff (sid : String) (skip : List String) (sg : Bool) (first : Clone)
    (ss : List Step) (last : Clone) (hc : Chain first.tree ss last.tree) (st : Stores) :
    RefinesFull tools sid skip sg first ss last st ↔
      ∀ p ∈ touched ss, Settled tools skip first.tree ss last.tree p := by
  have hv : RefinesFull tools sid skip sg first ss last st ↔ ∀ k : Key,
      (k.chunk ∈ fullChunks tools skip first.tree k.path ∨ k.chunk ∈ left tools ss k.path) ↔
        k.chunk ∈ fullChunks tools skip last.tree k.path := by
    unfold RefinesFull
    simp only [mem_view_runSteps tools hc, mem_view_runIndexRepo tools]
  rw [hv]
  constructor
  · intro h p _
    have hp : ∀ x : ℕ × ℕ × String, (x ∈ fullChunks tools skip first.tree p ∨
        x ∈ left tools ss p) ↔ x ∈ fullChunks tools skip last.tree p :=
      fun x => h ⟨p, x.1, x.2.1, x.2.2⟩
    exact ⟨fun x hx => (hp x).1 (.inl hx), fun x hx => (hp x).1 (.inr hx), fun x hx => (hp x).2 hx⟩
  · intro h k
    by_cases hk : k.path ∈ touched ss
    · obtain ⟨h1, h2, h3⟩ := h _ hk
      exact ⟨fun hx => hx.elim (h1 _) (h2 _), h3 _⟩
    · rw [left_of_untouched tools hk, fullChunks, fullChunks, content_eq_of_untouched hc hk]
      simp

/-! ### A new file, and a changed one -/

/-- A chunker that keeps a file whole. -/
def wholeFile : Tools where
  chunk _ source := some [⟨source, 0, source.toList.length⟩]
  captures _ _ := none
  resolveImport _ p := p
  fnmatch _ _ := false

def emptyTree : Tree := ⟨.empty, by simp⟩

def oneFile (content : String) : Tree :=
  ⟨⟨[(["a.py"], content)], by simp⟩, by
    rintro f hf
    rw [List.mem_singleton.1 hf]
    simp [Plain]⟩

def cloneOf (dir : String) (h : Plain dir) (t : Tree) : Clone :=
  ⟨["tmp", dir], t, by
    intro s hs
    rcases List.mem_cons.1 hs with rfl | hs
    · decide
    · rw [List.mem_singleton.1 hs]; exact h⟩

lemma oneFile_content (c : String) (p : List String) :
    (oneFile c).content p = if p = ["a.py"] then some c else none := by
  split
  · rename_i h
    exact Tree.content_eq_some.2 (List.mem_singleton.2 (by rw [h]))
  · rename_i h
    rw [Tree.content, Option.map_eq_none_iff, Keyed.get?_eq_none]
    intro f hf
    rw [List.mem_singleton.1 hf]
    exact fun e => h e.symm

def newFile : Step := ⟨cloneOf "treeweft_inc_1" (by decide) (oneFile "x = 1"), [.added ["a.py"]]⟩

lemma chain_newFile : Chain emptyTree [newFile] (oneFile "x = 1") := by
  refine ⟨⟨by decide, fun p hp => ?_⟩, rfl⟩
  have hne : p ≠ ["a.py"] := by simpa [newFile, Diff.paths] using hp
  simp only [newFile, cloneOf, oneFile_content, if_neg hne]
  rfl

/-- A file that appears after the first full index is indexed right. -/
theorem refinesFull_of_new_file :
    RefinesFull wholeFile "s" [] true (cloneOf "treeweft_1" (by decide) emptyTree) [newFile]
      (cloneOf "treeweft_2" (by decide) (oneFile "x = 1")) Stores.init := by
  refine (refinesFull_iff wholeFile "s" [] true (cloneOf "treeweft_1" (by decide) emptyTree)
    [newFile] (cloneOf "treeweft_2" (by decide) (oneFile "x = 1")) chain_newFile Stores.init).2 ?_
  intro p hp
  have he : p = ["a.py"] := by simpa [touched, newFile, Diff.paths] using hp
  subst he
  exact ⟨by decide, by decide, by decide⟩

def changedFile : Step :=
  ⟨cloneOf "treeweft_inc_1" (by decide) (oneFile "y = 2"), [.modified ["a.py"]]⟩

/-- After a file changes, the chunk of its old content is still stored. -/
theorem modified_file_keeps_old_chunk :
    Chain (oneFile "x = 1") [changedFile] (oneFile "y = 2") ∧
    ¬RefinesFull wholeFile "s" [] true (cloneOf "treeweft_1" (by decide) (oneFile "x = 1"))
      [changedFile] (cloneOf "treeweft_2" (by decide) (oneFile "y = 2")) Stores.init := by
  refine ⟨⟨⟨by decide, fun p hp => ?_⟩, rfl⟩, fun h => ?_⟩
  · have hne : p ≠ ["a.py"] := by simpa [changedFile, Diff.paths] using hp
    simp only [changedFile, cloneOf, oneFile_content, if_neg hne]
  · have hold := (h ⟨["a.py"], 1, 1, "x = 1"⟩).1 (by decide)
    revert hold
    decide

end Treeweft.IncVectors
