import Treeweft.FileIndex
import Treeweft.PathResolution

/-!
The files an incremental run opens, in a clone with any symbolic links.

The paths of a change list are the strings a sender put there. `PathResolution` says where a
string leads; here is which of them the run opens.
-/

namespace Treeweft.CloneAccess

open Treeweft.FileIndex (Action)
open Treeweft.PathResolution

structure Change where
  path : PathResolution.Text
  action : Action
  deriving DecidableEq, Repr

/-- What comes of joining a path onto the clone. -/
inductive Resolution
  | raised
  | refused
  | inside (fullPath : PathResolution.Text)
  deriving DecidableEq, Repr

/-- `_resolve_inside_clone`. -/
def resolveInsideClone (tree : Tree) (steps : ℕ) (repoPath relPath : PathResolution.Text) : Resolution :=
  if relPath = [] ∨ isabs relPath then .refused
  else
    match realpath tree steps repoPath with
    | none => .raised
    | some root =>
      match realpath tree steps (join root relPath) with
      | none => .raised
      | some candidate =>
        if candidate ≠ root ∧ ¬ root ++ ['/'] <+: candidate then .refused else .inside candidate

/-- What the run meets at a file: the tree, whether parsing gives chunks, and whether they are
embedded and stored. -/
structure Moment where
  tree : Tree
  chunks : Bool
  stored : Bool

section Run
variable (detectLanguage : PathResolution.Text → Bool) (steps : ℕ) (repoPath : PathResolution.Text)

/-- The files opened for one entry, each with the tree it is opened in. Those of no known language
are not read; the graph step reads those that were stored once more. -/
def opens (m : Moment) (fullPath : PathResolution.Text) : List (Tree × PathResolution.Text) :=
  if isfile m.tree fullPath ∧ detectLanguage fullPath then
    (m.tree, fullPath) :: if m.chunks ∧ m.stored then [(m.tree, fullPath)] else []
  else []

/-- The loop over the added and modified files: what `_resolve_inside_clone` raises ends the
run. -/
def processFiles : (ℕ → Moment) → List PathResolution.Text → List (Tree × PathResolution.Text)
  | _, [] => []
  | env, p :: rest =>
    match resolveInsideClone (env 0).tree steps repoPath p with
    | .raised => []
    | .refused => processFiles (fun n => env (n + 1)) rest
    | .inside full =>
      opens detectLanguage (env 0) full ++ processFiles (fun n => env (n + 1)) rest

/-- What `_run_incremental_index` opens; `cloned` is false where the URL or the branch is refused or
cloning fails. -/
def runIncrementalIndex (cloned : Bool) (env : ℕ → Moment) (changedFiles : List Change) :
    List (Tree × PathResolution.Text) :=
  let process := changedFiles.filter fun f => f.action = .modified ∨ f.action = .added
  if cloned then processFiles detectLanguage steps repoPath env (process.map Change.path) else []

end Run

/-- The real path of `fullPath` is that of the clone's root or under it. -/
def InsideClone (tree : Tree) (repoPath fullPath : PathResolution.Text) : Prop :=
  ∀ root d, realPath tree repoPath = some root → realPath tree fullPath = some d → root <+: d

/-- The assumption on `realpath`: it resolves all links, of the clone's path and of the path joined
onto it. -/
structure Resolves (tree : Tree) (steps : ℕ) (repoPath relPath : PathResolution.Text) : Prop where
  root : ResolvesLinks tree steps repoPath
  joined : ∀ root, realpath tree steps repoPath = some root →
    ResolvesLinks tree steps (join root relPath)

/-- **Containment**: what resolves inside the clone is inside, by its real path. -/
lemma resolveInsideClone_inside {tree : Tree} {steps : ℕ} {repoPath relPath full : PathResolution.Text}
    (hlinks : Resolves tree steps repoPath relPath)
    (h : resolveInsideClone tree steps repoPath relPath = .inside full) :
    InsideClone tree repoPath full := by
  intro root d hroot hd
  unfold resolveInsideClone at h
  split_ifs at h
  split at h
  · cases h
  · rename_i r hr
    split at h
    · cases h
    · rename_i candidate hc
      split_ifs at h with hout
      obtain rfl := Resolution.inside.inj h
      obtain ⟨r', rfl, hr', hlead⟩ := realpath_spec hlinks.root hr
      obtain ⟨c', rfl, hc', -⟩ := realpath_spec (hlinks.joined _ hr) hc
      -- both ends are canonical, so the system ends where `realpath` did
      have hrroot : root = r' := (namei_leads _ _ _ _ hroot).unique hlead
      have hdc : d = c' := hc'.realPath_render hd
      subst hrroot hdc
      rcases not_and_or.mp hout with heq | hpre
      · rw [hc'.render_inj hr' (not_not.mp heq)]
      · exact render_prefix hr'.no_sep hc'.no_sep (not_not.mp hpre)

/-- A run that keeps resolving keeps opening files of the clone only. -/
lemma processFiles_inside {detectLanguage : PathResolution.Text → Bool} {steps : ℕ} {repoPath : PathResolution.Text}
    {paths : List PathResolution.Text} : ∀ {env : ℕ → Moment},
    (∀ n, ∀ p ∈ paths, Resolves (env n).tree steps repoPath p) →
      ∀ x ∈ processFiles detectLanguage steps repoPath env paths,
        InsideClone x.1 repoPath x.2 := by
  induction paths with
  | nil => exact fun _ x hx => absurd hx List.not_mem_nil
  | cons p rest ih =>
    intro env hlinks x hx
    have hrest : ∀ x ∈ processFiles detectLanguage steps repoPath (fun n => env (n + 1)) rest,
        InsideClone x.1 repoPath x.2 :=
      ih fun n q hq => hlinks (n + 1) q (List.mem_cons_of_mem _ hq)
    unfold processFiles at hx
    split at hx
    · exact absurd hx List.not_mem_nil
    · exact hrest x hx
    · rename_i full hfull
      rcases List.mem_append.mp hx with hx | hx
      · have hinside := resolveInsideClone_inside (hlinks 0 p List.mem_cons_self) hfull
        have heq : x = ((env 0).tree, full) := by
          unfold opens at hx
          split_ifs at hx with hread hstored
          · simpa using hx
          · exact List.mem_singleton.mp hx
          · exact absurd hx List.not_mem_nil
        rw [heq]
        exact hinside
      · exact hrest x hx

/-- **File access stays inside the clone**: whatever strings a change list holds and whatever links
the clone, every file an incremental run opens is inside the clone by its real path, where
`realpath` resolves all links. -/
theorem runIncrementalIndex_inside (detectLanguage : PathResolution.Text → Bool) (steps : ℕ) (repoPath : PathResolution.Text)
    (cloned : Bool) (env : ℕ → Moment) (changedFiles : List Change)
    (hlinks : ∀ n, ∀ f ∈ changedFiles, Resolves (env n).tree steps repoPath f.path) :
    ∀ x ∈ runIncrementalIndex detectLanguage steps repoPath cloned env changedFiles,
      InsideClone x.1 repoPath x.2 := by
  unfold runIncrementalIndex
  cases cloned with
  | false => exact fun x hx => absurd hx List.not_mem_nil
  | true =>
    refine processFiles_inside fun n p hp => ?_
    obtain ⟨f, hf, rfl⟩ := List.mem_map.mp hp
    exact hlinks n f (List.mem_filter.mp hf).1

/-! ### A clone with links -/

/-- A clone at `/c` with a link out of it, a link back into it and a link to itself. -/
def linkedClone : Tree := fun d =>
  if d = [] ∨ d = ["c".toList] ∨ d = ["c".toList, "src".toList] ∨ d = ["etc".toList] then
    some .directory
  else if d = ["c".toList, "src".toList, "a.py".toList] ∨ d = ["etc".toList, "b.py".toList] then
    some .file
  else if d = ["c".toList, "out".toList] then some (.link "../etc/b.py".toList)
  else if d = ["etc".toList, "back".toList] then some (.link "/c/src".toList)
  else if d = ["c".toList, "loop".toList] then some (.link "loop".toList)
  else none

/-- A path that leaves the clone and comes back is opened, one that ends outside is not. -/
theorem linkedClone_inside :
    (runIncrementalIndex (fun _ => true) 20 "/c".toList true (fun _ => ⟨linkedClone, true, true⟩)
        [⟨"out".toList, .added⟩, ⟨"../etc/back/a.py".toList, .modified⟩]).map Prod.snd =
      ["/c/src/a.py".toList, "/c/src/a.py".toList] ∧
    ∀ x ∈ runIncrementalIndex (fun _ => true) 20 "/c".toList true
        (fun _ => ⟨linkedClone, true, true⟩)
        [⟨"out".toList, .added⟩, ⟨"../etc/back/a.py".toList, .modified⟩],
      InsideClone x.1 "/c".toList x.2 := by
  refine ⟨by decide +kernel, ?_⟩
  refine runIncrementalIndex_inside _ _ _ _ _ _ fun _ f hf => ?_
  have hroot : realpath linkedClone 20 "/c".toList = some "/c".toList := by decide +kernel
  refine ⟨.of_resolved (d := ["c".toList]) (by decide +kernel), fun root hr => ?_⟩
  obtain rfl := Option.some.inj (hroot.symm.trans hr)
  rcases List.mem_pair.mp hf with rfl | rfl
  · exact .of_resolved (d := ["etc".toList, "b.py".toList]) (by decide +kernel)
  · exact .of_resolved (d := ["c".toList, "src".toList, "a.py".toList]) (by decide +kernel)

/-- What a link to itself does to the check: the walk stops there, and the rest of the path is not
looked at. -/
example :
    resolveInsideClone linkedClone 20 "/c".toList "loop/../out".toList =
        .inside "/c/out".toList ∧
      realPath linkedClone "/c/out".toList = some ["etc".toList, "b.py".toList] := by
  decide +kernel

end Treeweft.CloneAccess
