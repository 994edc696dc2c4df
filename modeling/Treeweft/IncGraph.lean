import Treeweft.IncVectors

/-!
Incremental against full indexing, for the graph of a URL source.

Every run that stores entities for the source reads them from a clone, so the source owns
entities of absolute paths only, whatever else happens to the store. A path of the repository
therefore never has entities, which is right for a removed file and for no other.
-/

namespace Treeweft.IncGraph

open Treeweft.Paths Treeweft.Indexer Treeweft.Extract Treeweft.GraphStore Treeweft.FileIndex
open Treeweft.IncVectors (Diff Describes normalize)

/-! ### What a path has, and what it should have -/

/-- An entity row as `extract_graph` would give it back. -/
def toEntity (r : EntityRow) : Option Entity :=
  match r.type, r.name, r.filePath with
  | some t, some n, some p =>
    some ⟨r.id, t, n, p, r.startLine.getD 0, r.endLine.getD 0, r.signature.getD "",
      r.language.getD ""⟩
  | _, _, _ => none

/-- The entities stored for a path under a source. -/
def fileEntities (g : Graph) (sid : String) (p : FilePath) : List Entity :=
  (g.entities.rows.filter fun e => linked g sid e.id && e.filePath = some p).filterMap toEntity

variable (tools : Tools)

/-- The entities of a file; a later definition of an identifier replaces an earlier one. -/
def entitiesOf (p : FilePath) (source : String) : List Entity :=
  ((extractGraph tools p source).1.foldl (fun t e => t.put e)
    (Keyed.empty : Keyed Entity.id)).rows

/-- What an entry of the change list asks for: nothing for a removal, else the graph of the new
content. -/
def expected (t : Tree) (ch : Change) : List Entity :=
  if ch.action = .removed then []
  else
    match t.content ch.path.parts with
    | none => []
    | some source => entitiesOf tools ch.path source

/-- Every path of the change list has the entities of its new content. -/
def Matches (sid : String) (t : Tree) (changes : List Change) (g : Graph) : Prop :=
  ∀ ch ∈ changes, ∀ e, e ∈ fileEntities g sid ch.path ↔ e ∈ expected tools t ch

/-! ### The states of a store with a URL source -/

/-- The stores after any history in which the source `sid` is indexed from clones: its full and
incremental runs, files indexed for other sources, deletions, community signals. -/
inductive Reachable (sid : String) : Stores → Prop
  | init : Reachable sid Stores.init
  | full {st : Stores} (skip : List String) (skipGraph : Bool) (clone : Clone) :
      Reachable sid st → Reachable sid (runIndexRepo tools sid skip skipGraph clone st)
  | incremental {st : Stores} (clone : Option Clone) (faults : Faults) (changes : List Change) :
      Reachable sid st →
      Reachable sid (runIncrementalIndex tools sid clone faults changes st).1
  | other {st : Stores} (sid' : String) (p : FilePath) (source : String) : sid' ≠ sid →
      Reachable sid st → Reachable sid (graphIndexFile tools p source sid' st)
  | deleteSource {st : Stores} (sid' : String) : Reachable sid st →
      Reachable sid { st with graph := deleteSource sid' st.graph }
  | deleteFile {st : Stores} (sid' : String) (p : FilePath) : Reachable sid st →
      Reachable sid { st with graph := deleteEntitiesByFile sid' p st.graph }
  | community {st : Stores} (i : EntityId) (c : CommunityId) : Reachable sid st →
      Reachable sid { st with graph := setCommunityId i c st.graph }

/-- The source owns entities of absolute paths only. -/
def OwnsAbsolute (sid : String) (g : Graph) : Prop :=
  PathKeyed (fun s i => s = sid → i.path.isAbs = true) g

variable {tools} {sid : String}

lemma ownsAbsolute_graphIndexFile {p : FilePath} {source sid' : String} {st : Stores}
    (hp : sid' = sid → p.isAbs = true) (h : OwnsAbsolute sid st.graph) :
    OwnsAbsolute sid (graphIndexFile tools p source sid' st).graph :=
  pathKeyed_storeGraph (p := p) (fun e he =>
    have hk := extractGraph_keyedBy tools he
    ⟨hk, fun hs => by rw [hk.2]; exact hp hs⟩) h

lemma ownsAbsolute_processFile {sg : Bool} {p : FilePath} {source : String} {st : Stores}
    (hp : p.isAbs = true) (h : OwnsAbsolute sid st.graph) :
    OwnsAbsolute sid (processFile tools sid sg p source st).graph := by
  unfold processFile
  dsimp only
  split
  · exact h
  · split
    · exact h
    · exact ownsAbsolute_graphIndexFile (fun _ => hp) h

lemma ownsAbsolute_runIndexRepo {skip : List String} {sg : Bool} {clone : Clone} {st : Stores}
    (h : OwnsAbsolute sid st.graph) :
    OwnsAbsolute sid (runIndexRepo tools sid skip sg clone st).graph := by
  have key : ∀ (fs : List (List String × String)) (st : Stores), OwnsAbsolute sid st.graph →
      OwnsAbsolute sid (fs.foldl (fun st f =>
        processFile tools sid sg (clone.path f.1) f.2 st) st).graph := by
    intro fs
    induction fs with
    | nil => exact fun st h => h
    | cons f fs ih => exact fun st h => ih _ (ownsAbsolute_processFile rfl h)
  exact key _ _ (pathKeyed_deleteSource h)

lemma ownsAbsolute_processChange {clone : Clone} {faults : Faults} {p : FilePath}
    {s : Stores × Counters} (h : OwnsAbsolute sid s.1.graph) :
    OwnsAbsolute sid (processChange tools sid clone faults p s).1.graph := by
  obtain ⟨st, c⟩ := s
  unfold processChange
  dsimp only
  split
  · exact h
  · split
    · exact h
    · split
      · exact h
      · split
        · exact h
        · split
          · exact h
          · exact ownsAbsolute_graphIndexFile (fun _ => rfl) h

lemma ownsAbsolute_runIncrementalIndex {clone : Option Clone} {faults : Faults}
    {changes : List Change} {st : Stores} (h : OwnsAbsolute sid st.graph) :
    OwnsAbsolute sid (runIncrementalIndex tools sid clone faults changes st).1.graph := by
  have hrem : ∀ (ps : List FilePath) (st : Stores), OwnsAbsolute sid st.graph →
      OwnsAbsolute sid (ps.foldl (fun st p => removeFile sid p st) st).graph := by
    intro ps
    induction ps with
    | nil => exact fun st h => h
    | cons p ps ih => exact fun st h => ih _ (pathKeyed_deleteEntitiesByFile h)
  have hproc : ∀ (clone : Clone) (ps : List FilePath) (s : Stores × Counters),
      OwnsAbsolute sid s.1.graph → OwnsAbsolute sid (ps.foldl (fun s p =>
        processChange tools sid clone faults p s) s).1.graph := by
    intro clone ps
    induction ps with
    | nil => exact fun s h => h
    | cons p ps ih => exact fun s h => ih _ (ownsAbsolute_processChange h)
  unfold runIncrementalIndex
  dsimp only
  split
  · exact hrem _ _ h
  · cases clone with
    | none => exact hrem _ _ h
    | some clone => exact hproc _ _ _ (hrem _ _ h)

theorem ownsAbsolute_of_reachable {st : Stores} (h : Reachable tools sid st) :
    OwnsAbsolute sid st.graph := by
  induction h with
  | init => exact pathKeyed_empty
  | full skip sg clone _ ih => exact ownsAbsolute_runIndexRepo ih
  | incremental clone faults changes _ ih => exact ownsAbsolute_runIncrementalIndex ih
  | other sid' p source hne _ ih =>
    exact ownsAbsolute_graphIndexFile (fun h => absurd h hne) ih
  | deleteSource sid' _ ih => exact pathKeyed_deleteSource ih
  | deleteFile sid' p _ ih => exact pathKeyed_deleteEntitiesByFile ih
  | community i c _ ih => exact pathKeyed_setCommunityId ih

/-- No path of the repository has entities. -/
lemma fileEntities_rel {g : Graph} (h : OwnsAbsolute sid g) (ps : List String) :
    fileEntities g sid (.rel ps) = [] := by
  rw [fileEntities, List.filterMap_eq_nil_iff]
  intro r hr
  simp only [List.mem_filter, Bool.and_eq_true, decide_eq_true_eq, linked] at hr
  obtain ⟨hrg, hl, hp⟩ := hr
  have habs := h.member _ hl rfl
  rw [h.path r hrg _ hp] at habs
  cases habs

variable (tools) in
lemma entitiesOf_ne_nil (p : FilePath) (source : String) : entitiesOf tools p source ≠ [] := by
  have key : ∀ (es : List Entity) (t : Keyed Entity.id),
      (t.rows ≠ [] ∨ es ≠ []) → (es.foldl (fun t e => t.put e) t).rows ≠ [] := by
    intro es
    induction es with
    | nil => intro t h; exact h.resolve_right (by simp)
    | cons e es ih =>
      intro t _
      refine ih _ (.inl ?_)
      exact List.ne_nil_of_mem (Keyed.mem_put_self (x := e) (t := t))
  obtain ⟨e, he, -⟩ := extractGraph_module tools p source
  exact key _ _ (.inr (List.ne_nil_of_mem he))

open Treeweft.IncVectors (wholeFile oneFile emptyTree cloneOf changedFile)

/-- The store after a full index of a one-file repository. -/
def indexed : Stores :=
  runIndexRepo wholeFile "s" [] false (cloneOf "treeweft_1" (by decide) (oneFile "x = 1"))
    Stores.init

lemma describes_removal : Describes (oneFile "x = 1") emptyTree [.removed ["a.py"]] := by
  refine ⟨by decide, fun p hp => ?_⟩
  have hne : p ≠ ["a.py"] := by simpa [Diff.paths] using hp
  rw [IncVectors.oneFile_content, if_neg hne]
  rfl

end Treeweft.IncGraph
