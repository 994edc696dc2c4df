import Treeweft.Connection
import Treeweft.GraphStore

/-!
The writes of the embedded graph store, statement by statement.

The store has one connection, and each operation commits at its end. A statement that raises, or a
caller that is cancelled, leaves the statements before it in the open transaction: nothing rolls it
back.
-/

namespace Treeweft.GraphTransaction

open Treeweft.Paths Treeweft.Extract Treeweft.GraphStore Treeweft.Connection

/-- The arguments of `store_graph`: the relationships with a valid type, and their endpoints in the
order in which the set of them is read. -/
structure StoreCall where
  entities : List Entity
  relationships : List Relationship
  sourceId : Option String
  endpoints : List EntityId
  endpoints_mem : ∀ i, i ∈ endpoints ↔
    ∃ r ∈ relationships, i = r.sourceId ∨ i = r.targetId

def insertSource (sid : String) (g : Graph) : Graph := { g with sources := g.sources.insertNew sid }

/-- A row of an `executemany` is a statement of its own. -/
def storeStatements (a : StoreCall) : List (Graph → Graph) :=
  let sid := a.sourceId.filter (· ≠ "")
  (if a.entities = [] then []
  else
    (sid.map insertSource).toList ++ a.entities.map upsertEntity ++
      (sid.map fun sid => a.entities.map fun e => linkEntity sid e.id).getD []) ++
  a.endpoints.map addEndpoint ++ (a.relationships.map fun r => typeTarget r.targetId) ++
    a.relationships.map addRelationship

def deleteRelationships (doomed : EntityId → Bool) (g : Graph) : Graph :=
  { g with relationships :=
      g.relationships.filter fun r => !(doomed r.sourceId || doomed r.targetId) }

def deleteRows (doomed : EntityId → Bool) (g : Graph) : Graph :=
  { g with entities := g.entities.filter fun e => !doomed e.id }

def deleteLinks (p : String × EntityId → Bool) (g : Graph) : Graph :=
  { g with sourceEntities := g.sourceEntities.filter fun se => !p se }

def deleteSourceRow (sid : String) (g : Graph) : Graph := { g with sources := g.sources.erase sid }

/-- The doomed entities and their neighbours are staged first, in temporary tables. -/
def deleteSourceStatements (sid : String) (g : Graph) : List (Graph → Graph) :=
  let doomed := exclusive g sid
  let staged := externalNeighbours doomed g
  [deleteRelationships doomed, deleteRows doomed, deleteStagedOrphans staged,
    deleteLinks fun se => se.1 = sid, deleteSourceRow sid]

def deleteByFileStatements (sid : String) (p : FilePath) (g : Graph) : List (Graph → Graph) :=
  let doomed := ofFile g sid p
  if g.entities.rows.all fun e => !doomed e.id then []
  else
    let staged := externalNeighbours doomed g
    [deleteRelationships doomed, deleteLinks fun se => doomed se.2, deleteRows doomed,
      deleteStagedOrphans staged]

inductive WriteOp
  | ensureSchema
  | upsertEntity (e : Entity)
  | storeGraph (a : StoreCall)
  | upsertSource (sid : String)
  | deleteSource (sid : String)
  | deleteEntitiesByFile (sid : String) (p : FilePath)
  | setCommunityIds (ids : List (EntityId × CommunityId))
  | upsertCommunitySummaries (cs : List Community)
  | deleteSourceCommunities (sid : String)

def statements : WriteOp → Tx Graph
  | .ensureSchema, _ => []
  | .upsertEntity e, _ => [upsertEntity e]
  | .storeGraph a, _ => storeStatements a
  | .upsertSource sid, _ => [insertSource sid]
  | .deleteSource sid, g => deleteSourceStatements sid g
  | .deleteEntitiesByFile sid p, g => deleteByFileStatements sid p g
  | .setCommunityIds ids, _ => ids.map fun x => setCommunityId x.1 x.2
  | .upsertCommunitySummaries cs, _ => cs.map upsertCommunitySummary
  | .deleteSourceCommunities sid, _ => [deleteSourceCommunities sid]

def IsWrite (tx : Tx Graph) : Prop := ∃ op, tx = statements op

/-! ### What a Whole Operation Does -/

lemma applyAll_map {α : Type} (f : α → Graph → Graph) (xs : List α) (g : Graph) :
    applyAll (xs.map f) g = xs.foldl (fun g x => f x g) g := by
  rw [applyAll, List.foldl_map]

/-- Read in the order of the relationships, the endpoints are those of the whole operation. -/
theorem storeGraph_statements (a : StoreCall) {sid : String} (hs : a.sourceId = some sid)
    (hne : sid ≠ "") (g : Graph)
    (he : ∀ g, a.endpoints.foldl (fun g i => addEndpoint i g) g =
      a.relationships.foldl (fun g r => addEndpoint r.targetId (addEndpoint r.sourceId g)) g) :
    applyAll (statements (.storeGraph a) g) g =
      GraphStore.storeGraph a.entities a.relationships sid g := by
  have hsid : a.sourceId.filter (· ≠ "") = some sid := by simp [hs, Option.filter, hne]
  simp only [statements, storeStatements, hsid, GraphStore.storeGraph]
  by_cases hes : a.entities = []
  · simp only [hes, if_true, List.nil_append, applyAll_append, applyAll_map, he, List.foldl_nil]
  · simp only [hes, if_false, Option.map_some, Option.toList_some, Option.getD_some,
      applyAll_append, applyAll_map, he]
    rfl

theorem deleteSource_statements (sid : String) (g : Graph) :
    applyAll (statements (.deleteSource sid) g) g = GraphStore.deleteSource sid g := by
  have hnot : (fun se : String × EntityId => !decide (se.1 = sid)) =
      fun se => decide (se.1 ≠ sid) := by
    funext se
    simp
  simp only [statements, deleteSourceStatements, applyAll, List.foldl_cons, List.foldl_nil,
    deleteSourceRow, deleteLinks, hnot]
  rfl

theorem deleteEntitiesByFile_statements (sid : String) (p : FilePath) (g : Graph) :
    applyAll (statements (.deleteEntitiesByFile sid p) g) g =
      GraphStore.deleteEntitiesByFile sid p g := by
  simp only [statements, deleteByFileStatements, GraphStore.deleteEntitiesByFile]
  split
  · rfl
  · rfl

/-! ### A Failure in the Middle -/

def moduleEntity : Entity where
  id := .module (.rel ["a.py"])
  type := .module
  name := "a.py"
  filePath := .rel ["a.py"]
  startLine := 1
  endLine := 1
  signature := ""
  language := "python"

/-- The graph of a file without relationships. -/
def oneModule : StoreCall where
  entities := [moduleEntity]
  relationships := []
  sourceId := some "s"
  endpoints := []
  endpoints_mem := by simp

end Treeweft.GraphTransaction
