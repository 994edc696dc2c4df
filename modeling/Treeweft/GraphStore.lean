import Treeweft.Extract
import Treeweft.Like
import Mathlib.Data.List.Dedup

/-!
The embedded graph store: entities, relationships, their membership in sources, communities.

An entity row belongs to any number of sources, so every deletion and every read says which
rows it means through `sourceEntities`. A row without a type is an endpoint some relationship
named before any file defined it.
-/

namespace Treeweft.GraphStore

open Treeweft.Paths Treeweft.Extract

/-- `<source id>#<n>`. -/
structure CommunityId where
  source : String
  n : ℕ
  deriving DecidableEq, Repr

/-- The identifier as the column holds it. -/
def CommunityId.text (c : CommunityId) : String := c.source ++ "#" ++ toString c.n

structure EntityRow where
  id : EntityId
  type : Option EntityType
  name : Option String
  filePath : Option FilePath
  startLine : Option ℕ
  endLine : Option ℕ
  signature : Option String
  language : Option String
  communityId : Option CommunityId
  deriving DecidableEq, Repr

structure Community where
  id : CommunityId
  summary : String
  deriving DecidableEq, Repr

structure Graph where
  entities : Keyed EntityRow.id
  relationships : Keyed (id : Relationship → Relationship)
  sourceEntities : Keyed (id : String × EntityId → String × EntityId)
  sources : Keyed (id : String → String)
  communities : Keyed Community.id

def empty : Graph := ⟨.empty, .empty, .empty, .empty, .empty⟩

def bare (i : EntityId) : EntityRow := ⟨i, none, none, none, none, none, none, none, none⟩

def linked (g : Graph) (sid : String) (i : EntityId) : Bool := (sid, i) ∈ g.sourceEntities.rows

/-- `_ENTITY_UPSERT`: every column but the community. -/
def upsertEntity (e : Entity) (g : Graph) : Graph :=
  { g with entities := g.entities.put ⟨e.id, some e.type, some e.name, some e.filePath,
      some e.startLine, some e.endLine, some e.signature, some e.language,
      (g.entities.get? e.id).bind EntityRow.communityId⟩ }

def linkEntity (sid : String) (i : EntityId) (g : Graph) : Graph :=
  { g with sourceEntities := g.sourceEntities.insertNew (sid, i) }

/-- Only a target that no file has typed becomes an external module. -/
def typeTarget (i : EntityId) (g : Graph) : Graph :=
  { g with
    entities := g.entities.map
      (fun e => if e.id = i ∧ e.type = none then { e with type := some .externalModule } else e)
      (fun e => by split <;> rfl) }

def addEndpoint (i : EntityId) (g : Graph) : Graph :=
  { g with entities := g.entities.insertNew (bare i) }

def addRelationship (r : Relationship) (g : Graph) : Graph :=
  { g with relationships := g.relationships.put r }

/-- Persist the graph of one file. -/
def storeGraph (es : List Entity) (rs : List Relationship) (sid : String) (g : Graph) : Graph :=
  let g := if es = [] then g else { g with sources := g.sources.insertNew sid }
  let g := es.foldl (fun g e => upsertEntity e g) g
  let g := es.foldl (fun g e => linkEntity sid e.id g) g
  let g := rs.foldl (fun g r => addEndpoint r.targetId (addEndpoint r.sourceId g)) g
  let g := rs.foldl (fun g r => typeTarget r.targetId g) g
  rs.foldl (fun g r => addRelationship r g) g

/-- Every entity related to a doomed one, recorded before its edges go. -/
def externalNeighbours (doomed : EntityId → Bool) (g : Graph) (i : EntityId) : Bool :=
  g.relationships.rows.any fun r =>
    (doomed r.sourceId && r.targetId = i) || (doomed r.targetId && r.sourceId = i)

/-- Remove the staged external modules that nothing refers to any more. -/
def deleteStagedOrphans (staged : EntityId → Bool) (g : Graph) : Graph :=
  { g with entities := g.entities.filter fun e =>
      ¬(staged e.id ∧ e.type = some .externalModule ∧
        (∀ r ∈ g.relationships.rows, r.sourceId ≠ e.id ∧ r.targetId ≠ e.id) ∧
        ∀ se ∈ g.sourceEntities.rows, se.2 ≠ e.id) }

/-- Remove the doomed entities with their edges. -/
def deleteEntities (doomed : EntityId → Bool) (g : Graph) : Graph :=
  { g with
    entities := g.entities.filter fun e => !doomed e.id
    relationships := g.relationships.filter fun r => !(doomed r.sourceId || doomed r.targetId) }

/-- Owned by `sid` and by no other source. -/
def exclusive (g : Graph) (sid : String) (i : EntityId) : Bool :=
  linked g sid i && g.sourceEntities.rows.all fun se => se.2 ≠ i || se.1 = sid

def deleteSource (sid : String) (g : Graph) : Graph :=
  let doomed := exclusive g sid
  let staged := externalNeighbours doomed g
  let g := deleteStagedOrphans staged (deleteEntities doomed g)
  { g with
    sourceEntities := g.sourceEntities.filter fun se => se.1 ≠ sid
    sources := g.sources.erase sid }

/-- The entities of a source whose path column is `p`. -/
def ofFile (g : Graph) (sid : String) (p : FilePath) (i : EntityId) : Bool :=
  linked g sid i && g.entities.rows.any fun e => e.id = i ∧ e.filePath = some p

def deleteEntitiesByFile (sid : String) (p : FilePath) (g : Graph) : Graph :=
  let doomed := ofFile g sid p
  if g.entities.rows.all fun e => !doomed e.id then g
  else
    let staged := externalNeighbours doomed g
    let g' := deleteEntities doomed g
    deleteStagedOrphans staged
      { g' with sourceEntities := g'.sourceEntities.filter fun se => !doomed se.2 }

def setCommunityId (i : EntityId) (c : CommunityId) (g : Graph) : Graph :=
  { g with
    entities := g.entities.map
      (fun e => if e.id = i then { e with communityId := some c } else e)
      (fun e => by split <;> rfl) }

def upsertCommunitySummary (c : Community) (g : Graph) : Graph :=
  { g with communities := g.communities.put c }

/-- `id LIKE <source id> || '#%'`, with the source identifier read as a pattern. -/
def matchesSource (sid : String) (c : CommunityId) : Bool :=
  Like.like Like.sqlite (sid ++ "#%").toList c.text.toList

def deleteSourceCommunities (sid : String) (g : Graph) : Graph :=
  { g with communities := g.communities.filter fun c => !matchesSource sid c.id }

/-! ### Reads -/

/-- What a query may look at: one source, or all but the excluded ones. -/
structure Scope where
  sourceId : Option String
  exclude : List String
  deriving DecidableEq, Repr

/-- `_scope_sql`: membership in the pinned source, and in no excluded one. -/
def inScope (g : Graph) (sc : Scope) (i : EntityId) : Bool :=
  sc.sourceId.all (fun s => linked g s i) && sc.exclude.all fun s => !linked g s i

def getEntitiesByFile (g : Graph) (sc : Scope) (p : FilePath) : List EntityRow :=
  (g.entities.rows.filter fun e => e.filePath = some p && inScope g sc e.id).insertionSort
    fun a b => a.startLine.getD 0 ≤ b.startLine.getD 0

def findEntitiesByName (g : Graph) (sc : Scope) (name : String) : List EntityRow :=
  g.entities.rows.filter fun e => e.name = some name && inScope g sc e.id

inductive Direction
  | out | in
  deriving DecidableEq, Repr

/-- A neighbour as the store returns it: the entity, and the relationship it was reached by. -/
structure Neighbor where
  entity : EntityRow
  relType : RelType
  direction : Direction
  deriving DecidableEq, Repr

/-- Depth-one neighbours in both directions; the neighbour is scoped, the edge is not. -/
def neighborsOf (g : Graph) (sc : Scope) (i : EntityId) : List Neighbor :=
  let leg (d : Direction) (near far : Relationship → EntityId) : List Neighbor :=
    g.entities.rows.flatMap fun e =>
      (g.relationships.rows.filter fun r => far r = e.id && near r = i && inScope g sc e.id).map
        fun r => ⟨e, r.type, d⟩
  (leg .out Relationship.sourceId Relationship.targetId ++
    leg .in Relationship.targetId Relationship.sourceId).dedup

def getCommunityIds (g : Graph) (ids : List EntityId) : List CommunityId :=
  (g.entities.rows.filter fun e => e.id ∈ ids).filterMap EntityRow.communityId

def getCommunitySummaries (g : Graph) (ids : List CommunityId) : List Community :=
  g.communities.rows.filter fun c => c.id ∈ ids

/-! ### The path of an entity is in its identifier -/

/-- Rows are stored under the path in their identifier, and every membership satisfies `P`. -/
structure PathKeyed (P : String → EntityId → Prop) (g : Graph) : Prop where
  path : ∀ e ∈ g.entities, ∀ p, e.filePath = some p → e.id.path = p
  member : ∀ se ∈ g.sourceEntities, P se.1 se.2

section Preservation
variable {P : String → EntityId → Prop} {g : Graph}

lemma pathKeyed_empty : PathKeyed P empty := ⟨by simp [empty], by simp [empty]⟩

/-- An operation that only takes rows and memberships away. -/
lemma PathKeyed.mono {g' : Graph} (h : PathKeyed P g) (he : ∀ e ∈ g'.entities, e ∈ g.entities)
    (hs : ∀ se ∈ g'.sourceEntities, se ∈ g.sourceEntities) : PathKeyed P g' :=
  ⟨fun e h' => h.path e (he e h'), fun se h' => h.member se (hs se h')⟩

lemma pathKeyed_upsertEntity {p : FilePath} {e : Entity} (he : e.KeyedBy p) (h : PathKeyed P g) :
    PathKeyed P (upsertEntity e g) := by
  refine ⟨fun r hr q hq => ?_, h.member⟩
  rcases Keyed.mem_put.1 hr with rfl | ⟨hr, -⟩
  · rw [he.2, ← he.1]
    exact Option.some.inj hq
  · exact h.path r hr q hq

lemma pathKeyed_linkEntity {sid : String} {i : EntityId} (hi : P sid i) (h : PathKeyed P g) :
    PathKeyed P (linkEntity sid i g) := by
  refine ⟨h.path, fun se hse => ?_⟩
  rcases Keyed.mem_insertNew.1 hse with hse | ⟨rfl, -⟩
  · exact h.member se hse
  · exact hi

lemma pathKeyed_addEndpoint {i : EntityId} (h : PathKeyed P g) : PathKeyed P (addEndpoint i g) := by
  refine ⟨fun r hr q hq => ?_, h.member⟩
  rcases Keyed.mem_insertNew.1 hr with hr | ⟨rfl, -⟩
  · exact h.path r hr q hq
  · cases hq

/-- A rewrite of the rows that keeps identifiers and paths. -/
lemma pathKeyed_map {f : EntityRow → EntityRow} {hf : ∀ e, (f e).id = e.id}
    (hp : ∀ e, (f e).filePath = e.filePath) (h : PathKeyed P g) :
    PathKeyed P { g with entities := g.entities.map f hf } := by
  refine ⟨fun r hr q hq => ?_, h.member⟩
  obtain ⟨e, he, rfl⟩ := List.mem_map.1 hr
  rw [hf]
  exact h.path e he q (hp e ▸ hq)

lemma pathKeyed_typeTarget {i : EntityId} (h : PathKeyed P g) : PathKeyed P (typeTarget i g) :=
  pathKeyed_map (fun e => by split <;> rfl) h

lemma pathKeyed_setCommunityId {i : EntityId} {c : CommunityId} (h : PathKeyed P g) :
    PathKeyed P (setCommunityId i c g) :=
  pathKeyed_map (fun e => by split <;> rfl) h

lemma pathKeyed_foldl {α : Type} {f : Graph → α → Graph} (l : List α)
    (hf : ∀ a ∈ l, ∀ g, PathKeyed P g → PathKeyed P (f g a)) (h : PathKeyed P g) :
    PathKeyed P (l.foldl f g) := by
  induction l generalizing g with
  | nil => exact h
  | cons a l ih =>
    exact ih (fun b hb => hf b (List.mem_cons_of_mem _ hb)) (hf a List.mem_cons_self g h)

lemma pathKeyed_storeGraph {es : List Entity} {rs : List Relationship} {sid : String} {p : FilePath}
    (hes : ∀ e ∈ es, e.KeyedBy p ∧ P sid e.id) (h : PathKeyed P g) :
    PathKeyed P (storeGraph es rs sid g) := by
  unfold storeGraph
  refine pathKeyed_foldl rs (fun r _ g hg => ⟨hg.path, hg.member⟩) ?_
  refine pathKeyed_foldl rs (fun r _ g hg => pathKeyed_typeTarget hg) ?_
  refine pathKeyed_foldl rs (fun r _ g hg => pathKeyed_addEndpoint (pathKeyed_addEndpoint hg)) ?_
  refine pathKeyed_foldl es (fun e he g hg => pathKeyed_linkEntity (hes e he).2 hg) ?_
  refine pathKeyed_foldl es (fun e he g hg => pathKeyed_upsertEntity (hes e he).1 hg) ?_
  split
  · exact h
  · exact h.mono (fun e he => he) (fun se hse => hse)

lemma pathKeyed_deleteStagedOrphans (staged : EntityId → Bool) (h : PathKeyed P g) :
    PathKeyed P (deleteStagedOrphans staged g) :=
  h.mono (fun _ he => (Keyed.mem_filter.1 he).1) fun _ hse => hse

lemma pathKeyed_deleteEntities (doomed : EntityId → Bool) (h : PathKeyed P g) :
    PathKeyed P (deleteEntities doomed g) :=
  h.mono (fun _ he => (Keyed.mem_filter.1 he).1) fun _ hse => hse

lemma pathKeyed_deleteSource {sid : String} (h : PathKeyed P g) : PathKeyed P (deleteSource sid g) := by
  have h' := pathKeyed_deleteStagedOrphans (externalNeighbours (exclusive g sid) g)
    (pathKeyed_deleteEntities (exclusive g sid) h)
  exact h'.mono (fun _ he => he) fun _ hse => (Keyed.mem_filter.1 hse).1

lemma pathKeyed_deleteEntitiesByFile {sid : String} {p : FilePath} (h : PathKeyed P g) :
    PathKeyed P (deleteEntitiesByFile sid p g) := by
  unfold deleteEntitiesByFile
  dsimp only
  split
  · exact h
  · refine pathKeyed_deleteStagedOrphans _ ?_
    have h' := pathKeyed_deleteEntities (ofFile g sid p) h
    exact h'.mono (fun _ he => he) fun _ hse => (Keyed.mem_filter.1 hse).1

end Preservation

end Treeweft.GraphStore
