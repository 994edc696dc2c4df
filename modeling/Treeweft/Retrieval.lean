import Treeweft.VectorStore
import Treeweft.Community
import Treeweft.Access

/-!
`graph_search`: vector hits, their headers, graph neighbours and community summaries.

Scores decide the order of things and how many of them are kept, never what they say. Ranking,
reranking, rescoring and the budgets are therefore one parameter, `Engine`, that may reorder and
drop, and what the response can contain is left to the code here.
-/

namespace Treeweft.Retrieval

open Treeweft.Paths Treeweft.Extract Treeweft.GraphStore Treeweft.VectorStore

/-- Everything a score or a budget decides in one search. The vector search returns rows it was
given, and reranking and rescoring keep to the hits. -/
structure Engine where
  search : Table → Table
  rerank : Table → Table
  rescore : Table → Table
  search_sub : ∀ t, ∀ r ∈ search t, r ∈ t
  rerank_sub : ∀ t, ∀ r ∈ rerank t, r ∈ t
  rescore_sub : ∀ t, ∀ r ∈ rescore t, r ∈ t
  adaptiveCut : Table → ℕ
  keepChunks : ℕ
  keepNeighbors : ℕ
  keepSummary : Community → Bool

structure Query where
  symbols : List String
  language : Option String
  pathPrefix : Option FilePath
  includeCommunitySummaries : Bool
  symbolPromote : Bool
  queryClassPayload : Bool

/-- `_build_filter`: the rows of the scope, of the language and under the path. -/
def buildFilter (q : Query) (sc : Scope) (r : Row) : Bool :=
  q.language.all (fun l => r.language = l) &&
    q.pathPrefix.all (fun p => p.str.toList <+: r.filePath.str.toList) &&
    sc.sourceId.all (fun s => r.sourceId = s) && r.sourceId ∉ sc.exclude

/-! ### Neighbours -/

/-- A neighbour of the response, with the number of matched entities it is linked to. -/
structure Ranked where
  nb : Neighbor
  links : ℕ
  deriving DecidableEq, Repr

def addNeighbor (index : List Ranked) (nb : Neighbor) : List Ranked :=
  if index.any fun rec => rec.nb.entity.id = nb.entity.id then
    index.map fun rec =>
      if rec.nb.entity.id = nb.entity.id then { rec with links := rec.links + 1 } else rec
  else index ++ [⟨nb, 1⟩]

/-- The neighbours of the matched entities that are not matched themselves, the first edge found
to each. -/
def neighborIndex (matched : List EntityId) (nbs : List Neighbor) : List Ranked :=
  (nbs.filter fun nb => nb.entity.id ∉ matched).foldl addNeighbor []

def relPriority : RelType → ℕ
  | .calls => 0
  | .inherits => 0
  | .defines => 1
  | .imports => 2

def EntityId.str : EntityId → String
  | .module p => "module://" ++ p.str
  | .cls p n => "class://" ++ p.str ++ "#" ++ n
  | .func p n => "func://" ++ p.str ++ "#" ++ n

/-- Entities with a file first, code relationships before imports, better connected first. -/
def rankBefore (a b : Ranked) : Bool :=
  let key (r : Ranked) := (if r.nb.entity.filePath.isSome then 0 else 1, relPriority r.nb.relType)
  if key a = key b then
    if a.links = b.links then EntityId.str a.nb.entity.id ≤ EntityId.str b.nb.entity.id
    else b.links < a.links
  else if (key a).1 = (key b).1 then (key a).2 < (key b).2
  else (key a).1 < (key b).1

def neighborLimit : ℕ := 20

def rankNeighbors (index : List Ranked) : List Ranked :=
  (index.insertionSort fun a b => rankBefore a b = true).take neighborLimit

/-! ### Promotion of a definition -/

def defineType : EntityType → Bool
  | .function => true
  | .cls => true
  | _ => false

def defFiles (g : Graph) (sc : Scope) (q : Query) (sym : String) : List FilePath :=
  ((findEntitiesByName g sc sym).filter fun e => e.type.any defineType).filterMap
    EntityRow.filePath |>.filter (fun p => q.pathPrefix.all fun f => f.str.toList <+: p.str.toList)
    |>.dedup

/-- The chunk of the file that defines a symbol moves to rank one; one that was not ranked
replaces the last. -/
def promoteDefinition (g : Graph) (sc : Scope) (q : Query) (vec : Table) :
    List String → Table → Table
  | [], reranked => reranked
  | sym :: syms, reranked =>
    let files := defFiles g sc q sym
    if files = [] then promoteDefinition g sc q vec syms reranked
    else
      match reranked.find? fun r => r.filePath ∈ files with
      | some r => r :: reranked.erase r
      | none =>
        match files with
        | [f] =>
          match vec.find? fun r => r.filePath = f with
          | some r => (r :: reranked).dropLast
          | none => promoteDefinition g sc q vec syms reranked
        | _ => promoteDefinition g sc q vec syms reranked

/-! ### The response -/

/-- A chunk of the response: a stored row, and the entities its header names. -/
structure ChunkHit where
  row : Row
  header : List EntityRow
  deriving DecidableEq, Repr

structure Response where
  chunks : List ChunkHit
  neighbors : List Ranked
  communitySummaries : List Community
  deriving DecidableEq, Repr

/-- `_chunk_header`: the entities that enclose the chunk or start in it. -/
def headerEntities (r : Row) (es : List EntityRow) : List EntityRow :=
  es.filter fun e => e.type ≠ some .module ∧ e.name.isSome ∧
    ((e.startLine.getD 0 ≤ r.startLine ∧ r.endLine ≤ e.endLine.getD 0 ∧ 0 < e.startLine.getD 0) ∨
      (r.startLine ≤ e.startLine.getD 0 ∧ e.startLine.getD 0 ≤ r.endLine))

/-- The scoped entities of the files of the reranked hits. -/
def matchedEntities (g : Graph) (sc : Scope) (reranked : Table) : List EntityRow :=
  (reranked.map Row.filePath).dedup.flatMap (getEntitiesByFile g sc)

def graphSearch (g : Graph) (t : Table) (eng : Engine) (q : Query) (sc : Scope) : Response :=
  let vec := eng.search (t.filter (buildFilter q sc))
  if vec = [] then ⟨[], [], []⟩
  else
    let reranked := eng.rerank vec
    let files := (reranked.map Row.filePath).dedup
    let matched := (matchedEntities g sc reranked).map EntityRow.id
    let index := neighborIndex matched (matched.flatMap (neighborsOf g sc))
    let neighbors := rankNeighbors index
    let summaries := if q.includeCommunitySummaries then
        getCommunitySummaries g
          (getCommunityIds g (matched ++ index.map fun rec => rec.nb.entity.id))
      else []
    let reranked := eng.rescore reranked
    let reranked := if q.symbolPromote then promoteDefinition g sc q vec q.symbols reranked
      else reranked
    let reranked := reranked.take (eng.adaptiveCut reranked)
    let chunks := reranked.map fun r => ⟨r, headerEntities r
      (if r.filePath ∈ files then getEntitiesByFile g sc r.filePath else [])⟩
    let payload := !(q.queryClassPayload && q.symbols ≠ [])
    ⟨chunks.take eng.keepChunks,
      if payload then neighbors.take eng.keepNeighbors else [],
      if payload then summaries.filter eng.keepSummary else []⟩

end Treeweft.Retrieval
