import Treeweft.GraphStore

/-!
Graph signals of one source: a partition of its entities into communities, each with a summary
made of the names of its members.

The partition itself comes from a graph library and is a parameter. An entity row has one
community column, so of the sources that share an entity the last one to run its signals
decides what the column says.
-/

namespace Treeweft.Community

open Treeweft.Paths Treeweft.Extract Treeweft.GraphStore

def typeName : EntityType → String
  | .module => "Module"
  | .cls => "Class"
  | .function => "Function"
  | .externalModule => "ExternalModule"

/-- What a member contributes to the summary; of a module only the file's name. -/
def memberName (e : EntityRow) : String :=
  let name := match e.type, e.filePath with
    | some .module, some p => p.name
    | _, _ => e.name.getD "?"
  (e.type.map typeName).getD "?" ++ ":" ++ name

def summarizeCommunity (es : List EntityRow) : String :=
  toString es.length ++ " entities across " ++
    toString (es.map EntityRow.filePath).dedup.length ++ " files: " ++
    ", ".intercalate ((es.map memberName).take 10)

/-- The nodes of the source, as `pull_graph` returns them. -/
def pullGraph (g : Graph) (sid : String) : List EntityRow :=
  g.entities.rows.filter fun e => linked g sid e.id

/-- `run_post_index_signals`, without centralities and embeddings. -/
def runPostIndexSignals (partition : EntityId → ℕ) (sid : String) (g : Graph) : Graph :=
  let nodes := pullGraph g sid
  if nodes = [] then g
  else
    let g := deleteSourceCommunities sid g
    let g := nodes.foldl (fun g e => setCommunityId e.id ⟨sid, partition e.id⟩ g) g
    let groups := (nodes.map fun e => partition e.id).dedup
    groups.foldl (fun g n => upsertCommunitySummary
      ⟨⟨sid, n⟩, summarizeCommunity (nodes.filter fun e => partition e.id = n)⟩ g) g

end Treeweft.Community
