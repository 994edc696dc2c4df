import Treeweft.MergeRuns
import Treeweft.Rounding
import Mathlib.Data.Rat.Floor

/-!
The passes of a search over the hits of the reranker.

After the reranker, four passes change the list: the graph rescores it, the chunk that defines a
symbol goes to the front, a tail of low scores is cut, adjacent hits become one. A hit is an object
that the passes write its score to, so the list and the pool of the search share their hits. `none`
stands for what raises.
-/

namespace Treeweft.RankPasses

open Treeweft.Hydrate Treeweft.Rounding

/-! ### Hits and Evidence -/

/-- The scores that a hit holds. -/
structure Scores where
  final_score : Option ℚ
  relevance_score : Option ℚ
  distance : Option ℚ
  deriving DecidableEq

/-- `_display_score`, and the score of `chunk_hit_from_milvus`. -/
def displayScore (s : Scores) : ℚ :=
  match s.final_score with
  | some x => x
  | none => (s.relevance_score.or s.distance).getD 0

inductive EntityType where
  | function | cls | method | interface | struct | enum | other
  deriving DecidableEq

def defineTypes : List EntityType := [.function, .cls, .method, .interface, .struct, .enum]

structure Entity (P : Type) where
  type : EntityType
  name : List Char
  file_path : Option P
  community_id : Option ℤ
  centrality : Option ℚ

/-- The settings of the passes, with `str.lower` and the root of the squares of a vector. -/
structure Config where
  rerank_normalize : Bool
  graph_alpha : ℚ
  graph_beta : ℚ
  graph_gamma : ℚ
  graph_delta : ℚ
  graph_epsilon : ℚ
  name_full_weight_len : ℚ
  len_ne_zero : name_full_weight_len ≠ 0
  adaptive_topk_min : ℕ
  lower : List Char → List Char
  norm : List ℚ → ℚ

/-- What the graph knows of the files of the list, of the communities and of names. -/
structure Evidence (P : Type) where
  entities_by_file : P → List (Entity P)
  community_embs : ℤ → Option (List ℚ)
  find_entities_by_name : List Char → List (Entity P)

/-- Division; none where it raises. -/
def divide (a b : ℚ) : Option ℚ := if b = 0 then none else some (a / b)

section Rescore
variable {ι P : Type} [DecidableEq ι] (cfg : Config) (ev : Evidence P)
  (query_embedding : List ℚ) (query_text : List Char)

/-- `_minmax`, by index -/
def minmax (values : List ℚ) : Option (List ℚ) :=
  if values = [] then some []
  else do
    let lo ← values.min?
    let hi ← values.max?
    if hi - lo ≤ 0 then some (values.map fun _ => 1)
    else values.mapM fun v => divide (v - lo) (hi - lo)

/-- `_cosine` -/
def cosine (a b : List ℚ) : Option ℚ :=
  if a = [] ∨ b = [] ∨ a.length ≠ b.length then some 0
  else if cfg.norm a = 0 ∨ cfg.norm b = 0 then some 0
  else divide (List.zipWith (· * ·) a b).sum (cfg.norm a * cfg.norm b)

/-- The weight of the longest name in the query, of the entities of some types. -/
def nameWeight (keep : EntityType → Bool) (entities : List (Entity P)) : Option ℚ :=
  entities.foldlM (fun best e =>
    let n := cfg.lower e.name
    if keep e.type && n ≠ [] && 3 ≤ n.length && n <:+: cfg.lower query_text then do
      let w := min (← divide n.length cfg.name_full_weight_len) 1
      some (if best < w then w else best)
    else some best) 0

def nameInQuery : List (Entity P) → Option ℚ :=
  nameWeight cfg query_text fun _ => true

def fileDefinesQuerySymbol : List (Entity P) → Option ℚ :=
  nameWeight cfg query_text (· ∈ defineTypes)

/-- The score of a hit of a path, from its place in the norms and its score so far. -/
def finalScore (path : P) (rel : ℚ) : Option ℚ := do
  let ents := ev.entities_by_file path
  let cids := (ents.filterMap Entity.community_id).dedup
  let comm := ((← (cids.filterMap ev.community_embs).mapM (cosine cfg query_embedding)).max?).getD 0
  let cent := (ents.map fun e => e.centrality.getD 0).max?.getD 0
  let name ← nameInQuery cfg query_text ents
  let file_def ← if cfg.graph_epsilon = 0 then some 0
    else fileDefinesQuerySymbol cfg query_text ents
  some (cfg.graph_alpha * rel + cfg.graph_beta * comm + cfg.graph_gamma * cent +
    cfg.graph_delta * name + cfg.graph_epsilon * file_def)

/-- The loop of `graph_rescore`, from the hit at `i`. -/
def rescoreFrom (path : ι → P) (rel : ℕ → ι → ℚ) :
    ℕ → List ι → (ι → Scores) → Option (ι → Scores)
  | _, [], scores => some scores
  | i, r :: rs, scores => do
    let x ← finalScore cfg ev query_embedding query_text (path r) (rel i r)
    rescoreFrom path rel (i + 1) rs (Function.update scores r { scores r with final_score := some x })

def normMap (raw_rels : List ℚ) : Option (List ℚ) :=
  if cfg.rerank_normalize then minmax raw_rels else some []

/-- `graph_rescore` -/
def graphRescore (path : ι → P) (scores : ι → Scores) (reranked : List ι) :
    Option ((ι → Scores) × List ι) := do
  let raw (r : ι) := (scores r).relevance_score.getD 0
  let norm_map ← normMap cfg (reranked.map raw)
  let rel (i : ℕ) (r : ι) := norm_map[i]?.getD (raw r)
  let scored ← rescoreFrom cfg ev query_embedding query_text path rel 0 reranked scores
  some (scored, reranked.insertionSort fun a b =>
    (scored b).final_score.getD 0 ≤ (scored a).final_score.getD 0)

end Rescore

/-! ### The Other Passes -/

section Promote
variable {ι P σ : Type} [DecidableEq ι] [DecidableEq P]

/-- The files that define a symbol, under the path that is asked for. -/
def defFiles (ents : List (Entity P)) (under : P → Bool) : List P :=
  (((ents.filter fun e => e.type ∈ defineTypes).filterMap Entity.file_path).dedup).filter under

/-- `round(max(_display_score(x) for x in reranked) + 0.001, 3)`; `max` of nothing raises. -/
def aboveAll (scores : ι → Scores) (reranked : List ι) : Option ℚ :=
  (reranked.map fun x => displayScore (scores x)).max?.map fun m => roundDigits 3 (m + 1 / 10 ^ 3)

def setFinal (scores : ι → Scores) (r : ι) (x : ℚ) : ι → Scores :=
  Function.update scores r { scores r with final_score := some x }

/-- `_promote_definition`, for the files that define each symbol. -/
def promoteDefinition (files : σ → List P) (path : ι → P) (vec_results : List ι)
    (scores : ι → Scores) (reranked : List ι) : List σ → Option ((ι → Scores) × List ι)
  | [] => some (scores, reranked)
  | sym :: syms =>
    if files sym = [] then promoteDefinition files path vec_results scores reranked syms
    else
      let before := reranked.takeWhile fun r => path r ∉ files sym
      match reranked.dropWhile fun r => path r ∉ files sym with
      | r :: after =>
        if before = [] then some (scores, reranked)
        else do
          let moved := r :: (before ++ after)
          some (setFinal scores r (← aboveAll scores moved), moved)
      | [] =>
        match files sym with
        | [f] =>
          match vec_results.find? fun r => path r = f with
          | some r => do
            some (setFinal scores r (← aboveAll scores reranked), (r :: reranked).dropLast)
          | none => promoteDefinition files path vec_results scores reranked syms
        | _ => promoteDefinition files path vec_results scores reranked syms

end Promote

section Cut
variable {ι : Type}

/-- `xs[i]`; none where it raises. -/
def item (xs : List ℚ) (i : ℤ) : Option ℚ :=
  if 0 ≤ i then xs[i.toNat]? else if 0 ≤ xs.length + i then xs[(xs.length + i).toNat]? else none

/-- The first of some places where the scores fall by a drop. -/
def findDrop (scores : List ℚ) (drop : ℚ) : List ℕ → Option (Option ℕ)
  | [] => some none
  | i :: is => do
    let a ← item scores (i - 1)
    let b ← item scores i
    if drop ≤ a - b then some (some i) else findDrop scores drop is

/-- `_adaptive_cut` -/
def adaptiveCut (cfg : Config) (gap : ℚ) (scores : ι → Scores) (reranked : List ι) :
    Option (List ι) :=
  if reranked.length ≤ cfg.adaptive_topk_min then some reranked
  else do
    let shown := reranked.map fun r => displayScore (scores r)
    let spread := (← item shown 0) - (← item shown (-1))
    if spread ≤ 0 then some reranked
    else
      let places := List.range' cfg.adaptive_topk_min (shown.length - cfg.adaptive_topk_min)
      match ← findDrop shown (gap * spread) places with
      | some i => some (reranked.take i)
      | none => some reranked

end Cut

/-! ### A Search -/

/-- A search: its settings, what it asks for and what is known about it. -/
structure Search (ι : Type) where
  cfg : Config
  ev : Evidence (List Char)
  query_embedding : List ℚ
  query_text : List Char
  symbols : List (List Char)
  path_prefix : Option (List Char)
  row : ι → Row
  graph_enhanced : ι → Bool
  vec_results : List ι

structure Switches where
  use_graph_scoring : Bool
  symbol_promote : Bool
  adaptive_topk : Bool
  adaptive_topk_gap : ℚ

section Search
variable {ι : Type} [DecidableEq ι] (s : Search ι) (sw : Switches)

def Search.path (r : ι) : List Char := (s.row r).file_path

def Search.files (sym : List Char) : List (List Char) :=
  defFiles (s.ev.find_entities_by_name sym) fun f => s.path_prefix.all (· <+: f)

def Search.rescore : (ι → Scores) → List ι → Option ((ι → Scores) × List ι) :=
  graphRescore s.cfg s.ev s.query_embedding s.query_text s.path

def Search.promote (scores : ι → Scores) (reranked : List ι) :
    Option ((ι → Scores) × List ι) :=
  promoteDefinition s.files s.path s.vec_results scores reranked s.symbols

/-- A pass that a switch and a list with hits turn on. -/
def passIf (on : Bool) (pass : (ι → Scores) → List ι → Option ((ι → Scores) × List ι))
    (x : (ι → Scores) × List ι) : Option ((ι → Scores) × List ι) :=
  if on && !x.2.isEmpty then pass x.1 x.2 else some x

def Search.cut (x : (ι → Scores) × List ι) : Option ((ι → Scores) × List ι) :=
  if sw.adaptive_topk then (adaptiveCut s.cfg sw.adaptive_topk_gap x.1 x.2).map (x.1, ·) else some x

/-- The passes of `graph_search` before the merge. -/
def Search.passes (scores : ι → Scores) (reranked : List ι) : Option ((ι → Scores) × List ι) := do
  let x ← passIf sw.use_graph_scoring s.rescore (scores, reranked)
  let x ← passIf sw.symbol_promote s.promote x
  s.cut sw x

def Search.hits (scores : ι → Scores) (reranked : List ι) : List Hit :=
  reranked.map fun r => chunkHit ⟨s.row r, displayScore (scores r), s.graph_enhanced r⟩

/-- The scores of the response. -/
def Search.responseScores (scores : ι → Scores) (reranked : List ι) : List ℚ :=
  (mergeAdjacentHits (s.hits scores reranked)).map fun h => roundDigits 3 h.score

end Search

end Treeweft.RankPasses
