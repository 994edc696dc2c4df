import Treeweft.SearchLeak
import Mathlib.Data.Rat.Defs
import Mathlib.Logic.Function.Basic

/-!
The signals of one source, with the columns they write, and what they do to a search in another.

An entity two sources share has one community column and one centrality column, and the run of
either source writes both. A search scoped to one source therefore keeps what it reads exactly
when the other shares nothing with it, and when the pattern that clears the other's summaries
matches none of its own: `keeps_scope_iff`.
-/

namespace Treeweft.CommunitySignals

open Treeweft.Paths Treeweft.Extract Treeweft.GraphStore Treeweft.Community

/-- The store with the columns only the signals use, by the key of their row. -/
structure Store where
  graph : Graph
  centrality : EntityId → Option ℚ
  embedding : CommunityId → Option (List ℚ)

/-- What the graph library answers on the pulled subgraph, and the embedder on the summaries.
`embed` may fail. -/
structure Library where
  partition : EntityId → ℕ
  degreeCentrality : EntityId → ℚ
  embed : List String → Option (List (List ℚ))

def deleteCommunities (sid : String) (s : Store) : Store :=
  { s with
    graph := deleteSourceCommunities sid s.graph
    embedding := fun c => if matchesSource sid c then none else s.embedding c }

def setCommunityIdsBatch (mapping : List (EntityId × CommunityId)) (s : Store) : Store :=
  { s with graph := mapping.foldl (fun g m => setCommunityId m.1 m.2 g) s.graph }

def upsertCommunitySummariesBatch (summaries : List GraphStore.Community) (s : Store) : Store :=
  { s with graph := summaries.foldl (fun g c => upsertCommunitySummary c g) s.graph }

/-- An `UPDATE`: the last entry for a row stands, and no row is made. -/
def setColumn {κ α : Type} [DecidableEq κ] (rows : List κ) (mapping : List (κ × α))
    (column : κ → Option α) : κ → Option α :=
  mapping.foldl (fun col m => if m.1 ∈ rows then Function.update col m.1 (some m.2) else col) column

def setCommunityEmbeddingsBatch (mapping : List (CommunityId × List ℚ)) (s : Store) : Store :=
  { s with embedding :=
      setColumn (s.graph.communities.rows.map GraphStore.Community.id) mapping s.embedding }

def setCentralitiesBatch (mapping : List (EntityId × ℚ)) (s : Store) : Store :=
  { s with centrality := setColumn (s.graph.entities.rows.map EntityRow.id) mapping s.centrality }

/-- The communities of the source with their members' summaries. -/
def summariesOf (L : Library) (sid : String) (nodes : List EntityRow) :
    List GraphStore.Community :=
  (nodes.map fun e => L.partition e.id).dedup.map fun n =>
    ⟨⟨sid, n⟩, summarizeCommunity (nodes.filter fun e => L.partition e.id = n)⟩

/-- `run_post_index_signals`: each batch is committed, so a failing embedder leaves the batches
before it. The answer is the number of communities, or nothing when the run raised. -/
def runPostIndexSignals (L : Library) (sid : String) (s : Store) : Store × Option ℕ :=
  let nodes := pullGraph s.graph sid
  if nodes = [] then (s, some 0)
  else
    let summaries := summariesOf L sid nodes
    let s := deleteCommunities sid s
    let s := setCommunityIdsBatch (nodes.map fun e => (e.id, ⟨sid, L.partition e.id⟩)) s
    let s := upsertCommunitySummariesBatch summaries s
    match L.embed (summaries.map GraphStore.Community.summary) with
    | none => (s, none)
    | some embs =>
      let s := setCommunityEmbeddingsBatch ((summaries.map GraphStore.Community.id).zip embs) s
      (setCentralitiesBatch (nodes.map fun e => (e.id, L.degreeCentrality e.id)) s,
        some summaries.length)

/-! ### What a Search in One Source Reads -/

/-- The entities a search scoped to the source may come upon. -/
def visible (sid : String) (s : Store) : List EntityRow :=
  s.graph.entities.rows.filter fun e => inScope s.graph ⟨some sid, []⟩ e.id

/-- The community and the centrality of each. -/
def readsOf (sid : String) (s : Store) : List (EntityId × Option CommunityId × Option ℚ) :=
  (visible sid s).map fun e => (e.id, e.communityId, s.centrality e.id)

/-- Every stored community id is the id of a summary of the source. -/
def Resolves (sid : String) (s : Store) : Prop :=
  ∀ e ∈ visible sid s, ∀ c, e.communityId = some c →
    c.source = sid ∧ ∃ summary ∈ s.graph.communities, summary.id = c

instance (sid : String) (s : Store) : Decidable (Resolves sid s) :=
  inferInstanceAs (Decidable (∀ e ∈ visible sid s, ∀ c ∈ e.communityId,
    c.source = sid ∧ ∃ summary ∈ s.graph.communities.rows, summary.id = c))

/-- No entity is in both sources. -/
def Disjoint (a b : String) (s : Store) : Prop :=
  ∀ e ∈ pullGraph s.graph b, linked s.graph a e.id = false

instance (a b : String) (s : Store) : Decidable (Disjoint a b s) :=
  inferInstanceAs (Decidable (∀ e ∈ pullGraph s.graph b, linked s.graph a e.id = false))

/-- The pattern of `b` matches no community that an entity of `a` is in. -/
def Spared (a b : String) (s : Store) : Prop :=
  ∀ e ∈ visible a s, ∀ c, e.communityId = some c → matchesSource b c = false

instance (a b : String) (s : Store) : Decidable (Spared a b s) :=
  inferInstanceAs (Decidable (∀ e ∈ visible a s, ∀ c ∈ e.communityId, matchesSource b c = false))

/-- An underscore is a wildcard: `app_1` clears the summaries of `appx1`. -/
example : matchesSource "app_1" ⟨"appx1", 0⟩ = true := by decide

/-! ### The Batches, Row by Row -/

section Batches
variable {L : Library} {sid : String} {s : Store}

/-- A row after the communities of the rows of `ids` were written. -/
def recolor (f : EntityId → CommunityId) (ids : List EntityId) (e : EntityRow) : EntityRow :=
  if e.id ∈ ids then { e with communityId := some (f e.id) } else e

@[simp] lemma recolor_id (f : EntityId → CommunityId) (ids : List EntityId) (e : EntityRow) :
    (recolor f ids e).id = e.id := by
  unfold recolor
  split <;> rfl

lemma recolor_of_mem {f : EntityId → CommunityId} {ids : List EntityId} {e : EntityRow}
    (h : e.id ∈ ids) : (recolor f ids e).communityId = some (f e.id) := by
  rw [recolor, if_pos h]

lemma recolor_of_notMem {f : EntityId → CommunityId} {ids : List EntityId} {e : EntityRow}
    (h : e.id ∉ ids) : recolor f ids e = e := if_neg h

lemma setCommunityIdsBatch_rows (f : EntityId → CommunityId) (ids : List EntityId) :
    ∀ s : Store, (setCommunityIdsBatch (ids.map fun i => (i, f i)) s).graph.entities.rows =
      s.graph.entities.rows.map (recolor f ids) := by
  induction ids with
  | nil =>
    intro s
    change _ = s.graph.entities.rows.map fun e => recolor f [] e
    simp [setCommunityIdsBatch, recolor]
  | cons i ids ih =>
    intro s
    rw [List.map_cons]
    have h := ih { s with graph := setCommunityId i (f i) s.graph }
    refine Eq.trans h ?_
    change ((s.graph.entities.rows.map _).map _) = _
    rw [List.map_map]
    refine List.map_congr_left fun e _ => ?_
    by_cases he : e.id = i
    · subst he
      simp [recolor]
    · simp [recolor, he]

lemma setCommunityIdsBatch_else (mapping : List (EntityId × CommunityId)) :
    ∀ s : Store, (setCommunityIdsBatch mapping s).graph.sourceEntities = s.graph.sourceEntities ∧
      (setCommunityIdsBatch mapping s).graph.communities = s.graph.communities := by
  induction mapping with
  | nil => exact fun s => ⟨rfl, rfl⟩
  | cons m mapping ih => exact fun s => ih { s with graph := setCommunityId m.1 m.2 s.graph }

lemma upsertCommunitySummariesBatch_else (summaries : List GraphStore.Community) :
    ∀ s : Store,
      (upsertCommunitySummariesBatch summaries s).graph.entities = s.graph.entities ∧
      (upsertCommunitySummariesBatch summaries s).graph.sourceEntities =
        s.graph.sourceEntities := by
  induction summaries with
  | nil => exact fun s => ⟨rfl, rfl⟩
  | cons c summaries ih => exact fun s => ih { s with graph := upsertCommunitySummary c s.graph }

/-- An identifier has a summary afterwards when it is in the batch, or had one. -/
lemma exists_upsertCommunitySummariesBatch (summaries : List GraphStore.Community)
    (i : CommunityId) :
    ∀ s : Store, (∃ c ∈ (upsertCommunitySummariesBatch summaries s).graph.communities, c.id = i) ↔
      (∃ c ∈ summaries, c.id = i) ∨ ∃ c ∈ s.graph.communities, c.id = i := by
  induction summaries with
  | nil => exact fun s => by simp [upsertCommunitySummariesBatch]
  | cons c summaries ih =>
    intro s
    refine (ih { s with graph := upsertCommunitySummary c s.graph }).trans ?_
    have hput : (∃ d ∈ (upsertCommunitySummary c s.graph).communities, d.id = i) ↔
        c.id = i ∨ ∃ d ∈ s.graph.communities, d.id = i := by
      constructor
      · rintro ⟨d, hd, rfl⟩
        rcases Keyed.mem_put.1 hd with rfl | ⟨hd, -⟩
        · exact .inl rfl
        · exact .inr ⟨d, hd, rfl⟩
      · rintro (rfl | ⟨d, hd, rfl⟩)
        · exact ⟨c, Keyed.mem_put_self, rfl⟩
        · by_cases hc : d.id = c.id
          · exact ⟨c, Keyed.mem_put_self, hc.symm⟩
          · exact ⟨d, Keyed.mem_put.2 (.inr ⟨hd, hc⟩), rfl⟩
    rw [hput]
    simp [or_assoc, or_left_comm]

lemma setColumn_of_notMem {κ α : Type} [DecidableEq κ] {rows : List κ} {k : κ} :
    ∀ {mapping : List (κ × α)} {column : κ → Option α}, k ∉ mapping.map Prod.fst →
      setColumn rows mapping column k = column k
  | [], _, _ => rfl
  | m :: mapping, column, h => by
    rw [List.map_cons, List.mem_cons, not_or] at h
    unfold setColumn
    rw [List.foldl_cons]
    refine (@setColumn_of_notMem _ _ _ rows k mapping _ h.2).trans ?_
    split
    · exact Function.update_of_ne h.1 _ _
    · rfl

/-! ### A Run -/

/-- The community a run gives a node. -/
def communityOf (L : Library) (sid : String) (i : EntityId) : CommunityId := ⟨sid, L.partition i⟩

/-- The nodes of a source, by their identifiers. -/
def nodeIds (sid : String) (s : Store) : List EntityId := (pullGraph s.graph sid).map EntityRow.id

/-- What a run that pulled some nodes left behind. -/
structure Ran (L : Library) (sid : String) (s s' : Store) : Prop where
  rows : s'.graph.entities.rows =
    s.graph.entities.rows.map (recolor (communityOf L sid) (nodeIds sid s))
  links : s'.graph.sourceEntities = s.graph.sourceEntities
  summaries : ∀ i, (∃ c ∈ s'.graph.communities, c.id = i) ↔
    (∃ n ∈ nodeIds sid s, communityOf L sid n = i) ∨
      ((∃ c ∈ s.graph.communities, c.id = i) ∧ matchesSource sid i = false)
  centrality : ∀ i ∉ nodeIds sid s, s'.centrality i = s.centrality i

lemma exists_summariesOf {nodes : List EntityRow} {i : CommunityId} :
    (∃ c ∈ summariesOf L sid nodes, c.id = i) ↔
      ∃ n ∈ nodes.map EntityRow.id, communityOf L sid n = i := by
  simp [summariesOf, communityOf]

lemma exists_deleteCommunities {i : CommunityId} :
    (∃ c ∈ (deleteCommunities sid s).graph.communities, c.id = i) ↔
      (∃ c ∈ s.graph.communities, c.id = i) ∧ matchesSource sid i = false := by
  constructor
  · rintro ⟨c, hc, rfl⟩
    obtain ⟨hc, hm⟩ := Keyed.mem_filter.1 hc
    exact ⟨⟨c, hc, rfl⟩, by simpa using hm⟩
  · rintro ⟨⟨c, hc, rfl⟩, hm⟩
    exact ⟨c, Keyed.mem_filter.2 ⟨hc, by simpa using hm⟩, rfl⟩

/-- The batches before the embedder is asked. -/
lemma ran_summarized (L : Library) (sid : String) (s : Store) :
    Ran L sid s (upsertCommunitySummariesBatch (summariesOf L sid (pullGraph s.graph sid))
      (setCommunityIdsBatch
        ((pullGraph s.graph sid).map fun e => (e.id, ⟨sid, L.partition e.id⟩))
        (deleteCommunities sid s))) := by
  have hmap : ((pullGraph s.graph sid).map fun e => (e.id, (⟨sid, L.partition e.id⟩ : CommunityId)))
      = (nodeIds sid s).map fun i => (i, communityOf L sid i) := by
    rw [nodeIds, List.map_map]
    rfl
  rw [hmap]
  obtain ⟨hse, hsl⟩ := upsertCommunitySummariesBatch_else (summariesOf L sid (pullGraph s.graph sid))
    (setCommunityIdsBatch ((nodeIds sid s).map fun i => (i, communityOf L sid i))
      (deleteCommunities sid s))
  obtain ⟨hcl, hcc⟩ := setCommunityIdsBatch_else
    ((nodeIds sid s).map fun i => (i, communityOf L sid i)) (deleteCommunities sid s)
  constructor
  · rw [hse, setCommunityIdsBatch_rows]
    rfl
  · rw [hsl, hcl]
    rfl
  · intro i
    rw [exists_upsertCommunitySummariesBatch, hcc, exists_deleteCommunities, exists_summariesOf]
    rfl
  · exact fun i _ => rfl

lemma ran (h : pullGraph s.graph sid ≠ []) : Ran L sid s (runPostIndexSignals L sid s).1 := by
  have hs := ran_summarized L sid s
  unfold runPostIndexSignals
  dsimp only
  rw [if_neg h]
  split
  · exact hs
  · refine ⟨hs.rows, hs.links, hs.summaries, fun i hi => ?_⟩
    refine Eq.trans (setColumn_of_notMem ?_) (hs.centrality i hi)
    rw [List.map_map]
    exact hi

lemma run_of_empty (h : pullGraph s.graph sid = []) : (runPostIndexSignals L sid s).1 = s := by
  unfold runPostIndexSignals
  dsimp only
  rw [if_pos h]

/-- Up to the columns it leaves out, the run of the graph alone. -/
theorem graph_runPostIndexSignals (L : Library) (sid : String) (s : Store) :
    (runPostIndexSignals L sid s).1.graph =
      Community.runPostIndexSignals L.partition sid s.graph := by
  unfold runPostIndexSignals Community.runPostIndexSignals
  dsimp only
  split
  · rfl
  · have h : (upsertCommunitySummariesBatch (summariesOf L sid (pullGraph s.graph sid))
        (setCommunityIdsBatch
          ((pullGraph s.graph sid).map fun e => (e.id, ⟨sid, L.partition e.id⟩))
          (deleteCommunities sid s))).graph = Community.runPostIndexSignals L.partition sid s.graph := by
      unfold upsertCommunitySummariesBatch setCommunityIdsBatch deleteCommunities summariesOf
      unfold Community.runPostIndexSignals
      dsimp only
      rw [List.foldl_map, List.foldl_map, if_neg ‹_›]
    rw [Community.runPostIndexSignals, if_neg ‹_›] at h
    split <;> exact h

end Batches

/-! ### The View of Another Source -/

section View
variable {L : Library} {a b : String} {s s' : Store}

lemma mem_visible {e : EntityRow} :
    e ∈ visible a s ↔ e ∈ s.graph.entities ∧ linked s.graph a e.id = true := by
  unfold visible
  rw [List.mem_filter]
  simp [inScope]

/-- A search scoped to the source, whatever else it excludes, looks at visible entities only. -/
lemma mem_visible_of_surfaced {t : VectorStore.Table} {exclude : List String} {e : EntityRow}
    (h : SearchLeak.Surfaced s.graph t ⟨some a, exclude⟩ e) : e ∈ visible a s := by
  have hscope : e ∈ s.graph.entities ∧ inScope s.graph ⟨some a, exclude⟩ e.id = true := by
    rcases h with ⟨he, hs, -⟩ | ⟨he, hs, -⟩
    · exact ⟨he, hs⟩
    · exact ⟨he, hs⟩
  refine mem_visible.mpr ⟨hscope.1, ?_⟩
  have hs := hscope.2
  unfold inScope at hs
  exact (Bool.and_eq_true_iff.mp hs).1

/-- Where the ids resolve, a scoped search returns summaries of its own source only. -/
theorem search_summaries_own (h : Resolves a s) (t : VectorStore.Table) (eng : Retrieval.Engine)
    (q : Retrieval.Query) (exclude : List String) :
    ∀ c ∈ (Retrieval.graphSearch s.graph t eng q ⟨some a, exclude⟩).communitySummaries,
      c.id.source = a := by
  intro c hc
  obtain ⟨-, e, he, hec⟩ := SearchLeak.mem_communitySummaries hc
  exact (h e (mem_visible_of_surfaced he) c.id hec).1

lemma Ran.visible_eq (h : Ran L b s s') :
    visible a s' = (visible a s).map (recolor (communityOf L b) (nodeIds b s)) := by
  unfold visible
  rw [h.rows, List.filter_map]
  congr 1
  refine List.filter_congr fun e _ => ?_
  simp [inScope, linked, h.links]

lemma Disjoint.notMem_nodeIds (hd : Disjoint a b s) {e : EntityRow} (he : e ∈ visible a s) :
    e.id ∉ nodeIds b s := by
  intro hi
  obtain ⟨n, hn, hni⟩ := List.mem_map.mp hi
  have hfree := hd n hn
  rw [hni, (mem_visible.mp he).2] at hfree
  cases hfree

lemma Ran.visible_of_disjoint (h : Ran L b s s') (hd : Disjoint a b s) :
    visible a s' = visible a s := by
  rw [h.visible_eq]
  have hid : ∀ e ∈ visible a s, recolor (communityOf L b) (nodeIds b s) e = id e :=
    fun e he => recolor_of_notMem (hd.notMem_nodeIds he)
  rw [List.map_congr_left hid, List.map_id]

lemma Ran.readsOf_eq (h : Ran L b s s') (hd : Disjoint a b s) : readsOf a s' = readsOf a s := by
  unfold readsOf
  rw [h.visible_of_disjoint hd]
  refine List.map_congr_left fun e he => ?_
  rw [h.centrality e.id (hd.notMem_nodeIds he)]

/-- A community of another source has a summary afterwards when it had one that was spared. -/
lemma Ran.resolves_iff (h : Ran L b s s') (hab : a ≠ b) (hd : Disjoint a b s) :
    Resolves a s' ↔ Resolves a s ∧ Spared a b s := by
  have hsum : ∀ c : CommunityId, c.source = a → ((∃ x ∈ s'.graph.communities, x.id = c) ↔
      (∃ x ∈ s.graph.communities, x.id = c) ∧ matchesSource b c = false) := by
    intro c hc
    rw [h.summaries]
    refine or_iff_right ?_
    rintro ⟨n, -, rfl⟩
    exact hab hc.symm
  unfold Resolves Spared
  rw [h.visible_of_disjoint hd]
  constructor
  · intro hr
    refine ⟨fun e he c hc => ?_, fun e he c hc => ?_⟩
    · obtain ⟨hsrc, hx⟩ := hr e he c hc
      exact ⟨hsrc, ((hsum c hsrc).mp hx).1⟩
    · obtain ⟨hsrc, hx⟩ := hr e he c hc
      exact ((hsum c hsrc).mp hx).2
  · rintro ⟨hr, hsp⟩ e he c hc
    obtain ⟨hsrc, hx⟩ := hr e he c hc
    exact ⟨hsrc, (hsum c hsrc).mpr ⟨hx, hsp e he c hc⟩⟩

/-- What two sources share ends up in a community of the one that ran last. -/
lemma Ran.disjoint_of_resolves (h : Ran L b s s') (hab : a ≠ b) (hr : Resolves a s') :
    Disjoint a b s := by
  intro n hn
  by_contra hlinked
  have hlinked : linked s.graph a n.id = true := by simpa using hlinked
  have hmem : n ∈ visible a s := mem_visible.mpr ⟨(List.mem_filter.mp hn).1, hlinked⟩
  have hnode : n.id ∈ nodeIds b s := List.mem_map_of_mem hn
  have hrec : recolor (communityOf L b) (nodeIds b s) n ∈ visible a s' := by
    rw [h.visible_eq]
    exact List.mem_map_of_mem hmem
  exact hab (hr _ hrec _ (recolor_of_mem hnode)).1.symm

/-- **The run of one source keeps what a search in another reads** if and only if the ids of the
other resolved before and, when the run finds any node, the two share no entity and the pattern
of the run's source matches no community in use in the other. -/
theorem keeps_scope_iff (L : Library) {a b : String} (hab : a ≠ b) (s : Store) :
    (readsOf a (runPostIndexSignals L b s).1 = readsOf a s ∧
        Resolves a (runPostIndexSignals L b s).1) ↔
      Resolves a s ∧ (pullGraph s.graph b = [] ∨ (Disjoint a b s ∧ Spared a b s)) := by
  by_cases hnil : pullGraph s.graph b = []
  · rw [run_of_empty hnil]
    simp [hnil]
  have h := ran (L := L) hnil
  constructor
  · rintro ⟨-, hr⟩
    have hd := h.disjoint_of_resolves hab hr
    obtain ⟨hres, hsp⟩ := (h.resolves_iff hab hd).mp hr
    exact ⟨hres, .inr ⟨hd, hsp⟩⟩
  · rintro ⟨hres, hnone | ⟨hd, hsp⟩⟩
    · exact absurd hnone hnil
    · exact ⟨h.readsOf_eq hd, (h.resolves_iff hab hd).mpr ⟨hres, hsp⟩⟩

/-! ### Runs One After the Other -/

def runAll (runs : List (Library × String)) (s : Store) : Store :=
  runs.foldl (fun s r => (runPostIndexSignals r.1 r.2 s).1) s

lemma Ran.disjoint (h : Ran L b s s') {c : String} (hd : Disjoint a c s) : Disjoint a c s' := by
  intro n hn
  obtain ⟨hn, hl⟩ := List.mem_filter.mp hn
  rw [h.rows] at hn
  obtain ⟨e, he, rfl⟩ := List.mem_map.mp hn
  unfold linked at hl ⊢
  rw [h.links, recolor_id] at hl ⊢
  exact hd e (List.mem_filter.mpr ⟨he, hl⟩)

lemma resolves_own (L : Library) (a : String) (s : Store) :
    Resolves a (runPostIndexSignals L a s).1 := by
  by_cases hnil : pullGraph s.graph a = []
  · rw [run_of_empty hnil]
    intro e he
    have hmem : e ∈ pullGraph s.graph a := List.mem_filter.mpr (mem_visible.mp he)
    rw [hnil] at hmem
    cases hmem
  have h := ran (L := L) hnil
  intro e he c hc
  rw [h.visible_eq] at he
  obtain ⟨n, hn, rfl⟩ := List.mem_map.mp he
  have hnode : n.id ∈ nodeIds a s := List.mem_map_of_mem (List.mem_filter.mpr (mem_visible.mp hn))
  rw [recolor_of_mem hnode] at hc
  obtain rfl := Option.some.inj hc
  exact ⟨rfl, (h.summaries _).mpr (.inl ⟨n.id, hnode, rfl⟩)⟩

/-- Whatever runs, and in whatever order, of sources that share nothing with `a` and spare its
communities. -/
theorem runAll_keeps_scope (runs : List (Library × String)) :
    ∀ {s : Store}, Resolves a s →
      (∀ r ∈ runs, a ≠ r.2 ∧ Disjoint a r.2 s ∧ Spared a r.2 s) →
      readsOf a (runAll runs s) = readsOf a s ∧ Resolves a (runAll runs s) := by
  induction runs with
  | nil => exact fun hr _ => ⟨rfl, hr⟩
  | cons r runs ih =>
    intro s hr hruns
    obtain ⟨⟨hne, hd, hsp⟩, hrest⟩ := List.forall_mem_cons.mp hruns
    by_cases hnil : pullGraph s.graph r.2 = []
    · have hs : runAll (r :: runs) s = runAll runs s := by
        change runAll runs (runPostIndexSignals r.1 r.2 s).1 = _
        rw [run_of_empty hnil]
      rw [hs]
      exact ih hr hrest
    have h := ran (L := r.1) hnil
    obtain ⟨hreads, hres⟩ := ih (s := (runPostIndexSignals r.1 r.2 s).1)
      ((h.resolves_iff hne hd).mpr ⟨hr, hsp⟩) fun q hq => by
        obtain ⟨hqne, hqd, hqsp⟩ := hrest q hq
        refine ⟨hqne, h.disjoint hqd, ?_⟩
        unfold Spared
        rw [h.visible_of_disjoint hd]
        exact hqsp
    exact ⟨hreads.trans (h.readsOf_eq hd), hres⟩

end View

/-! ### Two Sources with One File -/

/-- One community, every centrality one, and an embedder that answers. -/
def oneCommunity : Library := ⟨fun _ => 0, fun _ => 1, fun texts => some (texts.map fun _ => [])⟩

def indexed (g : Graph) : Store := ⟨g, fun _ => none, fun _ => none⟩

/-- `/repo` is source `a`, `/repo/sub` is source `b`; the signals of `b` have run, then both have
been indexed. -/
def nested : Store :=
  (runPostIndexSignals oneCommunity "b" (indexed
    (storeGraph SearchLeak.helperEntities [] "b" (storeGraph SearchLeak.helperEntities [] "a"
      (storeGraph SearchLeak.keysEntities [] "a" empty))))).1

/-- The ids of `b` resolved, and the run of `a` makes them ids of `a`. -/
theorem signals_cross_sources :
    Resolves "b" nested ∧
      readsOf "b" (runPostIndexSignals oneCommunity "a" nested).1 ≠ readsOf "b" nested ∧
      ¬Resolves "b" (runPostIndexSignals oneCommunity "a" nested).1 := by
  decide +kernel

/-- `/repo` without its subdirectory is source `a`; its signals have run. -/
def apart : Store :=
  (runPostIndexSignals oneCommunity "a" (indexed
    (storeGraph SearchLeak.helperEntities [] "b"
      (storeGraph SearchLeak.keysEntities [] "a" empty)))).1

theorem keeps_scope_apart :
    readsOf "a" (runPostIndexSignals oneCommunity "b" apart).1 = readsOf "a" apart ∧
      Resolves "a" (runPostIndexSignals oneCommunity "b" apart).1 :=
  (keeps_scope_iff oneCommunity (a := "a") (b := "b") (by decide) apart).mpr
    ⟨by decide +kernel, .inr ⟨by decide +kernel, by decide +kernel⟩⟩

end Treeweft.CommunitySignals
