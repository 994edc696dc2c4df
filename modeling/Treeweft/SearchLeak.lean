import Treeweft.Retrieval

/-!
What a search response can reveal of the sources its caller may not read.

Chunks, headers, neighbours and relations all pass a scope test. Community summaries are looked
up by the community column of an entity that passed it, and nothing asks whose community that
is; the response is clean exactly when no such column points at another's summary.
-/

namespace Treeweft.SearchLeak

open Treeweft.Paths Treeweft.Indexer Treeweft.Extract Treeweft.GraphStore Treeweft.VectorStore Treeweft.Access
open Treeweft.Retrieval

variable (read : String → Bool) (g : Graph)

/-- The entity belongs to sources the caller may not read, and to no other. -/
def DeniedOnly (i : EntityId) : Prop :=
  (∃ s, linked g s i = true ∧ read s = false) ∧ ∀ s, linked g s i = true → read s = false

/-- Every item of the response is drawn from what the caller may read. -/
structure Clean (resp : Response) : Prop where
  chunk : ∀ h ∈ resp.chunks, read h.row.sourceId = true
  header : ∀ h ∈ resp.chunks, ∀ e ∈ h.header, ¬DeniedOnly read g e.id
  neighbor : ∀ n ∈ resp.neighbors, ¬DeniedOnly read g n.nb.entity.id
  relation : ∀ n ∈ resp.neighbors, ∃ r ∈ g.relationships, r.type = n.nb.relType ∧
    (r.sourceId = n.nb.entity.id ∨ r.targetId = n.nb.entity.id) ∧
    ¬DeniedOnly read g r.sourceId ∧ ¬DeniedOnly read g r.targetId
  summary : ∀ c ∈ resp.communitySummaries, read c.id.source = true

def rowInScope (sc : Scope) (r : Row) : Bool :=
  sc.sourceId.all (fun s => r.sourceId = s) && r.sourceId ∉ sc.exclude

/-- An entity of a file that has a chunk in the scope. -/
def OfHit (t : Table) (sc : Scope) (e : EntityRow) : Prop :=
  e ∈ g.entities ∧ inScope g sc e.id = true ∧
    ∃ r ∈ t, rowInScope sc r = true ∧ e.filePath = some r.filePath

/-- An entity some search of the scope looks at: one of a hit's file, or a neighbour of one. -/
def Surfaced (t : Table) (sc : Scope) (e : EntityRow) : Prop :=
  OfHit g t sc e ∨
    (e ∈ g.entities ∧ inScope g sc e.id = true ∧ ∃ m, OfHit g t sc m ∧ ∃ r ∈ g.relationships,
      (r.sourceId = m.id ∧ r.targetId = e.id) ∨ (r.targetId = m.id ∧ r.sourceId = e.id))

/-- No entity a search looks at is in a community with a summary of an unreadable source. -/
def CommunitiesReadable (t : Table) (sc : Scope) : Prop :=
  ∀ e, Surfaced g t sc e → ∀ c ∈ g.communities, e.communityId = some c.id →
    read c.id.source = true

/-! ### What the parts of a response are -/

variable {g} {t : Table} {sc : Scope}

lemma mem_getEntitiesByFile {p : FilePath} {e : EntityRow} :
    e ∈ getEntitiesByFile g sc p ↔ e ∈ g.entities ∧ e.filePath = some p ∧ inScope g sc e.id = true := by
  rw [getEntitiesByFile, List.mem_insertionSort, List.mem_filter, Bool.and_eq_true,
    decide_eq_true_eq]
  rfl

lemma mem_matchedEntities {hits : Table} {e : EntityRow} :
    e ∈ matchedEntities g sc hits ↔ e ∈ g.entities ∧ inScope g sc e.id = true ∧
      ∃ r ∈ hits, e.filePath = some r.filePath := by
  simp only [matchedEntities, List.mem_flatMap, List.mem_dedup, List.mem_map,
    mem_getEntitiesByFile]
  constructor
  · rintro ⟨p, ⟨r, hr, rfl⟩, he, hp, hs⟩
    exact ⟨he, hs, r, hr, hp⟩
  · rintro ⟨he, hs, r, hr, hp⟩
    exact ⟨_, ⟨r, hr, rfl⟩, he, hp, hs⟩

lemma mem_neighborsOf {i : EntityId} {nb : Neighbor} :
    nb ∈ neighborsOf g sc i ↔ nb.entity ∈ g.entities ∧ inScope g sc nb.entity.id = true ∧
      ∃ r ∈ g.relationships, r.type = nb.relType ∧
        ((nb.direction = .out ∧ r.sourceId = i ∧ r.targetId = nb.entity.id) ∨
          (nb.direction = .in ∧ r.targetId = i ∧ r.sourceId = nb.entity.id)) := by
  simp only [neighborsOf, List.mem_dedup, List.mem_append, List.mem_flatMap, List.mem_map,
    List.mem_filter, Bool.and_eq_true, decide_eq_true_eq]
  constructor
  · rintro (⟨e, he, r, ⟨hr, ⟨h1, h2⟩, hs⟩, rfl⟩ | ⟨e, he, r, ⟨hr, ⟨h1, h2⟩, hs⟩, rfl⟩)
    · exact ⟨he, hs, r, hr, rfl, .inl ⟨rfl, h2, h1⟩⟩
    · exact ⟨he, hs, r, hr, rfl, .inr ⟨rfl, h2, h1⟩⟩
  · obtain ⟨e, ty, d⟩ := nb
    rintro ⟨he, hs, r, hr, rfl, ⟨rfl, h1, h2⟩ | ⟨rfl, h1, h2⟩⟩
    · exact .inl ⟨e, he, r, ⟨hr, ⟨h2, h1⟩, hs⟩, rfl⟩
    · exact .inr ⟨e, he, r, ⟨hr, ⟨h2, h1⟩, hs⟩, rfl⟩

lemma mem_addNeighbor {index : List Ranked} {nb : Neighbor} {rec : Ranked}
    (h : rec ∈ addNeighbor index nb) : rec.nb = nb ∨ ∃ r ∈ index, r.nb = rec.nb := by
  unfold addNeighbor at h
  split at h
  · obtain ⟨r, hr, rfl⟩ := List.mem_map.1 h
    refine .inr ⟨r, hr, ?_⟩
    split <;> rfl
  · rcases List.mem_append.1 h with h | h
    · exact .inr ⟨rec, h, rfl⟩
    · rw [List.mem_singleton.1 h]
      exact .inl rfl

/-- Adding a neighbour keeps the ids of the index and adds its own. -/
lemma id_mem_addNeighbor {index : List Ranked} {nb : Neighbor} {i : EntityId} :
    i ∈ (addNeighbor index nb).map (fun rec => rec.nb.entity.id) ↔
      i ∈ index.map (fun rec => rec.nb.entity.id) ∨ i = nb.entity.id := by
  unfold addNeighbor
  split
  · rename_i h
    obtain ⟨r, hr, hid⟩ := List.any_eq_true.1 h
    have hid : r.nb.entity.id = nb.entity.id := by simpa using hid
    have hmap : (fun rec : Ranked => rec.nb.entity.id) ∘ (fun rec : Ranked =>
        if rec.nb.entity.id = nb.entity.id then { rec with links := rec.links + 1 } else rec) =
        fun rec => rec.nb.entity.id := by
      funext rec
      simp only [Function.comp]
      split <;> rfl
    rw [List.map_map, hmap]
    refine ⟨.inl, fun hi => hi.elim id fun hi => ?_⟩
    rw [hi, ← hid]
    exact List.mem_map_of_mem hr
  · simp

lemma mem_neighborIndex {matched : List EntityId} {nbs : List Neighbor} {rec : Ranked}
    (h : rec ∈ neighborIndex matched nbs) : rec.nb ∈ nbs := by
  have key : ∀ (l : List Neighbor) (index : List Ranked), (∀ r ∈ index, r.nb ∈ nbs) →
      (∀ nb ∈ l, nb ∈ nbs) → ∀ r ∈ l.foldl addNeighbor index, r.nb ∈ nbs := by
    intro l
    induction l with
    | nil => exact fun index hi _ => hi
    | cons nb l ih =>
      intro index hi hl
      refine ih _ (fun r hr => ?_) (fun x hx => hl x (by simp [hx]))
      rcases mem_addNeighbor hr with hr | ⟨r', hr', hr⟩
      · exact hr ▸ hl nb (by simp)
      · exact hr ▸ hi r' hr'
  exact key _ [] (by simp) (fun nb hnb => (List.mem_filter.1 hnb).1) rec h

lemma id_mem_neighborIndex {matched : List EntityId} {nbs : List Neighbor} {nb : Neighbor}
    (h : nb ∈ nbs) (hm : nb.entity.id ∉ matched) :
    nb.entity.id ∈ (neighborIndex matched nbs).map fun rec => rec.nb.entity.id := by
  have key : ∀ (l : List Neighbor) (index : List Ranked) (i : EntityId),
      (i ∈ index.map (fun rec => rec.nb.entity.id) ∨ ∃ x ∈ l, x.entity.id = i) →
      i ∈ (l.foldl addNeighbor index).map fun rec => rec.nb.entity.id := by
    intro l
    induction l with
    | nil => rintro index i (hi | ⟨x, hx, -⟩) <;> [exact hi; cases hx]
    | cons y l ih =>
      rintro index i hi
      refine ih _ i ?_
      rcases hi with hi | ⟨x, hx, rfl⟩
      · exact .inl (id_mem_addNeighbor.2 (.inl hi))
      · rcases List.mem_cons.1 hx with rfl | hx
        · exact .inl (id_mem_addNeighbor.2 (.inr rfl))
        · exact .inr ⟨x, hx, rfl⟩
  exact key _ [] _ (.inr ⟨nb, List.mem_filter.2 ⟨h, by simpa using hm⟩, rfl⟩)

lemma mem_promoteDefinition {q : Query} {vec : Table} (syms : List String) {reranked : Table}
    {r : Row} (h : r ∈ promoteDefinition g sc q vec syms reranked) : r ∈ reranked ∨ r ∈ vec := by
  induction syms with
  | nil => exact .inl h
  | cons sym syms ih =>
    unfold promoteDefinition at h
    dsimp only at h
    split at h
    · exact ih h
    · split at h
      · rename_i x hx
        rcases List.mem_cons.1 h with rfl | h
        · exact .inl (List.mem_of_find?_eq_some hx)
        · exact .inl (List.mem_of_mem_erase h)
      · split at h
        · split at h
          · rename_i x hx
            rcases List.mem_cons.1 (List.dropLast_subset _ h) with rfl | h
            · exact .inr (List.mem_of_find?_eq_some hx)
            · exact .inl h
          · exact ih h
        · exact ih h

/-! ### The scope keeps to what the caller may read -/

variable {read : String → Bool}

/-- What `authorizeScope_spec` says of a scope. -/
def Right (read : String → Bool) (sc : Scope) : Prop :=
  (∃ sid, sc = ⟨some sid, []⟩ ∧ read sid = true) ∨
    (sc.sourceId = none ∧ ∀ sid, read sid = true ↔ sid ∉ sc.exclude)

lemma read_of_rowInScope (hsc : Right read sc) {r : Row} (h : rowInScope sc r = true) :
    read r.sourceId = true := by
  simp only [rowInScope, Bool.and_eq_true, decide_eq_true_eq] at h
  rcases hsc with ⟨sid, rfl, hr⟩ | ⟨-, hr⟩
  · have : r.sourceId = sid := by simpa using h.1
    exact this ▸ hr
  · exact (hr _).2 h.2

lemma not_deniedOnly_of_inScope (hsc : Right read sc) {i : EntityId} (h : inScope g sc i = true) :
    ¬DeniedOnly read g i := by
  rintro ⟨⟨s, hs, hr⟩, hall⟩
  simp only [inScope, Bool.and_eq_true] at h
  rcases hsc with ⟨sid, rfl, hsid⟩ | ⟨-, hex⟩
  · have hl : linked g sid i = true := by simpa using h.1
    rw [hall sid hl] at hsid
    cases hsid
  · have hmem : s ∈ sc.exclude := by
      by_contra hn
      rw [(hex s).2 hn] at hr
      cases hr
    have := List.all_eq_true.1 h.2 s hmem
    rw [hs] at this
    cases this

lemma rowInScope_of_buildFilter {q : Query} {r : Row} (h : buildFilter q sc r = true) :
    rowInScope sc r = true := by
  simp only [buildFilter, Bool.and_eq_true] at h
  simp only [rowInScope, Bool.and_eq_true]
  exact ⟨h.1.2, h.2⟩

/-! ### What a response contains -/

variable {eng : Engine} {q : Query}

lemma mem_vec {r : Row} (h : r ∈ eng.search (t.filter (buildFilter q sc))) :
    r ∈ t ∧ rowInScope sc r = true := by
  obtain ⟨ht, hf⟩ := List.mem_filter.1 (eng.search_sub _ r h)
  exact ⟨ht, rowInScope_of_buildFilter hf⟩

/-- The matched entities are those of a hit's file. -/
lemma ofHit_of_matched {e : EntityRow}
    (h : e ∈ matchedEntities g sc (eng.rerank (eng.search (t.filter (buildFilter q sc))))) :
    OfHit g t sc e := by
  obtain ⟨he, hs, r, hr, hp⟩ := mem_matchedEntities.1 h
  obtain ⟨ht, hr⟩ := mem_vec (eng.rerank_sub _ r hr)
  exact ⟨he, hs, r, ht, hr, hp⟩

lemma mem_chunks {h : ChunkHit} (hh : h ∈ (graphSearch g t eng q sc).chunks) :
    rowInScope sc h.row = true ∧ ∀ e ∈ h.header, inScope g sc e.id = true := by
  unfold graphSearch at hh
  dsimp only at hh
  split at hh
  · cases hh
  · obtain ⟨r, hr, rfl⟩ := List.mem_map.1 (List.mem_of_mem_take hh)
    have hr := List.mem_of_mem_take hr
    refine ⟨?_, fun e he => ?_⟩
    · suffices hv : r ∈ eng.search (t.filter (buildFilter q sc)) from (mem_vec hv).2
      split at hr
      · rcases mem_promoteDefinition _ hr with hr | hr
        · exact eng.rerank_sub _ r (eng.rescore_sub _ r hr)
        · exact hr
      · exact eng.rerank_sub _ r (eng.rescore_sub _ r hr)
    · have he := (List.mem_filter.1 he).1
      split at he
      · exact (mem_getEntitiesByFile.1 he).2.2
      · cases he

lemma mem_rankNeighbors {index : List Ranked} {n : Ranked} (h : n ∈ rankNeighbors index) :
    n ∈ index :=
  (List.mem_insertionSort _).1 (List.mem_of_mem_take h)

/-- A neighbour of the response is in scope, and so is what it is a neighbour of. -/
lemma mem_neighbors {n : Ranked} (hn : n ∈ (graphSearch g t eng q sc).neighbors) :
    ∃ m, inScope g sc m = true ∧ n.nb ∈ neighborsOf g sc m := by
  unfold graphSearch at hn
  dsimp only at hn
  split at hn
  · cases hn
  · dsimp only at hn
    split at hn
    · have hn := mem_neighborIndex (mem_rankNeighbors (List.mem_of_mem_take hn))
      obtain ⟨m, hm, hn⟩ := List.mem_flatMap.1 hn
      obtain ⟨e, he, rfl⟩ := List.mem_map.1 hm
      exact ⟨e.id, (mem_matchedEntities.1 he).2.1, hn⟩
    · cases hn

lemma surfaced_of_neighbor {m : EntityRow} (hm : OfHit g t sc m) {nb : Neighbor}
    (h : nb ∈ neighborsOf g sc m.id) : Surfaced g t sc nb.entity := by
  obtain ⟨he, hs, r, hr, -, hd⟩ := mem_neighborsOf.1 h
  refine .inr ⟨he, hs, m, hm, r, hr, ?_⟩
  exact hd.imp And.right And.right

/-- A summary of the response is that of an entity the search looked at. -/
lemma mem_communitySummaries {c : Community}
    (hc : c ∈ (graphSearch g t eng q sc).communitySummaries) :
    c ∈ g.communities ∧ ∃ e, Surfaced g t sc e ∧ e.communityId = some c.id := by
  unfold graphSearch at hc
  dsimp only at hc
  split at hc
  · cases hc
  · dsimp only at hc
    split at hc
    swap
    · cases hc
    have hc := (List.mem_filter.1 hc).1
    split at hc
    swap
    · cases hc
    obtain ⟨hc, hid⟩ := List.mem_filter.1 hc
    obtain ⟨e, he, hec⟩ := List.mem_filterMap.1 (of_decide_eq_true hid)
    obtain ⟨he, hi⟩ := List.mem_filter.1 he
    refine ⟨hc, e, ?_, hec⟩
    rcases List.mem_append.1 (of_decide_eq_true hi) with hi | hi
    · obtain ⟨m, hm, hmid⟩ := List.mem_map.1 hi
      have hm := ofHit_of_matched hm
      rw [Keyed.eq_of_key he hm.1 hmid.symm]
      exact .inl hm
    · obtain ⟨n, hn, hnid⟩ := List.mem_map.1 hi
      obtain ⟨m, hm, hn⟩ := List.mem_flatMap.1 (mem_neighborIndex hn)
      obtain ⟨em, hem, rfl⟩ := List.mem_map.1 hm
      have hs := surfaced_of_neighbor (ofHit_of_matched hem) hn
      rw [Keyed.eq_of_key he (mem_neighborsOf.1 hn).1 hnid.symm]
      exact hs

/-! ### The search that keeps everything -/

/-- No ranking, no budget. -/
def keepAll : Engine :=
  ⟨id, id, id, fun _ _ h => h, fun _ _ h => h, fun _ _ h => h, List.length, 0, 0, fun _ => true⟩

/-- No filter, and the communities asked for. -/
def askAll : Query := ⟨[], none, none, true, false, false⟩

lemma buildFilter_askAll (r : Row) : buildFilter askAll sc r = rowInScope sc r := rfl

lemma summary_of_surfaced {e : EntityRow} (he : Surfaced g t sc e) {c : Community}
    (hc : c ∈ g.communities) (hec : e.communityId = some c.id) :
    c ∈ (graphSearch g t keepAll askAll sc).communitySummaries := by
  have hfilter : t.filter (buildFilter askAll sc) = t.filter (rowInScope sc) :=
    List.filter_congr fun r _ => buildFilter_askAll r
  have hmatched : ∀ {m}, OfHit g t sc m → m ∈ matchedEntities g sc (t.filter (rowInScope sc)) := by
    rintro m ⟨hm, hs, r, hr, hrs, hp⟩
    exact mem_matchedEntities.2 ⟨hm, hs, r, List.mem_filter.2 ⟨hr, hrs⟩, hp⟩
  have hne : t.filter (rowInScope sc) ≠ [] := by
    have : ∃ m, OfHit g t sc m := by
      rcases he with he | ⟨-, -, m, hm, -⟩
      exacts [⟨e, he⟩, ⟨m, hm⟩]
    obtain ⟨m, -, -, r, hr, hrs, -⟩ := this
    exact List.ne_nil_of_mem (List.mem_filter.2 ⟨hr, hrs⟩)
  have hids : e ∈ g.entities := by
    rcases he with he | he <;> exact he.1
  unfold graphSearch
  dsimp only [keepAll, askAll, id]
  rw [show t.filter (buildFilter ⟨[], none, none, true, false, false⟩ sc) =
    t.filter (rowInScope sc) from hfilter, if_neg hne]
  simp only [ne_eq, not_true_eq_false, decide_false, Bool.and_false, Bool.not_false, if_true,
    List.mem_filter, and_true]
  refine List.mem_filter.2 ⟨hc, decide_eq_true ?_⟩
  refine List.mem_filterMap.2 ⟨e, List.mem_filter.2 ⟨hids, decide_eq_true ?_⟩, hec⟩
  rw [List.mem_append]
  by_cases hin : e.id ∈ (matchedEntities g sc (t.filter (rowInScope sc))).map EntityRow.id
  · exact .inl hin
  · rcases he with he | ⟨he, hs, m, hm, r, hr, hd⟩
    · exact absurd (List.mem_map_of_mem (hmatched he)) hin
    · right
      have hnb : ∃ nb, nb ∈ neighborsOf g sc m.id ∧ nb.entity = e := by
        rcases hd with hd | hd
        · exact ⟨⟨e, r.type, .out⟩, mem_neighborsOf.2 ⟨he, hs, r, hr, rfl, .inl ⟨rfl, hd⟩⟩, rfl⟩
        · exact ⟨⟨e, r.type, .in⟩, mem_neighborsOf.2 ⟨he, hs, r, hr, rfl, .inr ⟨rfl, hd⟩⟩, rfl⟩
      obtain ⟨nb, hnb, rfl⟩ := hnb
      refine id_mem_neighborIndex (List.mem_flatMap.2 ⟨m.id, ?_, hnb⟩) hin
      exact List.mem_map_of_mem (hmatched hm)

/-! ### The response of an authorized search -/

/-- **Only community summaries leak**: whatever is ranked and asked for, an authorized search
reveals nothing of the sources its caller may not read, exactly when no entity it can look at
is in a community of theirs. -/
theorem clean_iff (gr : Grants) (u : User) (sourceId : Option String) (g : Graph) (t : Table)
    (h : authorizeScope gr u sourceId = .ok sc) :
    (∀ eng q, Clean (mayRead gr u) g (graphSearch g t eng q sc)) ↔
      CommunitiesReadable (mayRead gr u) g t sc := by
  have hsc : Right (mayRead gr u) sc := authorizeScope_spec h
  constructor
  · intro hclean e he c hc hec
    exact (hclean keepAll askAll).summary c (summary_of_surfaced he hc hec)
  · intro hcomm eng q
    refine ⟨fun hit hh => ?_, fun hit hh e he => ?_, fun n hn => ?_, fun n hn => ?_,
      fun c hc => ?_⟩
    · exact read_of_rowInScope hsc (mem_chunks hh).1
    · exact not_deniedOnly_of_inScope hsc ((mem_chunks hh).2 e he)
    · obtain ⟨m, -, hn⟩ := mem_neighbors hn
      exact not_deniedOnly_of_inScope hsc (mem_neighborsOf.1 hn).2.1
    · obtain ⟨m, hm, hn⟩ := mem_neighbors hn
      obtain ⟨-, hs, r, hr, hty, hd⟩ := mem_neighborsOf.1 hn
      have hm := not_deniedOnly_of_inScope hsc hm
      have hs := not_deniedOnly_of_inScope hsc hs
      refine ⟨r, hr, hty, ?_⟩
      rcases hd with ⟨-, rfl, hd⟩ | ⟨-, rfl, hd⟩
      · exact ⟨.inr hd, hm, hd ▸ hs⟩
      · exact ⟨.inl hd, hd ▸ hs, hm⟩
    · obtain ⟨hc, e, he, hec⟩ := mem_communitySummaries hc
      exact hcomm e he c hc hec

/-! ### Two local sources, one inside the other -/

def helperFile : FilePath := .abs ["repo", "sub", "helper.py"]

def keysFile : FilePath := .abs ["repo", "keys.py"]

def helperChunk : Chunk := ⟨"def helper(): pass", helperFile, "python", 1, 1⟩

def keysChunk : Chunk := ⟨"def rotate_master_key(): pass", keysFile, "python", 1, 1⟩

def helperEntities : List Entity :=
  [⟨.func helperFile "helper", .function, "helper", helperFile, 1, 1, "()", "python"⟩]

def keysEntities : List Entity :=
  [⟨.func keysFile "rotate_master_key", .function, "rotate_master_key", keysFile, 1, 1, "()",
    "python"⟩]

/-- `/repo` is source `a`, `/repo/sub` is source `b`. -/
def nestedChunks : Table :=
  insertChunks "a" [helperChunk, keysChunk] (insertChunks "b" [helperChunk] [])

/-- `b` has been indexed and its signals have run. -/
def innerGraph : Graph :=
  Community.runPostIndexSignals (fun _ => 0) "b" (storeGraph helperEntities [] "b" empty)

/-- Then `a`, whose signals take over the community column of what they share. -/
def nestedGraph : Graph :=
  Community.runPostIndexSignals (fun _ => 0) "a"
    (storeGraph helperEntities [] "a" (storeGraph keysEntities [] "a" innerGraph))

def reader : User := ⟨"u", .user, false, []⟩

/-- The reader has been granted `b` and nothing else. -/
def innerGrants : Grants := ⟨some [⟨.user, "u", "b", .allow⟩], fun _ => none⟩

theorem clean_before_outer_signals :
    Clean (mayRead innerGrants reader) innerGraph
      (graphSearch innerGraph nestedChunks keepAll askAll ⟨some "b", []⟩) := by
  refine (clean_iff innerGrants reader (some "b") innerGraph nestedChunks (by decide)).2 ?_
    keepAll askAll
  have h : ∀ c ∈ innerGraph.communities.rows, mayRead innerGrants reader c.id.source = true := by
    decide
  exact fun e _ c hc _ => h c hc

/-- The reader searches `b` and is told what is in `a`. -/
theorem inner_search_returns_outer_summary :
    authorizeScope innerGrants reader (some "b") = .ok ⟨some "b", []⟩ ∧
      mayRead innerGrants reader "a" = false ∧
      (⟨⟨"a", 0⟩, "2 entities across 2 files: Function:helper, Function:rotate_master_key"⟩ :
          Community) ∈
        (graphSearch nestedGraph nestedChunks keepAll askAll ⟨some "b", []⟩).communitySummaries ∧
      ¬Clean (mayRead innerGrants reader) nestedGraph
        (graphSearch nestedGraph nestedChunks keepAll askAll ⟨some "b", []⟩) := by
  have hmem : (⟨⟨"a", 0⟩, "2 entities across 2 files: Function:helper, Function:rotate_master_key"⟩ :
      Community) ∈
      (graphSearch nestedGraph nestedChunks keepAll askAll ⟨some "b", []⟩).communitySummaries := by
    decide
  have hread : mayRead innerGrants reader "a" = false := by decide
  refine ⟨by decide, hread, hmem, fun hclean => ?_⟩
  have := hclean.summary _ hmem
  rw [hread] at this
  cases this

end Treeweft.SearchLeak
