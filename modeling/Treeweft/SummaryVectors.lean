import Treeweft.Scatter
import Treeweft.SummaryCache

/-!
The summary vectors of the rows of a file.

The summaries that the cache has are filled in at once, the others by calls that end in any order.
Only what was accepted is embedded, in one list; the vectors go back to the rows in its order.
-/

namespace Treeweft.SummaryVectors

open Treeweft.Indexer (Chunk)
open Treeweft.Paths (FilePath)
open Treeweft.FileIndex (truncateChunk)
open SummaryCache (accepted Backend Cache Digest cacheGetMany cacheGetMany_true chunkCacheKey)
open SummaryVersion (Strategy orNone)
open Scatter (assign deal)

abbrev Outcome := Option String × Strategy

/-! ### The Summaries -/

/-- A call of `summarize_with_cache`: the cache as the call finds it, the answer of
`_generate_summary`, and whether the answer can be stored. -/
structure Call where
  pool : Option Cache
  generate : String → String → FilePath → ℕ → Option Outcome
  stores : Bool

section Summaries
variable (sha1 : Digest)

/-- `none` where it raises. -/
def summarizeWithCache (call : Call) (chunkText language : String) (filePath : FilePath)
    (version : ℕ) : Option Outcome := do
  let key := chunkCacheKey sha1 chunkText
  let hits ← cacheGetMany call.pool [key] version true
  match hits key with
  | some hit => some (orNone hit, .cached)
  | none =>
    let (summary, strategy) ← call.generate chunkText language filePath version
    match summary.filter (· ≠ "") with
    | some summary => if call.stores then some (some summary, .generated) else none
    | none =>
      if strategy = .rejected then if call.stores then some (none, .rejected) else none
      else some (none, .error)

def cachedOutcome (summary : String) : Outcome :=
  if summary ≠ "" then (some summary, .cached) else (none, .rejected)

/-- The outcomes that are known, and the places of the others. -/
structure Scan where
  out : List Outcome
  pending : List ℕ

def Scan.step (cached : String → Option String) (s : Scan) (x : String × ℕ) : Scan :=
  match cached x.1 with
  | some summary => { s with out := s.out.set x.2 (cachedOutcome summary) }
  | none => { s with pending := s.pending ++ [x.2] }

/-- What a file finds: the pool at the first lookup, and the call of each chunk. -/
structure Found where
  pool : Option Cache
  call : ℕ → Call

/-- `_one`. -/
def one (found : Found) (version : ℕ) (chunks : List Chunk) (i : ℕ) : Option (ℕ × Outcome) := do
  let c ← chunks[i]?
  let outcome ← summarizeWithCache sha1 (found.call i) c.text c.language c.filePath version
  some (i, outcome)

/-- The calls run together, and one that raises raises for all. -/
def summariesForChunks (found : Found) (version : ℕ) (chunks : List Chunk) :
    Option (List Outcome) := do
  let keys := chunks.map fun c => chunkCacheKey sha1 c.text
  let cached ← cacheGetMany found.pool keys version true
  let s := keys.zipIdx.foldl (Scan.step cached)
    ⟨List.replicate chunks.length (none, .error), []⟩
  let results ← s.pending.mapM (one sha1 found version chunks)
  some (assign s.out results)

/-- The outcome of one chunk, whatever the others are. -/
def outcomeOf (found : Found) (cache : Cache) (version : ℕ) (x : Chunk × ℕ) : Option Outcome :=
  match cache (chunkCacheKey sha1 x.1.text) version with
  | some summary => some (cachedOutcome summary)
  | none => summarizeWithCache sha1 (found.call x.2) x.1.text x.1.language x.1.filePath version

end Summaries

section Outcomes
variable {sha1 : Digest} {found : Found} {cache : Cache} {version : ℕ} {chunks : List Chunk}

/-- The write of a known outcome. -/
def known (cached : String → Option String) (x : String × ℕ) : Option (ℕ × Outcome) :=
  (cached x.1).map fun summary => (x.2, cachedOutcome summary)

def unknown (cached : String → Option String) (x : String × ℕ) : Option ℕ :=
  if (cached x.1).isNone then some x.2 else none

lemma unknown_eq_some {cached : String → Option String} {key : String} {i j : ℕ} :
    unknown cached (key, j) = some i ↔ cached key = none ∧ j = i := by
  rw [unknown, Option.ite_none_right_eq_some, Option.isNone_iff_eq_none, Option.some.injEq]

lemma foldl_step (cached : String → Option String) (xs : List (String × ℕ)) (s : Scan) :
    xs.foldl (Scan.step cached) s =
      ⟨assign s.out (xs.filterMap (known cached)), s.pending ++ xs.filterMap (unknown cached)⟩ := by
  induction xs generalizing s with
  | nil => simp
  | cons x xs ih =>
    rw [List.foldl_cons, ih, Scan.step]
    cases hx : cached x.1 with
    | none => simp [known, unknown, hx]
    | some summary => simp [known, unknown, hx]

/-- What is asked is one key for each chunk. -/
lemma mem_zipIdx_keys {key : String} {i : ℕ} :
    (key, i) ∈ (chunks.map fun c => chunkCacheKey sha1 c.text).zipIdx ↔
      ∃ c, chunks[i]? = some c ∧ chunkCacheKey sha1 c.text = key := by
  rw [List.mk_mem_zipIdx_iff_getElem?, List.getElem?_map, Option.map_eq_some_iff]

lemma one_eq_some {i : ℕ} {w : ℕ × Outcome} :
    one sha1 found version chunks i = some w ↔ w.1 = i ∧ ∃ c, chunks[i]? = some c ∧
      summarizeWithCache sha1 (found.call i) c.text c.language c.filePath version = some w.2 := by
  simp only [one, Option.bind_eq_bind, Option.bind_eq_some_iff, Option.some.injEq]
  constructor
  · rintro ⟨c, hc, o, ho, rfl⟩
    exact ⟨rfl, c, hc, ho⟩
  · rintro ⟨rfl, c, hc, ho⟩
    exact ⟨c, hc, w.2, ho, rfl⟩

/-- The writes of a batch: each is the outcome of its own chunk, and every chunk has one. -/
structure Complete (sha1 : Digest) (found : Found) (cache : Cache) (version : ℕ)
    (chunks : List Chunk) (writes : List (ℕ × Outcome)) : Prop where
  own : ∀ w ∈ writes, ∃ c, chunks[w.1]? = some c ∧
    outcomeOf sha1 found cache version (c, w.1) = some w.2
  all : ∀ i < chunks.length, ∃ w ∈ writes, w.1 = i

lemma Complete.assign {writes : List (ℕ × Outcome)}
    (h : Complete sha1 found cache version chunks writes) {out : List Outcome}
    (hlen : out.length = chunks.length) {i : ℕ} {c : Chunk} (hc : chunks[i]? = some c) :
    (assign out writes)[i]? = outcomeOf sha1 found cache version (c, i) := by
  obtain ⟨hi, -⟩ := List.getElem?_eq_some_iff.1 hc
  have hown : ∀ w ∈ writes, w.2 = (((chunks[w.1]?).bind fun c =>
      outcomeOf sha1 found cache version (c, w.1)).getD (none, .error)) := by
    intro w hw
    obtain ⟨c, hc, ho⟩ := h.own w hw
    rw [hc, Option.bind_some, ho, Option.getD_some]
  obtain ⟨w, hw, rfl⟩ := h.all i hi
  obtain ⟨c', hc', ho⟩ := h.own w hw
  obtain rfl := Option.some.inj (hc.symm.trans hc')
  rw [Scatter.getElem?_assign (f := fun i => ((chunks[i]?).bind fun c =>
      outcomeOf sha1 found cache version (c, i)).getD (none, .error)) hown,
    if_pos ⟨List.mem_map_of_mem hw, hlen ▸ hi⟩, hc, Option.bind_some, ho, Option.getD_some]

section Batch
variable {cached : String → Option String} {keys : List String}

/-- The known outcomes and the answers to the calls for the others make a batch complete. -/
lemma complete_of_results (hkeys : keys = chunks.map fun c => chunkCacheKey sha1 c.text)
    (hcached : ∀ k ∈ keys, cached k = cache k version) {results : List (ℕ × Outcome)}
    (h : (keys.zipIdx.filterMap (unknown cached)).mapM (one sha1 found version chunks) =
      some results) :
    Complete sha1 found cache version chunks (keys.zipIdx.filterMap (known cached) ++ results) := by
  rw [Scatter.mapM_eq_some_iff] at h
  have hasked : ∀ {key i}, (key, i) ∈ keys.zipIdx →
      ∃ c, chunks[i]? = some c ∧ chunkCacheKey sha1 c.text = key ∧ cached key = cache key version :=
    fun {key i} hx => by
      obtain ⟨c, hc, hk⟩ := mem_zipIdx_keys.1 (hkeys ▸ hx)
      exact ⟨c, hc, hk, hcached key (List.fst_mem_of_mem_zipIdx hx)⟩
  refine ⟨fun w hw => ?_, fun i hi => ?_⟩
  · rcases List.mem_append.1 hw with hw | hw
    · obtain ⟨⟨key, i⟩, hx, hw⟩ := List.mem_filterMap.1 hw
      obtain ⟨summary, hs, rfl⟩ := Option.map_eq_some_iff.1 hw
      obtain ⟨c, hc, rfl, hcache⟩ := hasked hx
      exact ⟨c, hc, by rw [outcomeOf, ← hcache, hs]⟩
    · obtain ⟨i, hi, ho⟩ := List.mem_map.1 (h ▸ List.mem_map_of_mem (f := some) hw)
      obtain ⟨⟨key, j⟩, hx, hi⟩ := List.mem_filterMap.1 hi
      obtain ⟨hnone, rfl⟩ := unknown_eq_some.1 hi
      obtain ⟨rfl, c, hc, hcall⟩ := one_eq_some.1 ho
      obtain ⟨c', hc', rfl, hcache⟩ := hasked hx
      obtain rfl := Option.some.inj (hc.symm.trans hc')
      exact ⟨c, hc, by rw [outcomeOf, ← hcache, hnone, hcall]⟩
  · have hx : (chunkCacheKey sha1 chunks[i].text, i) ∈ keys.zipIdx := by
      rw [hkeys, mem_zipIdx_keys]
      exact ⟨chunks[i], List.getElem?_eq_getElem hi, rfl⟩
    cases hs : cached (chunkCacheKey sha1 chunks[i].text) with
    | some summary =>
      refine ⟨(i, cachedOutcome summary), List.mem_append_left _ ?_, rfl⟩
      exact List.mem_filterMap.2 ⟨_, hx, by rw [known, hs]; rfl⟩
    | none =>
      have hpending : i ∈ keys.zipIdx.filterMap (unknown cached) :=
        List.mem_filterMap.2 ⟨_, hx, unknown_eq_some.2 ⟨hs, rfl⟩⟩
      obtain ⟨w, hw, ho⟩ := List.mem_map.1 (h ▸ List.mem_map_of_mem hpending)
      exact ⟨w, List.mem_append_right _ hw, (one_eq_some.1 ho.symm).1⟩

/-- Where every chunk would have got an outcome alone, no call raises. -/
lemma exists_results (hkeys : keys = chunks.map fun c => chunkCacheKey sha1 c.text)
    (hcached : ∀ k ∈ keys, cached k = cache k version)
    (h : ∀ i c, chunks[i]? = some c → ∃ o, outcomeOf sha1 found cache version (c, i) = some o) :
    ∃ results, (keys.zipIdx.filterMap (unknown cached)).mapM (one sha1 found version chunks) =
      some results := by
  refine Scatter.exists_mapM fun i hi => ?_
  obtain ⟨⟨key, j⟩, hx, hi⟩ := List.mem_filterMap.1 hi
  obtain ⟨hnone, rfl⟩ := unknown_eq_some.1 hi
  obtain ⟨c, hc, rfl⟩ := mem_zipIdx_keys.1 (hkeys ▸ hx)
  obtain ⟨o, ho⟩ := h j c hc
  rw [hcached _ (List.fst_mem_of_mem_zipIdx hx)] at hnone
  rw [outcomeOf, hnone] at ho
  exact ⟨(j, o), one_eq_some.2 ⟨rfl, c, hc, ho⟩⟩

end Batch

/-- The answers come back as what each chunk would have got alone, at its own place. -/
lemma summariesForChunks_eq_some (hpool : found.pool = some cache) {outs : List Outcome} :
    summariesForChunks sha1 found version chunks = some outs ↔ outs.length = chunks.length ∧
      ∀ i c, chunks[i]? = some c → outcomeOf sha1 found cache version (c, i) = outs[i]? := by
  set keys := chunks.map fun c => chunkCacheKey sha1 c.text with hkeys
  set cached : String → Option String := fun k => if k ∈ keys then cache k version else none
  have hcached : ∀ k ∈ keys, cached k = cache k version := fun k hk => if_pos hk
  have hrun : summariesForChunks sha1 found version chunks =
      ((keys.zipIdx.filterMap (unknown cached)).mapM (one sha1 found version chunks)).map
        fun results => assign (List.replicate chunks.length (none, .error))
          (keys.zipIdx.filterMap (known cached) ++ results) := by
    rw [summariesForChunks, hpool, cacheGetMany_true]
    simp only [Option.bind_eq_bind, Option.bind_some, foldl_step, List.nil_append,
      Scatter.assign_append]
    exact (Option.map_eq_bind ..).symm
  have hlen : (List.replicate chunks.length ((none, .error) : Outcome)).length = chunks.length :=
    List.length_replicate
  rw [hrun, Option.map_eq_some_iff]
  constructor
  · rintro ⟨results, hresults, rfl⟩
    have hall := complete_of_results hkeys hcached hresults
    exact ⟨by rw [Scatter.length_assign, hlen], fun i c hc => (hall.assign hlen hc).symm⟩
  · rintro ⟨hlen', hown⟩
    obtain ⟨results, hresults⟩ := exists_results hkeys hcached fun i c hc => by
      obtain ⟨hi, -⟩ := List.getElem?_eq_some_iff.1 hc
      exact ⟨outs[i], by rw [hown i c hc, List.getElem?_eq_getElem (hlen' ▸ hi)]⟩
    refine ⟨results, hresults, List.ext_getElem? fun i => ?_⟩
    have hall := complete_of_results hkeys hcached hresults
    by_cases hi : i < chunks.length
    · have hc := List.getElem?_eq_getElem hi
      rw [hall.assign hlen hc, hown i _ hc]
    · rw [List.getElem?_eq_none (by simpa using hi), List.getElem?_eq_none (by omega)]

lemma orNone_ne_empty (s : String) : orNone s ≠ some "" := by
  unfold orNone
  split_ifs with h
  · exact nofun
  · exact fun he => h (Option.some.inj he)

lemma summarizeWithCache_ne_empty {call : Call} {text language : String} {path : FilePath}
    {o : Outcome} (h : summarizeWithCache sha1 call text language path version = some o) :
    o.1 ≠ some "" := by
  rw [summarizeWithCache] at h
  obtain ⟨hits, -, h⟩ := Option.bind_eq_some_iff.1 h
  cases hkey : hits (chunkCacheKey sha1 text) with
  | some hit =>
    rw [hkey] at h
    obtain rfl := Option.some.inj h
    exact orNone_ne_empty hit
  | none =>
    rw [hkey] at h
    obtain ⟨⟨summary, strategy⟩, -, h⟩ := Option.bind_eq_some_iff.1 h
    dsimp only at h
    split at h
    · next s hs =>
      obtain rfl := Option.some.inj (Option.ite_none_right_eq_some.1 h).2
      exact fun he => by simp [Option.some.inj he, Option.filter_eq_some_iff] at hs
    · split_ifs at h <;> cases h <;> exact nofun

/-- No outcome carries an empty summary. -/
lemma outcomeOf_ne_empty {x : Chunk × ℕ} {o : Outcome}
    (h : outcomeOf sha1 found cache version x = some o) : o.1 ≠ some "" := by
  rw [outcomeOf] at h
  split at h
  · obtain rfl := Option.some.inj h
    unfold cachedOutcome
    split_ifs with hs
    · exact fun he => hs (Option.some.inj he)
    · exact nofun
  · exact summarizeWithCache_ne_empty h

end Outcomes

/-! ### The Rows -/

/-- An embedder. Where it returns, it has made one vector of each text, in their order. -/
structure Embedder (V : Type) where
  Embeds : String → V → Prop
  embed : List String → Option (List V)
  embeds : ∀ texts vectors, embed texts = some vectors → List.Forall₂ Embeds texts vectors

structure Row (V : Type) extends VectorStore.Row where
  vector : V
  summaryVector : Option V

section Rows
variable {V : Type} (zero : V)

/-- What stands in the column of the summary vector: Milvus has a zero vector for none, and
ChromaDB has no such column. -/
def column : Backend → Option V → Option V
  | .milvus, v => some (v.getD zero)
  | .lancedb, v => v
  | .chromadb, _ => none

/-- `none` where the index is out of range. -/
def summaryAt (summaryEmbeddings : Option (List (Option V))) (i : ℕ) : Option (Option V) :=
  match summaryEmbeddings with
  | none => some none
  | some vectors => vectors[i]?

/-- `insert_chunks`. -/
def insertChunks (b : Backend) (sourceId : String) (chunks : List Chunk) (embeddings : List V)
    (summaryEmbeddings : Option (List (Option V))) : Option (List (Row V)) :=
  (chunks.zip embeddings).zipIdx.mapM fun x => do
    let summary ← summaryAt summaryEmbeddings x.2
    some ⟨b.rowOf sourceId x.1.1, x.1.2, column zero b summary⟩

/-- What the file is indexed with; the two calls of the embedder are apart in time. -/
structure Setup (V : Type) where
  sha1 : Digest
  useSummaryVector : Bool
  backend : Backend
  zero : V
  texts : Embedder V
  summaries : Embedder V

/-- The vectors of the accepted summaries, each at the place of its summary. -/
def summaryEmbs (embedder : Embedder V) (n : ℕ) (summaries : List (Option String)) :
    Option (List (Option V)) :=
  if summaries.filterMap accepted = [] then some (List.replicate n none)
  else do
    let embs ← embedder.embed (summaries.filterMap accepted)
    deal accepted summaries embs

/-- `_process_file` of chunks that were parsed: the rows handed to the store, or `none` where it
raises. -/
def processFile (cfg : Setup V) (found : Found) (sourceId : String) (version : ℕ)
    (chunks : List Chunk) : Option (List (Row V)) := do
  let chunks := chunks.map truncateChunk
  let embeddings ← cfg.texts.embed (chunks.map Chunk.text)
  if cfg.useSummaryVector then do
    let outcomes ← summariesForChunks cfg.sha1 found version chunks
    let vectors ← summaryEmbs cfg.summaries chunks.length (outcomes.map Prod.fst)
    insertChunks cfg.zero cfg.backend sourceId chunks embeddings (some vectors)
  else insertChunks cfg.zero cfg.backend sourceId chunks embeddings none

end Rows

/-! ### Alignment -/

section Alignment
variable {V : Type} {cfg : Setup V} {found : Found} {sourceId : String} {version : ℕ}
  {chunks : List Chunk} {rows : List (Row V)}

lemma forall₂_replicate {α β γ : Type} {R : γ → β → Prop} {waits : α → Option γ} {as : List α}
    (h : as.filterMap waits = []) :
    List.Forall₂ (fun a o => Option.Rel R (waits a) o) as (List.replicate as.length none) := by
  induction as with
  | nil => exact .nil
  | cons a as ih =>
    rw [List.filterMap_eq_nil_iff] at h ih
    have ha : waits a = none := h a List.mem_cons_self
    exact .cons (ha ▸ .none) (ih fun b hb => h b (List.mem_cons_of_mem _ hb))

/-- Each accepted summary gets the vector that was made of it, and no other place gets one. -/
lemma summaryEmbs_eq_some {e : Embedder V} {summaries : List (Option String)}
    {vectors : List (Option V)} (h : summaryEmbs e summaries.length summaries = some vectors) :
    List.Forall₂ (fun s v => Option.Rel e.Embeds (accepted s) v) summaries vectors := by
  rw [summaryEmbs] at h
  split_ifs at h with hnil
  · obtain rfl := Option.some.inj h
    exact forall₂_replicate hnil
  · obtain ⟨embs, hembs, h⟩ := Option.bind_eq_some_iff.1 h
    obtain ⟨out, hout, hR⟩ := Scatter.deal_eq_some (e.embeds _ _ hembs)
    obtain rfl := Option.some.inj (hout.symm.trans h)
    exact hR

lemma exists_summaryEmbs {e : Embedder V} {summaries : List (Option String)} (n : ℕ)
    (h : ∀ texts, texts ≠ [] → ∃ vectors, e.embed texts = some vectors) :
    ∃ vectors, summaryEmbs e n summaries = some vectors := by
  rw [summaryEmbs]
  split_ifs with hnil
  · exact ⟨_, rfl⟩
  · obtain ⟨embs, hembs⟩ := h _ hnil
    obtain ⟨out, hout, -⟩ := Scatter.deal_eq_some (e.embeds _ _ hembs)
    exact ⟨out, by rw [hembs]; exact hout⟩

/-- A row is of its chunk, its vector and the summary vector of its own index. -/
lemma insertChunks_eq_some {zero : V} {b : Backend} {embeddings : List V}
    {summaryEmbeddings : Option (List (Option V))} (hlen : embeddings.length = chunks.length) :
    insertChunks zero b sourceId chunks embeddings summaryEmbeddings = some rows ↔
      rows.length = chunks.length ∧ ∀ i (hi : i < chunks.length),
        (summaryAt summaryEmbeddings i).map (fun v =>
          ⟨b.rowOf sourceId chunks[i], embeddings[i], column zero b v⟩) = rows[i]? := by
  rw [insertChunks, Scatter.mapM_eq_some_iff, List.ext_getElem_iff]
  simp only [List.length_map, List.length_zipIdx, List.length_zip, hlen, Nat.min_self,
    List.getElem_map, List.getElem_zipIdx, List.getElem_zip, Nat.zero_add]
  rw [eq_comm]
  refine and_congr_right fun hrows => forall_congr' fun i => forall_congr' fun hi => ?_
  have hi' : i < rows.length := hrows ▸ hi
  rw [forall_prop_of_true hi', List.getElem?_eq_getElem hi', Option.map_eq_bind]
  rfl

/-- Of the two lists that come together in the rows, neither is shifted. -/
structure Aligned (cfg : Setup V) (found : Found) (sourceId : String) (version : ℕ) (i : ℕ)
    (c : Chunk) (row : Row V) : Prop where
  fields : row.toRow = cfg.backend.rowOf sourceId c
  vector : cfg.texts.Embeds c.text row.vector
  summary : cfg.useSummaryVector = true → ∃ cache o v, found.pool = some cache ∧
    outcomeOf cfg.sha1 found cache version (c, i) = some o ∧ o.1 ≠ some "" ∧
      Option.Rel cfg.summaries.Embeds o.1 v ∧ row.summaryVector = column cfg.zero cfg.backend v
  off : cfg.useSummaryVector = false → row.summaryVector = column cfg.zero cfg.backend none

lemma accepted_of_ne {s : Option String} (h : s ≠ some "") : accepted s = s := by
  cases s with
  | none => rfl
  | some s => exact Option.filter_some_pos (by simpa using h)

/-- Without a pool only a file without chunks goes through. -/
lemma pool_of_summariesForChunks {sha1 : Digest} {outs : List Outcome}
    (h : summariesForChunks sha1 found version chunks = some outs) (hne : chunks ≠ []) :
    ∃ cache, found.pool = some cache := by
  cases hpool : found.pool with
  | some cache => exact ⟨cache, rfl⟩
  | none =>
    obtain ⟨cached, hcached, -⟩ := Option.bind_eq_some_iff.1 h
    rw [hpool, cacheGetMany, if_neg (by simpa using hne)] at hcached
    cases hcached

lemma exists_of_insertChunks {zero : V} {b : Backend} {embeddings : List V}
    {summaryEmbeddings : Option (List (Option V))} (hlen : embeddings.length = chunks.length)
    (h : insertChunks zero b sourceId chunks embeddings summaryEmbeddings = some rows) {i : ℕ}
    {c : Chunk} {row : Row V} (hc : chunks[i]? = some c) (hrow : rows[i]? = some row) :
    ∃ e v, embeddings[i]? = some e ∧ summaryAt summaryEmbeddings i = some v ∧
      row = ⟨b.rowOf sourceId c, e, column zero b v⟩ := by
  obtain ⟨hi, rfl⟩ := List.getElem?_eq_some_iff.1 hc
  have hget := ((insertChunks_eq_some hlen).1 h).2 i hi
  obtain ⟨v, hv, hr⟩ := Option.map_eq_some_iff.1 (hget.trans hrow)
  exact ⟨embeddings[i], v, List.getElem?_eq_getElem _, hv, hr.symm⟩

lemma aligned_of_processFile (h : processFile cfg found sourceId version chunks = some rows) :
    rows.length = chunks.length ∧ ∀ i c row, (chunks.map truncateChunk)[i]? = some c →
      rows[i]? = some row → Aligned cfg found sourceId version i c row := by
  obtain ⟨embeddings, hembed, h⟩ := Option.bind_eq_some_iff.1 h
  have hE := cfg.texts.embeds _ _ hembed
  have hlen : embeddings.length = (chunks.map truncateChunk).length := by
    rw [← hE.length_eq, List.length_map]
  have hvector : ∀ {i} {c : Chunk} {e}, (chunks.map truncateChunk)[i]? = some c → embeddings[i]? = some e →
      cfg.texts.Embeds c.text e :=
    fun hc he => Scatter.rel_of_forall₂ hE (by rw [List.getElem?_map, hc]; rfl) he
  have hcut : (chunks.map truncateChunk).length = chunks.length := List.length_map _
  rw [← hcut]
  split_ifs at h with huse
  · obtain ⟨outs, houts, h⟩ := Option.bind_eq_some_iff.1 h
    obtain ⟨vectors, hvectors, h⟩ := Option.bind_eq_some_iff.1 h
    refine ⟨((insertChunks_eq_some hlen).1 h).1, fun i c row hc hrow => ?_⟩
    obtain ⟨cache, hpool⟩ := pool_of_summariesForChunks houts fun hnil => by simp [hnil] at hc
    obtain ⟨houtsLen, hown⟩ := (summariesForChunks_eq_some hpool).1 houts
    rw [← houtsLen, ← List.length_map Prod.fst] at hvectors
    obtain ⟨e, v, he, hv, rfl⟩ := exists_of_insertChunks hlen h hc hrow
    obtain ⟨hi, -⟩ := List.getElem?_eq_some_iff.1 hc
    have ho : outs[i]? = some outs[i] := List.getElem?_eq_getElem (houtsLen ▸ hi)
    have hne := outcomeOf_ne_empty ((hown i c hc).trans ho)
    have hrel := Scatter.rel_of_forall₂ (summaryEmbs_eq_some hvectors)
      (by rw [List.getElem?_map, ho]; rfl) hv
    rw [accepted_of_ne hne] at hrel
    exact ⟨rfl, hvector hc he, fun _ => ⟨cache, _, v, hpool, (hown i c hc).trans ho, hne, hrel, rfl⟩,
      fun hoff => absurd (huse.symm.trans hoff) nofun⟩
  · refine ⟨((insertChunks_eq_some hlen).1 h).1, fun i c row hc hrow => ?_⟩
    obtain ⟨e, v, he, hv, rfl⟩ := exists_of_insertChunks hlen h hc hrow
    obtain rfl := Option.some.inj hv
    exact ⟨rfl, hvector hc he, fun hon => absurd hon huse, fun _ => rfl⟩

lemma exists_insertChunks {zero : V} {b : Backend} {embeddings : List V}
    {summaryEmbeddings : Option (List (Option V))}
    (h : ∀ i < chunks.length, ∃ v, summaryAt summaryEmbeddings i = some v) :
    ∃ rows, insertChunks zero b sourceId chunks embeddings summaryEmbeddings = some rows := by
  refine Scatter.exists_mapM fun x hx => ?_
  have hi : x.2 < chunks.length := by
    have hlt := List.snd_lt_of_mem_zipIdx hx
    rw [List.length_zip, Nat.add_zero] at hlt
    omega
  obtain ⟨v, hv⟩ := h x.2 hi
  exact ⟨_, by rw [hv]; rfl⟩

/-- The outcomes that the chunks would have got alone are the outcomes of the batch. -/
lemma exists_summariesForChunks {sha1 : Digest} {cache : Cache} (hpool : found.pool = some cache)
    (h : ∀ i c, chunks[i]? = some c → ∃ o, outcomeOf sha1 found cache version (c, i) = some o) :
    ∃ outs, summariesForChunks sha1 found version chunks = some outs ∧
      outs.length = chunks.length := by
  have hall : ∀ x ∈ chunks.zipIdx, ∃ o, outcomeOf sha1 found cache version x = some o :=
    fun x hx => h x.2 x.1 (List.mk_mem_zipIdx_iff_getElem?.1 hx)
  obtain ⟨outs, houts⟩ := Scatter.exists_mapM hall
  rw [Scatter.mapM_eq_some_iff] at houts
  have hlen : outs.length = chunks.length := by simpa using (congrArg List.length houts).symm
  refine ⟨outs, (summariesForChunks_eq_some hpool).2 ⟨hlen, fun i c hc => ?_⟩, hlen⟩
  have hget := congrArg (·[i]?) houts
  obtain ⟨hi, -⟩ := List.getElem?_eq_some_iff.1 hc
  simp only [List.getElem?_map, List.getElem?_zipIdx, hc, Option.map_some, Nat.zero_add] at hget
  rw [List.getElem?_eq_getElem (hlen ▸ hi)] at hget ⊢
  exact Option.some.inj hget

/-- Nothing but the pool, a call or the embedder fails a file. -/
lemma exists_processFile
    (htexts : ∃ vectors, cfg.texts.embed ((chunks.map truncateChunk).map Chunk.text) = some vectors)
    (huse : cfg.useSummaryVector = true → ∃ cache, found.pool = some cache ∧
      (∀ i c, (chunks.map truncateChunk)[i]? = some c →
        ∃ o, outcomeOf cfg.sha1 found cache version (c, i) = some o) ∧
      ∀ texts, texts ≠ [] → ∃ vectors, cfg.summaries.embed texts = some vectors) :
    ∃ rows, processFile cfg found sourceId version chunks = some rows := by
  obtain ⟨embeddings, hembed⟩ := htexts
  simp only [processFile, Option.bind_eq_bind, hembed, Option.bind_some]
  split_ifs with hon
  · obtain ⟨cache, hpool, hout, hsum⟩ := huse hon
    obtain ⟨outs, houts, hlen⟩ := exists_summariesForChunks hpool hout
    obtain ⟨vectors, hvectors⟩ : ∃ vectors, summaryEmbs cfg.summaries
      (outs.map Prod.fst).length (outs.map Prod.fst) = some vectors := exists_summaryEmbs _ hsum
    have hveclen := (summaryEmbs_eq_some hvectors).length_eq
    rw [List.length_map, hlen] at hvectors
    rw [List.length_map, hlen] at hveclen
    rw [houts, Option.bind_some, hvectors, Option.bind_some]
    exact exists_insertChunks fun i hi => ⟨vectors[i], List.getElem?_eq_getElem (hveclen ▸ hi)⟩
  · exact exists_insertChunks fun i _ => ⟨none, rfl⟩

/-- **Summary vectors stay aligned.** Of the rows of a file, row `i` is of chunk `i`, and its summary
vector was made of the summary that chunk `i` got by its own text, or is missing where it got none;
and unless the pool, a call or the embedder raises, there are rows. -/
theorem summary_vectors_aligned (cfg : Setup V) (found : Found) (sourceId : String) (version : ℕ)
    (chunks : List Chunk) :
    (∀ rows, processFile cfg found sourceId version chunks = some rows →
      rows.length = chunks.length ∧ ∀ i c row, (chunks.map truncateChunk)[i]? = some c →
        rows[i]? = some row → Aligned cfg found sourceId version i c row) ∧
    ((∃ vectors, cfg.texts.embed ((chunks.map truncateChunk).map Chunk.text) = some vectors) →
      (cfg.useSummaryVector = true → ∃ cache, found.pool = some cache ∧
        (∀ i c, (chunks.map truncateChunk)[i]? = some c →
          ∃ o, outcomeOf cfg.sha1 found cache version (c, i) = some o) ∧
        ∀ texts, texts ≠ [] → ∃ vectors, cfg.summaries.embed texts = some vectors) →
      ∃ rows, processFile cfg found sourceId version chunks = some rows) :=
  ⟨fun _ => aligned_of_processFile, exists_processFile⟩

end Alignment

/-! ### A Batch of Four -/

/-- A vector that says what it was made of. -/
def spelled : Embedder String where
  Embeds text vector := vector = text
  embed texts := some texts
  embeds texts vectors h := by
    obtain rfl := Option.some.inj h
    exact List.forall₂_same.2 fun _ _ => rfl

def setup : Setup String where
  sha1 bytes := String.ofList (bytes.data.toList.map fun b => Char.ofNat b.toNat)
  useSummaryVector := true
  backend := .milvus
  zero := "zero"
  texts := spelled
  summaries := spelled

def cache : Cache := fun sha1 version =>
  if version = 2 then if sha1 = "a" then some "A" else if sha1 = "b" then some "" else none
  else none

/-- The model answers for `c`, and for nothing else. -/
def call : Call where
  pool := some cache
  generate text _ _ _ := if text = "c" then some (some "C", .generated) else some (none, .error)
  stores := true

def found : Found := ⟨some cache, fun _ => call⟩

def chunkOf (text : String) : Chunk := ⟨text, .rel ["a.py"], "python", 1, 1⟩

def four : List Chunk := [chunkOf "a", chunkOf "b", chunkOf "d", chunkOf "c"]

lemma outcomes_four (i : ℕ) (c : Chunk) (hc : (four.map truncateChunk)[i]? = some c) :
    ∃ o, outcomeOf setup.sha1 found cache 2 (c, i) = some o := by
  have h : ∀ x ∈ (four.map truncateChunk).zipIdx,
      (outcomeOf setup.sha1 found cache 2 x).isSome = true := by decide +kernel
  exact Option.isSome_iff_exists.1 (h _ (List.mk_mem_zipIdx_iff_getElem?.2 hc))

/-- A cached summary, a cached rejection, a failure and a fresh summary. -/
theorem summary_vectors_aligned_four : ∃ rows, processFile setup found "s" 2 four = some rows ∧
    rows.map Row.summaryVector = [some "A", some "zero", some "zero", some "C"] ∧
      ∀ i c row, (four.map truncateChunk)[i]? = some c → rows[i]? = some row →
        Aligned setup found "s" 2 i c row := by
  obtain ⟨rows, hrows⟩ := (summary_vectors_aligned setup found "s" 2 four).2 ⟨_, rfl⟩
    fun _ => ⟨cache, rfl, outcomes_four, fun texts _ => ⟨texts, rfl⟩⟩
  have hrun : (processFile setup found "s" 2 four).map (·.map Row.summaryVector) =
      some [some "A", some "zero", some "zero", some "C"] := by decide +kernel
  rw [hrows] at hrun
  exact ⟨rows, hrows, Option.some.inj hrun,
    ((summary_vectors_aligned setup found "s" 2 four).1 rows hrows).2⟩

end Treeweft.SummaryVectors
