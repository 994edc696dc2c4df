import Treeweft.FilterText
import Treeweft.RankFusion

/-!
The hybrid search over a LanceDB table: a dense leg or more and one of full text, fused by rank. A
full-text leg that fails is an empty one.
-/

namespace Treeweft.HybridSearch

open PathFilter (Text Args)
open RankFusion (Before)

structure Entity where
  chunkText : Text
  filePath : Text
  language : Text
  startLine : Option ℤ
  endLine : Option ℤ
  sourceId : Text

/-- A row as a leg returns it; the distance is there in a dense leg. -/
structure Row where
  id : Text
  entity : Entity
  distance : Option ℚ := none

structure HitEntity where
  chunkText : Text
  filePath : Text
  language : Text
  startLine : ℤ
  endLine : ℤ
  sourceId : Text

structure Hit where
  id : Text
  distance : ℚ
  entity : HitEntity

inductive Column
  | vector
  | summaryVector

/-- What the table answers to a search of a vector, and of a text, which may fail; and the constant
that is set where a query has none. -/
structure Table (V : Type) where
  dense : V → Column → ℕ → Option Text → List Row
  fts : Text → ℕ → Option Text → Option (List Row)
  rrfK : ℕ

structure Query (V : Type) where
  text : Text
  dense : V
  summaryDense : Option V
  hydeDense : Option V
  topK : ℕ
  args : Args
  rrfK : Option ℕ

/-- `_to_hit` -/
def toHit (row : Row) (score : ℚ) : Hit where
  id := row.id
  distance := score
  entity :=
    { chunkText := row.entity.chunkText
      filePath := row.entity.filePath
      language := row.entity.language
      startLine := row.entity.startLine.getD 0
      endLine := row.entity.endLine.getD 0
      sourceId := row.entity.sourceId }

section Search
variable {V : Type} (t : Table V) (q : Query V)

def whereText : Option Text := FilterText.lanceBuildFilter q.args

/-- `_fts_leg` -/
def ftsLeg : List Row := (t.fts q.text q.topK (whereText q)).getD []

def denseLeg : List Row := t.dense q.dense .vector q.topK (whereText q)

def legs : List (List Row) :=
  [denseLeg t q] ++ (q.hydeDense.map fun v => t.dense v .vector q.topK (whereText q)).toList ++
    (q.summaryDense.map fun v => t.dense v .summaryVector q.topK (whereText q)).toList ++
    [ftsLeg t q]

/-- `rrf_k or RRF_K` -/
def k : ℕ := (q.rrfK.filter (· ≠ 0)).getD t.rrfK

def ids (legs : List (List Row)) : List (List Text) := legs.map (·.map Row.id)

/-- `rows_by_id`: the row that came first. -/
def rowById (legs : List (List Row)) (rid : Text) : Option Row :=
  legs.flatten.find? (·.id = rid)

def hybridSearch : List Hit :=
  (RankFusion.top q.topK (RankFusion.fuse (k t q) (ids (legs t q)))).filterMap fun e =>
    (rowById (legs t q) e.1).map (toHit · e.2)

/-- The search of the dense vector alone. -/
def search : List Hit := (denseLeg t q).map fun r => toHit r (1 - r.distance.getD 1)

/-- The sum over the legs of `1 / (k + rank)`, the ranks counted from one. -/
def score (k : ℕ) (legs : List (List Row)) (rid : Text) : ℚ :=
  (legs.map fun leg =>
    (((leg.zipIdx 1).filter (·.1.id = rid)).map fun e => 1 / ((k : ℚ) + e.2)).sum).sum

/-- The ids of the rows, each once. -/
def found (legs : List (List Row)) : List Text := (legs.flatten.map Row.id).dedup

/-! ### Fused Hits -/

lemma total_eq_score (k : ℕ) (legs : List (List Row)) (rid : Text) :
    RankFusion.total ((ids legs).flatMap (RankFusion.weights k)) rid = score k legs rid := by
  rw [RankFusion.total_flatMap, ids, List.map_map, score]
  congr 1
  refine List.map_congr_left fun leg _ => ?_
  rw [Function.comp_apply, RankFusion.weights, RankFusion.total, List.zipIdx_map, List.map_map,
    List.filter_map, List.map_map]
  rfl

lemma mem_ids {legs : List (List Row)} {rid : Text} :
    (∃ leg ∈ ids legs, rid ∈ leg) ↔ rid ∈ found legs := by
  rw [found, List.mem_dedup, List.map_flatten, List.mem_flatten]
  rfl

lemma rowById_id {legs : List (List Row)} {rid : Text} {row : Row}
    (h : rowById legs rid = some row) : row.id = rid :=
  of_decide_eq_true (List.find?_some (p := fun row : Row => decide (row.id = rid)) h)

lemma rowById_of_mem {legs : List (List Row)} {rid : Text} (h : rid ∈ found legs) :
    ∃ row, rowById legs rid = some row ∧ row.id = rid := by
  obtain ⟨row, hrow, hid⟩ := List.mem_map.mp (List.mem_dedup.mp h)
  cases hfind : rowById legs rid with
  | none => exact absurd (decide_eq_true hid) (List.find?_eq_none.mp hfind row hrow)
  | some row' => exact ⟨row', rfl, rowById_id hfind⟩

/-- The ids of the hits are those of the fused ranking: each has its row. -/
lemma ids_hybridSearch : (hybridSearch t q).map Hit.id =
    (RankFusion.top q.topK (RankFusion.fuse (k t q) (ids (legs t q)))).map Prod.fst := by
  have hmem : ∀ e ∈ RankFusion.top q.topK (RankFusion.fuse (k t q) (ids (legs t q))),
      ∃ row, rowById (legs t q) e.1 = some row ∧ row.id = e.1 := by
    intro e he
    have hfuse := RankFusion.mem_fuse.mp ((RankFusion.ranked_perm _).mem_iff.mp
      (List.mem_of_mem_take he))
    exact rowById_of_mem (mem_ids.mp hfuse.1)
  unfold hybridSearch
  generalize RankFusion.top q.topK (RankFusion.fuse (k t q) (ids (legs t q))) = es at hmem ⊢
  induction es with
  | nil => rfl
  | cons e es ih =>
    obtain ⟨row, hrow, hid⟩ := hmem e List.mem_cons_self
    rw [List.filterMap_cons_some (b := toHit row e.2) (by rw [hrow]; rfl), List.map_cons,
      List.map_cons, ih fun e he => hmem e (List.mem_cons_of_mem _ he)]
    exact congrArg (· :: _) hid

lemma mem_hybridSearch {hit : Hit} (h : hit ∈ hybridSearch t q) :
    (hit.id, hit.distance) ∈ RankFusion.top q.topK (RankFusion.fuse (k t q) (ids (legs t q))) ∧
      ∃ row, rowById (legs t q) hit.id = some row ∧ hit = toHit row hit.distance := by
  obtain ⟨⟨rid, s⟩, he, hhit⟩ := List.mem_filterMap.mp h
  obtain ⟨row, hrow, rfl⟩ := Option.map_eq_some_iff.mp hhit
  obtain rfl : row.id = rid := rowById_id hrow
  exact ⟨he, row, hrow, rfl⟩

/-- **The hits of a hybrid search**: the best rows of the legs by their fused scores, each once and
as it came first, in the order of the scores; none that is left out scores more. -/
theorem hybridSearch_spec :
    let hits := hybridSearch t q
    (hits.map Hit.id).Nodup ∧ hits.length = min q.topK (found (legs t q)).length ∧
      hits.Pairwise (fun h h' => h'.distance ≤ h.distance) ∧
      ∀ h ∈ hits, h.distance = score (k t q) (legs t q) h.id ∧
        (∃ row, rowById (legs t q) h.id = some row ∧ h = toHit row h.distance) ∧
        ∀ rid ∈ found (legs t q), rid ∉ hits.map Hit.id →
          score (k t q) (legs t q) rid ≤ h.distance := by
  have hids := ids_hybridSearch t q
  have hmem : ∀ rid s, (rid, s) ∈ RankFusion.fuse (k t q) (ids (legs t q)) ↔
      rid ∈ found (legs t q) ∧ s = score (k t q) (legs t q) rid := by
    intro rid s
    rw [RankFusion.mem_fuse, mem_ids, total_eq_score]
  have hsub : ∀ {e}, e ∈ RankFusion.top q.topK (RankFusion.fuse (k t q) (ids (legs t q))) →
      e ∈ RankFusion.fuse (k t q) (ids (legs t q)) :=
    fun he => (RankFusion.ranked_perm _).mem_iff.mp (List.mem_of_mem_take he)
  refine ⟨?_, ?_, ?_, fun h hh => ?_⟩
  · rw [hids, RankFusion.top, List.map_take]
    exact RankFusion.nodup_ranked.sublist (List.take_sublist _ _)
  · have hperm : ((RankFusion.fuse (k t q) (ids (legs t q))).map Prod.fst).Perm
        (found (legs t q)) := by
      refine (List.perm_ext_iff_of_nodup (RankFusion.accumulate_spec _).1
        (List.nodup_dedup _)).mpr fun rid => ?_
      rw [List.mem_map]
      constructor
      · rintro ⟨⟨rid', s⟩, he, rfl⟩
        exact ((hmem rid' s).mp he).1
      · exact fun hrid => ⟨(rid, _), (hmem rid _).mpr ⟨hrid, rfl⟩, rfl⟩
    rw [← List.length_map (f := Hit.id), hids, List.length_map, RankFusion.top, List.length_take,
      (RankFusion.ranked_perm _).length_eq, ← hperm.length_eq, List.length_map]
  · have hsorted := (RankFusion.ranked_sorted (RankFusion.fuse (k t q) (ids (legs t q)))).sublist
      (List.take_sublist q.topK _)
    refine List.Pairwise.filterMap _ (fun e e' hle h hh h' hh' => ?_) hsorted
    obtain ⟨row, -, rfl⟩ := Option.map_eq_some_iff.mp hh
    obtain ⟨row', -, rfl⟩ := Option.map_eq_some_iff.mp hh'
    exact hle
  · obtain ⟨htop, hrow⟩ := mem_hybridSearch t q hh
    refine ⟨((hmem _ _).mp (hsub htop)).2, hrow, fun rid hrid hout => ?_⟩
    refine RankFusion.le_of_mem_top (y := (rid, score (k t q) (legs t q) rid)) htop
      ((hmem _ _).mpr ⟨hrid, rfl⟩) fun hin => hout ?_
    rw [hids]
    exact List.mem_map_of_mem hin

/-- **Unanimity**: a row that stands before another in every leg that has the other stands before
it among the hits. -/
theorem hybridSearch_before (hids : ∀ leg ∈ ids (legs t q), leg.Nodup) (a b : Text)
    (hbefore : ∀ leg ∈ ids (legs t q), Before leg a b) :
    Before ((hybridSearch t q).map Hit.id) a b := by
  rw [ids_hybridSearch]
  exact RankFusion.before_top hids hbefore

/-- **Dense alone**: without a summary and a hypothetical answer, a full-text leg that fails or
finds nothing leaves the hits of the dense search, in their order. -/
theorem hybridSearch_dense (hhyde : q.hydeDense = none) (hsummary : q.summaryDense = none)
    (hfts : ftsLeg t q = []) (hids : ((denseLeg t q).map Row.id).Nodup)
    (hlimit : (denseLeg t q).length ≤ q.topK) :
    (hybridSearch t q).map Hit.id = (search t q).map Hit.id := by
  have hlegs : ids (legs t q) = [(denseLeg t q).map Row.id, []] := by
    rw [legs, hhyde, hsummary, hfts]
    rfl
  rw [ids_hybridSearch, hlegs, RankFusion.top_of_agree hids
    List.mem_cons_self (by simp), List.take_of_length_le (by rwa [List.length_map]), search,
    List.map_map]
  rfl

end Search

section Example

def file (name : String) : Row where
  id := name.toList
  entity := ⟨[], name.toList, [], none, none, []⟩
  distance := some (1 / 2)

/-- Two rows by their vectors, and no full text. -/
def twoFiles : Table Unit where
  dense := fun _ _ _ _ => [file "a", file "b"]
  fts := fun _ _ _ => none
  rrfK := 60

def anyQuery : Query Unit := ⟨[], (), none, none, 60, ⟨none, none, none, []⟩, none⟩

theorem twoFiles_before : Before ((hybridSearch twoFiles anyQuery).map Hit.id) ['a'] ['b'] :=
  hybridSearch_before twoFiles anyQuery (by decide) ['a'] ['b'] (by
    intro leg hleg j hj
    rcases List.mem_pair.mp hleg with rfl | rfl
    · match j with
      | 0 => cases hj
      | 1 => exact ⟨0, Nat.one_pos, rfl⟩
      | j + 2 => cases hj
    · cases hj)

theorem twoFiles_dense : (hybridSearch twoFiles anyQuery).map Hit.id =
    (search twoFiles anyQuery).map Hit.id :=
  hybridSearch_dense twoFiles anyQuery rfl rfl rfl (by decide) (by decide)

end Example

end Treeweft.HybridSearch
