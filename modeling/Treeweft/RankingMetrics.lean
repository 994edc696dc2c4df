import Mathlib.Algebra.BigOperators.Intervals
import Mathlib.Algebra.Order.BigOperators.Group.Finset
import Mathlib.Algebra.Order.Field.Rat
import Mathlib.Analysis.SpecialFunctions.Log.Base
import Mathlib.Data.List.Dedup
import Mathlib.Tactic.Linarith

/-!
Metrics of a ranking of files against the labelled ones: recall, precision, nDCG and average
precision at `k`, and the files that count as a labelled one. Numbers are exact.
-/

namespace Treeweft.RankingMetrics

variable {Path : Type} [DecidableEq Path]

/-! ### The metrics -/

/-- `sum(1 for r in xs if r in relevant_set)`. -/
def hits (relevant xs : List Path) : ℕ := xs.countP (· ∈ relevant)

def recallAtK (retrieved relevant : List Path) (k : ℕ) : ℚ :=
  if relevant ≠ [] then hits relevant (retrieved.take k) / relevant.length else 0

def precisionAtK (retrieved relevant : List Path) (k : ℕ) : ℚ :=
  if 0 < k then hits relevant (retrieved.take k) / k else 0

section Gain
variable {K : Type} [Field K] [LinearOrder K] (discount : ℕ → K)

section Base

local instance atLeastTwo : Nat.AtLeastTwo 2 := ⟨le_rfl⟩

/-- `1 / math.log2(i + 2)`. -/
noncomputable def logDiscount (i : ℕ) : ℝ := 1 / Real.logb 2 (i + 2)

end Base

/-- The gain of the entries from rank `i` on, the first rank being `0`. -/
def dcg (relevant : List Path) (i : ℕ) : List Path → K
  | [] => 0
  | r :: rs => (if r ∈ relevant then discount i else 0) + dcg relevant (i + 1) rs

def idealHits (relevant : List Path) (k : ℕ) : ℕ := min relevant.dedup.length k

def idcg (relevant : List Path) (k : ℕ) : K := ∑ i ∈ Finset.range (idealHits relevant k), discount i

/-- `ndcg_at_k` with its discount as a parameter. -/
def ndcgAtK (retrieved relevant : List Path) (k : ℕ) : K :=
  let dcg := dcg discount relevant 0 (retrieved.take k)
  let idcg := idcg discount relevant k
  if 0 < idcg then dcg / idcg else 0

end Gain

/-- The loop of `average_precision`. -/
def apLoop (relevant : List Path) (i hits : ℕ) (score : ℚ) : List Path → ℚ
  | [] => score
  | r :: rs =>
    if r ∈ relevant then apLoop relevant (i + 1) (hits + 1) (score + (hits + 1 : ℕ) / i) rs
    else apLoop relevant (i + 1) hits score rs

def averagePrecision (retrieved relevant : List Path) (k : ℕ) : ℚ :=
  if relevant = [] then 0
  else apLoop relevant 1 0 0 (retrieved.take k) / (idealHits relevant k : ℕ)

/-! ### Accepted alternatives -/

/-- Each labelled file with its accepted alternatives. -/
abbrev Alternatives (Path : Type) : Type := List (Path × List Path)

/-- `{alt: primary for primary, alts in alternatives.items() for alt in alts}`. -/
def aliases (alternatives : Alternatives Path) : List (Path × Path) :=
  alternatives.flatMap fun entry => entry.2.map fun alt => (alt, entry.1)

/-- `alias.get(path, path)`; the last entry of a key counts. -/
def canon (alternatives : Alternatives Path) (path : Path) : Path :=
  ((aliases alternatives).reverse.lookup path).getD path

/-- A round of the loop; `seen` holds what `out` does. -/
def addNew (out : List Path) (path : Path) : List Path :=
  if path ∈ out then out else out ++ [path]

def canonicalizeRetrieved (retrieved : List Path) (alternatives : Option (Alternatives Path)) :
    List Path :=
  match alternatives with
  | none | some [] => retrieved
  | some alternatives => (retrieved.map (canon alternatives)).foldl addNew []

/-! ### What well scaled means -/

/-- All metrics are between `0` and `1`, whatever the discount. -/
structure InScale (retrieved relevant : List Path) (k : ℕ) : Prop where
  recall_mem : recallAtK retrieved relevant k ∈ Set.Icc 0 1
  precision_mem : precisionAtK retrieved relevant k ∈ Set.Icc 0 1
  ndcg_mem : ∀ discount : ℕ → ℝ, (∀ i, 0 < discount i) → Antitone discount →
    ndcgAtK discount retrieved relevant k ∈ Set.Icc 0 1
  averagePrecision : averagePrecision retrieved relevant k ∈ Set.Icc 0 1

/-- An alternative belongs to one labelled file: it is not listed for another, and is not labelled
itself. -/
def OneOwner (alternatives : Alternatives Path) : Prop :=
  ∀ entry ∈ alternatives, ∀ alt ∈ entry.2, ∀ entry' ∈ alternatives,
    alt ∈ entry'.2 ∨ alt = entry'.1 → entry'.1 = entry.1

/-- A larger `k` does not lower the recall. -/
def RecallGrows (retrieved relevant : List Path) : Prop :=
  ∀ k k', k ≤ k' → recallAtK retrieved relevant k ≤ recallAtK retrieved relevant k'

/-- An alternative counts as the labelled file in its place, in the canonical list and so in every
metric of it. -/
def AlternativesCount (Path : Type) [DecidableEq Path] : Prop :=
  ∀ alternatives : Alternatives Path, OneOwner alternatives →
    ∀ entry ∈ alternatives, ∀ alt ∈ entry.2, ∀ before after : List Path,
      canonicalizeRetrieved (before ++ alt :: after) (some alternatives) =
        canonicalizeRetrieved (before ++ entry.1 :: after) (some alternatives)

/-! ### Hits -/

lemma hits_le (relevant xs : List Path) : hits relevant xs ≤ xs.length := List.countP_le_length

lemma hits_take_le (relevant xs : List Path) (k : ℕ) : hits relevant (xs.take k) ≤ k :=
  (hits_le _ _).trans (List.length_take_le k xs)

lemma hits_nil_right (xs : List Path) : hits [] xs = 0 :=
  List.countP_eq_zero.mpr fun x _ => by simp

/-- Without repeats, each labelled file is hit once at most. -/
lemma hits_le_of_nodup {relevant xs : List Path} (h : xs.Nodup) :
    hits relevant xs ≤ relevant.dedup.length := by
  rw [hits, List.countP_eq_length_filter]
  refine (List.subperm_of_subset (h.filter _) fun x hx => ?_).length_le
  exact List.mem_dedup.mpr (of_decide_eq_true (List.mem_filter.mp hx).2)

lemma recall_grows (retrieved relevant : List Path) : RecallGrows retrieved relevant := by
  intro k k' hk
  unfold recallAtK
  by_cases hrel : relevant ≠ []
  · rw [if_pos hrel, if_pos hrel]
    have hsub : (retrieved.take k).Sublist (retrieved.take k') :=
      (List.take_prefix_take_left hk).sublist
    have hle : hits relevant (retrieved.take k) ≤ hits relevant (retrieved.take k') :=
      hsub.countP_le
    gcongr
  · rw [if_neg hrel, if_neg hrel]

lemma precision_mem (retrieved relevant : List Path) (k : ℕ) :
    precisionAtK retrieved relevant k ∈ Set.Icc 0 1 := by
  unfold precisionAtK
  by_cases hk : 0 < k
  · rw [if_pos hk]
    have hle : (hits relevant (retrieved.take k) : ℚ) ≤ k :=
      Nat.cast_le.mpr (hits_take_le relevant retrieved k)
    exact ⟨by positivity, div_le_one_of_le₀ hle (Nat.cast_nonneg k)⟩
  · rw [if_neg hk]
    exact ⟨le_rfl, zero_le_one⟩

lemma recall_mem {retrieved relevant : List Path} {k : ℕ}
    (h : hits relevant (retrieved.take k) ≤ relevant.dedup.length) :
    recallAtK retrieved relevant k ∈ Set.Icc 0 1 := by
  unfold recallAtK
  by_cases hrel : relevant ≠ []
  · rw [if_pos hrel]
    have hle : (hits relevant (retrieved.take k) : ℚ) ≤ relevant.length :=
      Nat.cast_le.mpr (h.trans (List.dedup_sublist relevant).length_le)
    exact ⟨by positivity, div_le_one_of_le₀ hle (Nat.cast_nonneg _)⟩
  · rw [if_neg hrel]
    exact ⟨le_rfl, zero_le_one⟩

lemma idealHits_le (relevant : List Path) (k : ℕ) : idealHits relevant k ≤ relevant.dedup.length :=
  min_le_left _ _

lemma hits_le_idealHits {retrieved relevant : List Path} {k : ℕ}
    (h : hits relevant (retrieved.take k) ≤ relevant.dedup.length) :
    hits relevant (retrieved.take k) ≤ idealHits relevant k :=
  le_min h (hits_take_le relevant retrieved k)

/-! ### The gain -/

section Gain
variable {K : Type} [Field K] [LinearOrder K] [IsStrictOrderedRing K] {discount : ℕ → K}

lemma dcg_nonneg (hpos : ∀ i, 0 < discount i) (relevant : List Path) (i : ℕ) (xs : List Path) :
    0 ≤ dcg discount relevant i xs := by
  induction xs generalizing i with
  | nil => exact le_rfl
  | cons r rs ih =>
    refine add_nonneg ?_ (ih (i + 1))
    split
    · exact (hpos i).le
    · exact le_rfl

/-- Hits gain no more than if they came first. -/
lemma dcg_le (hanti : Antitone discount) (relevant : List Path) (i : ℕ) (xs : List Path) :
    dcg discount relevant i xs ≤ ∑ j ∈ Finset.range (hits relevant xs), discount (i + j) := by
  induction xs generalizing i with
  | nil => exact le_rfl
  | cons r rs ih =>
    have hnext := ih (i + 1)
    unfold dcg
    by_cases hr : r ∈ relevant
    · have hhits : hits relevant (r :: rs) = hits relevant rs + 1 :=
        List.countP_cons_of_pos (decide_eq_true hr)
      have hshift : ∑ j ∈ Finset.range (hits relevant rs), discount (i + 1 + j) =
          ∑ j ∈ Finset.range (hits relevant rs), discount (i + (j + 1)) :=
        Finset.sum_congr rfl fun j _ => congrArg discount (by omega)
      rw [if_pos hr, hhits, Finset.sum_range_succ', Nat.add_zero, add_comm, ← hshift]
      exact add_le_add_left hnext _
    · have hhits : hits relevant (r :: rs) = hits relevant rs :=
        List.countP_cons_of_neg (by simpa using hr)
      rw [if_neg hr, zero_add, hhits]
      exact hnext.trans (Finset.sum_le_sum fun j _ => hanti (by omega))

lemma idcg_nonneg (hpos : ∀ i, 0 < discount i) (relevant : List Path) (k : ℕ) :
    0 ≤ idcg discount relevant k := Finset.sum_nonneg fun i _ => (hpos i).le

lemma ndcg_mem (hpos : ∀ i, 0 < discount i) (hanti : Antitone discount)
    {retrieved relevant : List Path} {k : ℕ}
    (h : hits relevant (retrieved.take k) ≤ relevant.dedup.length) :
    ndcgAtK discount retrieved relevant k ∈ Set.Icc 0 1 := by
  unfold ndcgAtK
  simp only
  by_cases hideal : 0 < idcg discount relevant k
  · rw [if_pos hideal]
    have hle : dcg discount relevant 0 (retrieved.take k) ≤ idcg discount relevant k := by
      refine (dcg_le hanti relevant 0 _).trans ?_
      simp only [Nat.zero_add]
      exact Finset.sum_le_sum_of_subset_of_nonneg
        (Finset.range_subset_range.mpr (hits_le_idealHits h)) fun i _ _ => (hpos i).le
    exact ⟨div_nonneg (dcg_nonneg hpos relevant 0 _) hideal.le, div_le_one_of_le₀ hle hideal.le⟩
  · rw [if_neg hideal]
    exact ⟨le_rfl, zero_le_one⟩

end Gain

section Flat
variable {K : Type} [Field K]

/-- With all ranks alike, the gain is the number of hits. -/
lemma dcg_one (relevant : List Path) (i : ℕ) (xs : List Path) :
    dcg (fun _ => (1 : K)) relevant i xs = hits relevant xs := by
  induction xs generalizing i with
  | nil => exact Nat.cast_zero.symm
  | cons r rs ih =>
    unfold dcg
    rw [ih (i + 1)]
    by_cases hr : r ∈ relevant
    · have hhits : hits relevant (r :: rs) = hits relevant rs + 1 :=
        List.countP_cons_of_pos (decide_eq_true hr)
      rw [if_pos hr, hhits, Nat.cast_add, Nat.cast_one, add_comm]
    · have hhits : hits relevant (r :: rs) = hits relevant rs :=
        List.countP_cons_of_neg (by simpa using hr)
      rw [if_neg hr, hhits, zero_add]

lemma idcg_one (relevant : List Path) (k : ℕ) :
    idcg (fun _ => (1 : K)) relevant k = idealHits relevant k := by
  rw [idcg, Finset.sum_const, Finset.card_range, nsmul_eq_mul, mul_one]

end Flat

/-! ### Average precision -/

/-- The score grows by at most one for each hit. -/
lemma apLoop_mem (relevant : List Path) {i n : ℕ} (hn : n < i) (score : ℚ) (xs : List Path) :
    score ≤ apLoop relevant i n score xs ∧
      apLoop relevant i n score xs ≤ score + hits relevant xs := by
  induction xs generalizing i n score with
  | nil =>
    refine ⟨le_rfl, ?_⟩
    rw [hits, List.countP_nil, Nat.cast_zero, add_zero]
    exact le_rfl
  | cons r rs ih =>
    unfold apLoop
    by_cases hr : r ∈ relevant
    · have hhits : hits relevant (r :: rs) = hits relevant rs + 1 :=
        List.countP_cons_of_pos (decide_eq_true hr)
      have hpos : 0 ≤ ((n + 1 : ℕ) : ℚ) / i := by positivity
      have hle : ((n + 1 : ℕ) : ℚ) / i ≤ 1 :=
        div_le_one_of_le₀ (Nat.cast_le.mpr hn) (Nat.cast_nonneg i)
      obtain ⟨hlow, hhigh⟩ := ih (Nat.succ_lt_succ hn) (score + ((n + 1 : ℕ) : ℚ) / i)
      have hcast : (hits relevant (r :: rs) : ℚ) = hits relevant rs + 1 := by
        rw [hhits, Nat.cast_add, Nat.cast_one]
      rw [if_pos hr, hcast]
      exact ⟨(le_add_of_nonneg_right hpos).trans hlow, by linarith only [hhigh, hle]⟩
    · have hhits : hits relevant (r :: rs) = hits relevant rs :=
        List.countP_cons_of_neg (by simpa using hr)
      rw [if_neg hr, hhits]
      exact ih (hn.trans (Nat.lt_succ_self i)) score

lemma averagePrecision_mem {retrieved relevant : List Path} {k : ℕ}
    (h : hits relevant (retrieved.take k) ≤ relevant.dedup.length) :
    averagePrecision retrieved relevant k ∈ Set.Icc 0 1 := by
  unfold averagePrecision
  by_cases hrel : relevant = []
  · rw [if_pos hrel]
    exact ⟨le_rfl, zero_le_one⟩
  · rw [if_neg hrel]
    obtain ⟨hlow, hhigh⟩ := apLoop_mem relevant Nat.zero_lt_one 0 (retrieved.take k)
    have hle : apLoop relevant 1 0 0 (retrieved.take k) ≤ (idealHits relevant k : ℕ) := by
      rw [zero_add] at hhigh
      exact hhigh.trans (Nat.cast_le.mpr (hits_le_idealHits h))
    exact ⟨div_nonneg hlow (Nat.cast_nonneg _), div_le_one_of_le₀ hle (Nat.cast_nonneg _)⟩

/-! ### The scale -/

/-- The metrics are in scale when the first `k` entries hit no more often than there are different
labelled files, and only then. -/
theorem inScale_iff {retrieved relevant : List Path} {k : ℕ} (hk : 1 ≤ k) :
    InScale retrieved relevant k ↔
      hits relevant (retrieved.take k) ≤ relevant.dedup.length := by
  refine ⟨fun h => ?_, fun h => ?_⟩
  · have hndcg := (h.ndcg_mem (fun _ => 1) (fun _ => one_pos) fun _ _ _ => le_rfl).2
    unfold ndcgAtK at hndcg
    simp only [dcg_one, idcg_one] at hndcg
    by_cases hideal : (0 : ℝ) < (idealHits relevant k : ℕ)
    · rw [if_pos hideal, div_le_one hideal, Nat.cast_le] at hndcg
      exact hndcg.trans (idealHits_le relevant k)
    · have hzero : idealHits relevant k = 0 := by
        rw [Nat.cast_pos] at hideal
        omega
      have hnone : relevant = [] := by
        have hlength : relevant.dedup.length = 0 := by
          unfold idealHits at hzero
          omega
        exact (List.dedup_eq_nil _).mp (List.length_eq_zero_iff.mp hlength)
      rw [hnone, hits_nil_right]
      exact Nat.zero_le _
  · exact ⟨recall_mem h, precision_mem retrieved relevant k, fun discount hpos hanti =>
      ndcg_mem hpos hanti h, averagePrecision_mem h⟩

/-- The discount of `ndcg_at_k` is one of those. -/
lemma InScale.log {retrieved relevant : List Path} {k : ℕ} (h : InScale retrieved relevant k) :
    ndcgAtK logDiscount retrieved relevant k ∈ Set.Icc 0 1 := by
  have hbase : (1 : ℝ) < 2 := one_lt_two
  have hrank : ∀ i : ℕ, (1 : ℝ) < i + 2 := fun i => by
    have := Nat.cast_nonneg (α := ℝ) i
    linarith only [this]
  have hpos : ∀ i : ℕ, 0 < Real.logb 2 (i + 2) := fun i => Real.logb_pos hbase (hrank i)
  refine h.ndcg_mem logDiscount (fun i => one_div_pos.mpr (hpos i)) fun i j hij => ?_
  refine one_div_le_one_div_of_le (hpos i) (Real.logb_le_logb_of_le hbase ?_ ?_)
  · exact one_pos.trans (hrank i)
  · exact add_le_add_left (Nat.cast_le.mpr hij) 2

/-! ### The canonical list -/

lemma addNew_nodup {out : List Path} (h : out.Nodup) (path : Path) : (addNew out path).Nodup := by
  unfold addNew
  split
  · exact h
  · rename_i hnot
    exact List.nodup_append.mpr ⟨h, List.nodup_singleton path, fun a ha b hb hab =>
      hnot (List.mem_singleton.mp hb ▸ hab ▸ ha)⟩

lemma foldl_addNew_nodup (xs : List Path) {out : List Path} (h : out.Nodup) :
    (xs.foldl addNew out).Nodup := by
  induction xs generalizing out with
  | nil => exact h
  | cons x xs ih => exact ih (addNew_nodup h x)

/-- With alternatives the canonical list has no repeats, so its metrics are in scale. -/
theorem inScale_canonicalized (retrieved relevant : List Path) {k : ℕ} (hk : 1 ≤ k)
    (entry : Path × List Path) (alternatives : Alternatives Path) :
    InScale (canonicalizeRetrieved retrieved (some (entry :: alternatives))) relevant k := by
  refine (inScale_iff hk).mpr (hits_le_of_nodup ?_)
  exact (List.take_sublist k _).nodup (foldl_addNew_nodup _ List.nodup_nil)

omit [DecidableEq Path] in
lemma mem_aliases {alternatives : Alternatives Path} {alt primary : Path} :
    (alt, primary) ∈ aliases alternatives ↔
      ∃ entry ∈ alternatives, alt ∈ entry.2 ∧ entry.1 = primary := by
  unfold aliases
  simp only [List.mem_flatMap, List.mem_map, Prod.mk.injEq]
  constructor
  · rintro ⟨entry, hentry, a, ha, rfl, rfl⟩
    exact ⟨entry, hentry, ha, rfl⟩
  · rintro ⟨entry, hentry, ha, rfl⟩
    exact ⟨entry, hentry, alt, ha, rfl, rfl⟩

/-- A path becomes itself if it is no alternative, and else a file it is an alternative of. -/
lemma canon_cases (alternatives : Alternatives Path) (path : Path) :
    (canon alternatives path = path ∧ ∀ entry ∈ alternatives, path ∉ entry.2) ∨
      ∃ entry ∈ alternatives, path ∈ entry.2 ∧ entry.1 = canon alternatives path := by
  unfold canon
  cases hlookup : (aliases alternatives).reverse.lookup path with
  | none =>
    refine .inl ⟨rfl, fun entry hentry hmem => ?_⟩
    have hpair := List.mem_reverse.mpr (mem_aliases.mpr ⟨entry, hentry, hmem, rfl⟩)
    exact absurd rfl (bne_iff_ne.mp (List.lookup_eq_none_iff.mp hlookup _ hpair))
  | some primary =>
    obtain ⟨before, after, hsplit, -⟩ := List.lookup_eq_some_iff.mp hlookup
    have hmem : (path, primary) ∈ (aliases alternatives).reverse := by
      rw [hsplit]
      exact List.mem_append_right _ List.mem_cons_self
    obtain ⟨entry, hentry, hpath, hprimary⟩ := mem_aliases.mp (List.mem_reverse.mp hmem)
    exact .inr ⟨entry, hentry, hpath, hprimary⟩

lemma canon_alt {alternatives : Alternatives Path} (h : OneOwner alternatives)
    {entry : Path × List Path} (hentry : entry ∈ alternatives) {alt : Path} (halt : alt ∈ entry.2) :
    canon alternatives alt = canon alternatives entry.1 := by
  have halt' : canon alternatives alt = entry.1 := by
    rcases canon_cases alternatives alt with ⟨-, hnone⟩ | ⟨entry', hentry', hmem, hcanon⟩
    · exact absurd halt (hnone entry hentry)
    · exact hcanon.symm.trans (h entry hentry alt halt entry' hentry' (.inl hmem))
  have hprimary : canon alternatives entry.1 = entry.1 := by
    rcases canon_cases alternatives entry.1 with ⟨hself, -⟩ | ⟨entry', hentry', hmem, hcanon⟩
    · exact hself
    · exact hcanon.symm.trans (h entry' hentry' entry.1 hmem entry hentry (.inr rfl)).symm
  rw [halt', hprimary]

lemma alternatives_count : AlternativesCount Path := by
  intro alternatives h entry hentry alt halt before after
  cases alternatives with
  | nil => exact absurd hentry List.not_mem_nil
  | cons first rest =>
    unfold canonicalizeRetrieved
    simp only [List.map_append, List.map_cons, canon_alt h hentry halt]

/-! ### The claim -/

/-- All that is asked of the metrics of a ranking. -/
def WellScaled (retrieved relevant : List Path) (k : ℕ) : Prop :=
  InScale retrieved relevant k ∧ RecallGrows retrieved relevant ∧ AlternativesCount Path

theorem wellScaled_iff (retrieved relevant : List Path) {k : ℕ} (hk : 1 ≤ k) :
    WellScaled retrieved relevant k ↔
      hits relevant (retrieved.take k) ≤ relevant.dedup.length :=
  ⟨fun h => (inScale_iff hk).mp h.1, fun h =>
    ⟨(inScale_iff hk).mpr h, recall_grows retrieved relevant, alternatives_count⟩⟩

theorem wellScaled_iff_two : WellScaled ["a", "b"] ["b", "c"] 2 :=
  (wellScaled_iff ["a", "b"] ["b", "c"] (by decide)).mpr (by decide)

/-- Two chunks of the one labelled file make a recall of two. -/
theorem recall_two : ¬WellScaled ["a", "a"] ["a"] 2 := by
  intro h
  have hrecall : recallAtK ["a", "a"] ["a"] 2 ≤ 1 := h.1.recall_mem.2
  revert hrecall
  decide +kernel

end Treeweft.RankingMetrics
