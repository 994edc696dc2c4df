import Mathlib.Algebra.BigOperators.Group.List.Lemmas
import Mathlib.Algebra.Order.BigOperators.Group.List
import Mathlib.Data.Rat.Floor
import Treeweft.Rounding
import Treeweft.Significance

/-!
The aggregate of the rows of a benchmark, and the rollup of the aggregates of several repositories.

A row may lack an arm, and an arm a value. The rollup pools means by the number of queries of each
repository, and counts by their sums. Numbers are exact up to the rounding that the code asks for.
-/

namespace Treeweft.Rollup

open Rounding (roundDigits roundHalfEven)
open Significance (signTest)

/-! ### Rows -/

/-- The fields that the rollup reads. -/
inductive Field
  | totalTokens
  | recall5
  | correctness
  deriving DecidableEq

structure Judge where
  correctness : Option ℚ

structure ArmResult where
  totalTokens : Option ℚ
  recall5 : Option ℚ
  judge : Option Judge

/-- `_field`: the correctness is among the scores of the judge. -/
def ArmResult.field (a : ArmResult) : Field → Option ℚ
  | .totalTokens => a.totalTokens
  | .recall5 => a.recall5
  | .correctness => a.judge.bind Judge.correctness

/-- The result of each arm that a query was given to. -/
structure Row where
  arms : String → Option ArmResult

/-! ### The aggregate of rows -/

/-- `_mean`. -/
def mean (values : List (Option ℚ)) : ℚ :=
  let vals := values.filterMap id
  if vals ≠ [] then vals.sum / vals.length else 0

def values (rows : List Row) (arm : String) (f : Field) : List (Option ℚ) :=
  (rows.filterMap fun r => r.arms arm).map fun a => a.field f

/-- `_arm_means`. -/
def armMeans (rows : List Row) (arm : String) (f : Field) : ℚ :=
  roundDigits 4 (mean (values rows arm f))

structure Tally where
  wins : ℕ
  losses : ℕ
  ties : ℕ
  deriving DecidableEq

/-- The values of both arms, if there are two. -/
def versus (chal base : String) (key : Field) (r : Row) : Option (ℚ × ℚ) := do
  let c ← r.arms chal
  let b ← r.arms base
  let vc ← c.field key
  let vb ← b.field key
  pure (vc, vb)

/-- A round of the loop of `win_loss_tie`. -/
def Tally.count (t : Tally) : Option (ℚ × ℚ) → Tally
  | none => t
  | some (vc, vb) =>
    if vb < vc then { t with wins := t.wins + 1 }
    else if vc < vb then { t with losses := t.losses + 1 }
    else { t with ties := t.ties + 1 }

def winLossTie (rows : List Row) (chal base : String) (key : Field) : Tally :=
  rows.foldl (fun t r => t.count (versus chal base key r)) ⟨0, 0, 0⟩

def Tally.total (t : Tally) : ℕ := t.wins + t.losses + t.ties

def Tally.winRate (t : Tally) : ℚ :=
  if t.total ≠ 0 then roundDigits 4 (t.wins / t.total) else 0

structure WinRate where
  winRate : ℚ
  tally : Tally
  pValue : ℚ

/-- The percentage of the tokens of one arm that another saves. -/
def savedPct (grep treeweft : ℚ) : ℚ :=
  if grep ≠ 0 then roundDigits 2 ((grep - treeweft) / grep * 100) else 0

structure Comparison where
  tokensSavedPct : ℚ
  correctness : WinRate
  recall5 : WinRate

structure Summary where
  repo : String
  nQueries : ℕ
  arms : String → Option (Field → ℚ)
  comparison : Option Comparison

def winRateOf (rows : List Row) (key : Field) : WinRate :=
  let t := winLossTie rows "treeweft" "grep" key
  ⟨t.winRate, t, signTest t.wins t.losses⟩

/-- `aggregate`, as far as the rollup reads it. -/
def aggregate (arms : List String) (repo : String) (rows : List Row) : Summary where
  repo := repo
  nQueries := rows.length
  arms arm := if arm ∈ arms then some (armMeans rows arm) else none
  comparison :=
    if "grep" ∈ arms ∧ "treeweft" ∈ arms then
      some ⟨savedPct (armMeans rows "grep" .totalTokens) (armMeans rows "treeweft" .totalTokens),
        winRateOf rows .correctness, winRateOf rows .recall5⟩
    else none

/-! ### The rollup -/

/-- `s.get(arm, {}).get(f) or 0.0`. -/
def Summary.mean (s : Summary) (arm : String) (f : Field) : ℚ := (s.arms arm).elim 0 (· f)

def Summary.tally (s : Summary) (key : Comparison → WinRate) : Tally :=
  s.comparison.elim ⟨0, 0, 0⟩ fun c => (key c).tally

structure RepoRow where
  repo : String
  nQueries : ℕ
  grep : Field → ℚ
  treeweft : Field → ℚ
  tokensSavedPct : ℚ
  correctness : WinRate
  recall5 : WinRate

def Summary.rated (s : Summary) (key : Comparison → WinRate) : WinRate :=
  let t := s.tally key
  ⟨t.winRate, t, roundDigits 4 (s.comparison.elim 1 fun c => (key c).pValue)⟩

/-- The row of one repository. -/
def Summary.row (s : Summary) : RepoRow where
  repo := s.repo
  nQueries := s.nQueries
  grep f := roundDigits 4 (s.mean "grep" f)
  treeweft f := roundDigits 4 (s.mean "treeweft" f)
  tokensSavedPct := roundDigits 2 (s.comparison.elim
    (savedPct (s.mean "grep" .totalTokens) (s.mean "treeweft" .totalTokens)) (·.tokensSavedPct))
  correctness := s.rated Comparison.correctness
  recall5 := s.rated Comparison.recall5

def Tally.add (t u : Tally) : Tally := ⟨t.wins + u.wins, t.losses + u.losses, t.ties + u.ties⟩

/-- The accumulators of the loop over the summaries. -/
structure Sums where
  totalQueries : ℕ
  weighted : String → Field → ℚ
  correctness : Tally
  recall5 : Tally

def Sums.add (sums : Sums) (s : Summary) : Sums where
  totalQueries := sums.totalQueries + s.nQueries
  weighted arm f := sums.weighted arm f + s.mean arm f * s.nQueries
  correctness := sums.correctness.add (s.tally Comparison.correctness)
  recall5 := sums.recall5.add (s.tally Comparison.recall5)

structure PooledRate where
  tally : Tally
  pValue : ℚ

structure Pooled where
  nRepos : ℕ
  totalQueries : ℕ
  means : String → Field → ℚ
  tokensSavedPct : ℚ
  correctness : PooledRate
  recall5 : PooledRate

def Tally.rate (t : Tally) : PooledRate := ⟨t, roundDigits 4 (signTest t.wins t.losses)⟩

structure Report where
  repos : List RepoRow
  pooled : Pooled

/-- The means of the two arms `grep` and `treeweft` are pooled. -/
def multiRepoRollup (summaries : List Summary) : Report :=
  let sums := summaries.foldl Sums.add ⟨0, fun _ _ => 0, ⟨0, 0, 0⟩, ⟨0, 0, 0⟩⟩
  let means := fun arm f =>
    if 0 < sums.totalQueries then roundDigits 4 (sums.weighted arm f / sums.totalQueries) else 0
  { repos := summaries.map Summary.row
    pooled :=
      { nRepos := summaries.length
        totalQueries := sums.totalQueries
        means := means
        tokensSavedPct := savedPct (means "grep" .totalTokens) (means "treeweft" .totalTokens)
        correctness := sums.correctness.rate
        recall5 := sums.recall5.rate } }

/-! ### Agreement -/

section Agreement
variable (arms : List String) (repos : List (String × List Row)) (rows : List Row)

/-- The rollup of the aggregates of the repositories. -/
def pooled : Pooled := (multiRepoRollup (repos.map fun repo => aggregate arms repo.1 repo.2)).pooled

/-- Counts are pooled as they are, and p-values up to their rounding. -/
def RateAgrees (p : PooledRate) (w : WinRate) : Prop :=
  p.tally = w.tally ∧ p.pValue = roundDigits 4 w.pValue

structure CountsAgree : Prop where
  totalQueries : (pooled arms repos).totalQueries = (aggregate arms "" rows).nQueries
  rates : ∀ c ∈ (aggregate arms "" rows).comparison,
    RateAgrees (pooled arms repos).correctness c.correctness ∧
      RateAgrees (pooled arms repos).recall5 c.recall5

/-- The pooled mean is the mean of all rows, up to one in the last place. -/
def MeanAgrees (arm : String) (f : Field) : Prop :=
  |(pooled arms repos).means arm f - (aggregate arms "" rows).mean arm f| ≤ 1 / 10 ^ 4

end Agreement

/-- The values of a field that rows have for an arm. -/
def numbers (rows : List Row) (arm : String) (f : Field) : List ℚ :=
  (values rows arm f).filterMap id

/-- The rows of all repositories. -/
def allRows (repos : List (String × List Row)) : List Row := (repos.map Prod.snd).flatten

/-- Every repository has a value in the same share of its rows. -/
def Proportional (repos : List (String × List Row)) (arm : String) (f : Field) : Prop :=
  ∀ repo ∈ repos, (numbers repo.2 arm f).length * (allRows repos).length =
    repo.2.length * (numbers (allRows repos) arm f).length

/-- Every number of a row replaced by `c`. -/
def ArmResult.fill (c : ℚ) (a : ArmResult) : ArmResult where
  totalTokens := a.totalTokens.map fun _ => c
  recall5 := a.recall5.map fun _ => c
  judge := a.judge.map fun j => ⟨j.correctness.map fun _ => c⟩

def Row.fill (c : ℚ) (r : Row) : Row := ⟨fun arm => (r.arms arm).map (ArmResult.fill c)⟩

/-- Repositories that differ in their numbers only: the same rows have values. -/
def SamePattern (repos repos' : List (String × List Row)) : Prop :=
  repos.map (fun repo => repo.2.map (Row.fill 0)) = repos'.map fun repo => repo.2.map (Row.fill 0)

/-! ### Means and numbers -/

lemma mean_eq (vals : List (Option ℚ)) :
    mean vals = (vals.filterMap id).sum / (vals.filterMap id).length := by
  unfold mean
  simp only
  by_cases h : vals.filterMap id ≠ []
  · rw [if_pos h]
  · rw [if_neg h, Classical.not_not.mp h, List.sum_nil, zero_div]

lemma numbers_cons (r : Row) (rows : List Row) (arm : String) (f : Field) :
    numbers (r :: rows) arm f =
      (((r.arms arm).bind fun a => a.field f).toList) ++ numbers rows arm f := by
  cases h : r.arms arm with
  | none => simp [numbers, values, h]
  | some a => cases hf : a.field f <;> simp [numbers, values, h, hf]

lemma numbers_append (xs ys : List Row) (arm : String) (f : Field) :
    numbers (xs ++ ys) arm f = numbers xs arm f ++ numbers ys arm f := by
  simp only [numbers, values, List.filterMap_append, List.map_append]

lemma numbers_perm {xs ys : List Row} (h : xs.Perm ys) (arm : String) (f : Field) :
    (numbers xs arm f).Perm (numbers ys arm f) := ((h.filterMap _).map _).filterMap _

lemma numbers_length_le (rows : List Row) (arm : String) (f : Field) :
    (numbers rows arm f).length ≤ rows.length := by
  induction rows with
  | nil => exact le_rfl
  | cons r rows ih =>
    rw [numbers_cons, List.length_append, List.length_cons]
    have hone : ((r.arms arm).bind fun a => a.field f).toList.length ≤ 1 := by
      cases (r.arms arm).bind fun a => a.field f <;> simp
    omega

/-- Sums and lengths over all rows are those over the repositories. -/
lemma sum_allRows (repos : List (String × List Row)) (arm : String) (f : Field) :
    (numbers (allRows repos) arm f).sum =
        (repos.map fun repo => (numbers repo.2 arm f).sum).sum ∧
      (numbers (allRows repos) arm f).length =
        (repos.map fun repo => (numbers repo.2 arm f).length).sum ∧
      (allRows repos).length = (repos.map fun repo => repo.2.length).sum := by
  induction repos with
  | nil => exact ⟨rfl, rfl, rfl⟩
  | cons repo repos ih =>
    obtain ⟨hsum, hlength, hrows⟩ := ih
    have hsplit : allRows (repo :: repos) = repo.2 ++ allRows repos := rfl
    rw [hsplit, numbers_append, List.sum_append, List.length_append, List.length_append, hsum,
      hlength, hrows]
    exact ⟨rfl, rfl, rfl⟩

/-! ### Counts -/

/-- The counts of rows by which arm has the larger value. -/
lemma winLossTie_eq (rows : List Row) (chal base : String) (key : Field) :
    winLossTie rows chal base key =
      ⟨rows.countP fun r => (versus chal base key r).any fun v => decide (v.2 < v.1),
        rows.countP fun r => (versus chal base key r).any fun v => decide (v.1 < v.2),
        rows.countP fun r => (versus chal base key r).any fun v => decide (v.1 = v.2)⟩ := by
  have hloop : ∀ t : Tally, rows.foldl (fun t r => t.count (versus chal base key r)) t =
      ⟨t.wins + rows.countP fun r => (versus chal base key r).any fun v => decide (v.2 < v.1),
        t.losses + rows.countP fun r => (versus chal base key r).any fun v => decide (v.1 < v.2),
        t.ties + rows.countP fun r => (versus chal base key r).any fun v =>
          decide (v.1 = v.2)⟩ := by
    induction rows with
    | nil => exact fun t => rfl
    | cons r rows ih =>
      intro t
      rw [List.foldl_cons, ih]
      simp only [List.countP_cons]
      cases hv : versus chal base key r with
      | none => rfl
      | some v =>
        obtain ⟨vc, vb⟩ := v
        simp only [Option.any_some, decide_eq_true_eq, Tally.count]
        rcases lt_trichotomy vc vb with hlt | heq | hgt
        · simp only [if_neg hlt.not_gt, if_pos hlt, if_neg hlt.ne, Tally.mk.injEq]
          omega
        · simp only [heq, lt_irrefl, if_false, if_true, Tally.mk.injEq]
          omega
        · simp only [if_pos hgt, if_neg hgt.not_gt, if_neg hgt.ne', Tally.mk.injEq]
          omega
  rw [winLossTie, hloop]
  simp only [Nat.zero_add]

lemma winLossTie_append (xs ys : List Row) (chal base : String) (key : Field) :
    winLossTie (xs ++ ys) chal base key =
      (winLossTie xs chal base key).add (winLossTie ys chal base key) := by
  simp only [winLossTie_eq, List.countP_append, Tally.add]

lemma winLossTie_perm {xs ys : List Row} (h : xs.Perm ys) (chal base : String) (key : Field) :
    winLossTie xs chal base key = winLossTie ys chal base key := by
  simp only [winLossTie_eq, h.countP_eq]

lemma Tally.add_assoc (t u v : Tally) : (t.add u).add v = t.add (u.add v) := by
  simp only [Tally.add, Nat.add_assoc]

/-! ### The loop over the summaries -/

section Loop
variable (arms : List String)

def start : Sums := ⟨0, fun _ _ => 0, ⟨0, 0, 0⟩, ⟨0, 0, 0⟩⟩

def summaries (repos : List (String × List Row)) : List Summary :=
  repos.map fun repo => aggregate arms repo.1 repo.2

lemma total_eq (repos : List (String × List Row)) (sums : Sums) :
    ((summaries arms repos).foldl Sums.add sums).totalQueries =
      sums.totalQueries + (allRows repos).length := by
  induction repos generalizing sums with
  | nil => rfl
  | cons repo repos ih =>
    have hsplit : allRows (repo :: repos) = repo.2 ++ allRows repos := rfl
    rw [hsplit, List.length_append, ← Nat.add_assoc]
    exact ih _

lemma weighted_eq (repos : List (String × List Row)) (sums : Sums) (arm : String) (f : Field) :
    ((summaries arms repos).foldl Sums.add sums).weighted arm f =
      sums.weighted arm f +
        ((summaries arms repos).map fun s => s.mean arm f * (s.nQueries : ℚ)).sum := by
  induction repos generalizing sums with
  | nil => exact (add_zero _).symm
  | cons repo repos ih =>
    refine (ih _).trans ?_
    exact add_assoc _ _ _

variable {arms}

lemma tally_aggregate (hgrep : "grep" ∈ arms) (htree : "treeweft" ∈ arms) (repo : String)
    (rows : List Row) :
    (aggregate arms repo rows).tally Comparison.correctness =
        winLossTie rows "treeweft" "grep" .correctness ∧
      (aggregate arms repo rows).tally Comparison.recall5 =
        winLossTie rows "treeweft" "grep" .recall5 := by
  simp only [Summary.tally, aggregate, if_pos (And.intro hgrep htree), Option.elim_some]
  exact ⟨rfl, rfl⟩

lemma tallies_eq (hgrep : "grep" ∈ arms) (htree : "treeweft" ∈ arms)
    (repos : List (String × List Row)) (sums : Sums) :
    ((summaries arms repos).foldl Sums.add sums).correctness =
        sums.correctness.add (winLossTie (allRows repos) "treeweft" "grep" .correctness) ∧
      ((summaries arms repos).foldl Sums.add sums).recall5 =
        sums.recall5.add (winLossTie (allRows repos) "treeweft" "grep" .recall5) := by
  induction repos generalizing sums with
  | nil => exact ⟨rfl, rfl⟩
  | cons repo repos ih =>
    have hsplit : allRows (repo :: repos) = repo.2 ++ allRows repos := rfl
    obtain ⟨hcorrectness, hrecall⟩ := ih (sums.add (aggregate arms repo.1 repo.2))
    obtain ⟨hc, hr⟩ := tally_aggregate hgrep htree repo.1 repo.2
    rw [hsplit, winLossTie_append, winLossTie_append, ← Tally.add_assoc, ← Tally.add_assoc, ← hc,
      ← hr]
    exact ⟨hcorrectness, hrecall⟩

end Loop

/-- Counts and p-values are pooled as over all rows, whatever is missing. -/
theorem counts_agree (arms : List String) (repos : List (String × List Row)) {rows : List Row}
    (h : rows.Perm (allRows repos)) : CountsAgree arms repos rows := by
  refine ⟨?_, fun c hc => ?_⟩
  · exact (total_eq arms repos start).trans ((Nat.zero_add _).trans h.length_eq.symm)
  · have hboth : "grep" ∈ arms ∧ "treeweft" ∈ arms := by
      by_contra hnot
      rw [aggregate, if_neg hnot] at hc
      cases hc
    rw [aggregate, if_pos hboth] at hc
    obtain rfl := Option.some.inj hc
    obtain ⟨hcorrectness, hrecall⟩ := tallies_eq hboth.1 hboth.2 repos start
    have hzero : ∀ t : Tally, Tally.add ⟨0, 0, 0⟩ t = t := fun t => by
      simp only [Tally.add, Nat.zero_add]
    rw [start, hzero, ← winLossTie_perm h] at hcorrectness hrecall
    refine ⟨⟨hcorrectness, ?_⟩, ⟨hrecall, ?_⟩⟩
    · exact congrArg (fun t : Tally => roundDigits 4 (signTest t.wins t.losses)) hcorrectness
    · exact congrArg (fun t : Tally => roundDigits 4 (signTest t.wins t.losses)) hrecall

/-! ### The pooled mean -/

/-- What the rollup divides by the number of all rows. -/
def weightedSum (repos : List (String × List Row)) (arm : String) (f : Field) : ℚ :=
  (repos.map fun repo => armMeans repo.2 arm f * (repo.2.length : ℚ)).sum

lemma mean_aggregate {arms : List String} {arm : String} (harm : arm ∈ arms) (repo : String)
    (rows : List Row) (f : Field) :
    (aggregate arms repo rows).mean arm f = armMeans rows arm f := by
  simp only [Summary.mean, aggregate, if_pos harm, Option.elim_some]

lemma pooled_mean {arms : List String} {arm : String} (harm : arm ∈ arms)
    (repos : List (String × List Row)) (f : Field) :
    (pooled arms repos).means arm f =
      roundDigits 4 (weightedSum repos arm f / (allRows repos).length) := by
  have htotal : ((summaries arms repos).foldl Sums.add start).totalQueries =
      (allRows repos).length := (total_eq arms repos start).trans (Nat.zero_add _)
  have hweighted : ((summaries arms repos).foldl Sums.add start).weighted arm f =
      weightedSum repos arm f := by
    rw [weighted_eq, start, zero_add, weightedSum, summaries, List.map_map]
    refine congrArg List.sum (List.map_congr_left fun repo _ => ?_)
    rw [Function.comp_apply, mean_aggregate harm]
    rfl
  have hmeans : (pooled arms repos).means arm f =
      if 0 < ((summaries arms repos).foldl Sums.add start).totalQueries then
        roundDigits 4 (((summaries arms repos).foldl Sums.add start).weighted arm f /
          ((summaries arms repos).foldl Sums.add start).totalQueries)
      else 0 := rfl
  rw [hmeans, htotal, hweighted]
  by_cases hpos : 0 < (allRows repos).length
  · rw [if_pos hpos]
  · have hzero : (allRows repos).length = 0 := by omega
    have hround := Rounding.roundDigits_natCast (K := ℚ) 4 0
    rw [if_neg hpos, hzero, Nat.cast_zero, div_zero]
    rw [Nat.cast_zero] at hround
    exact hround.symm

lemma armMeans_eq (rows : List Row) (arm : String) (f : Field) :
    armMeans rows arm f =
      roundDigits 4 ((numbers rows arm f).sum / (numbers rows arm f).length) := by
  rw [armMeans, mean_eq]
  rfl

lemma armMeans_perm {xs ys : List Row} (h : xs.Perm ys) (arm : String) (f : Field) :
    armMeans xs arm f = armMeans ys arm f := by
  have hnumbers := numbers_perm h arm f
  rw [armMeans_eq, armMeans_eq, hnumbers.sum_eq, hnumbers.length_eq]

/-- Rounding the mean of each repository moves the weighted sum by half a unit for each row. -/
lemma weightedSum_near (repos : List (String × List Row)) (arm : String) (f : Field) :
    |weightedSum repos arm f - (repos.map fun repo =>
        (numbers repo.2 arm f).sum / (numbers repo.2 arm f).length * (repo.2.length : ℚ)).sum| ≤
      1 / 2 / 10 ^ 4 * (allRows repos).length := by
  induction repos with
  | nil => exact (abs_of_nonneg (le_of_eq (sub_self _).symm)).trans_le (by simp [allRows])
  | cons repo repos ih =>
    have hsplit : allRows (repo :: repos) = repo.2 ++ allRows repos := rfl
    have hround := Rounding.abs_roundDigits_sub_self 4
      ((numbers repo.2 arm f).sum / (numbers repo.2 arm f).length)
    have hcons : weightedSum (repo :: repos) arm f =
        armMeans repo.2 arm f * (repo.2.length : ℚ) + weightedSum repos arm f := rfl
    rw [hcons, List.map_cons, List.sum_cons, hsplit, List.length_append, Nat.cast_add, mul_add,
      add_sub_add_comm, ← sub_mul, armMeans_eq]
    refine (abs_add_le _ _).trans (add_le_add ?_ ih)
    rw [abs_mul, Nat.abs_cast]
    exact mul_le_mul_of_nonneg_right hround (Nat.cast_nonneg _)

/-- In proportion, weighting by the rows is weighting by the values. -/
lemma weighted_means_eq {repos : List (String × List Row)} {arm : String} {f : Field} {n m : ℕ}
    (h : ∀ repo ∈ repos, (numbers repo.2 arm f).length * n = repo.2.length * m) :
    (repos.map fun repo =>
        (numbers repo.2 arm f).sum / (numbers repo.2 arm f).length * (repo.2.length : ℚ)).sum * m =
      (repos.map fun repo => (numbers repo.2 arm f).sum).sum * n := by
  induction repos with
  | nil => simp
  | cons repo repos ih =>
    obtain ⟨hrepo, hrepos⟩ := List.forall_mem_cons.mp h
    have hcast : ((numbers repo.2 arm f).length : ℚ) * n = repo.2.length * m := by
      exact_mod_cast hrepo
    have hone : (numbers repo.2 arm f).sum / (numbers repo.2 arm f).length *
        (repo.2.length : ℚ) * m = (numbers repo.2 arm f).sum * n := by
      rw [mul_assoc, ← hcast, ← mul_assoc]
      by_cases hnone : numbers repo.2 arm f = []
      · simp [hnone]
      · have hpos : ((numbers repo.2 arm f).length : ℚ) ≠ 0 :=
          Nat.cast_ne_zero.mpr fun hzero => hnone (List.length_eq_zero_iff.mp hzero)
        rw [div_mul_cancel₀ _ hpos]
    rw [List.map_cons, List.sum_cons, add_mul, hone, ih hrepos, List.map_cons, List.sum_cons,
      add_mul]

lemma unrounded_eq {repos : List (String × List Row)} {arm : String} {f : Field}
    (h : Proportional repos arm f)
    (hexact : (repos.map fun repo => (numbers repo.2 arm f).sum / (numbers repo.2 arm f).length *
        (repo.2.length : ℚ)).sum * (numbers (allRows repos) arm f).length =
      (numbers (allRows repos) arm f).sum * (allRows repos).length) :
    (repos.map fun repo => (numbers repo.2 arm f).sum / (numbers repo.2 arm f).length *
        (repo.2.length : ℚ)).sum / (allRows repos).length =
      (numbers (allRows repos) arm f).sum / (numbers (allRows repos) arm f).length := by
  have hle := numbers_length_le (allRows repos) arm f
  by_cases hnone : (numbers (allRows repos) arm f).length = 0
  · -- no row has a value
    have hsum : (repos.map fun repo => (numbers repo.2 arm f).sum / (numbers repo.2 arm f).length *
        (repo.2.length : ℚ)).sum / (allRows repos).length = 0 := by
      by_cases hzero : (allRows repos).length = 0
      · rw [hzero, Nat.cast_zero, div_zero]
      · refine div_eq_zero_iff.mpr (.inl (List.sum_eq_zero fun x hx => ?_))
        obtain ⟨repo, hrepo, rfl⟩ := List.mem_map.mp hx
        have hrows := h repo hrepo
        rw [hnone, Nat.mul_zero] at hrows
        rw [(Nat.mul_eq_zero.mp hrows).resolve_right hzero, Nat.cast_zero, div_zero, zero_mul]
    rw [hsum, hnone, Nat.cast_zero, div_zero]
  · have hpos : ((numbers (allRows repos) arm f).length : ℚ) ≠ 0 := Nat.cast_ne_zero.mpr hnone
    have hrows : ((allRows repos).length : ℚ) ≠ 0 := Nat.cast_ne_zero.mpr (by omega)
    exact (div_eq_div_iff hrows hpos).mpr hexact

/-- In proportion, the pooled mean is that of all rows. -/
theorem mean_agrees {arms : List String} {arm : String} (harm : arm ∈ arms)
    {repos : List (String × List Row)} {f : Field} (h : Proportional repos arm f)
    {rows : List Row} (hrows : rows.Perm (allRows repos)) : MeanAgrees arms repos rows arm f := by
  unfold MeanAgrees
  rw [pooled_mean harm, mean_aggregate harm, armMeans_perm hrows, armMeans_eq]
  refine Rounding.abs_roundDigits_sub_le ?_
  obtain ⟨hsum, hlength, hlines⟩ := sum_allRows repos arm f
  have hnear := weightedSum_near repos arm f
  have hexact := weighted_means_eq h
  rw [← hsum] at hexact
  rw [← unrounded_eq h hexact]
  by_cases hzero : (allRows repos).length = 0
  · rw [hzero, Nat.cast_zero, div_zero, div_zero, sub_self, abs_zero]
    positivity
  · have hpos : (0 : ℚ) < (allRows repos).length := Nat.cast_pos.mpr (Nat.pos_of_ne_zero hzero)
    rw [← sub_div, abs_div, abs_of_pos hpos]
    exact (div_le_iff₀ hpos).mpr hnear

/-! ### Other numbers in the same pattern -/

/-- Every number of a repository replaced. -/
def fillRepo (c : ℚ) (repo : String × List Row) : String × List Row :=
  (repo.1, repo.2.map (Row.fill c))

lemma fill_field (c : ℚ) (a : ArmResult) (f : Field) :
    (a.fill c).field f = (a.field f).map fun _ => c := by
  cases f with
  | totalTokens => rfl
  | recall5 => rfl
  | correctness => cases hj : a.judge <;> simp [ArmResult.fill, ArmResult.field, hj]

lemma fill_fill (c d : ℚ) (r : Row) : (r.fill c).fill d = r.fill d := by
  unfold Row.fill
  simp only [Option.map_map, Row.mk.injEq]
  refine funext fun arm => congrArg (fun g => (r.arms arm).map g) (funext fun a => ?_)
  simp only [Function.comp_apply, ArmResult.fill, Option.map_map, ArmResult.mk.injEq]
  exact ⟨rfl, rfl, congrArg (fun g => a.judge.map g) (funext fun j => by
    simp only [Function.comp_apply, Option.map_map, Judge.mk.injEq]
    rfl)⟩

lemma numbers_fill (c : ℚ) (repo : String × List Row) (arm : String) (f : Field) :
    numbers (fillRepo c repo).2 arm f = List.replicate (numbers repo.2 arm f).length c := by
  have hrows : ∀ rows : List Row, numbers (rows.map (Row.fill c)) arm f =
      List.replicate (numbers rows arm f).length c := by
    intro rows
    induction rows with
    | nil => rfl
    | cons r rows ih =>
      rw [List.map_cons, numbers_cons, numbers_cons, ih, List.length_append, List.replicate_add]
      congr 1
      cases ha : r.arms arm with
      | none => simp [Row.fill, ha]
      | some a => cases hf : a.field f <;> simp [Row.fill, ha, fill_field, hf]
  exact hrows repo.2

/-- One repository gets the value `c`, all others zero. -/
def spike (c : ℚ) (before : List (String × List Row)) (repo : String × List Row)
    (after : List (String × List Row)) : List (String × List Row) :=
  before.map (fillRepo 0) ++ fillRepo c repo :: after.map (fillRepo 0)

section Spike
variable (c : ℚ) (before after : List (String × List Row)) (repo : String × List Row)
  (arm : String) (f : Field)

lemma spike_samePattern :
    SamePattern (before ++ repo :: after) (spike c before repo after) := by
  have hrepo : ∀ (d : ℚ) (repo : String × List Row),
      (fillRepo d repo).2.map (Row.fill 0) = repo.2.map (Row.fill 0) := by
    intro d repo
    simp only [fillRepo, List.map_map]
    exact List.map_congr_left fun r _ => fill_fill d 0 r
  unfold SamePattern spike
  simp only [List.map_append, List.map_cons, List.map_map, Function.comp_def, hrepo]

/-- Only the repository with the spike adds to a sum that zeros do not add to. -/
lemma spike_sum {g : String × List Row → ℚ} (hg : ∀ repo, g (fillRepo 0 repo) = 0) :
    ((spike c before repo after).map g).sum = g (fillRepo c repo) := by
  have hzero : ∀ repos : List (String × List Row), ((repos.map (fillRepo 0)).map g).sum = 0 := by
    refine fun repos => List.sum_eq_zero fun x hx => ?_
    obtain ⟨repo', hrepo', rfl⟩ := List.mem_map.mp hx
    obtain ⟨repo, -, rfl⟩ := List.mem_map.mp hrepo'
    exact hg repo
  rw [spike, List.map_append, List.sum_append, List.map_cons, List.sum_cons, hzero, hzero, zero_add,
    add_zero]

/-- What depends on the pattern only stays as it is. -/
lemma spike_count {g : String × List Row → ℕ} (hg : ∀ d repo, g (fillRepo d repo) = g repo) :
    ((spike c before repo after).map g).sum = ((before ++ repo :: after).map g).sum := by
  simp only [spike, List.map_append, List.map_cons, List.map_map, Function.comp_def, hg]

lemma spike_rows : (allRows (spike c before repo after)).length =
    (allRows (before ++ repo :: after)).length := by
  rw [(sum_allRows _ "" .totalTokens).2.2, (sum_allRows _ "" .totalTokens).2.2]
  exact spike_count c before after repo fun d repo => List.length_map _

lemma spike_values : (numbers (allRows (spike c before repo after)) arm f).length =
    (numbers (allRows (before ++ repo :: after)) arm f).length := by
  rw [(sum_allRows _ arm f).2.1, (sum_allRows _ arm f).2.1]
  refine spike_count c before after repo fun d repo => ?_
  rw [numbers_fill, List.length_replicate]

lemma spike_total : (numbers (allRows (spike c before repo after)) arm f).sum =
    (numbers repo.2 arm f).length * c := by
  rw [(sum_allRows _ arm f).1, spike_sum c before after repo fun repo => ?_]
  · rw [numbers_fill, List.sum_replicate, nsmul_eq_mul]
  · rw [numbers_fill, List.sum_replicate, nsmul_eq_mul, mul_zero]

lemma armMeans_fill (d : ℕ) (repo : String × List Row) (arm : String) (f : Field)
    (h : 0 < (numbers repo.2 arm f).length ∨ d = 0) :
    armMeans (fillRepo d repo).2 arm f = d := by
  rw [armMeans_eq, numbers_fill, List.sum_replicate, List.length_replicate, nsmul_eq_mul]
  rcases h with hpos | rfl
  · have hne : ((numbers repo.2 arm f).length : ℚ) ≠ 0 := Nat.cast_ne_zero.mpr hpos.ne'
    rw [mul_div_cancel_left₀ _ hne, Rounding.roundDigits_natCast]
  · rw [Nat.cast_zero, mul_zero, zero_div]
    exact (Rounding.roundDigits_natCast (K := ℚ) 4 0).trans Nat.cast_zero

end Spike

/-- Proportion is a matter of the pattern. -/
lemma proportional_iff (repos : List (String × List Row)) (arm : String) (f : Field) :
    Proportional repos arm f ↔ ∀ rows ∈ repos.map fun repo => repo.2.map (Row.fill 0),
      (numbers rows arm f).length *
          (repos.map fun repo => repo.2.map (Row.fill 0)).flatten.length =
        rows.length *
          (numbers (repos.map fun repo => repo.2.map (Row.fill 0)).flatten arm f).length := by
  have hflatten : (repos.map fun repo => repo.2.map (Row.fill 0)).flatten =
      (allRows repos).map (Row.fill 0) := by
    rw [allRows, List.map_flatten, List.map_map]
    rfl
  have hlength : ∀ rows : List Row, (numbers (rows.map (Row.fill 0)) arm f).length =
      (numbers rows arm f).length := fun rows => by
    have hfill := congrArg List.length (numbers_fill 0 ("", rows) arm f)
    rwa [List.length_replicate] at hfill
  rw [hflatten, List.length_map, hlength, List.forall_mem_map]
  simp only [hlength, List.length_map]
  exact Iff.rfl

lemma proportional_congr {repos repos' : List (String × List Row)} (h : SamePattern repos repos')
    (arm : String) (f : Field) : Proportional repos arm f ↔ Proportional repos' arm f := by
  rw [proportional_iff, proportional_iff, show _ = _ from h]

/-- Out of proportion, some repository has values in more than its share of rows. -/
lemma exists_surplus {repos : List (String × List Row)} {arm : String} {f : Field}
    (h : ¬Proportional repos arm f) : ∃ repo ∈ repos,
      repo.2.length * (numbers (allRows repos) arm f).length <
        (numbers repo.2 arm f).length * (allRows repos).length := by
  by_contra hnone
  refine h fun repo hrepo => ?_
  have hle : ∀ repo ∈ repos, (numbers repo.2 arm f).length * (allRows repos).length ≤
      repo.2.length * (numbers (allRows repos) arm f).length := fun repo hrepo =>
    Nat.le_of_not_lt fun hlt => hnone ⟨repo, hrepo, hlt⟩
  by_contra hne
  have hlt := List.sum_lt_sum _ _ hle ⟨repo, hrepo, lt_of_le_of_ne (hle repo hrepo) hne⟩
  obtain ⟨-, hvalues, hrows⟩ := sum_allRows repos arm f
  rw [List.sum_map_mul_right, List.sum_map_mul_right, ← hvalues, ← hrows, Nat.mul_comm] at hlt
  exact lt_irrefl _ hlt

/-- Out of proportion, there are numbers for which the pooled mean is not that of all rows. -/
theorem mean_disagrees {arms : List String} {arm : String} (harm : arm ∈ arms)
    {repos : List (String × List Row)} {f : Field} (h : ¬Proportional repos arm f) :
    ∃ repos', SamePattern repos repos' ∧ ¬MeanAgrees arms repos' (allRows repos') arm f := by
  obtain ⟨repo, hrepo, hlt⟩ := exists_surplus h
  obtain ⟨before, after, rfl⟩ := List.append_of_mem hrepo
  set n := (allRows (before ++ repo :: after)).length with hn
  set m := (numbers (allRows (before ++ repo :: after)) arm f).length with hm
  have hproduct := Nat.zero_lt_of_lt hlt
  have hvalues : 0 < (numbers repo.2 arm f).length := Nat.pos_of_mul_pos_right hproduct
  have hrows : (n : ℚ) ≠ 0 := Nat.cast_ne_zero.mpr (Nat.pos_of_mul_pos_left hproduct).ne'
  have hsome : (m : ℚ) ≠ 0 := by
    have hle : (numbers repo.2 arm f).length ≤ m := by
      rw [hm, (sum_allRows _ arm f).2.1]
      exact List.single_le_sum (fun _ _ => Nat.zero_le _) _ (List.mem_map_of_mem hrepo)
    exact Nat.cast_ne_zero.mpr (hvalues.trans_le hle).ne'
  refine ⟨spike (n * m : ℕ) before repo after, spike_samePattern _ before after repo, ?_⟩
  have hpooled : (pooled arms (spike (n * m : ℕ) before repo after)).means arm f =
      (repo.2.length * m : ℕ) := by
    have hweighted : weightedSum (spike (n * m : ℕ) before repo after) arm f =
        (n * m : ℕ) * (repo.2.length : ℚ) := by
      rw [weightedSum, spike_sum _ before after repo fun repo => ?_]
      · rw [armMeans_fill _ repo arm f (.inl hvalues), fillRepo, List.length_map]
      · have hzero := armMeans_fill 0 repo arm f (.inr rfl)
        rw [Nat.cast_zero] at hzero
        rw [hzero, zero_mul]
    have hquotient : ((n * m : ℕ) : ℚ) * repo.2.length / n = (repo.2.length * m : ℕ) := by
      push_cast
      field_simp
    rw [pooled_mean harm, hweighted, spike_rows, ← hn, hquotient, Rounding.roundDigits_natCast]
  have hwhole : (aggregate arms "" (allRows (spike (n * m : ℕ) before repo after))).mean arm f =
      ((numbers repo.2 arm f).length * n : ℕ) := by
    have hquotient : ((numbers repo.2 arm f).length : ℚ) * (n * m : ℕ) / m =
        ((numbers repo.2 arm f).length * n : ℕ) := by
      push_cast
      field_simp
    rw [mean_aggregate harm, armMeans_eq, spike_total, spike_values, ← hm, hquotient,
      Rounding.roundDigits_natCast]
  -- two different whole numbers are further apart than one in the last place
  have hapart : ((repo.2.length * m : ℕ) : ℚ) + 1 ≤ ((numbers repo.2 arm f).length * n : ℕ) := by
    exact_mod_cast hlt
  intro hagrees
  rw [MeanAgrees, hpooled, hwhole] at hagrees
  have hlow := (abs_le.mp hagrees).1
  have hunit : (1 : ℚ) / 10 ^ 4 < 1 := by norm_num
  linarith only [hlow, hapart, hunit]

/-! ### The claim -/

/-- **Pooling**: the rollup pools counts and p-values as the aggregate of all rows has them. It
pools a mean so, whatever the numbers, exactly if all repositories have it in the same share of
their rows. -/
theorem rollup_pools (arms : List String) (repos : List (String × List Row)) :
    (∀ rows : List Row, rows.Perm (allRows repos) → CountsAgree arms repos rows) ∧
      ∀ arm ∈ ["grep", "treeweft"], arm ∈ arms → ∀ f,
        ((∀ repos', SamePattern repos repos' → ∀ rows : List Row, rows.Perm (allRows repos') →
          MeanAgrees arms repos' rows arm f) ↔ Proportional repos arm f) := by
  refine ⟨fun rows hrows => counts_agree arms repos hrows, fun arm _ harm f => ⟨fun h => ?_,
    fun h repos' hpattern rows hrows => ?_⟩⟩
  · by_contra hnot
    obtain ⟨repos', hpattern, hdisagrees⟩ := mean_disagrees harm hnot
    exact hdisagrees (h repos' hpattern _ (List.Perm.refl _))
  · exact mean_agrees harm ((proportional_congr hpattern arm f).mp h) hrows

/-! ### A missing score -/

/-- A query that both arms answered, scored by the judge for the one arm and maybe for the other. -/
def judged (score : Option ℚ) : Row :=
  ⟨fun arm =>
    if arm = "grep" then some ⟨some 100, some 1, some ⟨some 1⟩⟩
    else if arm = "treeweft" then some ⟨some 100, some 1, some ⟨score⟩⟩
    else none⟩

def bothArms : List String := ["grep", "treeweft"]

/-- One repository has a score for one of its two answers, the other for both of its. -/
def partlyJudged : List (String × List Row) :=
  [("a", [judged (some 1), judged none]), ("b", [judged (some 0), judged (some 0)])]

/-- A third of the scores is one; the rollup says half. -/
theorem missing_score_weighted :
    ¬∀ (arms : List String) (repos : List (String × List Row)) (rows : List Row),
      rows.Perm (allRows repos) → CountsAgree arms repos rows ∧
        ∀ arm ∈ ["grep", "treeweft"], arm ∈ arms → ∀ f, MeanAgrees arms repos rows arm f := by
  intro hclaim
  have hmean := (hclaim bothArms partlyJudged (allRows partlyJudged) (List.Perm.refl _)).2
    "treeweft" (by decide) (by decide) .correctness
  revert hmean
  unfold MeanAgrees
  decide +kernel

end Treeweft.Rollup
