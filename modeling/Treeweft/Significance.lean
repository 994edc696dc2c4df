import Treeweft.CoinFlips

/-!
The two-sided sign test on the wins and losses of one arm against another.
-/

namespace Treeweft.Significance

open CoinFlips (prob)
open Finset

def signTest (wins losses : ℕ) : ℚ :=
  let n := wins + losses
  if n = 0 then 1
  else
    let k := max wins losses
    let twoN : ℕ := 2 ^ n
    let tail := ∑ i ∈ Ico k (n + 1), n.choose i
    min ((2 * tail : ℕ) / twoN) 1

/-- As far from the middle as `w` of `n`, or farther. -/
def Extreme (n w i : ℕ) : Prop := |(w : ℚ) - n / 2| ≤ |(i : ℚ) - n / 2|

instance (n w : ℕ) : DecidablePred (Extreme n w) := fun i =>
  inferInstanceAs (Decidable (|(w : ℚ) - n / 2| ≤ |(i : ℚ) - n / 2|))

/-- With `k` the larger and `j` the smaller of wins and losses: `k` or more, or `j` or fewer. -/
lemma extreme_iff {n j k w i : ℕ} (hle : j ≤ k) (hsum : j + k = n) (hw : w = j ∨ w = k) :
    Extreme n w i ↔ k ≤ i ∨ i ≤ j := by
  have hn : (n : ℚ) = j + k := by exact_mod_cast hsum.symm
  have hjk : (j : ℚ) ≤ k := by exact_mod_cast hle
  have hmiddle : |(w : ℚ) - n / 2| = (k - j) / 2 := by
    rcases hw with rfl | rfl
    · rw [hn, abs_of_nonpos (by linarith)]
      ring
    · rw [hn, abs_of_nonneg (by linarith)]
      ring
  unfold Extreme
  rw [hmiddle, le_abs, hn, ← Nat.cast_le (α := ℚ), ← Nat.cast_le (α := ℚ)]
  constructor
  · rintro (h | h)
    · left
      linarith
    · right
      linarith
  · rintro (h | h)
    · left
      linarith
    · right
      linarith

/-- The upper tail, twice: the two tails are alike, and disjoint unless they meet in the middle. -/
lemma prob_extreme {n j k w : ℕ} (hle : j ≤ k) (hsum : j + k = n) (hw : w = j ∨ w = k) :
    prob n (Extreme n w) = min (2 * prob n (k ≤ ·)) 1 := by
  have hboth : prob n (Extreme n w) = prob n fun i => k ≤ i ∨ i ≤ j :=
    le_antisymm (CoinFlips.prob_mono fun i _ h => (extreme_iff hle hsum hw).mp h)
      (CoinFlips.prob_mono fun i _ h => (extreme_iff hle hsum hw).mpr h)
  have hlower : prob n (· ≤ j) = prob n (k ≤ ·) := by
    rw [← CoinFlips.prob_flip]
    refine le_antisymm (CoinFlips.prob_mono fun i hi h => ?_) (CoinFlips.prob_mono fun i hi h => ?_)
    · omega
    · omega
  rw [hboth]
  rcases hle.lt_or_eq with hlt | rfl
  · have hor : prob n (fun i => k ≤ i ∨ i ≤ j) = 2 * prob n (k ≤ ·) := by
      rw [CoinFlips.prob_or fun i h => by omega, hlower]
      ring
    rw [hor, min_eq_left]
    rw [← hor]
    exact CoinFlips.prob_le_one
  · have hall : prob n (fun i => j ≤ i ∨ i ≤ j) = 1 :=
      CoinFlips.prob_of_forall fun i _ => le_total j i
    have hcover : (1 : ℚ) ≤ 2 * prob n (j ≤ ·) := by
      have hunion := CoinFlips.prob_or_le (n := n) (E := (j ≤ ·)) (F := (· ≤ j))
      rw [hall, hlower] at hunion
      linarith
    rw [hall, min_eq_right hcover]

lemma signTest_eq (w l : ℕ) : signTest w l = min (2 * prob (w + l) (max w l ≤ ·)) 1 := by
  unfold signTest
  dsimp only
  split_ifs with hzero
  · have hall : prob (w + l) (max w l ≤ ·) = 1 :=
      CoinFlips.prob_of_forall fun i hi => by omega
    rw [hall]
    norm_num
  · have htail : Ico (max w l) (w + l + 1) = {i ∈ range (w + l + 1) | max w l ≤ i} := by
      ext i
      rw [mem_Ico, mem_filter, mem_range]
      exact and_comm
    rw [CoinFlips.prob_eq_sum, htail]
    push_cast
    rw [mul_div_assoc]

/-- The test gives the probability of a split at least as far from the middle. -/
lemma signTest_eq_prob (w l : ℕ) : signTest w l = prob (w + l) (Extreme (w + l) w) := by
  rw [signTest_eq]
  rcases le_total w l with h | h
  · rw [max_eq_right h, prob_extreme h rfl (.inl rfl)]
  · rw [max_eq_left h, prob_extreme h (Nat.add_comm l w) (.inr rfl)]

/-- The exact two-sided sign test: symmetric, a probability that is not zero, and no larger for a
split farther from the middle. -/
theorem signTest_spec (w l : ℕ) : signTest w l = prob (w + l) (Extreme (w + l) w) ∧
    signTest w l = signTest l w ∧ 0 < signTest w l ∧ signTest w l ≤ 1 ∧
    ∀ w' l', w' + l' = w + l → |(w : ℚ) - l| ≤ |(w' : ℚ) - l'| → signTest w' l' ≤ signTest w l := by
  refine ⟨signTest_eq_prob w l, ?_, ?_, ?_, fun w' l' hn hfar => ?_⟩
  · rw [signTest_eq, signTest_eq, Nat.add_comm l w, max_comm l w]
  · rw [signTest_eq_prob]
    exact CoinFlips.prob_pos (Nat.le_add_right w l) (le_refl _)
  · rw [signTest_eq_prob]
    exact CoinFlips.prob_le_one
  · rw [signTest_eq_prob, signTest_eq_prob, hn]
    refine CoinFlips.prob_mono fun i _ hi => le_trans ?_ hi
    have hhalf : ∀ a b : ℕ, a + b = w + l →
        |(a : ℚ) - ((w + l : ℕ) : ℚ) / 2| = |(a : ℚ) - b| / 2 := by
      intro a b hab
      have hcast : ((w + l : ℕ) : ℚ) = a + b := by exact_mod_cast hab.symm
      have hdiff : (a : ℚ) - ((w + l : ℕ) : ℚ) / 2 = (a - b) / 2 := by
        rw [hcast]
        ring
      rw [hdiff, abs_div, abs_two]
    rw [hhalf w l rfl, hhalf w' l' hn]
    linarith

end Treeweft.Significance
