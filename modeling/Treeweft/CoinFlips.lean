import Mathlib.Algebra.BigOperators.Intervals
import Mathlib.Algebra.Order.Field.Rat
import Mathlib.Data.Nat.Choose.Sum
import Mathlib.Tactic.Linarith
import Mathlib.Tactic.Positivity

/-!
The number of heads in fair coin flips.
-/

namespace Treeweft.CoinFlips

open Finset

/-- The share of the outcomes of `n` flips whose number of heads is in `E`; an outcome is the set of
the flips that are heads. -/
def prob (n : ℕ) (E : ℕ → Prop) [DecidablePred E] : ℚ :=
  #{s ∈ (range n).powerset | E #s} / 2 ^ n

section Prob
variable {n : ℕ} {E F : ℕ → Prop} [DecidablePred E] [DecidablePred F]

/-- The binomial weights of the event. -/
lemma prob_eq_sum : prob n E = (∑ i ∈ range (n + 1) with E i, (n.choose i : ℚ)) / 2 ^ n := by
  have hcard := sum_powerset_apply_card (x := range n) fun i => if E i then (1 : ℚ) else 0
  rw [card_range] at hcard
  unfold prob
  rw [card_filter]
  push_cast
  rw [hcard, sum_filter]
  refine congrArg (· / (2 : ℚ) ^ n) (sum_congr rfl fun i _ => ?_)
  split_ifs <;> simp

lemma prob_nonneg : 0 ≤ prob n E := by
  unfold prob
  positivity

lemma prob_mono (h : ∀ i ≤ n, E i → F i) : prob n E ≤ prob n F := by
  unfold prob
  have hsub : {s ∈ (range n).powerset | E #s} ⊆ {s ∈ (range n).powerset | F #s} := by
    intro s hs
    rw [mem_filter] at hs ⊢
    have hle := card_le_card (mem_powerset.mp hs.1)
    rw [card_range] at hle
    exact ⟨hs.1, h _ hle hs.2⟩
  have hle := card_le_card hsub
  gcongr

lemma prob_of_forall (h : ∀ i ≤ n, E i) : prob n E = 1 := by
  unfold prob
  have hall : {s ∈ (range n).powerset | E #s} = (range n).powerset := by
    refine filter_true_of_mem fun s hs => h _ ?_
    have hle := card_le_card (mem_powerset.mp hs)
    rwa [card_range] at hle
  rw [hall, card_powerset, card_range]
  push_cast
  exact div_self (by positivity)

lemma prob_le_one : prob n E ≤ 1 := by
  have hmono : prob n E ≤ prob n fun _ => True := prob_mono fun _ _ _ => trivial
  rwa [prob_of_forall fun _ _ => trivial] at hmono

lemma prob_or_le : prob n (fun i => E i ∨ F i) ≤ prob n E + prob n F := by
  unfold prob
  rw [filter_or, ← add_div]
  have hle := card_union_le {s ∈ (range n).powerset | E #s} {s ∈ (range n).powerset | F #s}
  gcongr
  exact_mod_cast hle

/-- Disjoint events. -/
lemma prob_or (h : ∀ i, ¬(E i ∧ F i)) : prob n (fun i => E i ∨ F i) = prob n E + prob n F := by
  unfold prob
  rw [filter_or, card_union_of_disjoint, ← add_div]
  · push_cast
    rfl
  · refine disjoint_left.mpr fun s hs hs' => ?_
    exact h #s ⟨(mem_filter.mp hs).2, (mem_filter.mp hs').2⟩

/-- Heads and tails are alike. -/
lemma prob_flip : prob n (fun i => E (n - i)) = prob n E := by
  rw [prob_eq_sum, prob_eq_sum, sum_filter, sum_filter]
  refine congrArg (· / (2 : ℚ) ^ n) ?_
  have hflip := sum_flip (n := n) fun i => if E i then (n.choose i : ℚ) else 0
  rw [← hflip]
  refine sum_congr rfl fun i hi => ?_
  rw [Nat.choose_symm (Nat.le_of_lt_succ (mem_range.mp hi))]

lemma prob_pos {i : ℕ} (hi : i ≤ n) (h : E i) : 0 < prob n E := by
  rw [prob_eq_sum]
  have hmem : i ∈ {i ∈ range (n + 1) | E i} :=
    mem_filter.mpr ⟨mem_range.mpr (Nat.lt_succ_of_le hi), h⟩
  have hle : (n.choose i : ℚ) ≤ ∑ i ∈ range (n + 1) with E i, (n.choose i : ℚ) :=
    single_le_sum (f := fun i => (n.choose i : ℚ)) (fun _ _ => by positivity) hmem
  have hpos : (0 : ℚ) < n.choose i := by exact_mod_cast Nat.choose_pos hi
  have htotal : 0 < ∑ i ∈ range (n + 1) with E i, (n.choose i : ℚ) := hpos.trans_le hle
  positivity

end Prob

end Treeweft.CoinFlips
