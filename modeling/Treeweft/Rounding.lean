import Mathlib.Algebra.Order.Field.Basic
import Mathlib.Algebra.Order.Floor.Ring
import Mathlib.Tactic.FieldSimp
import Mathlib.Tactic.Linarith

/-!
Rounding to the nearest number of some decimal places, ties to the even one.
-/

namespace Treeweft.Rounding

variable {K : Type*} [Field K] [LinearOrder K] [FloorRing K] {x y : K}

section Half

local instance atLeastTwo : Nat.AtLeastTwo 2 := ⟨le_rfl⟩

/-- The nearest integer, and the even one of two. -/
def roundHalfEven (x : K) : ℤ :=
  if Int.fract x < 1 / 2 then ⌊x⌋
  else if 1 / 2 < Int.fract x then ⌊x⌋ + 1
  else if Even ⌊x⌋ then ⌊x⌋ else ⌊x⌋ + 1

end Half

def roundDigits (k : ℕ) (x : K) : K := roundHalfEven (x * 10 ^ k) / 10 ^ k

lemma floor_le_roundHalfEven (x : K) : ⌊x⌋ ≤ roundHalfEven x := by
  unfold roundHalfEven
  split_ifs <;> omega

lemma roundHalfEven_le (x : K) : roundHalfEven x ≤ ⌊x⌋ + 1 := by
  unfold roundHalfEven
  split_ifs <;> omega

variable [IsStrictOrderedRing K]

lemma roundHalfEven_intCast (n : ℤ) : roundHalfEven (n : K) = n := by
  have hhalf : Int.fract (n : K) < 1 / 2 := by
    rw [Int.fract_intCast]
    exact one_half_pos
  rw [roundHalfEven, if_pos hhalf, Int.floor_intCast]

/-- What is rounded is not changed by rounding it again. -/
lemma roundDigits_roundDigits (k : ℕ) (x : K) :
    roundDigits k (roundDigits k x) = roundDigits k x := by
  have hpow : (10 : K) ^ k ≠ 0 := by positivity
  unfold roundDigits
  rw [div_mul_cancel₀ _ hpow, roundHalfEven_intCast]

lemma roundHalfEven_mono (h : x ≤ y) : roundHalfEven x ≤ roundHalfEven y := by
  rcases (Int.floor_le_floor h).lt_or_eq with hlt | heq
  · exact (roundHalfEven_le x).trans ((Int.add_one_le_of_lt hlt).trans (floor_le_roundHalfEven y))
  · have hfract : Int.fract x ≤ Int.fract y := by
      rw [Int.fract, Int.fract, heq]
      exact sub_le_sub_right h _
    unfold roundHalfEven
    rw [heq]
    split_ifs <;> first | omega | linarith

lemma sub_half_le_roundHalfEven (x : K) : x - 1 / 2 ≤ roundHalfEven x := by
  have hx := Int.floor_add_fract x
  have hlt := Int.fract_lt_one x
  unfold roundHalfEven
  split_ifs <;> push_cast <;> linarith

lemma roundHalfEven_le_add_half (x : K) : (roundHalfEven x : K) ≤ x + 1 / 2 := by
  have hx := Int.floor_add_fract x
  have hle := Int.fract_nonneg x
  unfold roundHalfEven
  split_ifs <;> push_cast <;> linarith

/-- Rounding changes a number by half a unit of the last place at most. -/
lemma abs_roundDigits_sub_self (k : ℕ) (x : K) : |roundDigits k x - x| ≤ 1 / 2 / 10 ^ k := by
  have hpow : (0 : K) < 10 ^ k := by positivity
  have hlow := sub_half_le_roundHalfEven (x * 10 ^ k)
  have hhigh := roundHalfEven_le_add_half (x * 10 ^ k)
  have hscale : roundDigits k x - x = (roundHalfEven (x * 10 ^ k) - x * 10 ^ k) / 10 ^ k := by
    rw [roundDigits, sub_div, mul_div_cancel_right₀ _ hpow.ne']
  rw [hscale, abs_div, abs_of_pos hpow]
  refine div_le_div_of_nonneg_right (abs_le.mpr ⟨?_, ?_⟩) hpow.le
  · linarith
  · linarith

/-- Numbers that are half a unit apart at most become the same or neighbours. -/
lemma abs_roundDigits_sub_le {k : ℕ} (h : |x - y| ≤ 1 / 2 / 10 ^ k) :
    |roundDigits k x - roundDigits k y| ≤ 1 / 10 ^ k := by
  have hpow : (0 : K) < 10 ^ k := by positivity
  have hscaled : |x * 10 ^ k - y * 10 ^ k| ≤ 1 / 2 := by
    rw [← sub_mul, abs_mul, abs_of_pos hpow]
    exact (le_div_iff₀ hpow).mp h
  obtain ⟨hlow, hhigh⟩ := abs_le.mp hscaled
  have hx := sub_half_le_roundHalfEven (x * 10 ^ k)
  have hx' := roundHalfEven_le_add_half (x * 10 ^ k)
  have hy := sub_half_le_roundHalfEven (y * 10 ^ k)
  have hy' := roundHalfEven_le_add_half (y * 10 ^ k)
  have hinteger : |roundHalfEven (x * 10 ^ k) - roundHalfEven (y * 10 ^ k)| ≤ 1 := by
    -- less than two apart
    have hup : (roundHalfEven (x * 10 ^ k) : K) < roundHalfEven (y * 10 ^ k) + 2 := by linarith
    have hdown : (roundHalfEven (y * 10 ^ k) : K) < roundHalfEven (x * 10 ^ k) + 2 := by linarith
    have hup' : roundHalfEven (x * 10 ^ k) < roundHalfEven (y * 10 ^ k) + 2 := by
      exact_mod_cast hup
    have hdown' : roundHalfEven (y * 10 ^ k) < roundHalfEven (x * 10 ^ k) + 2 := by
      exact_mod_cast hdown
    exact abs_le.mpr ⟨by omega, by omega⟩
  rw [roundDigits, roundDigits, ← sub_div, abs_div, abs_of_pos hpow]
  refine div_le_div_of_nonneg_right ?_ hpow.le
  exact_mod_cast hinteger

lemma roundDigits_natCast (k n : ℕ) : roundDigits k (n : K) = n := by
  have hpow : (10 : K) ^ k ≠ 0 := by positivity
  have hcast : (n : K) * 10 ^ k = ((n * 10 ^ k : ℤ) : K) := by push_cast; rfl
  rw [roundDigits, hcast, roundHalfEven_intCast, ← hcast, mul_div_cancel_right₀ _ hpow]

lemma roundDigits_mono (k : ℕ) (h : x ≤ y) : roundDigits k x ≤ roundDigits k y := by
  have hpow : (0 : K) ≤ 10 ^ k := by positivity
  have hround : roundHalfEven (x * 10 ^ k) ≤ roundHalfEven (y * 10 ^ k) :=
    roundHalfEven_mono (mul_le_mul_of_nonneg_right h hpow)
  exact div_le_div_of_nonneg_right (Int.cast_le.mpr hround) hpow

/-- One more in the last place is not less after rounding. -/
lemma le_roundDigits_add (k : ℕ) (x : K) : x ≤ roundDigits k (x + 1 / 10 ^ k) := by
  have hpow : (0 : K) < 10 ^ k := by positivity
  have hscale : (x + 1 / 10 ^ k) * 10 ^ k = x * 10 ^ k + 1 := by
    rw [add_mul, one_div_mul_cancel hpow.ne']
  have h := sub_half_le_roundHalfEven (x * 10 ^ k + 1)
  rw [roundDigits, hscale, le_div_iff₀ hpow]
  linarith

end Treeweft.Rounding
