import Mathlib.Data.Nat.Basic

/-!
`CircuitBreaker`: closed, open after failures, half-open once the recovery time has passed.

Times are in milliseconds. In half-open the breaker counts the calls it admits; it does not say to
whom a probe belongs.
-/

namespace Treeweft.CircuitBreaker

inductive CircuitState
  | closed
  | opened
  | halfOpen
  deriving DecidableEq, Repr

structure CircuitConfig where
  failure_threshold : ℕ := 5
  recovery : ℕ := 30000
  half_open_max_attempts : ℕ := 1

/-- `period` counts the half-open periods; the code keeps no such number and nothing it does
depends on it. -/
structure Breaker where
  state : CircuitState
  failure_count : ℕ
  last_failure_time : ℕ
  half_open_attempts : ℕ
  period : ℕ
  deriving DecidableEq, Repr

def Breaker.new : Breaker := ⟨.closed, 0, 0, 0, 0⟩

variable (cfg : CircuitConfig) (now : ℕ) (b : Breaker)

/-- `_current_state`. -/
def currentState : Breaker :=
  if b.state = .opened ∧ cfg.recovery ≤ now - b.last_failure_time then
    { b with state := .halfOpen, half_open_attempts := 0, period := b.period + 1 }
  else b

/-- `is_open`: whether the call is rejected. -/
def isOpen : Bool × Breaker :=
  let b := currentState cfg now b
  match b.state with
  | .opened => (true, b)
  | .halfOpen =>
    if b.half_open_attempts ≥ cfg.half_open_max_attempts then (true, b)
    else (false, { b with half_open_attempts := b.half_open_attempts + 1 })
  | .closed => (false, b)

/-- `record_success`. -/
def recordSuccess : Breaker :=
  { b with failure_count := 0, half_open_attempts := 0, state := .closed }

/-- `record_failure`. -/
def recordFailure : Breaker :=
  let b := currentState cfg now
    { b with failure_count := b.failure_count + 1, last_failure_time := now }
  if b.state = .halfOpen then { b with state := .opened, half_open_attempts := 0 }
  else if b.failure_count ≥ cfg.failure_threshold then { b with state := .opened }
  else b

/-- `abandon_probe`. -/
def abandonProbe : Breaker :=
  let b := currentState cfg now b
  if b.state = .halfOpen ∧ b.half_open_attempts > 0 then
    { b with half_open_attempts := b.half_open_attempts - 1 }
  else b

/-! ### What each of them can do -/

variable {cfg now b}

/-- The state stays, or a half-open period begins with no probe admitted. -/
lemma currentState_cases (cfg : CircuitConfig) (now : ℕ) (b : Breaker) :
    currentState cfg now b = b ∨
    ((currentState cfg now b).state = .halfOpen ∧ (currentState cfg now b).half_open_attempts = 0 ∧
      (currentState cfg now b).period = b.period + 1) := by
  unfold currentState
  split
  · exact .inr ⟨rfl, rfl, rfl⟩
  · exact .inl rfl

lemma currentState_halfOpen (h : b.state = .halfOpen) : currentState cfg now b = b := by
  unfold currentState
  rw [if_neg]
  rintro ⟨h', -⟩
  rw [h] at h'
  cases h'

/-- Admitted while closed, or as a probe, of which there were fewer than the limit. -/
lemma isOpen_admitted (h : (isOpen cfg now b).1 = false) :
    ((isOpen cfg now b).2 = currentState cfg now b ∧ (currentState cfg now b).state = .closed) ∨
    ((currentState cfg now b).state = .halfOpen ∧
      (currentState cfg now b).half_open_attempts < cfg.half_open_max_attempts ∧
      (isOpen cfg now b).2 = { currentState cfg now b with
        half_open_attempts := (currentState cfg now b).half_open_attempts + 1 }) := by
  unfold isOpen at h ⊢
  cases hs : (currentState cfg now b).state with
  | opened => simp [hs] at h
  | closed => simp [hs]
  | halfOpen =>
    simp only [hs] at h ⊢
    split at h
    · cases h
    · rename_i hlt
      rw [if_neg hlt]
      exact .inr ⟨trivial, Nat.lt_of_not_ge hlt, rfl⟩

lemma isOpen_rejected (h : (isOpen cfg now b).1 = true) :
    (isOpen cfg now b).2 = currentState cfg now b := by
  unfold isOpen at h ⊢
  cases hs : (currentState cfg now b).state with
  | opened => simp [hs]
  | closed => simp [hs] at h
  | halfOpen =>
    simp only [hs] at h ⊢
    split
    · rfl
    · rename_i hlt
      simp [hlt] at h

/-- A half-open breaker that has admitted fewer probes than it may lets the next call through. -/
lemma isOpen_halfOpen (hs : (currentState cfg now b).state = .halfOpen)
    (hlt : (currentState cfg now b).half_open_attempts < cfg.half_open_max_attempts) :
    (isOpen cfg now b).1 = false := by
  simp only [isOpen, hs, if_neg (Nat.not_le_of_lt hlt)]

/-- A probe of the present half-open period is taken back, or there is none. -/
lemma abandonProbe_cases (cfg : CircuitConfig) (now : ℕ) (b : Breaker) :
    ((currentState cfg now b).state = .halfOpen ∧ (currentState cfg now b).half_open_attempts > 0 ∧
      abandonProbe cfg now b = { currentState cfg now b with
        half_open_attempts := (currentState cfg now b).half_open_attempts - 1 }) ∨
    (abandonProbe cfg now b = currentState cfg now b ∧
      ((currentState cfg now b).state = .halfOpen →
        (currentState cfg now b).half_open_attempts = 0)) := by
  unfold abandonProbe
  by_cases h : (currentState cfg now b).state = .halfOpen ∧
      (currentState cfg now b).half_open_attempts > 0
  · simp only [if_pos h]
    exact .inl ⟨h.1, h.2, trivial⟩
  · simp only [if_neg h]
    exact .inr ⟨trivial, fun hs => Nat.eq_zero_of_not_pos fun hp => h ⟨hs, hp⟩⟩

/-- A failure never leaves the breaker half-open. -/
lemma recordFailure_state : (recordFailure cfg now b).state ≠ .halfOpen := by
  unfold recordFailure
  simp only
  split
  · simp
  · rename_i h
    split
    · simp
    · exact h

lemma period_le_currentState : b.period ≤ (currentState cfg now b).period := by
  rcases currentState_cases cfg now b with h | ⟨-, -, h⟩
  · exact Nat.le_of_eq (congrArg Breaker.period h).symm
  · omega

lemma period_isOpen : (isOpen cfg now b).2.period = (currentState cfg now b).period := by
  cases h : (isOpen cfg now b).1 with
  | true => rw [isOpen_rejected h]
  | false =>
    rcases isOpen_admitted h with ⟨h, -⟩ | ⟨-, -, h⟩
    · rw [h]
    · rw [h]

lemma period_le_recordFailure : b.period ≤ (recordFailure cfg now b).period := by
  unfold recordFailure
  refine Nat.le_trans (@period_le_currentState cfg now
    { b with failure_count := b.failure_count + 1, last_failure_time := now }) ?_
  simp only
  split
  · exact Nat.le_refl _
  · split
    · exact Nat.le_refl _
    · exact Nat.le_refl _

end Treeweft.CircuitBreaker
