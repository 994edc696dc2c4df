import Mathlib.Algebra.BigOperators.Group.List.Basic
import Mathlib.Algebra.Order.BigOperators.Group.List
import Mathlib.Algebra.GroupWithZero.Nat

/-!
The token budget: named slots, reserved one after the other.

A text that fits is charged what it counts. One that does not is cut to what is left, and then takes
all of it, or is not recorded where there is not even room for the marker of a cut.
-/

namespace Treeweft

/-- A text is its characters. -/
abbrev Text := List Char

structure TokenBudgetConfig where
  totalTokens : ℤ := 8192
  charToTokenRatio : ℕ := 4
  truncationMarker : Text := "\n[...truncated...]".toList
  ratio_pos : 0 < charToTokenRatio := by decide

/-- The estimate where there is no encoder. -/
def TokenBudgetConfig.estimate (c : TokenBudgetConfig) (text : Text) : ℕ :=
  max 1 (text.length / c.charToTokenRatio)

structure Slot where
  name : String
  content : Text
  tokensReserved : ℕ
  truncated : Bool
deriving DecidableEq

structure TokenBudget where
  config : TokenBudgetConfig
  slots : List Slot

namespace TokenBudget

def used (b : TokenBudget) : ℕ := (b.slots.map Slot.tokensReserved).sum

def remaining (b : TokenBudget) : ℕ := (b.config.totalTokens - b.used).toNat

def append (b : TokenBudget) (s : Slot) : TokenBudget := { b with slots := b.slots ++ [s] }

@[simp] lemma config_append (b : TokenBudget) (s : Slot) : (b.append s).config = b.config := rfl

@[simp] lemma slots_append (b : TokenBudget) (s : Slot) :
    (b.append s).slots = b.slots ++ [s] := rfl

@[simp] lemma used_append (b : TokenBudget) (s : Slot) :
    (b.append s).used = b.used + s.tokensReserved := by
  simp [used]

lemma remaining_append (b : TokenBudget) (s : Slot) :
    (b.append s).remaining = b.remaining - s.tokensReserved := by
  rw [remaining, remaining, used_append, config_append]
  omega

section Reserve
variable (count : Text → ℕ)

/-- Not even room for the marker, or nothing next to it. -/
def NoRoom (c : TokenBudgetConfig) (available : ℕ) : Prop :=
  available ≤ c.truncationMarker.length ∨ available ≤ count c.truncationMarker

instance (c : TokenBudgetConfig) (available : ℕ) : Decidable (NoRoom count c available) :=
  inferInstanceAs (Decidable (_ ∨ _))

/-- `text[:max_chars] + marker` -/
def cut (c : TokenBudgetConfig) (contentBudget : ℕ) (text : Text) : Text :=
  text.take (contentBudget * c.charToTokenRatio) ++ c.truncationMarker

/-- Whether the full text fits, and the budget after it. -/
def reserve (b : TokenBudget) (name : String) (text : Text) : Bool × TokenBudget :=
  let rawTokens := count text
  let available := b.remaining
  if rawTokens ≤ available then (true, b.append ⟨name, text, rawTokens, false⟩)
  else if available ≤ b.config.truncationMarker.length then (false, b)
  else
    let markerTokens := count b.config.truncationMarker
    let contentBudget : ℤ := available - markerTokens
    if contentBudget ≤ 0 then (false, b)
    else (false, b.append ⟨name, cut b.config contentBudget.toNat text, available, true⟩)

variable {count} {b : TokenBudget} {name : String} {text : Text}

lemma reserve_of_fits (h : count text ≤ b.remaining) :
    b.reserve count name text = (true, b.append ⟨name, text, count text, false⟩) := if_pos h

lemma reserve_of_noRoom (h : b.remaining < count text)
    (hr : NoRoom count b.config b.remaining) : b.reserve count name text = (false, b) := by
  rw [reserve]
  dsimp only
  rw [if_neg (by omega)]
  rcases hr with hr | hr
  · rw [if_pos hr]
  · have h0 : (b.remaining : ℤ) - count b.config.truncationMarker ≤ 0 := by omega
    rw [if_pos h0, ite_self]

lemma reserve_of_cut (h : b.remaining < count text)
    (hr : ¬ NoRoom count b.config b.remaining) :
    b.reserve count name text =
      (false, b.append ⟨name, cut b.config (b.remaining - count b.config.truncationMarker) text,
        b.remaining, true⟩) := by
  obtain ⟨h1, h2⟩ := not_or.mp hr
  have hsub : ((b.remaining : ℤ) - count b.config.truncationMarker).toNat
      = b.remaining - count b.config.truncationMarker := by omega
  rw [reserve]
  dsimp only
  rw [if_neg (by omega), if_neg h1, if_neg (by omega), hsub]

/-- What a reservation can do. -/
lemma reserve_cases (count : Text → ℕ) (b : TokenBudget) (name : String) (text : Text) :
    (count text ≤ b.remaining ∧
        b.reserve count name text = (true, b.append ⟨name, text, count text, false⟩)) ∨
      (b.remaining < count text ∧ NoRoom count b.config b.remaining ∧
        b.reserve count name text = (false, b)) ∨
      (b.remaining < count text ∧ ¬ NoRoom count b.config b.remaining ∧
        b.reserve count name text =
          (false, b.append ⟨name,
            cut b.config (b.remaining - count b.config.truncationMarker) text,
            b.remaining, true⟩)) := by
  by_cases h : count text ≤ b.remaining
  · exact .inl ⟨h, reserve_of_fits h⟩
  have h' : b.remaining < count text := by omega
  by_cases hr : NoRoom count b.config b.remaining
  · exact .inr (.inl ⟨h', hr, reserve_of_noRoom h' hr⟩)
  · exact .inr (.inr ⟨h', hr, reserve_of_cut h' hr⟩)

@[simp] lemma config_reserve (b : TokenBudget) (name : String) (text : Text) :
    (b.reserve count name text).2.config = b.config := by
  obtain ⟨_, h⟩ | ⟨_, _, h⟩ | ⟨_, _, h⟩ := reserve_cases count b name text <;> rw [h] <;> rfl

end Reserve

end TokenBudget

end Treeweft
