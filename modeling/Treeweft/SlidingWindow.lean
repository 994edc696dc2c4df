import Mathlib.Data.List.Count
import Mathlib.Data.List.Induction
import Mathlib.Data.Nat.Notation
import Mathlib.Order.Lattice

/-!
Events that are let in one after the other, each only while few enough of those before it are
recent.

An event looks back a window from its time. So the last one that is let in has counted all the
others of any window it is in.
-/

namespace Treeweft.SlidingWindow

variable {α : Type} (time : α → ℕ) (window limit : ℕ) (p : α → Bool)

/-- The events that one at `c` counts. -/
def recent (c : ℕ) (l : List α) : ℕ := l.countP fun e => p e && decide (c ≤ time e + window)

/-- Each event of the kind was let in with fewer than `limit` recent ones before it. -/
def Limited (l : List α) : Prop :=
  ∀ pre e post, l = pre ++ e :: post → p e = true → recent time window p (time e) pre < limit

variable {time window limit p}

lemma limited_nil : Limited time window limit p [] := by
  intro pre e post h
  simp at h

lemma Limited.append {l : List α} {e : α} (h : Limited time window limit p l)
    (he : p e = true → recent time window p (time e) l < limit) :
    Limited time window limit p (l ++ [e]) := by
  intro pre e' post heq hp
  rcases List.eq_nil_or_concat post with rfl | ⟨post, x, rfl⟩
  · obtain ⟨rfl, heq⟩ := List.append_inj' heq rfl
    obtain rfl : e = e' := by simpa using heq
    exact he hp
  · have heq : l ++ [e] = (pre ++ e' :: post) ++ [x] := by simpa using heq
    obtain ⟨rfl, -⟩ := List.append_inj' heq rfl
    exact h pre e' post rfl hp

lemma Limited.of_append {l l' : List α} (h : Limited time window limit p (l ++ l')) :
    Limited time window limit p l := by
  rintro pre e post rfl hp
  exact h pre e (post ++ l') (by simp) hp

/-- At most `limit` events of the kind are in a window, wherever it begins. -/
theorem Limited.countP_le {l : List α} (h : Limited time window limit p l) (x : ℕ) :
    l.countP (fun e => p e && decide (x ≤ time e ∧ time e ≤ x + window)) ≤ limit := by
  induction l using List.reverseRecOn with
  | nil => simp
  | append_singleton l e ih =>
    have ih := ih h.of_append
    rw [List.countP_append, List.countP_singleton]
    split
    · rename_i hin
      rw [Bool.and_eq_true_iff, decide_eq_true_iff] at hin
      obtain ⟨hp, -, hlast⟩ := hin
      have hlt := h l e [] rfl hp
      -- the last one has counted the others of the window
      have hsub : l.countP (fun e => p e && decide (x ≤ time e ∧ time e ≤ x + window)) ≤
          recent time window p (time e) l := by
        refine List.countP_mono_left fun e' _ he' => ?_
        rw [Bool.and_eq_true_iff, decide_eq_true_iff] at he' ⊢
        exact ⟨he'.1, by omega⟩
      omega
    · simpa using ih

/-- One that looks back from earlier counts no less. -/
lemma recent_anti {l : List α} {c d : ℕ} (h : c ≤ d) :
    recent time window p d l ≤ recent time window p c l := by
  refine List.countP_mono_left fun e _ he => ?_
  rw [Bool.and_eq_true_iff, decide_eq_true_iff] at he ⊢
  exact ⟨he.1, by omega⟩

/-- Nobody is counted once everything is older than the window. -/
lemma recent_eq_zero {l : List α} {c : ℕ} (h : ∀ e ∈ l, time e + window < c) :
    recent time window p c l = 0 := by
  rw [recent, List.countP_eq_zero]
  intro e he
  have := h e he
  simp
  omega

end Treeweft.SlidingWindow
