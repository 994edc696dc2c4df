import Mathlib.Data.List.Basic
import Mathlib.Data.Option.Basic
import Mathlib.Logic.Function.Basic

/-!
Codes in which no word begins another, and texts joined by a separator that is such a word as well.
-/

namespace Treeweft

/-- Every symbol has a word, and no word begins the word of another symbol. -/
structure PrefixFree {α β : Type*} (w : α → List β) : Prop where
  ne_nil : ∀ a, w a ≠ []
  eq_of_prefix : ∀ a b, w a <+: w b → a = b

namespace PrefixFree
variable {α β : Type*} {w : α → List β}

/-- Two words that begin one text are one word. -/
lemma eq_of_append (h : PrefixFree w) {a b : α} {x y : List β} (he : w a ++ x = w b ++ y) :
    a = b := by
  obtain hab | hba := List.prefix_or_prefix_of_prefix (List.prefix_append (w a) x)
    (he ▸ List.prefix_append (w b) y)
  exacts [h.eq_of_prefix a b hab, (h.eq_of_prefix b a hba).symm]

/-- A text is decoded in one way. -/
theorem flatMap_injective (h : PrefixFree w) : Function.Injective (List.flatMap w) := by
  intro as bs he
  induction as generalizing bs with
  | nil =>
    cases bs with
    | nil => rfl
    | cons b bs =>
      rw [List.flatMap_nil, List.flatMap_cons] at he
      exact absurd (List.append_eq_nil_iff.mp he.symm).1 (h.ne_nil b)
  | cons a as ih =>
    cases bs with
    | nil =>
      rw [List.flatMap_nil, List.flatMap_cons] at he
      exact absurd (List.append_eq_nil_iff.mp he).1 (h.ne_nil a)
    | cons b bs =>
      rw [List.flatMap_cons, List.flatMap_cons] at he
      obtain rfl := h.eq_of_append he
      rw [ih (List.append_cancel_left he)]

/-- The code with one more symbol for the separator. -/
def withSep (sep : List β) (w : α → List β) : Option α → List β
  | none => sep
  | some a => w a

lemma intercalate_eq_flatMap (sep : List β) (w : α → List β) (ps : List (List α)) :
    sep.intercalate (ps.map (List.flatMap w)) =
      List.flatMap (withSep sep w) ([none].intercalate (ps.map (List.map some))) := by
  induction ps with
  | nil => rfl
  | cons p ps ih =>
    have hp : List.flatMap (withSep sep w) (p.map some) = p.flatMap w := List.flatMap_map ..
    cases ps with
    | nil =>
      simp only [List.map_cons, List.map_nil, List.intercalate_singleton]
      exact hp.symm
    | cons q qs =>
      simp only [List.map_cons, List.intercalate_cons_cons, List.flatMap_append] at ih ⊢
      rw [ih, hp, List.flatMap_singleton]
      rfl

/-- Joined texts are split in one way. -/
theorem intercalate_injective {sep : List β} (h : PrefixFree (withSep sep w)) {ps qs : List (List α)}
    (hp : ps ≠ []) (hq : qs ≠ [])
    (he : sep.intercalate (ps.map (List.flatMap w)) = sep.intercalate (qs.map (List.flatMap w))) :
    ps = qs := by
  classical
  rw [intercalate_eq_flatMap, intercalate_eq_flatMap] at he
  have hsym := congrArg (List.splitOn none) (h.flatMap_injective he)
  have hnone : ∀ rs : List (List α), ∀ l ∈ rs.map (List.map some), none ∉ l := by
    intro rs l hl
    obtain ⟨r, -, rfl⟩ := List.mem_map.mp hl
    simp
  rw [List.splitOn_intercalate _ (hnone ps) (by simpa using hp),
    List.splitOn_intercalate _ (hnone qs) (by simpa using hq)] at hsym
  exact List.map_injective_iff.mpr (List.map_injective_iff.mpr (Option.some_injective α)) hsym

end PrefixFree

end Treeweft
