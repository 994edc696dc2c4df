import Mathlib.Data.List.Basic
import Mathlib.Tactic.SplitIfs

/-!
Leftmost matches of a pattern in a list: the first one, the spans of those that do not overlap, and
the list without them. A pattern is a function that tells what it matches at the front of a list.
-/

namespace Treeweft.PatternSearch

variable {α β : Type*}

/-! ### The First Match -/

/-- The first place where the pattern matches, and what it gives there. -/
def search (m : List α → Option β) : List α → Option (ℕ × β)
  | [] => (m []).map (0, ·)
  | c :: t =>
    match m (c :: t) with
    | some b => some (0, b)
    | none => (search m t).map fun x => (x.1 + 1, x.2)

lemma search_of_match {m : List α → Option β} {t : List α} {b : β} (h : m t = some b) :
    search m t = some (0, b) := by
  cases t with
  | nil => rw [search, h, Option.map_some]
  | cons c t => rw [search, h]

lemma search_of_not_match {m : List α → Option β} {c : α} {t : List α} (h : m (c :: t) = none) :
    search m (c :: t) = (search m t).map fun x => (x.1 + 1, x.2) := by
  rw [search, h]

lemma not_match_of_search {m : List α → Option β} {t s : List α} (h : search m t = none)
    (hs : s <:+ t) : m s = none := by
  induction t with
  | nil =>
    rw [List.suffix_nil.mp hs]
    exact Option.map_eq_none_iff.mp h
  | cons c t ih =>
    cases hm : m (c :: t) with
    | some b =>
      rw [search_of_match hm] at h
      cases h
    | none =>
      rw [search_of_not_match hm, Option.map_eq_none_iff] at h
      rcases List.suffix_cons_iff.mp hs with rfl | hs
      · exact hm
      · exact ih h hs

lemma match_of_search {m : List α → Option β} {t : List α} {x : ℕ × β} (h : search m t = some x) :
    ∃ s, s <:+ t ∧ m s = some x.2 := by
  induction t generalizing x with
  | nil =>
    obtain ⟨b, hb, rfl⟩ := Option.map_eq_some_iff.mp h
    exact ⟨[], List.suffix_refl _, hb⟩
  | cons c t ih =>
    cases hm : m (c :: t) with
    | some b =>
      rw [search_of_match hm] at h
      obtain rfl := Option.some.inj h
      exact ⟨c :: t, List.suffix_refl _, hm⟩
    | none =>
      rw [search_of_not_match hm] at h
      obtain ⟨y, hy, rfl⟩ := Option.map_eq_some_iff.mp h
      obtain ⟨s, hs, hb⟩ := ih hy
      exact ⟨s, hs.trans (List.suffix_cons c t), hb⟩

/-- Where no match begins in the first part, the first match is that of the second. -/
lemma search_append {m : List α → Option β} {a b : List α}
    (h : ∀ s, s ≠ [] → s <:+ a → m (s ++ b) = none) :
    search m (a ++ b) = (search m b).map fun x => (a.length + x.1, x.2) := by
  induction a with
  | nil => simp
  | cons c a ih =>
    have hrest := ih fun s hs hsuffix => h s hs (hsuffix.trans (List.suffix_cons c a))
    have hhead : m (c :: (a ++ b)) = none := h (c :: a) (List.cons_ne_nil _ _) (List.suffix_refl _)
    rw [List.cons_append, search_of_not_match hhead, hrest, Option.map_map]
    refine congrArg (Option.map · (search m b)) (funext fun x => ?_)
    simp only [Function.comp_apply, List.length_cons]
    rw [Nat.add_right_comm]

/-! ### All Matches -/

section Spans
variable (m : List α → Option ℕ)

/-- The spans of the matches from left to right, each behind the one before it. The list begins at
`i`, and its first `skip` elements are behind a match. -/
def spansFrom (i skip : ℕ) : List α → List (ℕ × ℕ)
  | [] => []
  | c :: t =>
    match skip with
    | k + 1 => spansFrom (i + 1) k t
    | 0 =>
      match m (c :: t) with
      | some (n + 1) => (i, i + n + 1) :: spansFrom (i + 1) n t
      | _ => spansFrom (i + 1) 0 t

/-- The list without the matches. -/
def removeFrom (skip : ℕ) : List α → List α
  | [] => []
  | c :: t =>
    match skip with
    | k + 1 => removeFrom k t
    | 0 =>
      match m (c :: t) with
      | some (n + 1) => removeFrom n t
      | _ => c :: removeFrom 0 t

def spans (t : List α) : List (ℕ × ℕ) := spansFrom m 0 0 t

def remove (t : List α) : List α := removeFrom m 0 t

/-- A match that ends in a part of the list is a match of that part, and a match of a part begins
one of the whole. -/
structure Prefixed : Prop where
  shorter : ∀ s q n, m (s ++ q) = some n → n ≤ s.length → m s = some n
  longer : ∀ s q, m (s ++ q) = none → m s = none

/-- No match has elements on both sides of `j`. -/
def Apart (l : List (ℕ × ℕ)) (j : ℕ) : Prop := ∀ p ∈ l, p.2 ≤ j ∨ j ≤ p.1

variable {m}

lemma bounds_of_mem_spansFrom {t : List α} {i skip : ℕ} {p : ℕ × ℕ}
    (h : p ∈ spansFrom m i skip t) : i ≤ p.1 ∧ p.1 < p.2 := by
  have hlater : ∀ {j : ℕ}, j + 1 ≤ p.1 ∧ p.1 < p.2 → j ≤ p.1 ∧ p.1 < p.2 := fun hp =>
    hp.imp_left Nat.le_of_succ_le
  induction t generalizing i skip with
  | nil => cases h
  | cons c t ih =>
    cases skip with
    | succ k => exact hlater (ih h)
    | zero =>
      rw [spansFrom] at h
      split at h
      · rcases List.mem_cons.mp h with rfl | h
        · exact ⟨Nat.le_refl _, by omega⟩
        · exact hlater (ih h)
      · exact hlater (ih h)

lemma removeFrom_append (hm : Prefixed m) {a b : List α} {i skip : ℕ} (hskip : skip ≤ a.length)
    (h : Apart (spansFrom m i skip (a ++ b)) (i + a.length)) :
    removeFrom m skip (a ++ b) = removeFrom m skip a ++ remove m b ∧
      spansFrom m i skip (a ++ b) = spansFrom m i skip a ++ spansFrom m (i + a.length) 0 b := by
  induction a generalizing i skip with
  | nil =>
    obtain rfl := Nat.le_zero.mp hskip
    exact ⟨rfl, rfl⟩
  | cons c a ih =>
    have hlen : i + (c :: a).length = i + 1 + a.length := by
      rw [List.length_cons]
      omega
    rw [List.cons_append] at h ⊢
    rw [hlen] at h ⊢
    cases skip with
    | succ k =>
      simp only [spansFrom, removeFrom] at h ⊢
      exact ih (Nat.le_of_succ_le_succ hskip) h
    | zero =>
      cases hmatch : m (c :: (a ++ b)) with
      | none =>
        have hshort : m (c :: a) = none := hm.longer (c :: a) b hmatch
        simp only [spansFrom, removeFrom, hmatch, hshort] at h ⊢
        obtain ⟨hremove, hspans⟩ := ih (Nat.zero_le _) h
        exact ⟨congrArg (c :: ·) hremove, hspans⟩
      | some n =>
        cases n with
        | zero =>
          have hshort : m (c :: a) = some 0 := hm.shorter (c :: a) b 0 hmatch (Nat.zero_le _)
          simp only [spansFrom, removeFrom, hmatch, hshort] at h ⊢
          obtain ⟨hremove, hspans⟩ := ih (Nat.zero_le _) h
          exact ⟨congrArg (c :: ·) hremove, hspans⟩
        | succ n =>
          simp only [spansFrom, hmatch] at h
          have hn : n ≤ a.length := by
            rcases h _ List.mem_cons_self with hle | hle
            · omega
            · omega
          have hshort : m (c :: a) = some (n + 1) :=
            hm.shorter (c :: a) b (n + 1) hmatch (Nat.succ_le_succ hn)
          simp only [spansFrom, removeFrom, hmatch, hshort]
          obtain ⟨hremove, hspans⟩ := ih hn fun p hp => h p (List.mem_cons_of_mem _ hp)
          exact ⟨hremove, congrArg ((i, i + n + 1) :: ·) hspans⟩

/-- What no match touches stays. -/
lemma remove_of_spans_behind {a b : List α} {i : ℕ}
    (h : ∀ p ∈ spansFrom m i 0 (a ++ b), i + a.length ≤ p.1) :
    remove m (a ++ b) = a ++ remove m b := by
  unfold remove
  induction a generalizing i with
  | nil => rfl
  | cons c a ih =>
    have hlen : i + (c :: a).length = i + 1 + a.length := by
      rw [List.length_cons]
      omega
    rw [List.cons_append] at h ⊢
    rw [hlen] at h
    cases hmatch : m (c :: (a ++ b)) with
    | none =>
      simp only [spansFrom, removeFrom, hmatch] at h ⊢
      exact congrArg (c :: ·) (ih h)
    | some n =>
      cases n with
      | zero =>
        simp only [spansFrom, removeFrom, hmatch] at h ⊢
        exact congrArg (c :: ·) (ih h)
      | succ n =>
        simp only [spansFrom, hmatch] at h
        have hbehind : i + 1 + a.length ≤ i := h _ List.mem_cons_self
        omega

/-- No match touches the part between the first and the last. -/
theorem remove_between (hm : Prefixed m) {a x b : List α}
    (h : ∀ p ∈ spans m (a ++ (x ++ b)), p.2 ≤ a.length ∨ a.length + x.length ≤ p.1) :
    remove m (a ++ (x ++ b)) = remove m a ++ (x ++ remove m b) := by
  have happart : Apart (spansFrom m 0 0 (a ++ (x ++ b))) (0 + a.length) := by
    intro p hp
    rw [Nat.zero_add]
    exact (h p hp).imp_right fun hle => Nat.le_trans (Nat.le_add_right _ _) hle
  obtain ⟨hremove, hspans⟩ := removeFrom_append hm (Nat.zero_le _) happart
  have hbehind : ∀ p ∈ spansFrom m (0 + a.length) 0 (x ++ b), 0 + a.length + x.length ≤ p.1 := by
    intro p hp
    have hmem : p ∈ spans m (a ++ (x ++ b)) := by
      unfold spans
      rw [hspans]
      exact List.mem_append_right _ hp
    have hbounds := bounds_of_mem_spansFrom hp
    have hclear := h p hmem
    omega
  unfold remove
  rw [hremove]
  exact congrArg _ (remove_of_spans_behind hbehind)

end Spans

end Treeweft.PatternSearch
