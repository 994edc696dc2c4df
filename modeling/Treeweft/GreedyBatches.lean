import Mathlib.Data.List.Basic
import Mathlib.Data.List.Chain

/-!
Items put into batches one by one: a batch that is full for the next item is closed, and the item
begins another.
-/

namespace Treeweft.GreedyBatches

variable {α : Type*}

section Pack
variable (full : List α → α → Bool)

/-- The closed batches and the open one. -/
def pack (p : List (List α) × List α) (a : α) : List (List α) × List α :=
  if p.2 ≠ [] ∧ full p.2 a then (p.1 ++ [p.2], [a]) else (p.1, p.2 ++ [a])

def close (p : List (List α) × List α) : List (List α) := if p.2 = [] then p.1 else p.1 ++ [p.2]

def batches (xs : List α) : List (List α) := close (xs.foldl (pack full) ([], []))

/-- No item came into the batch while it was full for it. -/
def Fits (batch : List α) : Prop :=
  ∀ before a after, batch = before ++ a :: after → before ≠ [] → full before a = false

/-- A batch was closed since it was full for the first item of the next. -/
def Closes (b b' : List α) : Prop := ∃ a rest, b' = a :: rest ∧ full b a = true

/-- What the batches of some items are: the items in their order, no batch empty, none overfull,
and none closed early. -/
structure Packed (xs : List α) (bs : List (List α)) : Prop where
  flatten : bs.flatten = xs
  ne_nil : ∀ b ∈ bs, b ≠ []
  fits : ∀ b ∈ bs, Fits full b
  closes : bs.IsChain (Closes full)

end Pack

variable {full : List α → α → Bool}

lemma fits_singleton (a : α) : Fits full [a] := by
  intro before b after h hne
  cases before with
  | nil => exact absurd rfl hne
  | cons c before => simp at h

lemma fits_concat {b : List α} {a : α} (h : Fits full b) (ha : full b a = false) :
    Fits full (b ++ [a]) := by
  intro before c after heq hne
  rcases List.eq_nil_or_concat after with rfl | ⟨after, last, rfl⟩
  · obtain ⟨rfl, hac⟩ := List.append_inj' heq rfl
    obtain rfl := List.head_eq_of_cons_eq hac
    exact ha
  · rw [List.concat_eq_append, ← List.cons_append, ← List.append_assoc] at heq
    exact h before c after (List.append_inj' heq rfl).1 hne

/-- One item more: a new batch behind a full one, or a place in the open one. -/
lemma Packed.add {xs : List α} {p : List (List α) × List α} (h : Packed full xs (close p))
    (hopen : p.2 = [] → p.1 = []) (a : α) :
    Packed full (xs ++ [a]) (close (pack full p a)) ∧ (pack full p a).2 ≠ [] := by
  obtain ⟨bs, cur⟩ := p
  unfold pack
  split_ifs with hfull
  · obtain ⟨hcur, hfull⟩ := hfull
    have hclose : close (bs, cur) = bs ++ [cur] := if_neg hcur
    have hclose' : close (bs ++ [cur], [a]) = bs ++ [cur] ++ [[a]] := rfl
    rw [hclose] at h
    rw [hclose']
    refine ⟨⟨by rw [List.flatten_append, h.flatten]; rfl, ?_, ?_, ?_⟩, List.cons_ne_nil _ _⟩
    · exact List.forall_mem_append.mpr ⟨h.ne_nil, by simp⟩
    · exact List.forall_mem_append.mpr ⟨h.fits, by simpa using fits_singleton a⟩
    · refine List.isChain_append.mpr ⟨h.closes, List.isChain_singleton _, ?_⟩
      intro b hb b' hb'
      rw [List.getLast?_concat] at hb
      obtain rfl := Option.some.inj hb
      obtain rfl := Option.some.inj hb'
      exact ⟨a, [], rfl, hfull⟩
  · have hclose : close (bs, cur ++ [a]) = bs ++ [cur ++ [a]] := if_neg (by simp)
    rw [hclose]
    refine ⟨?_, by simp⟩
    by_cases hcur : cur = []
    · obtain rfl : bs = [] := hopen hcur
      subst hcur
      obtain rfl : xs = [] := h.flatten.symm
      exact ⟨rfl, by simp, by simpa using fits_singleton a, List.isChain_singleton _⟩
    · have hclose' : close (bs, cur) = bs ++ [cur] := if_neg hcur
      rw [hclose'] at h
      have hnot : full cur a = false := by
        by_contra hne
        exact hfull ⟨hcur, Bool.not_eq_false _ ▸ hne⟩
      obtain ⟨hbs, -, hlast⟩ := List.isChain_append.mp h.closes
      refine ⟨?_, ?_, ?_, ?_⟩
      · rw [← h.flatten]
        simp
      · exact List.forall_mem_append.mpr ⟨fun b hb => h.ne_nil b (List.mem_append_left _ hb),
          by simp⟩
      · refine List.forall_mem_append.mpr ⟨fun b hb => h.fits b (List.mem_append_left _ hb),
          List.forall_mem_singleton.mpr ?_⟩
        exact fits_concat (h.fits cur (by simp)) hnot
      · refine List.isChain_append.mpr ⟨hbs, List.isChain_singleton _, ?_⟩
        intro b hb b' hb'
        obtain rfl := Option.some.inj hb'
        obtain ⟨c, rest, rfl, hc⟩ := hlast b hb cur rfl
        exact ⟨c, rest ++ [a], rfl, hc⟩

/-- **The batches of some items.** -/
theorem batches_packed (xs : List α) : Packed full xs (batches full xs) := by
  suffices h : Packed full xs (close (xs.foldl (pack full) ([], []))) ∧
      ((xs.foldl (pack full) ([], [])).2 = [] → (xs.foldl (pack full) ([], [])).1 = []) from h.1
  induction xs using List.reverseRecOn with
  | nil => exact ⟨⟨rfl, by simp [close], by simp [close], List.IsChain.nil⟩, fun _ => rfl⟩
  | append_singleton xs a ih =>
    rw [List.foldl_concat]
    obtain ⟨hpacked, hne⟩ := ih.1.add ih.2 a
    exact ⟨hpacked, fun h => absurd h hne⟩

end Treeweft.GreedyBatches
