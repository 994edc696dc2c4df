import Mathlib.Algebra.BigOperators.Group.List.Basic
import Mathlib.Algebra.Order.BigOperators.Group.List
import Mathlib.Algebra.Order.Field.Basic
import Mathlib.Algebra.Order.Ring.Rat
import Mathlib.Data.List.Sort
import Mathlib.Tactic.Linarith
import Mathlib.Tactic.Positivity

/-!
Reciprocal rank fusion: rankings of the same things made into one, a thing weighing `1 / (k + r)`
for a rank of `r`.
-/

namespace Treeweft.RankFusion

variable {α : Type*}

def weights (k : ℕ) (leg : List α) : List (α × ℚ) :=
  (leg.zipIdx 1).map fun e => (e.1, 1 / ((k : ℚ) + e.2))

/-- The best first; what weighs the same stays in its order. -/
def ranked (fused : List (α × ℚ)) : List (α × ℚ) :=
  fused.mergeSort fun x y => decide (y.2 ≤ x.2)

def top (n : ℕ) (fused : List (α × ℚ)) : List (α × ℚ) := (ranked fused).take n

/-- Where the second stands, the first stands before it. -/
def Before (l : List α) (a b : α) : Prop := ∀ j : ℕ, l[j]? = some b → ∃ i < j, l[i]? = some a

lemma keys_weights (k : ℕ) (leg : List α) : (weights k leg).map Prod.fst = leg := by
  simp [weights, List.map_map, Function.comp_def]

lemma mem_flatMap_weights {k : ℕ} {legs : List (List α)} {a : α} :
    a ∈ (legs.flatMap (weights k)).map Prod.fst ↔ ∃ leg ∈ legs, a ∈ leg := by
  rw [List.map_flatMap, List.mem_flatMap]
  simp only [keys_weights]

lemma ranked_perm (fused : List (α × ℚ)) : (ranked fused).Perm fused := List.mergeSort_perm _ _

lemma ranked_sorted (fused : List (α × ℚ)) : (ranked fused).Pairwise fun x y => y.2 ≤ x.2 := by
  have htrans : ∀ a b c : α × ℚ, decide (b.2 ≤ a.2) → decide (c.2 ≤ b.2) → decide (c.2 ≤ a.2) :=
    fun a b c hab hbc => decide_eq_true
      (le_trans (of_decide_eq_true hbc) (of_decide_eq_true hab))
  have htotal : ∀ a b : α × ℚ, decide (b.2 ≤ a.2) || decide (a.2 ≤ b.2) :=
    fun a b => by simp [le_total]
  exact (List.pairwise_mergeSort htrans htotal fused).imp of_decide_eq_true

/-- What is left out weighs no more than what is taken. -/
lemma le_of_mem_top {n : ℕ} {fused : List (α × ℚ)} {x y : α × ℚ} (hx : x ∈ top n fused)
    (hy : y ∈ fused) (hout : y ∉ top n fused) : y.2 ≤ x.2 := by
  have hsorted := ranked_sorted fused
  rw [← List.take_append_drop n (ranked fused)] at hsorted
  have hy' := (ranked_perm fused).mem_iff.mpr hy
  rw [← List.take_append_drop n (ranked fused)] at hy'
  exact (List.pairwise_append.mp hsorted).2.2 x hx y
    ((List.mem_append.mp hy').resolve_left hout)

variable [DecidableEq α]

/-- Weights add up under their keys, which keep the order in which they came. -/
def add : List (α × ℚ) → α → ℚ → List (α × ℚ)
  | [], a, w => [(a, w)]
  | (b, s) :: fused, a, w => if b = a then (b, s + w) :: fused else (b, s) :: add fused a w

def accumulate (entries : List (α × ℚ)) : List (α × ℚ) :=
  entries.foldl (fun fused e => add fused e.1 e.2) []

def fuse (k : ℕ) (legs : List (List α)) : List (α × ℚ) := accumulate (legs.flatMap (weights k))

/-- All that the entries of a key weigh. -/
def total (entries : List (α × ℚ)) (a : α) : ℚ :=
  ((entries.filter (·.1 = a)).map Prod.snd).sum

lemma total_append (es es' : List (α × ℚ)) (a : α) :
    total (es ++ es') a = total es a + total es' a := by simp [total]

lemma total_singleton (e : α × ℚ) (a : α) : total [e] a = if e.1 = a then e.2 else 0 := by
  by_cases h : e.1 = a <;> simp [total, h]

lemma total_of_notMem {es : List (α × ℚ)} {a : α} (h : a ∉ es.map Prod.fst) : total es a = 0 := by
  have hnone : es.filter (·.1 = a) = [] :=
    List.filter_eq_nil_iff.mpr fun e he hea =>
      h (List.mem_map.mpr ⟨e, he, of_decide_eq_true hea⟩)
  rw [total, hnone]
  rfl

/-! ### What is Added Up -/

lemma keys_add (fused : List (α × ℚ)) (a : α) (w : ℚ) : (add fused a w).map Prod.fst =
    if a ∈ fused.map Prod.fst then fused.map Prod.fst else fused.map Prod.fst ++ [a] := by
  induction fused with
  | nil => rfl
  | cons e fused ih =>
    obtain ⟨b, s⟩ := e
    unfold add
    by_cases hb : b = a
    · simp [hb]
    · rw [if_neg hb, List.map_cons, ih, List.map_cons]
      by_cases ha : a ∈ fused.map Prod.fst
      · rw [if_pos ha, if_pos (List.mem_cons_of_mem _ ha)]
      · rw [if_neg ha, if_neg fun h => ha ((List.mem_cons.mp h).resolve_left (Ne.symm hb))]
        rfl

lemma mem_add {fused : List (α × ℚ)} (h : (fused.map Prod.fst).Nodup) {a b : α} {w s : ℚ} :
    (b, s) ∈ add fused a w ↔ (b ≠ a ∧ (b, s) ∈ fused) ∨
      (b = a ∧ ((∃ s', (a, s') ∈ fused ∧ s = s' + w) ∨ (a ∉ fused.map Prod.fst ∧ s = w))) := by
  induction fused with
  | nil => simp [add]
  | cons e fused ih =>
    obtain ⟨c, t⟩ := e
    obtain ⟨hc, hrest⟩ := List.nodup_cons.mp h
    unfold add
    by_cases hca : c = a
    · subst hca
      rw [if_pos rfl, List.mem_cons]
      have hnone : ∀ s', (c, s') ∉ fused := fun s' hs' =>
        hc (List.mem_map.mpr ⟨(c, s'), hs', rfl⟩)
      by_cases hbc : b = c
      · subst hbc
        simp [hnone]
      · simp [hbc]
    · rw [if_neg hca, List.mem_cons, ih hrest]
      by_cases hbc : b = c
      · subst hbc
        simp [hca]
      · by_cases hba : b = a
        · subst hba
          simp [hbc]
        · simp [hbc, hba]

/-- The keys come once, and each with all that it weighs. -/
theorem accumulate_spec (es : List (α × ℚ)) : ((accumulate es).map Prod.fst).Nodup ∧
    ∀ a s, (a, s) ∈ accumulate es ↔ a ∈ es.map Prod.fst ∧ s = total es a := by
  induction es using List.reverseRecOn with
  | nil => simp [accumulate]
  | append_singleton es e ih =>
    obtain ⟨hnodup, hmem⟩ := ih
    have hkeys : ∀ a, a ∈ (accumulate es).map Prod.fst ↔ a ∈ es.map Prod.fst := by
      intro a
      rw [List.mem_map]
      constructor
      · rintro ⟨⟨b, s⟩, hb, rfl⟩
        exact ((hmem b s).mp hb).1
      · exact fun ha => ⟨(a, total es a), (hmem a _).mpr ⟨ha, rfl⟩, rfl⟩
    have hstep : accumulate (es ++ [e]) = add (accumulate es) e.1 e.2 := by simp [accumulate]
    rw [hstep]
    constructor
    · rw [keys_add]
      split_ifs with h
      · exact hnodup
      · exact List.nodup_append.mpr ⟨hnodup, List.nodup_singleton _, fun a ha b hb hab =>
          h (List.mem_singleton.mp hb ▸ hab ▸ ha)⟩
    · intro a s
      rw [mem_add hnodup, total_append, total_singleton, List.map_append, List.mem_append,
        List.map_singleton, List.mem_singleton]
      by_cases hae : a = e.1
      · subst hae
        simp only [ne_eq, not_true_eq_false, false_and, false_or, true_and, or_true, if_true,
          hkeys]
        by_cases hold : e.1 ∈ es.map Prod.fst
        · constructor
          · rintro (⟨s', hs', rfl⟩ | ⟨hnot, -⟩)
            · rw [((hmem _ _).mp hs').2]
            · exact absurd hold hnot
          · exact fun hs => .inl ⟨total es e.1, (hmem _ _).mpr ⟨hold, rfl⟩, hs⟩
        · rw [total_of_notMem hold, zero_add]
          constructor
          · rintro (⟨s', hs', rfl⟩ | ⟨-, hs⟩)
            · exact absurd ((hmem _ _).mp hs').1 hold
            · exact hs
          · exact fun hs => .inr ⟨hold, hs⟩
      · rw [if_neg (Ne.symm hae), add_zero, hmem]
        simp [hae]

/-! ### Weights of a Ranking -/

lemma total_flatMap (k : ℕ) (legs : List (List α)) (a : α) :
    total (legs.flatMap (weights k)) a = (legs.map fun leg => total (weights k leg) a).sum := by
  induction legs with
  | nil => rfl
  | cons leg legs ih => rw [List.flatMap_cons, total_append, ih, List.map_cons, List.sum_cons]

/-- In a ranking where nothing comes twice, what a thing weighs is the weight of its place. -/
lemma total_weights (k : ℕ) {leg : List α} (h : leg.Nodup) {i : ℕ} {a : α}
    (hi : leg[i]? = some a) : total (weights k leg) a = 1 / ((k : ℚ) + (i + 1 : ℕ)) := by
  suffices hgen : ∀ (m : ℕ), total ((leg.zipIdx m).map fun e => (e.1, 1 / ((k : ℚ) + e.2))) a =
      1 / ((k : ℚ) + (i + m : ℕ)) from hgen 1
  induction leg generalizing i with
  | nil => cases hi
  | cons b leg ih =>
    intro m
    obtain ⟨hb, hrest⟩ := List.nodup_cons.mp h
    rw [List.zipIdx_cons, List.map_cons, ← List.singleton_append, total_append, total_singleton]
    cases i with
    | zero =>
      obtain rfl := Option.some.inj hi
      have hnone : b ∉ ((leg.zipIdx (m + 1)).map fun e => (e.1, 1 / ((k : ℚ) + e.2))).map
          Prod.fst := by
        simpa [List.map_map, Function.comp_def] using hb
      rw [if_pos rfl, total_of_notMem hnone, add_zero, Nat.zero_add]
    | succ i =>
      have hne : b ≠ a := by
        rintro rfl
        exact hb (List.mem_of_getElem? hi)
      rw [if_neg hne, zero_add, ih hrest hi (m + 1)]
      congr 3
      omega

lemma total_weights_nonneg (k : ℕ) (leg : List α) (a : α) : 0 ≤ total (weights k leg) a := by
  refine List.sum_nonneg fun w hw => ?_
  obtain ⟨e, he, rfl⟩ := List.mem_map.mp hw
  obtain ⟨d, -, rfl⟩ := List.mem_map.mp (List.mem_filter.mp he).1
  positivity

/-! ### The Fused Ranking -/

section Fuse
variable {k n : ℕ} {legs : List (List α)}

lemma mem_fuse {a : α} {s : ℚ} : (a, s) ∈ fuse k legs ↔
    (∃ leg ∈ legs, a ∈ leg) ∧ s = total (legs.flatMap (weights k)) a := by
  rw [fuse, (accumulate_spec _).2, mem_flatMap_weights]

lemma nodup_ranked : ((ranked (fuse k legs)).map Prod.fst).Nodup :=
  ((ranked_perm _).map _).nodup_iff.mpr (accumulate_spec _).1

/-- What comes first in every ranking that has the other weighs more. -/
lemma total_lt {a b : α} (hnodup : ∀ leg ∈ legs, leg.Nodup)
    (hbefore : ∀ leg ∈ legs, Before leg a b) (hb : ∃ leg ∈ legs, b ∈ leg) :
    total (legs.flatMap (weights k)) b < total (legs.flatMap (weights k)) a := by
  have hlt : ∀ leg ∈ legs, b ∈ leg → total (weights k leg) b < total (weights k leg) a := by
    intro leg hleg hmem
    obtain ⟨j, hj⟩ := List.mem_iff_getElem?.mp hmem
    obtain ⟨i, hij, hi⟩ := hbefore leg hleg j hj
    rw [total_weights k (hnodup leg hleg) hj, total_weights k (hnodup leg hleg) hi]
    refine one_div_lt_one_div_of_lt (by positivity) ?_
    have hcast : ((i + 1 : ℕ) : ℚ) < ((j + 1 : ℕ) : ℚ) := by exact_mod_cast Nat.succ_lt_succ hij
    linarith
  rw [total_flatMap, total_flatMap]
  refine List.sum_lt_sum _ _ (fun leg hleg => ?_) ?_
  · by_cases hmem : b ∈ leg
    · exact (hlt leg hleg hmem).le
    · rw [total_of_notMem (by rwa [keys_weights])]
      exact total_weights_nonneg k leg a
  · obtain ⟨leg, hleg, hmem⟩ := hb
    exact ⟨leg, hleg, hlt leg hleg hmem⟩

/-- **Unanimity**: what comes before another in every ranking comes before it in the fused one. -/
theorem before_top {a b : α} (hnodup : ∀ leg ∈ legs, leg.Nodup)
    (hbefore : ∀ leg ∈ legs, Before leg a b) : Before ((top n (fuse k legs)).map Prod.fst) a b := by
  intro j hj
  obtain ⟨⟨b', s⟩, hs, rfl⟩ := List.mem_map.mp (List.mem_of_getElem? hj)
  have hb := (mem_fuse.mp ((ranked_perm _).mem_iff.mp (List.mem_of_mem_take hs))).1
  have hlt := total_lt (k := k) hnodup hbefore hb
  rw [List.getElem?_map, Option.map_eq_some_iff] at hj
  obtain ⟨⟨b'', t⟩, ht, rfl⟩ := hj
  have hjn : j < n := by
    have hlen := (List.getElem?_eq_some_iff.mp ht).1
    exact lt_of_lt_of_le hlen (List.length_take_le _ _)
  rw [top, List.getElem?_take_of_lt hjn] at ht
  have htotal := (mem_fuse.mp ((ranked_perm _).mem_iff.mp (List.mem_of_getElem? ht))).2
  -- the first is ranked somewhere, and not behind the second
  have ha : ∃ leg ∈ legs, a ∈ leg := by
    obtain ⟨leg, hleg, hmem⟩ := hb
    obtain ⟨l, hl⟩ := List.mem_iff_getElem?.mp hmem
    obtain ⟨m, -, hm⟩ := hbefore leg hleg l hl
    exact ⟨leg, hleg, List.mem_of_getElem? hm⟩
  obtain ⟨i, hi⟩ := List.mem_iff_getElem?.mp ((ranked_perm _).mem_iff.mpr (mem_fuse.mpr ⟨ha, rfl⟩))
  have hij : i < j := by
    by_contra hge
    rcases Nat.lt_or_eq_of_le (Nat.le_of_not_lt hge) with hji | rfl
    · have hle : total (legs.flatMap (weights k)) a ≤ t := by
        obtain ⟨hj', hjt⟩ := List.getElem?_eq_some_iff.mp ht
        obtain ⟨hi', hit⟩ := List.getElem?_eq_some_iff.mp hi
        have hpair := List.pairwise_iff_getElem.mp (ranked_sorted (fuse k legs)) j i hj' hi' hji
        rwa [hjt, hit] at hpair
      rw [htotal] at hle
      exact absurd hlt (not_lt.mpr hle)
    · rw [hi] at ht
      obtain ⟨rfl, -⟩ := Prod.mk.inj (Option.some.inj ht)
      exact lt_irrefl _ hlt
  refine ⟨i, hij, ?_⟩
  rw [List.getElem?_map, top, List.getElem?_take_of_lt (hij.trans hjn), hi]
  rfl

/-- Rankings that are one ranking, or empty, are fused to that one. -/
theorem top_of_agree {leg : List α} (hnodup : leg.Nodup) (hmem : leg ∈ legs)
    (hagree : ∀ l ∈ legs, l = leg ∨ l = []) :
    (top n (fuse k legs)).map Prod.fst = leg.take n := by
  have hbefore : ∀ {i j : ℕ} {a b : α}, leg[i]? = some a → leg[j]? = some b → i < j →
      ∀ l ∈ legs, Before l a b := by
    intro i j a b hi hj hij l hl m hm
    rcases hagree l hl with rfl | rfl
    · obtain rfl : m = j := by
        obtain ⟨hm', hmb⟩ := List.getElem?_eq_some_iff.mp hm
        obtain ⟨hj', hjb⟩ := List.getElem?_eq_some_iff.mp hj
        exact (List.Nodup.getElem_inj_iff hnodup).mp (hmb.trans hjb.symm)
      exact ⟨i, hij, hi⟩
    · cases hm
  have hlegs : ∀ l ∈ legs, l.Nodup := by
    intro l hl
    rcases hagree l hl with rfl | rfl
    · exact hnodup
    · exact List.nodup_nil
  have hperm : ((ranked (fuse k legs)).map Prod.fst).Perm leg := by
    refine (List.perm_ext_iff_of_nodup nodup_ranked hnodup).mpr fun a => ?_
    constructor
    · intro ha
      obtain ⟨⟨b, s⟩, hb, rfl⟩ := List.mem_map.mp ha
      obtain ⟨l, hl, hbl⟩ := (mem_fuse.mp ((ranked_perm _).mem_iff.mp hb)).1
      rcases hagree l hl with rfl | rfl
      · exact hbl
      · exact absurd hbl List.not_mem_nil
    · exact fun ha => List.mem_map.mpr ⟨(a, _), (ranked_perm _).mem_iff.mpr
        (mem_fuse.mpr ⟨⟨leg, hmem, ha⟩, rfl⟩), rfl⟩
  have heq : (ranked (fuse k legs)).map Prod.fst = leg := by
    have hasymm : ∀ a b, leg.idxOf a < leg.idxOf b → leg.idxOf b < leg.idxOf a → a = b :=
      fun a b hab hba => absurd hab (Nat.lt_asymm hba)
    refine List.Perm.eq_of_pairwise (fun a b _ _ => hasymm a b) ?_ ?_ hperm
    · rw [List.pairwise_map]
      refine ((ranked_sorted (fuse k legs)).and (List.pairwise_map.mp
        (List.nodup_iff_pairwise_ne.mp nodup_ranked))).imp_of_mem ?_
      rintro ⟨a, s⟩ ⟨b, t⟩ ha hb ⟨hle, hne⟩
      have hs := (mem_fuse.mp ((ranked_perm _).mem_iff.mp ha)).2
      have ht := (mem_fuse.mp ((ranked_perm _).mem_iff.mp hb)).2
      have ha' : a ∈ leg := hperm.mem_iff.mp (List.mem_map_of_mem ha)
      have hb' : b ∈ leg := hperm.mem_iff.mp (List.mem_map_of_mem hb)
      rcases Nat.lt_trichotomy (leg.idxOf a) (leg.idxOf b) with hlt | heq | hgt
      · exact hlt
      · exact absurd ((List.idxOf_inj ha').mp heq) hne
      · have hweighs := total_lt (k := k) hlegs
          (hbefore (List.getElem?_idxOf hb') (List.getElem?_idxOf ha') hgt) ⟨leg, hmem, ha'⟩
        rw [← hs, ← ht] at hweighs
        exact absurd hle (not_le.mpr hweighs)
    · refine List.pairwise_iff_getElem.mpr fun i j hi hj hij => ?_
      rwa [List.Nodup.idxOf_getElem hnodup, List.Nodup.idxOf_getElem hnodup]
  rw [top, List.map_take, heq]

end Fuse

end Treeweft.RankFusion
