import Mathlib.Data.List.Sort
import Mathlib.Data.List.Nodup
import Mathlib.Data.List.Pairwise
import Mathlib.Data.Rat.Defs
import Mathlib.Order.WithBot

/-!
Reranking a pool of hits.

The texts of the pool go out in batches. A response names the hits of its batch by their places in
the batch, which the adapter shifts by the start of the batch. The check of an index comes after the
shift and is against the whole pool.
-/

namespace Treeweft.Reranking

/-- A float; `nan` compares with nothing. -/
inductive Score (S : Type*) where
  | number (s : S)
  | nan
deriving DecidableEq

instance {S : Type*} [LE S] : LE (Score S) where
  le
    | .number a, .number b => a ≤ b
    | _, _ => False

lemma Score.ne_nan_of_le {S : Type*} [LE S] {a b : Score S} (h : b ≤ a) :
    a ≠ .nan ∧ b ≠ .nan := by
  cases a <;> cases b
  case number.number => exact ⟨nofun, nofun⟩
  all_goals exact False.elim h

/-- An index of a response; JSON's booleans are integers. -/
inductive Index where
  | int (i : ℤ)
  | float (q : ℚ)

structure Item (S : Type*) where
  index : Index
  score : Score S

/-- The adapters of remote rerankers, each with the batch size of its configuration. -/
inductive Provider where
  | http (rerank_batch_size : ℤ)
  | cloud (max_docs : ℤ)

/-- `batch_size or size` -/
def orElse (batch_size : Option ℤ) (size : ℤ) : ℤ :=
  match batch_size with
  | some b => if b = 0 then size else b
  | none => size

/-- The step from a batch to the next. -/
def Provider.step : Provider → Option ℤ → ℤ
  | http rerank_batch_size, batch_size => orElse batch_size rerank_batch_size
  | cloud max_docs, batch_size => min (orElse batch_size max_docs) max_docs

/-- The index as the adapter reads it: one adds to the float, the other takes its `int`. -/
def Provider.localIndex : Provider → Index → Option ℤ
  | _, .int i => some i
  | http _, .float _ => none
  | cloud _, .float q => some (q.num.tdiv q.den)

/-- What a call of `rerank_texts` asks for, and the response to the batch at each start. -/
structure Request (S : Type*) where
  provider : Provider
  batch_size : Option ℤ
  response : ℕ → List (Item S)

/-- `range(0, n, step)`, for a step that is not zero -/
def starts (n : ℕ) (step : ℤ) : List ℕ :=
  List.range' 0 ((n + step.toNat - 1) / step.toNat) step.toNat

/-- `xs[:k]` -/
def upTo {α : Type*} (xs : List α) (k : ℤ) : List α :=
  if 0 ≤ k then xs.take k.toNat else xs.take (xs.length + k).toNat

/-- `list.sort(key=..., reverse=True)`: the same entries, in descending order when the scores are
numbers. With a NaN among them the order depends on the comparisons made, and is left open. -/
structure Sorting (S : Type*) [LinearOrder S] (α : Type*) where
  sort : List (Score S × α) → List (Score S × α)
  perm : ∀ l, (sort l).Perm l
  descending : ∀ l, (∀ p ∈ l, p.1 ≠ .nan) → (sort l).Pairwise fun a b => b.1 ≤ a.1

section Rerank
variable {S : Type*} {n : ℕ}

def Request.step (r : Request S) : ℤ :=
  r.provider.step r.batch_size

/-- `_score_batch` -/
def scoreBatch (r : Request S) (offset : ℕ) : List (Option ℤ × Score S) :=
  (r.response offset).map fun item =>
    ((r.provider.localIndex item.index).map ((offset : ℤ) + ·), item.score)

def rerankTexts (r : Request S) (n : ℕ) : List (Option ℤ × Score S) :=
  (starts n r.step).flatMap (scoreBatch r)

/-- The check of an index: an `int` that is the place of a candidate. -/
def place (n : ℕ) : Option ℤ → Option (Fin n)
  | some idx => if h : 0 ≤ idx ∧ idx < n then some ⟨idx.toNat, by omega⟩ else none
  | none => none

def scored (r : Request S) (n : ℕ) : List (Score S × Fin n) :=
  (rerankTexts r n).filterMap fun pair => (place n pair.1).map fun c => (pair.2, c)

/-- `results[idx]["relevance_score"] = score`, pair after pair. -/
def relevance (pairs : List (Score S × Fin n)) (held : Fin n → Score S) : Fin n → Score S :=
  pairs.foldl (fun held pair => Function.update held pair.2 pair.1) held

/-- The candidates in their new order, with the scores they report; `held` is what the candidates
held as scores before. A step of zero raises. -/
def rerank [LinearOrder S] (sorting : Sorting S (Fin n)) (r : Request S) (held : Fin n → Score S)
    (top_k : ℤ) : Option (List (Fin n × Score S)) :=
  if n = 0 then some []
  else if r.step = 0 then none
  else some ((upTo (sorting.sort (scored r n)) top_k).map fun p =>
    (p.2, relevance (scored r n) held p.2))

end Rerank

/-! ### What an Honest Ranking Is -/

section Honest
variable {S : Type*} {n : ℕ}

/-- The candidate is one of the batch at `start`. -/
def InBatch (r : Request S) (start : ℕ) (c : Fin n) : Prop :=
  start ≤ c.val ∧ (c : ℤ) < start + r.step

/-- An item of the batch at `start` has the index that the shift takes to the candidate. -/
def Names (r : Request S) (start : ℕ) (item : Item S) (c : Fin n) : Prop :=
  r.provider.localIndex item.index = some ((c : ℤ) - start)

/-- A ranking has each candidate once, with a score from its own batch, in the order of the scores,
and leaves one out only for the limit or where the response to its batch has no score for it. -/
structure Honest [LE S] (r : Request S) (top_k : ℤ) (out : List (Fin n × Score S)) : Prop where
  once : (out.map Prod.fst).Nodup
  ordered : out.Pairwise fun a b => b.2 ≤ a.2
  kept : ∀ c, c ∈ out.map Prod.fst ∨ top_k ≤ out.length ∨
    ∃ start ∈ starts n r.step, InBatch r start c ∧
      ∀ item ∈ r.response start, ¬ Names r start item c
  own : ∀ x ∈ out, ∃ start ∈ starts n r.step, InBatch r start x.1 ∧
    ∃ item ∈ r.response start, Names r start item x.1 ∧ item.score = x.2

/-- The batches ask for all candidates, each response names candidates of its own batch only and
none of them twice, and a NaN is the only score there is. -/
structure Sound (r : Request S) (n : ℕ) : Prop where
  size : n = 0 ∨ 0 ≤ r.step
  own : ∀ start ∈ starts n r.step, ∀ item ∈ r.response start, ∀ c : Fin n,
    Names r start item c → InBatch r start c
  once : ∀ start ∈ starts n r.step, (r.response start).Pairwise fun a b =>
    ∀ c : Fin n, Names r start a c → ¬ Names r start b c
  number : ∀ start ∈ starts n r.step, ∀ item ∈ r.response start, ∀ c : Fin n,
    Names r start item c → item.score = .nan → ∀ start' ∈ starts n r.step,
      ∀ item' ∈ r.response start', ∀ c' : Fin n, Names r start' item' c' → c' = c

end Honest

/-! ### The Batches -/

lemma starts_eq_nil {n : ℕ} {step : ℤ} (h : n = 0 ∨ step ≤ 0) : starts n step = [] := by
  rw [starts, List.range'_eq_nil_iff]
  rcases h with rfl | h
  · rcases Nat.eq_zero_or_pos step.toNat with h0 | h0
    · rw [h0, Nat.div_zero]
    · exact Nat.div_eq_of_lt (by omega)
  · rw [Int.toNat_of_nonpos h, Nat.div_zero]

lemma mem_starts {n start : ℕ} {step : ℤ} (h : 0 < step) :
    start ∈ starts n step ↔ start < n ∧ ∃ i, start = step.toNat * i := by
  have hs : 0 < step.toNat := by omega
  have hcount : ∀ i, i < (n + step.toNat - 1) / step.toNat ↔ step.toNat * i < n := by
    intro i
    rw [← Nat.succ_le_iff, Nat.le_div_iff_mul_le hs, Nat.succ_mul, Nat.mul_comm]
    omega
  simp only [starts, List.mem_range', Nat.zero_add, hcount]
  exact ⟨fun ⟨i, hi, h⟩ => ⟨h ▸ hi, i, h⟩, fun ⟨hlt, i, h⟩ => ⟨i, h ▸ hlt, h⟩⟩

lemma nodup_starts {n : ℕ} {step : ℤ} : (starts n step).Nodup := by
  rcases Nat.eq_zero_or_pos step.toNat with h | h
  · rw [starts_eq_nil (.inr (by omega))]
    exact List.nodup_nil
  · exact List.nodup_range' _ h

section Batches
variable {S : Type*} {n : ℕ} {r : Request S} {start start' : ℕ} {c : Fin n}

lemma step_pos (h : start ∈ starts n r.step) : 0 < r.step := by
  by_contra hstep
  rw [starts_eq_nil (.inr (not_lt.mp hstep))] at h
  exact List.not_mem_nil h

lemma exists_inBatch (h : 0 < r.step) (c : Fin n) :
    ∃ start ∈ starts n r.step, InBatch r start c := by
  have hs : 0 < r.step.toNat := by omega
  have hdiv := Nat.div_add_mod c.val r.step.toNat
  have hmod := Nat.mod_lt c.val hs
  refine ⟨r.step.toNat * (c.val / r.step.toNat), (mem_starts h).mpr ⟨?_, _, rfl⟩, ?_, ?_⟩ <;> omega

/-- No candidate is in two batches. -/
lemma inBatch_unique (h : start ∈ starts n r.step) (h' : start' ∈ starts n r.step)
    (hc : InBatch r start c) (hc' : InBatch r start' c) : start = start' := by
  have hpos := step_pos h
  have hdiv : ∀ start ∈ starts n r.step, InBatch r start c →
      start = r.step.toNat * (c.val / r.step.toNat) := by
    intro start hstart hin
    obtain ⟨-, i, rfl⟩ := (mem_starts hpos).mp hstart
    have hlt : c.val < r.step.toNat * (i + 1) := by
      have := hin.2
      rw [Nat.mul_succ]
      omega
    rw [Nat.div_eq_of_lt_le (k := i) (by rw [Nat.mul_comm]; exact hin.1)
      (by rw [Nat.mul_comm]; exact hlt)]
  exact (hdiv start h hc).trans (hdiv start' h' hc').symm

end Batches

/-! ### The Scores That Are Given -/

section Scored
variable {S : Type*} {n : ℕ} {r : Request S} {start start' : ℕ} {item : Item S} {c : Fin n}
  {s : Score S}

lemma place_eq_some {idx : ℤ} : place n (some idx) = some c ↔ idx = c := by
  rw [place]
  split
  · rw [Option.some_inj, Fin.ext_iff]
    change idx.toNat = c.val ↔ _
    omega
  · rename_i hout
    exact ⟨fun h => absurd h nofun, fun h => absurd ⟨by omega, by omega⟩ hout⟩

/-- The candidate that an item of the batch at `start` scores. -/
def named (n : ℕ) (r : Request S) (start : ℕ) (item : Item S) : Option (Fin n) :=
  place n ((r.provider.localIndex item.index).map ((start : ℤ) + ·))

lemma named_eq_some : named n r start item = some c ↔ Names r start item c := by
  rw [named, Names]
  cases r.provider.localIndex item.index with
  | none => exact ⟨fun h => absurd h nofun, fun h => absurd h nofun⟩
  | some i =>
    rw [Option.map_some, place_eq_some, Option.some_inj]
    omega

lemma scored_eq : scored r n = (starts n r.step).flatMap fun start =>
    (r.response start).filterMap fun item => (named n r start item).map fun c => (item.score, c) := by
  rw [scored, rerankTexts, List.filterMap_flatMap]
  refine List.flatMap_congr fun start _ => ?_
  rw [scoreBatch, List.filterMap_map]
  rfl

lemma mem_scored : (s, c) ∈ scored r n ↔ ∃ start ∈ starts n r.step, ∃ item ∈ r.response start,
    Names r start item c ∧ item.score = s := by
  simp only [scored_eq, List.mem_flatMap, List.mem_filterMap, Option.map_eq_some_iff, Prod.mk.injEq,
    named_eq_some]
  constructor
  · rintro ⟨start, hstart, item, hitem, _, hn, hs, rfl⟩
    exact ⟨start, hstart, item, hitem, hn, hs⟩
  · rintro ⟨start, hstart, item, hitem, hn, hs⟩
    exact ⟨start, hstart, item, hitem, c, hn, hs, rfl⟩

lemma map_scored : (scored r n).map Prod.snd =
    (starts n r.step).flatMap fun start => (r.response start).filterMap (named n r start) := by
  rw [scored_eq, List.map_flatMap]
  refine List.flatMap_congr fun start _ => ?_
  rw [List.map_filterMap]
  congr 1
  funext item
  cases named n r start item <;> rfl

lemma mem_named : c ∈ (r.response start).filterMap (named n r start) ↔
    ∃ item ∈ r.response start, Names r start item c := by
  simp only [List.mem_filterMap, named_eq_some]

/-- Every candidate is scored once when no response names one twice and no two name the same. -/
lemma nodup_scored : ((scored r n).map Prod.snd).Nodup ↔
    (∀ start ∈ starts n r.step, (r.response start).Pairwise fun a b =>
      ∀ c : Fin n, Names r start a c → ¬ Names r start b c) ∧
    ∀ start ∈ starts n r.step, ∀ start' ∈ starts n r.step, ∀ c : Fin n,
      (∃ item ∈ r.response start, Names r start item c) →
      (∃ item ∈ r.response start', Names r start' item c) → start = start' := by
  rw [map_scored, List.nodup_flatMap]
  refine and_congr (forall₂_congr fun start _ => ?_) ?_
  · rw [List.Nodup, List.pairwise_filterMap]
    refine iff_of_eq (congrArg (List.Pairwise · _) ?_)
    funext a b
    simp only [named_eq_some, eq_iff_iff]
    exact ⟨fun h c ha hb => h c ha c hb rfl, fun h c ha c' hb heq => h c ha (heq ▸ hb)⟩
  · simp only [← mem_named]
    constructor
    · intro hpairs start hstart start' hstart' c hc hc'
      by_contra hne
      have hsymm : Std.Symm (Function.onFun List.Disjoint fun start =>
          (r.response start).filterMap (named n r start)) := ⟨fun _ _ h _ ha hb => h hb ha⟩
      exact hpairs.forall hstart hstart' hne hc hc'
    · intro hsame
      refine nodup_starts.pairwise_of_forall_ne fun start hstart start' hstart' hne c hc hc' => ?_
      exact hne (hsame start hstart start' hstart' c hc hc')

lemma mem_map_scored : c ∈ (scored r n).map Prod.snd ↔
    ∃ start ∈ starts n r.step, ∃ item ∈ r.response start, Names r start item c := by
  simp only [map_scored, List.mem_flatMap, mem_named]

/-- A sound list of responses scores each candidate once at most. -/
lemma Sound.nodup (h : Sound r n) : ((scored r n).map Prod.snd).Nodup := by
  refine nodup_scored.mpr ⟨h.once, fun start hstart start' hstart' c hc hc' => ?_⟩
  obtain ⟨item, hitem, hn⟩ := hc
  obtain ⟨item', hitem', hn'⟩ := hc'
  exact inBatch_unique hstart hstart' (h.own start hstart item hitem c hn)
    (h.own start' hstart' item' hitem' c hn')

end Scored

/-! ### The Scores That Are Reported -/

section Reported
variable {S : Type*} {n : ℕ} {pairs : List (Score S × Fin n)} {held : Fin n → Score S} {c : Fin n}
  {s : Score S}

/-- A candidate that was scored reports one of its scores. -/
lemma relevance_mem (h : c ∈ pairs.map Prod.snd) : (relevance pairs held c, c) ∈ pairs := by
  have key : ∀ held, (relevance pairs held c, c) ∈ pairs ∨
      c ∉ pairs.map Prod.snd ∧ relevance pairs held c = held c := by
    clear h
    induction pairs with
    | nil => exact fun held => .inr ⟨List.not_mem_nil, rfl⟩
    | cons p pairs ih =>
      intro held
      rcases ih (Function.update held p.2 p.1) with hmem | ⟨hnot, heq⟩
      · exact .inl (List.mem_cons_of_mem _ hmem)
      · change relevance (p :: pairs) held c = _ at heq
        by_cases hp : c = p.2
        · subst hp
          rw [Function.update_self] at heq
          exact .inl (heq ▸ List.mem_cons_self)
        · rw [Function.update_of_ne hp] at heq
          exact .inr ⟨by simpa [hp] using hnot, heq⟩
  exact (key held).resolve_right fun hnot => hnot.1 h

lemma relevance_eq (hnodup : (pairs.map Prod.snd).Nodup) (h : (s, c) ∈ pairs) :
    relevance pairs held c = s :=
  congrArg Prod.fst (List.inj_on_of_nodup_map hnodup
    (relevance_mem (List.mem_map_of_mem (f := Prod.snd) h)) h rfl)

variable {α : Type*} {xs : List α} {k : ℤ}

lemma upTo_sublist : (upTo xs k).Sublist xs := by
  rw [upTo]
  split <;> exact List.take_sublist _ _

lemma upTo_length : upTo xs xs.length = xs := by
  rw [upTo, if_pos (Int.natCast_nonneg _), Int.toNat_natCast, List.take_length]

/-- What a limit cuts off, it cuts off from a list that fills it. -/
lemma mem_upTo_or {x : α} (h : x ∈ xs) : x ∈ upTo xs k ∨ k ≤ (upTo xs k).length := by
  rw [upTo]
  split
  · rw [List.length_take]
    rcases Nat.lt_or_ge k.toNat xs.length with hlt | hge
    · exact .inr (by omega)
    · exact .inl (by rwa [List.take_of_length_le hge])
  · exact .inr (by omega)

end Reported

/-! ### Honest Rankings -/

section Main
variable {S : Type*} [LinearOrder S] {n : ℕ} {r : Request S} {sorting : Sorting S (Fin n)}
  {held : Fin n → Score S}

/-- The whole ranking, before the limit. -/
def ranking (sorting : Sorting S (Fin n)) (r : Request S) (held : Fin n → Score S) :
    List (Fin n × Score S) :=
  (sorting.sort (scored r n)).map fun p => (p.2, relevance (scored r n) held p.2)

lemma rerank_eq (hn : n ≠ 0) (hstep : r.step ≠ 0) (top_k : ℤ) :
    rerank sorting r held top_k = some (upTo (ranking sorting r held) top_k) := by
  rw [rerank, if_neg hn, if_neg hstep, ranking, upTo, upTo, List.length_map]
  split <;> rw [List.map_take]

lemma map_ranking : ((ranking sorting r held).map Prod.fst).Perm ((scored r n).map Prod.snd) := by
  rw [ranking, List.map_map]
  exact (sorting.perm _).map Prod.snd

lemma mem_ranking {x : Fin n × Score S} : x ∈ ranking sorting r held ↔
    x.1 ∈ (scored r n).map Prod.snd ∧ x.2 = relevance (scored r n) held x.1 := by
  rw [ranking, List.mem_map]
  constructor
  · rintro ⟨p, hp, rfl⟩
    exact ⟨List.mem_map_of_mem ((sorting.perm _).mem_iff.mp hp), rfl⟩
  · rintro ⟨hx, heq⟩
    obtain ⟨p, hp, hpx⟩ := List.mem_map.mp hx
    exact ⟨p, (sorting.perm _).mem_iff.mpr hp, Prod.ext hpx (by rw [hpx, heq])⟩

/-- A ranking by numbers is as it was sorted, and one with a NaN has one entry. -/
lemma Sound.ordered (h : Sound r n) :
    (ranking sorting r held).Pairwise fun a b => b.2 ≤ a.2 := by
  have hmem : ∀ p ∈ sorting.sort (scored r n), p ∈ scored r n :=
    fun p hp => (sorting.perm _).mem_iff.mp hp
  rw [ranking, List.pairwise_map]
  by_cases hnan : ∀ p ∈ scored r n, p.1 ≠ .nan
  · refine (sorting.descending _ hnan).imp_of_mem fun {a b} ha hb hab => ?_
    rwa [relevance_eq h.nodup (s := a.1) (hmem a ha), relevance_eq h.nodup (s := b.1) (hmem b hb)]
  · push Not at hnan
    obtain ⟨⟨_, c⟩, hp, rfl⟩ := hnan
    obtain ⟨start, hstart, item, hitem, hn, hs⟩ := mem_scored.mp hp
    have hone : ∀ x ∈ (scored r n).map Prod.snd, x = c := by
      intro c' hc'
      obtain ⟨start', hstart', item', hitem', hn'⟩ := mem_map_scored.mp hc'
      exact h.number start hstart item hitem c hn hs start' hstart' item' hitem' c' hn'
    have hnodup := ((sorting.perm (scored r n)).map Prod.snd).nodup_iff.mpr h.nodup
    refine (List.pairwise_map.mp hnodup).imp_of_mem fun {a b} ha hb hne => absurd ?_ hne
    exact (hone _ (List.mem_map_of_mem (hmem a ha))).trans
      (hone _ (List.mem_map_of_mem (hmem b hb))).symm

lemma Sound.honest (h : Sound r n) (hn : n ≠ 0) (hstep : r.step ≠ 0) (top_k : ℤ) :
    Honest r top_k (upTo (ranking sorting r held) top_k) where
  once := (map_ranking.nodup_iff.mpr h.nodup).sublist (upTo_sublist.map Prod.fst)
  ordered := h.ordered.sublist upTo_sublist
  kept c := by
    have hpos : 0 < r.step := lt_of_le_of_ne (h.size.resolve_left hn) hstep.symm
    obtain ⟨start, hstart, hin⟩ := exists_inBatch hpos c
    by_cases hscored : ∃ item ∈ r.response start, Names r start item c
    · have hmem : (c, relevance (scored r n) held c) ∈ ranking sorting r held :=
        mem_ranking.mpr ⟨mem_map_scored.mpr ⟨start, hstart, hscored⟩, rfl⟩
      rcases mem_upTo_or (k := top_k) hmem with hup | hfull
      · exact .inl (List.mem_map_of_mem (f := Prod.fst) hup)
      · exact .inr (.inl hfull)
    · push Not at hscored
      exact .inr (.inr ⟨start, hstart, hin, hscored⟩)
  own x hx := by
    obtain ⟨hscored, hrel⟩ := mem_ranking.mp (upTo_sublist.subset hx)
    have hlast : (relevance (scored r n) held x.1, x.1) ∈ scored r n := relevance_mem hscored
    obtain ⟨start, hstart, item, hitem, hn, hs⟩ := mem_scored.mp hlast
    exact ⟨start, hstart, h.own start hstart item hitem x.1 hn, item, hitem, hn,
      hs.trans hrel.symm⟩

/-- An honest ranking of every length is of a sound list of responses. -/
lemma sound_of_honest (hn : n ≠ 0)
    (h : ∀ top_k, Honest r top_k (upTo (ranking sorting r held) top_k)) : Sound r n := by
  have hall := h (ranking sorting r held).length
  rw [upTo_length] at hall
  have hnodup : ((scored r n).map Prod.snd).Nodup := map_ranking.nodup_iff.mp hall.once
  have hone := (nodup_scored.mp hnodup).2
  have hranked : ∀ {start item c}, start ∈ starts n r.step → item ∈ r.response start →
      Names r start item c → (c, item.score) ∈ ranking sorting r held := by
    intro start item c hstart hitem hnames
    have hpair : (item.score, c) ∈ scored r n :=
      mem_scored.mpr ⟨start, hstart, item, hitem, hnames, rfl⟩
    exact mem_ranking.mpr ⟨List.mem_map_of_mem hpair, (relevance_eq hnodup hpair).symm⟩
  refine ⟨?_, ?_, (nodup_scored.mp hnodup).1, ?_⟩
  · refine .inr (not_lt.mp fun hstep => ?_)
    have hnil : ∀ top_k, upTo (ranking sorting r held) top_k = [] := by
      intro top_k
      refine List.eq_nil_iff_forall_not_mem.mpr fun x hx => ?_
      obtain ⟨start, hstart, -⟩ := mem_map_scored.mp (mem_ranking.mp (upTo_sublist.subset hx)).1
      exact absurd (step_pos hstart) (by omega)
    rcases (h 1).kept ⟨0, Nat.pos_of_ne_zero hn⟩ with hmem | hlen | ⟨start, hstart, -⟩
    · rw [hnil] at hmem
      exact List.not_mem_nil hmem
    · rw [hnil] at hlen
      exact absurd hlen (not_le.mpr one_pos)
    · exact absurd (step_pos hstart) (by omega)
  · intro start hstart item hitem c hnames
    obtain ⟨start', hstart', hin, item', hitem', hnames', -⟩ :=
      hall.own _ (hranked hstart hitem hnames)
    have hsame : start = start' :=
      hone start hstart start' hstart' c ⟨item, hitem, hnames⟩ ⟨item', hitem', hnames'⟩
    exact hsame ▸ hin
  · intro start hstart item hitem c hnames hnan start' hstart' item' hitem' c' hnames'
    by_contra hne
    have hsymm : Std.Symm fun a b : Fin n × Score S => a.2 ≠ .nan ∧ b.2 ≠ .nan :=
      ⟨fun _ _ h => h.symm⟩
    have hnumbers : (ranking sorting r held).Pairwise fun a b => a.2 ≠ .nan ∧ b.2 ≠ .nan :=
      hall.ordered.imp fun {a b} hab => Score.ne_nan_of_le hab
    exact (hnumbers.forall (hranked hstart hitem hnames) (hranked hstart' hitem' hnames')
      fun heq => hne (congrArg Prod.fst heq).symm).1 hnan

/-- Rankings of every length are honest exactly when the responses are sound. -/
theorem honest_iff_sound (sorting : Sorting S (Fin n)) (r : Request S) (held : Fin n → Score S) :
    (∀ top_k out, rerank sorting r held top_k = some out → Honest r top_k out) ↔ Sound r n := by
  by_cases hnil : n = 0 ∨ r.step = 0
  · have hstarts : starts n r.step = [] := starts_eq_nil (hnil.imp_right fun h => h.le)
    refine iff_of_true (fun top_k out hout => ?_) ⟨hnil.imp_right fun h => h.ge, ?_, ?_, ?_⟩
    · by_cases hn : n = 0
      · subst hn
        cases hout
        exact ⟨List.nodup_nil, .nil, fun c => c.elim0, fun _ h => absurd h List.not_mem_nil⟩
      · rw [rerank, if_neg hn, if_pos (hnil.resolve_left hn)] at hout
        exact absurd hout nofun
    all_goals
      rw [hstarts]
      exact fun _ h => absurd h List.not_mem_nil
  · obtain ⟨hn, hstep⟩ := not_or.mp hnil
    simp only [rerank_eq hn hstep, Option.some_inj, forall_eq']
    exact ⟨sound_of_honest hn, fun h top_k => h.honest hn hstep top_k⟩

/-! ### A Response about Another Batch -/

/-- `number` by the score it holds, and NaN at the end. -/
def Score.key : Score S → WithBot S
  | .number s => s
  | .nan => ⊥

omit [LinearOrder S] in
lemma Score.exists_number {a : Score S} (h : a ≠ .nan) : ∃ x, a = .number x := by
  cases a with
  | number x => exact ⟨x, rfl⟩
  | nan => exact absurd rfl h

/-- A sort that puts NaN at the end. -/
def descending (S : Type*) [LinearOrder S] (α : Type*) : Sorting S α where
  sort := List.insertionSort fun a b => b.1.key ≤ a.1.key
  perm := List.perm_insertionSort _
  descending l h := by
    have htotal : Std.Total fun a b : Score S × α => b.1.key ≤ a.1.key := ⟨fun a b => le_total _ _⟩
    have htrans : IsTrans (Score S × α) fun a b => b.1.key ≤ a.1.key :=
      ⟨fun a b c hab hbc => hbc.trans hab⟩
    refine (List.pairwise_insertionSort _ l).imp_of_mem fun {a b} ha hb hab => ?_
    obtain ⟨x, hx⟩ := Score.exists_number (h a ((List.mem_insertionSort _).mp ha))
    obtain ⟨y, hy⟩ := Score.exists_number (h b ((List.mem_insertionSort _).mp hb))
    rw [hx, hy] at hab ⊢
    have hyx : y ≤ x := WithBot.coe_le_coe.mp hab
    exact hyx

/-- Three candidates in batches of two; the second response is about the place before its batch. -/
def foreign : Request ℤ :=
  ⟨.http 20, some 2, fun start =>
    if start = 0 then [⟨.int 0, .number 1⟩] else [⟨.int (-1), .number 5⟩, ⟨.int 0, .number 2⟩]⟩

/-- Two candidates; the response gives the first one twice. -/
def repeated : Request ℤ :=
  ⟨.cloud 1000, none, fun _ => [⟨.int 0, .number 3⟩, ⟨.int 0, .number 2⟩, ⟨.int 1, .number 1⟩]⟩

/-- The second candidate gets a score that was meant for none, and comes out ahead; a candidate that
is given twice takes the place of another. -/
theorem foreign_and_repeated :
    (rerank (descending ℤ (Fin 3)) foreign (fun _ => .nan) 3 =
        some [(1, .number 5), (2, .number 2), (0, .number 1)] ∧
      ¬ Honest (n := 3) foreign 3 [(1, .number 5), (2, .number 2), (0, .number 1)]) ∧
    (rerank (descending ℤ (Fin 2)) repeated (fun _ => .nan) 2 =
        some [(0, .number 2), (0, .number 2)] ∧
      ¬ Honest (n := 2) repeated 2 [(0, .number 2), (0, .number 2)]) := by
  refine ⟨⟨by decide +kernel, fun h => ?_⟩, ⟨by decide +kernel, fun h => ?_⟩⟩
  · obtain ⟨start, hstart, hin, item, hitem, -, hscore⟩ := h.own _ List.mem_cons_self
    have hbatches : start ∈ [0, 2] := hstart
    have hzero : start = 0 := by
      rcases List.mem_pair.mp hbatches with h0 | h2
      · exact h0
      · exact absurd (h2 ▸ hin.1) (by decide)
    subst hzero
    rw [List.mem_singleton.mp hitem] at hscore
    exact absurd hscore (by decide)
  · exact absurd h.once (by decide)

end Main

end Treeweft.Reranking
