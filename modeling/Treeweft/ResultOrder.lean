import Treeweft.RankPasses
import Treeweft.Retrieval

/-!
The order of the hits of a search and the scores it shows.

Each pass takes a list in the order of its scores to one in the order of its scores, and changes the
hits in its own way alone. The promotion does so for distinct hits, and raises where there are none;
a search with no hits passes it by.
-/

namespace Treeweft.ResultOrder

open Treeweft.Hydrate Treeweft.MergeRuns Treeweft.RankPasses Treeweft.Rounding

/-! ### The Order -/

section Order
variable {ι : Type} {scores : ι → Scores} {l : List ι}

/-- The scores that are shown do not rise along the list. -/
def Descending (scores : ι → Scores) (l : List ι) : Prop :=
  l.Pairwise fun a b => displayScore (scores b) ≤ displayScore (scores a)

instance : Decidable (Descending scores l) :=
  inferInstanceAs (Decidable (List.Pairwise _ _))

lemma exists_aboveAll (scores : ι → Scores) (h : l ≠ []) :
    ∃ x, aboveAll scores l = some x ∧ ∀ r ∈ l, displayScore (scores r) ≤ x := by
  have hne : (l.map fun r => displayScore (scores r)) ≠ [] := by simpa using h
  obtain ⟨m, hm⟩ := Option.isSome_iff_exists.mp (List.isSome_max?_of_ne_nil hne)
  refine ⟨roundDigits 3 (m + 1 / 10 ^ 3), by rw [aboveAll, hm, Option.map_some], fun r hr => ?_⟩
  have hle : displayScore (scores r) ≤ m :=
    (List.max?_eq_some_iff.mp hm).2 _ (List.mem_map_of_mem hr)
  exact hle.trans (le_roundDigits_add 3 m)

lemma Descending.sublist {l' : List ι} (h : Descending scores l) (hsub : l'.Sublist l) :
    Descending scores l' :=
  List.Pairwise.sublist hsub h

variable [DecidableEq ι]

lemma displayScore_setFinal (r : ι) (x : ℚ) : displayScore (setFinal scores r x r) = x := by
  rw [setFinal, Function.update_self, displayScore]

lemma setFinal_of_ne {r a : ι} (h : a ≠ r) (x : ℚ) : setFinal scores r x a = scores a :=
  Function.update_of_ne h _ _

/-- A hit that is not in a list goes to its front with a score that is above it. -/
lemma Descending.cons {r : ι} {x : ℚ} (h : Descending scores l) (hr : r ∉ l)
    (hx : ∀ a ∈ l, displayScore (scores a) ≤ x) : Descending (setFinal scores r x) (r :: l) := by
  have hne : ∀ a ∈ l, setFinal scores r x a = scores a :=
    fun a ha => setFinal_of_ne (ne_of_mem_of_not_mem ha hr) x
  refine List.pairwise_cons.mpr
    ⟨fun a ha => ?_, List.Pairwise.imp_of_mem (fun {a b} ha hb hab => ?_) h⟩
  · rw [displayScore_setFinal, hne a ha]
    exact hx a ha
  · rw [hne a ha, hne b hb]
    exact hab

end Order

/-! ### Promotion -/

section Promotion
variable {ι P σ : Type} [DecidableEq P] {files : σ → List P} {path : ι → P}
  {vec_results : List ι} {scores : ι → Scores} {reranked : List ι}

/-- The list keeps its hits, or has one of the pool in place of the last. -/
def Promoted (vec_results l l' : List ι) : Prop :=
  l'.Perm l ∨ ∃ r ∈ vec_results, r ∉ l ∧ l' = r :: l.dropLast

/-- The hit that goes to the front is the first of its files. -/
lemma exists_split {files : List P} {r : ι} {after : List ι}
    (h : (reranked.dropWhile fun r => path r ∉ files) = r :: after) :
    path r ∈ files ∧ reranked = (reranked.takeWhile fun r => path r ∉ files) ++ r :: after := by
  have hr := List.head?_dropWhile_not (fun r => decide (path r ∉ files)) reranked
  rw [h] at hr
  refine ⟨by simpa using hr, ?_⟩
  rw [← h, List.takeWhile_append_dropWhile]

lemma not_mem_of_dropWhile {files : List P}
    (h : (reranked.dropWhile fun r => path r ∉ files) = []) : ∀ r ∈ reranked, path r ∉ files :=
  fun r hr => of_decide_eq_true (List.dropWhile_eq_nil_iff.mp h r hr)

theorem exists_promoteDefinition [DecidableEq ι] (hne : reranked ≠ []) (hnodup : reranked.Nodup)
    (hsorted : Descending scores reranked) (syms : List σ) :
    ∃ scores' l, promoteDefinition files path vec_results scores reranked syms = some (scores', l) ∧
      Promoted vec_results reranked l ∧ Descending scores' l := by
  induction syms with
  | nil => exact ⟨scores, reranked, rfl, .inl (.refl _), hsorted⟩
  | cons sym syms ih =>
    rw [promoteDefinition]
    dsimp only
    split
    · exact ih
    split
    · rename_i r after hdrop
      obtain ⟨-, hsplit⟩ := exists_split hdrop
      generalize (reranked.takeWhile fun r => path r ∉ files sym) = before at hsplit ⊢
      split
      · exact ⟨scores, reranked, rfl, .inl (.refl _), hsorted⟩
      · have hperm : (r :: (before ++ after)).Perm reranked := by
          rw [hsplit]
          exact List.perm_middle.symm
        obtain ⟨x, hx, habove⟩ := exists_aboveAll scores (List.cons_ne_nil r (before ++ after))
        refine ⟨setFinal scores r x, r :: (before ++ after), by simp [hx], .inl hperm, ?_⟩
        have hsub : (before ++ after).Sublist reranked := by
          rw [hsplit]
          exact (List.sublist_cons_self r after).append_left before
        have hr : r ∉ before ++ after := (List.nodup_cons.mp (hperm.nodup_iff.mpr hnodup)).1
        exact (hsorted.sublist hsub).cons hr fun a ha => habove a (List.mem_cons_of_mem r ha)
    · rename_i hdrop
      have hnone := not_mem_of_dropWhile hdrop
      split
      · rename_i f hfiles
        split
        · rename_i r hfind
          have hpath : path r = f := by simpa using List.find?_some hfind
          have hr : r ∉ reranked := fun hmem =>
            hnone r hmem (hfiles ▸ hpath ▸ List.mem_singleton_self _)
          obtain ⟨x, hx, habove⟩ := exists_aboveAll scores hne
          have hdropLast : (r :: reranked).dropLast = r :: reranked.dropLast :=
            List.dropLast_cons_of_ne_nil hne
          refine ⟨setFinal scores r x, (r :: reranked).dropLast, by simp [hx],
            .inr ⟨r, List.mem_of_find?_eq_some hfind, hr, hdropLast⟩, ?_⟩
          exact (hsorted.cons hr habove).sublist (List.dropLast_sublist _)
        · exact ih
      · exact ih

/-- The rows of a promotion are those of the promotion of rows. -/
theorem map_promoteDefinition [DecidableEq ι] (g : GraphStore.Graph) (sc : GraphStore.Scope)
    (q : Retrieval.Query) (entity : ι → VectorStore.Row) (syms : List String)
    {scores' : ι → Scores} {l : List ι}
    (h : promoteDefinition (Retrieval.defFiles g sc q) (fun r => (entity r).filePath) vec_results
      scores reranked syms = some (scores', l)) :
    l.map entity =
      Retrieval.promoteDefinition g sc q (vec_results.map entity) syms (reranked.map entity) := by
  induction syms with
  | nil =>
    obtain ⟨-, rfl⟩ := Prod.mk.inj (Option.some.inj h)
    rfl
  | cons sym syms ih =>
    rw [promoteDefinition] at h
    rw [Retrieval.promoteDefinition]
    dsimp only at h ⊢
    split at h
    · rename_i hfiles
      rw [if_pos hfiles]
      exact ih h
    rename_i hfiles
    rw [if_neg hfiles, List.find?_map]
    split at h
    · rename_i r after hdrop
      obtain ⟨hr, hsplit⟩ := exists_split hdrop
      have hbefore : ∀ a ∈ reranked.takeWhile fun r => (entity r).filePath ∉
          Retrieval.defFiles g sc q sym, (entity a).filePath ∉ Retrieval.defFiles g sc q sym :=
        fun a ha => by simpa using List.mem_takeWhile_imp ha
      generalize (reranked.takeWhile fun r => (entity r).filePath ∉
        Retrieval.defFiles g sc q sym) = before at hsplit hbefore h
      have hfind : reranked.find? ((fun r : VectorStore.Row =>
          decide (r.filePath ∈ Retrieval.defFiles g sc q sym)) ∘ entity) = some r :=
        List.find?_eq_some_iff_append.mpr ⟨by simpa using hr, before, after, hsplit,
          fun a ha => by simpa using hbefore a ha⟩
      have hnew : entity r ∉ before.map entity := by
        intro hmem
        obtain ⟨a, ha, heq⟩ := List.mem_map.mp hmem
        exact hbefore a ha (heq ▸ hr)
      rw [hfind, Option.map_some, hsplit, List.map_append, List.map_cons]
      dsimp only
      rw [List.erase_append_right _ hnew, List.erase_cons_head]
      split at h
      · rename_i hnil
        obtain ⟨-, rfl⟩ := Prod.mk.inj (Option.some.inj h)
        rw [hsplit, hnil]
        rfl
      · obtain ⟨x, -, hx⟩ := Option.bind_eq_some_iff.mp h
        obtain ⟨-, rfl⟩ := Prod.mk.inj (Option.some.inj hx)
        rw [List.map_cons, List.map_append]
    · rename_i hdrop
      have hnone := not_mem_of_dropWhile hdrop
      have hfind : reranked.find? ((fun r : VectorStore.Row =>
          decide (r.filePath ∈ Retrieval.defFiles g sc q sym)) ∘ entity) = none :=
        List.find?_eq_none.mpr fun a ha => by simpa using hnone a ha
      rw [hfind, Option.map_none]
      dsimp only
      split at h
      · rename_i f hf
        rw [hf]
        dsimp only at h ⊢
        rw [List.find?_map]
        split at h
        · rename_i r hr
          have hr' : vec_results.find? ((fun r : VectorStore.Row => decide (r.filePath = f)) ∘
            entity) = some r := hr
          rw [hr', Option.map_some]
          obtain ⟨x, -, hx⟩ := Option.bind_eq_some_iff.mp h
          obtain ⟨-, rfl⟩ := Prod.mk.inj (Option.some.inj hx)
          rw [List.map_dropLast, List.map_cons]
        · rename_i hr
          have hr' : vec_results.find? ((fun r : VectorStore.Row => decide (r.filePath = f)) ∘
            entity) = none := hr
          rw [hr', Option.map_none]
          exact ih h
      · rename_i hf
        split
        · rename_i f hf'
          exact absurd hf' (hf f)
        · exact ih h

end Promotion

/-! ### Rescoring -/

lemma exists_divide (a : ℚ) {b : ℚ} (h : b ≠ 0) : ∃ x, divide a b = some x :=
  ⟨a / b, if_neg h⟩

lemma exists_mapM {α β : Type} {f : α → Option β} {l : List α} (h : ∀ a ∈ l, ∃ b, f a = some b) :
    ∃ bs, l.mapM f = some bs := by
  induction l with
  | nil => exact ⟨[], rfl⟩
  | cons a l ih =>
    obtain ⟨b, hb⟩ := h a List.mem_cons_self
    obtain ⟨bs, hbs⟩ := ih fun a ha => h a (List.mem_cons_of_mem _ ha)
    exact ⟨b :: bs, by simp [List.mapM_cons, hb, hbs]⟩

lemma exists_foldlM {α β : Type} {f : β → α → Option β} (h : ∀ b a, ∃ b', f b a = some b')
    (l : List α) (b : β) : ∃ b', l.foldlM f b = some b' := by
  induction l generalizing b with
  | nil => exact ⟨b, rfl⟩
  | cons a l ih =>
    obtain ⟨b', hb'⟩ := h b a
    obtain ⟨b'', hb''⟩ := ih b'
    exact ⟨b'', by simp [List.foldlM_cons, hb', hb'']⟩

lemma exists_minmax (values : List ℚ) : ∃ norm_map, minmax values = some norm_map := by
  unfold minmax
  split
  · exact ⟨[], rfl⟩
  · rename_i hne
    obtain ⟨lo, hlo⟩ := Option.isSome_iff_exists.mp (List.isSome_min?_of_ne_nil hne)
    obtain ⟨hi, hhi⟩ := Option.isSome_iff_exists.mp (List.isSome_max?_of_ne_nil hne)
    simp only [hlo, hhi, Option.bind_eq_bind, Option.bind_some]
    split
    · exact ⟨_, rfl⟩
    · rename_i hspan
      exact exists_mapM fun v _ => exists_divide _ fun h0 => hspan h0.le

lemma exists_normMap (cfg : Config) (raw_rels : List ℚ) :
    ∃ norm_map, normMap cfg raw_rels = some norm_map := by
  unfold normMap
  split
  · exact exists_minmax raw_rels
  · exact ⟨[], rfl⟩

section Rescored
variable {ι P : Type} (cfg : Config) (ev : Evidence P) (query_embedding : List ℚ)
  (query_text : List Char)

lemma exists_cosine (a b : List ℚ) : ∃ x, cosine cfg a b = some x := by
  unfold cosine
  split
  · exact ⟨0, rfl⟩
  split
  · exact ⟨0, rfl⟩
  · rename_i hnorm
    obtain ⟨ha, hb⟩ := not_or.mp hnorm
    exact exists_divide _ (mul_ne_zero ha hb)

lemma exists_nameWeight (keep : EntityType → Bool) (entities : List (Entity P)) :
    ∃ w, nameWeight cfg query_text keep entities = some w := by
  refine exists_foldlM (fun best e => ?_) entities 0
  dsimp only
  split
  · obtain ⟨w, hw⟩ := exists_divide (cfg.lower e.name).length cfg.len_ne_zero
    exact ⟨_, by rw [hw]; rfl⟩
  · exact ⟨best, rfl⟩

lemma exists_finalScore (path : P) (rel : ℚ) :
    ∃ x, finalScore cfg ev query_embedding query_text path rel = some x := by
  unfold finalScore nameInQuery fileDefinesQuerySymbol
  obtain ⟨cosines, hcosines⟩ := exists_mapM fun emb (_ : emb ∈
    (((ev.entities_by_file path).filterMap Entity.community_id).dedup).filterMap
      ev.community_embs) => exists_cosine cfg query_embedding emb
  obtain ⟨name, hname⟩ :=
    exists_nameWeight cfg query_text (fun _ => true) (ev.entities_by_file path)
  obtain ⟨file_def, hfile⟩ :=
    exists_nameWeight cfg query_text (· ∈ defineTypes) (ev.entities_by_file path)
  simp only [hcosines, hname, hfile, Option.bind_eq_bind, Option.bind_some]
  split <;> exact ⟨_, rfl⟩

variable [DecidableEq ι]

/-- The loop gives every hit of the list its score. -/
lemma exists_rescoreFrom (path : ι → P) (rel : ℕ → ι → ℚ) (i : ℕ) (l : List ι)
    (scores : ι → Scores) :
    ∃ scores', rescoreFrom cfg ev query_embedding query_text path rel i l scores = some scores' ∧
      ∀ r, r ∈ l ∨ (scores r).final_score.isSome → (scores' r).final_score.isSome := by
  induction l generalizing i scores with
  | nil => exact ⟨scores, rfl, fun r hr => hr.resolve_left List.not_mem_nil⟩
  | cons a l ih =>
    obtain ⟨x, hx⟩ := exists_finalScore cfg ev query_embedding query_text (path a) (rel i a)
    obtain ⟨scores', hs, hfinal⟩ :=
      ih (i + 1) (Function.update scores a { scores a with final_score := some x })
    refine ⟨scores', by simp [rescoreFrom, hx, hs], fun r hr => hfinal r ?_⟩
    by_cases hra : r = a
    · subst hra
      exact .inr (by rw [Function.update_self]; rfl)
    · rw [Function.update_of_ne hra]
      exact hr.imp_left fun hmem => (List.mem_cons.mp hmem).resolve_left hra

theorem exists_graphRescore (path : ι → P) (scores : ι → Scores) (reranked : List ι) :
    ∃ scores' l, graphRescore cfg ev query_embedding query_text path scores reranked =
      some (scores', l) ∧ l.Perm reranked ∧ Descending scores' l := by
  unfold graphRescore
  dsimp only
  obtain ⟨norm_map, hnorm⟩ :=
    exists_normMap cfg (reranked.map fun r => (scores r).relevance_score.getD 0)
  obtain ⟨scored, hscored, hfinal⟩ := exists_rescoreFrom cfg ev query_embedding query_text path
    (fun i r => norm_map[i]?.getD ((scores r).relevance_score.getD 0)) 0 reranked scores
  simp only [hnorm, hscored, Option.bind_eq_bind, Option.bind_some]
  refine ⟨scored, _, rfl, List.perm_insertionSort _ _, ?_⟩
  have htotal : Std.Total fun a b : ι =>
      (scored b).final_score.getD 0 ≤ (scored a).final_score.getD 0 := ⟨fun a b => le_total _ _⟩
  have htrans : IsTrans ι fun a b =>
      (scored b).final_score.getD 0 ≤ (scored a).final_score.getD 0 :=
    ⟨fun a b c hab hbc => hbc.trans hab⟩
  have hdisplay : ∀ r ∈ reranked, displayScore (scored r) = (scored r).final_score.getD 0 := by
    intro r hr
    obtain ⟨x, hx⟩ := Option.isSome_iff_exists.mp (hfinal r (.inl hr))
    rw [displayScore, hx, Option.getD_some]
  refine (List.pairwise_insertionSort _ reranked).imp_of_mem fun {a b} ha hb hab => ?_
  rw [hdisplay a ((List.mem_insertionSort _).mp ha), hdisplay b ((List.mem_insertionSort _).mp hb)]
  exact hab

end Rescored

/-! ### The Cut -/

lemma exists_item {xs : List ℚ} {i : ℤ} (hlo : -(xs.length : ℤ) ≤ i) (hhi : i < xs.length) :
    ∃ x, item xs i = some x := by
  unfold item
  split
  · exact ⟨_, List.getElem?_eq_getElem (by omega)⟩
  · rw [if_pos (by omega)]
    exact ⟨_, List.getElem?_eq_getElem (by omega)⟩

/-- The scores fall by a drop at a place. -/
def FallsAt (scores : List ℚ) (drop : ℚ) (i : ℕ) : Prop :=
  ∃ a ∈ item scores (i - 1), ∃ b ∈ item scores i, drop ≤ a - b

lemma exists_findDrop (scores : List ℚ) (drop : ℚ) (places : List ℕ)
    (h : ∀ i ∈ places, i < scores.length) :
    ∃ o, findDrop scores drop places = some o ∧ ∀ i ∈ o, i ∈ places ∧ FallsAt scores drop i := by
  induction places with
  | nil => exact ⟨none, rfl, fun i hi => absurd hi nofun⟩
  | cons i places ih =>
    have hi := h i List.mem_cons_self
    obtain ⟨a, ha⟩ : ∃ a, item scores (i - 1) = some a := exists_item (by omega) (by omega)
    obtain ⟨b, hb⟩ : ∃ b, item scores i = some b := exists_item (by omega) (by omega)
    obtain ⟨o, ho, hfalls⟩ := ih fun j hj => h j (List.mem_cons_of_mem i hj)
    simp only [findDrop, ha, hb, Option.bind_eq_bind, Option.bind_some]
    split
    · rename_i hdrop
      refine ⟨some i, rfl, fun j hj => ?_⟩
      obtain rfl := Option.some_inj.mp hj
      exact ⟨List.mem_cons_self, a, ha, b, hb, hdrop⟩
    · exact ⟨o, ho, fun j hj => (hfalls j hj).imp_left (List.mem_cons_of_mem i)⟩

section CutOff
variable {ι : Type}

/-- A list keeps its hits up to a place, if at all, where the scores fall by the gap times the whole
of their fall. -/
def CutOff (cfg : Config) (gap : ℚ) (scores : ι → Scores) (l l' : List ι) : Prop :=
  l' = l ∨ ∃ i, cfg.adaptive_topk_min ≤ i ∧ i < l.length ∧ l' = l.take i ∧
    ∃ first ∈ item (l.map fun r => displayScore (scores r)) 0,
      ∃ last ∈ item (l.map fun r => displayScore (scores r)) (-1),
        FallsAt (l.map fun r => displayScore (scores r)) (gap * (first - last)) i

lemma CutOff.sublist {cfg : Config} {gap : ℚ} {scores : ι → Scores} {l l' : List ι}
    (h : CutOff cfg gap scores l l') : l'.Sublist l := by
  rcases h with rfl | ⟨i, -, -, rfl, -⟩
  · exact List.Sublist.refl _
  · exact List.take_sublist _ _

theorem exists_adaptiveCut (cfg : Config) (gap : ℚ) (scores : ι → Scores) (reranked : List ι) :
    ∃ l, adaptiveCut cfg gap scores reranked = some l ∧ CutOff cfg gap scores reranked l := by
  unfold adaptiveCut
  split
  · exact ⟨reranked, rfl, .inl rfl⟩
  · rename_i hlong
    dsimp only
    have hlen : (reranked.map fun r => displayScore (scores r)).length = reranked.length :=
      List.length_map _
    obtain ⟨first, hfirst⟩ :
        ∃ x, item (reranked.map fun r => displayScore (scores r)) 0 = some x :=
      exists_item (by omega) (by omega)
    obtain ⟨last, hlast⟩ :
        ∃ x, item (reranked.map fun r => displayScore (scores r)) (-1) = some x :=
      exists_item (by omega) (by omega)
    obtain ⟨o, ho, hfalls⟩ := exists_findDrop (reranked.map fun r => displayScore (scores r))
      (gap * (first - last)) (List.range' cfg.adaptive_topk_min
        ((reranked.map fun r => displayScore (scores r)).length - cfg.adaptive_topk_min))
      fun i hi => by
        rw [List.mem_range'_1] at hi
        omega
    simp only [hfirst, hlast, Option.bind_eq_bind, Option.bind_some]
    split
    · exact ⟨reranked, rfl, .inl rfl⟩
    · rw [ho, Option.bind_some]
      cases o with
      | none => exact ⟨reranked, rfl, .inl rfl⟩
      | some i =>
        obtain ⟨hi, hfall⟩ := hfalls i rfl
        rw [List.mem_range'_1] at hi
        exact ⟨reranked.take i, rfl,
          .inr ⟨i, hi.1, by omega, rfl, first, hfirst, last, hlast, hfall⟩⟩

end CutOff

/-! ### The Merge -/

/-- The hits before the merge. -/
abbrev Hits := List Hit

section Merge
variable {hits : Hits}

/-- The score of the best hit of a run is that of the run. -/
lemma foldl_max_eq {l : List ℚ} {a : ℚ} (h : ∀ x ∈ l, x ≤ a) : l.foldl max a = a := by
  induction l with
  | nil => rfl
  | cons x l ih =>
    rw [List.foldl_cons, max_eq_left (h x List.mem_cons_self)]
    exact ih fun y hy => h y (List.mem_cons_of_mem x hy)

lemma score_le_of_le (hsorted : hits.Pairwise fun a b => b.score ≤ a.score)
    {i j : Fin hits.length} (h : i ≤ j) : hits[j].score ≤ hits[i].score := by
  rcases h.lt_or_eq with hlt | rfl
  · exact List.pairwise_iff_getElem.mp hsorted i j i.2 j.2 hlt
  · exact le_rfl

/-- A hit that is left has its score, also when it stands for a run. -/
lemma score_output (hsorted : hits.Pairwise fun a b => b.score ≤ a.score) {i : Fin hits.length}
    (hi : consumed hits i = false) : (output hits i).score = hits[i].score := by
  obtain ⟨run, hrun, hmem⟩ := exists_run i
  have hleft := (not_consumed_iff hrun hmem).mp hi
  rw [survivors] at hleft
  cases hm : mergeRun hits run with
  | none => rw [output_of_unmerged hrun hmem hm]
  | some m =>
    obtain ⟨best, h⟩ := m
    rw [hm, List.mem_singleton] at hleft
    subst hleft
    have hs := stands_of_mergeRun hrun hm
    rw [output_of_merged hrun hm, hs.score]
    refine foldl_max_eq fun x hx => ?_
    obtain ⟨a, ha, rfl⟩ := List.mem_map.mp hx
    obtain ⟨j, hj, rfl⟩ := List.mem_map.mp ha
    exact score_le_of_le hsorted (hs.first j hj)

theorem pairwise_mergeAdjacentHits (hsorted : hits.Pairwise fun a b => b.score ≤ a.score) :
    (mergeAdjacentHits hits).Pairwise fun a b => b.score ≤ a.score := by
  rw [mergeAdjacentHits_eq, List.pairwise_map]
  have hlt : ((List.finRange hits.length).filter fun i => !consumed hits i).Pairwise (· < ·) :=
    (List.pairwise_lt_finRange _).sublist List.filter_sublist
  refine hlt.imp_of_mem fun {i j} hi hj hij => ?_
  have hleft : ∀ k ∈ (List.finRange hits.length).filter fun i => !consumed hits i,
      (output hits k).score = hits[k].score := by
    intro k hk
    refine score_output hsorted ?_
    simpa using (List.mem_filter.mp hk).2
  rw [hleft i hi, hleft j hj]
  exact score_le_of_le hsorted hij.le

/-- A splice asks for lines that a member has. -/
lemma isSome_linesByNo {run : List (Fin hits.length)} (hrun : run ∈ allRuns hits)
    (hm : (mergeRun hits run).isSome = true) {n : ℕ} (hlo : (bounds (members hits run)).1 ≤ n)
    (hhi : n ≤ (bounds (members hits run)).2) :
    (linesByNo (members hits run) n).isSome = true := by
  obtain ⟨⟨best, h⟩, hm⟩ := Option.isSome_iff_exists.mp hm
  obtain ⟨i, hi, hcover⟩ := exists_mem_covering hrun hlo hhi
  refine linesByNo_isSome (List.mem_map_of_mem hi) ?_
  exact (lineOf_isSome_iff ((stands_of_mergeRun hrun hm).exact i hi)).mpr hcover

/-- Each hit is in one run, a run leaves its hits or one in their place, and what is left is in the
order of the scores; no line that is asked for is missing. -/
structure Merged (hits : List Hit) : Prop where
  once : (allRuns hits).flatten.Perm (List.finRange hits.length)
  perm : (mergeAdjacentHits hits).Perm ((allRuns hits).flatMap (shown hits))
  lines : ∀ run ∈ allRuns hits, (mergeRun hits run).isSome = true →
    ∀ n, (bounds (members hits run)).1 ≤ n → n ≤ (bounds (members hits run)).2 →
      (linesByNo (members hits run) n).isSome = true
  ordered : (mergeAdjacentHits hits).Pairwise fun a b => b.score ≤ a.score

theorem merged (hsorted : hits.Pairwise fun a b => b.score ≤ a.score) : Merged hits where
  once := by
    refine (List.perm_ext_iff_of_nodup (nodup_flatten_allRuns hits) (List.nodup_finRange _)).mpr
      fun i => ⟨fun _ => List.mem_finRange i, fun _ => ?_⟩
    obtain ⟨run, hrun, hi⟩ := exists_run i
    exact List.mem_flatten.mpr ⟨run, hrun, hi⟩
  perm := perm_mergeAdjacentHits hits
  lines _ hrun hm _ hlo hhi := isSome_linesByNo hrun hm hlo hhi
  ordered := pairwise_mergeAdjacentHits hsorted

end Merge

/-! ### A Search -/

section Search
variable {ι : Type} {s : Search ι} {scores : ι → Scores} {l : List ι}

lemma Descending.hits (h : Descending scores l) :
    (s.hits scores l).Pairwise fun a b => b.score ≤ a.score := by
  rw [Search.hits, List.pairwise_map]
  exact h

lemma Descending.responseScores (h : Descending scores l) :
    (s.responseScores scores l).Pairwise (· ≥ ·) := by
  rw [Search.responseScores, List.pairwise_map]
  exact (pairwise_mergeAdjacentHits h.hits).imp (roundDigits_mono 3)

/-- The list after the passes of a search, and its scores. -/
structure Result (s : Search ι) (sw : Switches) (reranked : List ι) (scores : ι → Scores)
    (l : List ι) : Prop where
  kept : ∃ l₁ l₂, l₁.Perm reranked ∧ Promoted s.vec_results l₁ l₂ ∧
    CutOff s.cfg sw.adaptive_topk_gap scores l₂ l
  merged : Merged (s.hits scores l)
  ordered : (s.responseScores scores l).Pairwise (· ≥ ·)

theorem exists_passes [DecidableEq ι] (sw : Switches) (hsorted : Descending scores l) (hnodup : l.Nodup) :
    ∃ scores' l', s.passes sw scores l = some (scores', l') ∧ Result s sw l scores' l' := by
  obtain ⟨scores₁, l₁, h₁, hperm, hsorted₁⟩ : ∃ scores₁ l₁,
      passIf sw.use_graph_scoring s.rescore (scores, l) = some (scores₁, l₁) ∧ l₁.Perm l ∧
        Descending scores₁ l₁ := by
    unfold passIf
    split
    · exact exists_graphRescore s.cfg s.ev s.query_embedding s.query_text s.path scores l
    · exact ⟨scores, l, rfl, .refl l, hsorted⟩
  obtain ⟨scores₂, l₂, h₂, hpromoted, hsorted₂⟩ : ∃ scores₂ l₂,
      passIf sw.symbol_promote s.promote (scores₁, l₁) = some (scores₂, l₂) ∧
        Promoted s.vec_results l₁ l₂ ∧ Descending scores₂ l₂ := by
    unfold passIf
    split
    · rename_i hon
      have hne : l₁ ≠ [] := by
        rintro rfl
        simp at hon
      exact exists_promoteDefinition hne (hperm.nodup_iff.mpr hnodup) hsorted₁ s.symbols
    · exact ⟨scores₁, l₁, rfl, .inl (.refl l₁), hsorted₁⟩
  obtain ⟨l₃, h₃, hcut⟩ : ∃ l₃, s.cut sw (scores₂, l₂) = some (scores₂, l₃) ∧
      CutOff s.cfg sw.adaptive_topk_gap scores₂ l₂ l₃ := by
    unfold Search.cut
    split
    · obtain ⟨l₃, h₃, hcut⟩ := exists_adaptiveCut s.cfg sw.adaptive_topk_gap scores₂ l₂
      exact ⟨l₃, by rw [h₃]; rfl, hcut⟩
    · exact ⟨l₂, rfl, .inl rfl⟩
  have hsorted₃ : Descending scores₂ l₃ := hsorted₂.sublist hcut.sublist
  refine ⟨scores₂, l₃, ?_, ⟨l₁, l₂, hperm, hpromoted, hcut⟩, merged hsorted₃.hits,
    hsorted₃.responseScores⟩
  simp only [Search.passes, h₁, h₂, h₃, Option.bind_eq_bind, Option.bind_some]

/-- **Order and scores agree** after each pass and after all of them: no pass raises, where the
promotion is given hits that are distinct and at least one, and no hit is lost or doubled but in the
way of the pass. -/
theorem order_kept [DecidableEq ι] (s : Search ι) (scores : ι → Scores) (reranked : List ι)
    (hsorted : Descending scores reranked) :
    (∃ scores' l, s.rescore scores reranked = some (scores', l) ∧ l.Perm reranked ∧
      Descending scores' l) ∧
    (reranked.Nodup → reranked ≠ [] → ∃ scores' l, s.promote scores reranked = some (scores', l) ∧
      Promoted s.vec_results reranked l ∧ Descending scores' l) ∧
    (∀ gap, ∃ l, adaptiveCut s.cfg gap scores reranked = some l ∧
      CutOff s.cfg gap scores reranked l ∧ Descending scores l) ∧
    Merged (s.hits scores reranked) ∧
    (reranked.Nodup → ∀ sw, ∃ scores' l, s.passes sw scores reranked = some (scores', l) ∧
      Result s sw reranked scores' l) := by
  refine ⟨?_, ?_, ?_, merged hsorted.hits, ?_⟩
  · exact exists_graphRescore s.cfg s.ev s.query_embedding s.query_text s.path scores reranked
  · exact fun hnodup hne => exists_promoteDefinition hne hnodup hsorted s.symbols
  · intro gap
    obtain ⟨l, hl, hcut⟩ := exists_adaptiveCut s.cfg gap scores reranked
    exact ⟨l, hl, hcut, hsorted.sublist hcut.sublist⟩
  · exact fun hnodup sw => exists_passes sw hsorted hnodup

end Search

/-! ### An Empty List and a Repeated Hit -/

def config : Config where
  rerank_normalize := true
  graph_alpha := 1
  graph_beta := 3 / 10
  graph_gamma := 1 / 5
  graph_delta := 2 / 5
  graph_epsilon := 0
  name_full_weight_len := 16
  len_ne_zero := by norm_num
  adaptive_topk_min := 3
  lower := List.map Char.toLower
  norm _ := 0

/-- A pool of a use and the definition of a symbol that the query names. -/
def pool : Search (Fin 2) where
  cfg := config
  ev := ⟨fun _ => [], fun _ => none, fun _ =>
    [⟨.function, "load_config".toList, some "b.py".toList, none, none⟩]⟩
  query_embedding := []
  query_text := "load_config".toList
  symbols := ["load_config".toList]
  path_prefix := none
  row i := ⟨i, "x".toList, if i = 0 then "a.py".toList else "b.py".toList, "python", 1, 1, "s"⟩
  graph_enhanced _ := false
  vec_results := [0, 1]

def poolScores : Fin 2 → Scores := fun i => ⟨none, some (if i = 0 then 2 else 1), none⟩

theorem order_kept_pool :
    ∃ scores' l, pool.passes ⟨true, true, true, 1 / 2⟩ poolScores [0, 1] = some (scores', l) ∧
      Result pool ⟨true, true, true, 1 / 2⟩ [0, 1] scores' l :=
  (order_kept pool poolScores [0, 1] (by decide +kernel)).2.2.2.2 (by decide) _

/-- The promotion of a chunk of the pool asks for the best score of an empty list; and one that
moves a hit to the front of its own double gives both the score of the front. -/
theorem promote_raises_and_disorders :
    (Descending poolScores [] ∧ pool.promote poolScores [] = none) ∧
    Descending poolScores [0, 1, 1] ∧
    ∃ scores' l, pool.promote poolScores [0, 1, 1] = some (scores', l) ∧
      ¬ Descending scores' l :=
  ⟨⟨.nil, by decide +kernel⟩, by decide +kernel, setFinal poolScores 1 (2001 / 1000), [1, 0, 1],
    by decide +kernel, by decide +kernel⟩

end Treeweft.ResultOrder
