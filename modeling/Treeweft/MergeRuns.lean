import Treeweft.Hydrate

/-!
The runs that a merge of adjacent hits makes, for any list of hits.

Every hit is in one run. A run that is merged leaves one hit, any other run leaves its hits as they
are; what a merge returns is what its runs leave, in the order of the hits they leave.
-/

namespace Treeweft.MergeRuns

open Treeweft.Hydrate

/-! ### Lists Cut by a Relation -/

section Cut
variable {α : Type*} {r : α → α → Bool}

/-- Neighbours that are related are in one part, where every cut is between unrelated ones. -/
lemma exists_part_of_rel {G : List (List α)} (hne : [] ∉ G)
    (hG : G.IsChain fun a b => ∃ ha hb, r (a.getLast ha) (b.head hb) = false)
    {ys zs : List α} {c d : α} (h : G.flatten = ys ++ c :: d :: zs) (hr : r c d = true) :
    ∃ part ∈ G, c ∈ part ∧ d ∈ part := by
  induction G generalizing ys with
  | nil =>
    rw [List.flatten_nil] at h
    exact absurd h.symm (List.append_ne_nil_of_right_ne_nil _ (List.cons_ne_nil _ _))
  | cons R G ih =>
    have hne' : [] ∉ G := fun h => hne (List.mem_cons_of_mem R h)
    have hlater : ∀ ys, G.flatten = ys ++ c :: d :: zs →
        ∃ part ∈ R :: G, c ∈ part ∧ d ∈ part := by
      intro ys h
      obtain ⟨part, hpart, hcd⟩ := ih hne' hG.tail h
      exact ⟨part, List.mem_cons_of_mem R hpart, hcd⟩
    rw [List.flatten_cons, List.append_eq_append_iff] at h
    rcases h with ⟨as, rfl, hG'⟩ | ⟨cs, rfl, hcs⟩
    · exact hlater as hG'
    · rcases cs with _ | ⟨c', cs⟩
      · exact hlater [] hcs.symm
      · obtain ⟨rfl, htail⟩ := List.cons.inj hcs
        rcases cs with _ | ⟨d', cs⟩
        · -- the cut would be between the two
          cases G with
          | nil => cases htail
          | cons S G =>
            obtain ⟨_, hS, hcut⟩ := (List.isChain_cons_cons.1 hG).1
            obtain ⟨s, S, rfl⟩ := List.exists_cons_of_ne_nil hS
            obtain ⟨rfl, -⟩ := List.cons.inj htail
            rw [List.getLast_concat, List.head_cons, hr] at hcut
            cases hcut
        · obtain ⟨rfl, -⟩ := List.cons.inj htail
          exact ⟨_, List.mem_cons_self, by simp, by simp⟩

lemma exists_mem_splitBy_of_rel {l ys zs : List α} {c d : α} (h : l = ys ++ c :: d :: zs)
    (hr : r c d = true) : ∃ part ∈ l.splitBy r, c ∈ part ∧ d ∈ part :=
  exists_part_of_rel (List.nil_notMem_splitBy r l) (List.isChain_getLast_head_splitBy r l)
    ((List.flatten_splitBy r l).trans h) hr

/-- Before a part that is not the first, the list is cut. -/
lemma exists_cut {l : List α} {P S : List (List α)} {R : List α} (h : l.splitBy r = P ++ R :: S)
    (hP : P ≠ []) : ∃ ys c d zs, l = ys ++ c :: d :: zs ∧ r c d = false ∧
      ys ++ [c] = P.flatten ∧ d :: zs = R ++ S.flatten ∧ d ∈ R := by
  obtain ⟨P, Q, rfl⟩ := (List.eq_nil_or_concat' P).resolve_left hP
  have hne := List.nil_notMem_splitBy r l
  have hchain := List.isChain_getLast_head_splitBy r l
  have hl := List.flatten_splitBy r l
  rw [h] at hne hchain hl
  rw [List.append_assoc] at hchain
  obtain ⟨hQ, hR, hcut⟩ := (List.isChain_cons_cons.1 hchain.right_of_append).1
  obtain ⟨d, zs, rfl⟩ := List.exists_cons_of_ne_nil hR
  obtain ⟨Q, c, rfl⟩ := (List.eq_nil_or_concat' Q).resolve_left hQ
  rw [List.getLast_concat, List.head_cons] at hcut
  refine ⟨P.flatten ++ Q, c, d, zs ++ S.flatten, ?_, hcut, ?_, rfl, List.mem_cons_self⟩
  · rw [← hl]
    simp
  · simp

/-- The parts are the related stretches that go no farther on either side. -/
lemma mem_splitBy_iff {l part : List α} : part ∈ l.splitBy r ↔
    part ≠ [] ∧ (part.IsChain fun c d => r c d = true) ∧ ∃ pre post, l = pre ++ (part ++ post) ∧
      (∀ c ∈ pre.getLast?, ∀ d ∈ part.head?, r c d = false) ∧
      ∀ c ∈ part.getLast?, ∀ d ∈ post.head?, r c d = false := by
  constructor
  · intro h
    have hpart := List.ne_nil_of_mem_splitBy h
    obtain ⟨P, S, hG⟩ := List.append_of_mem h
    have hl := List.flatten_splitBy r l
    rw [hG, List.flatten_append, List.flatten_cons] at hl
    refine ⟨hpart, List.isChain_of_mem_splitBy h, P.flatten, S.flatten, hl.symm, ?_, ?_⟩
    · intro c hc d hd
      obtain ⟨ys, c', d', zs, -, hcut, hys, hzs, -⟩ := exists_cut hG (by
        rintro rfl
        cases hc)
      obtain ⟨d'', rest, rfl⟩ := List.exists_cons_of_ne_nil hpart
      rw [← hys, List.getLast?_concat, Option.mem_some_iff] at hc
      rw [List.head?_cons, Option.mem_some_iff] at hd
      rw [List.cons_append] at hzs
      rw [← hc, ← hd, ← (List.cons.inj hzs).1]
      exact hcut
    · intro c hc d hd
      cases S with
      | nil => cases hd
      | cons R S =>
        have hG' : l.splitBy r = (P ++ [part]) ++ R :: S := by
          rw [hG, List.append_assoc]
          rfl
        obtain ⟨ys, c', d', zs, -, hcut, hys, hzs, -⟩ := exists_cut hG' (by simp)
        obtain ⟨rest, c'', rfl⟩ := (List.eq_nil_or_concat' part).resolve_left hpart
        rw [List.flatten_append, List.flatten_singleton, ← List.append_assoc] at hys
        rw [List.getLast?_concat, Option.mem_some_iff] at hc
        rw [List.flatten_cons, ← hzs, List.head?_cons, Option.mem_some_iff] at hd
        rw [← hc, ← hd, ← List.singleton_inj.1 (List.append_inj' hys rfl).2]
        exact hcut
  · rintro ⟨hpart, hchain, pre, post, rfl, hpre, hpost⟩
    have hpre' : ∀ c ∈ pre.getLast?, ∀ d ∈ (part ++ post).head?, r c d = false := by
      intro c hc d hd
      rw [List.head?_append_of_ne_nil _ hpart] at hd
      exact hpre c hc d hd
    rw [List.splitBy_append hpre', List.splitBy_append hpost,
      List.splitBy_of_isChain hpart hchain]
    exact List.mem_append_right _ (List.mem_append_left _ List.mem_cons_self)

end Cut

/-! ### Runs -/

/-- What a merge is given. -/
abbrev Hits := List Hit

section Runs
variable (hits : Hits)

/-- The next hit begins no later than on the line after the last one of this. -/
def touches (i j : Fin hits.length) : Bool := hits[j].start_line ≤ hits[i].end_line + 1

def key (i : Fin hits.length) : ℕ ×ₗ ℕ := toLex (hits[i].start_line, hits[i].end_line)

/-- The hits of a path in the order of the merge. -/
def ordered (path : List Char) : List (Fin hits.length) :=
  (byFile hits path).insertionSort fun i j => key hits i ≤ key hits j

variable {hits} {path : List Char} {run run' : List (Fin hits.length)} {i j : Fin hits.length}

/-- Hits of a path, each of which touches the next, as far as that goes on either side. -/
structure Stretch (hits : Hits) (path : List Char) (run : List (Fin hits.length)) : Prop where
  ne_nil : run ≠ []
  chain : run.IsChain fun i j => touches hits i j = true
  whole : ∃ pre post, ordered hits path = pre ++ (run ++ post) ∧
    (∀ i ∈ pre.getLast?, ∀ j ∈ run.head?, touches hits i j = false) ∧
    ∀ i ∈ run.getLast?, ∀ j ∈ post.head?, touches hits i j = false

lemma mem_ordered : i ∈ ordered hits path ↔ hits[i].file_path = path := by
  rw [ordered, List.mem_insertionSort, byFile, List.mem_filter]
  simp

lemma nodup_ordered : (ordered hits path).Nodup :=
  (List.perm_insertionSort _ _).nodup_iff.2 ((List.nodup_finRange _).filter _)

lemma pairwise_ordered : (ordered hits path).Pairwise fun i j => key hits i ≤ key hits j :=
  List.pairwise_insertionSort _ _

lemma start_le_of_key_le (h : key hits i ≤ key hits j) :
    hits[i].start_line ≤ hits[j].start_line := by
  rcases Prod.Lex.le_iff.1 h with hlt | ⟨heq, -⟩
  · exact le_of_lt hlt
  · exact le_of_eq heq

lemma mem_allRuns : run ∈ allRuns hits ↔ ∃ path ∈ hits.map (·.file_path),
    run ∈ (ordered hits path).splitBy (touches hits) := by
  rw [allRuns, List.mem_flatMap]
  simp only [List.mem_dedup]
  rfl

lemma mem_allRuns_of (h : run ∈ (ordered hits path).splitBy (touches hits)) :
    run ∈ allRuns hits := by
  obtain ⟨i, rest, rfl⟩ := List.exists_cons_of_ne_nil (List.ne_nil_of_mem_splitBy h)
  have hi : i ∈ ordered hits path := by
    have hflat := List.flatten_splitBy (touches hits) (ordered hits path)
    exact hflat ▸ List.mem_flatten.2 ⟨_, h, List.mem_cons_self⟩
  refine mem_allRuns.2 ⟨path, ?_, h⟩
  rw [← mem_ordered.1 hi]
  exact List.mem_map_of_mem (List.getElem_mem i.2)

lemma mem_allRuns_iff : run ∈ allRuns hits ↔ ∃ path, Stretch hits path run := by
  constructor
  · intro h
    obtain ⟨path, -, h⟩ := mem_allRuns.1 h
    obtain ⟨hne, hchain, hwhole⟩ := mem_splitBy_iff.1 h
    exact ⟨path, hne, hchain, hwhole⟩
  · rintro ⟨path, h⟩
    exact mem_allRuns_of (mem_splitBy_iff.2 ⟨h.ne_nil, h.chain, h.whole⟩)

lemma sublist_ordered (h : run ∈ (ordered hits path).splitBy (touches hits)) :
    run.Sublist (ordered hits path) := by
  have hsub := List.sublist_flatten_of_mem h
  rw [List.flatten_splitBy] at hsub
  exact hsub

lemma exists_run (i : Fin hits.length) : ∃ run ∈ allRuns hits, i ∈ run := by
  have hi : i ∈ ((ordered hits hits[i].file_path).splitBy (touches hits)).flatten := by
    rw [List.flatten_splitBy]
    exact mem_ordered.2 rfl
  obtain ⟨run, hrun, hmem⟩ := List.mem_flatten.1 hi
  exact ⟨run, mem_allRuns_of hrun, hmem⟩

lemma nodup_flatten_allRuns (hits : Hits) : (allRuns hits).flatten.Nodup := by
  have hflat : (allRuns hits).flatten = (hits.map (·.file_path)).dedup.flatMap (ordered hits) := by
    rw [allRuns, List.flatMap_def, List.flatten_flatten, List.map_map, ← List.flatMap_def]
    refine List.flatMap_congr fun path _ => ?_
    exact List.flatten_splitBy (touches hits) (ordered hits path)
  rw [hflat, List.nodup_flatMap]
  refine ⟨fun _ _ => nodup_ordered, (List.nodup_dedup _).imp fun hne i hi hj => hne ?_⟩
  exact (mem_ordered.1 hi).symm.trans (mem_ordered.1 hj)

lemma nodup_of_mem_allRuns (h : run ∈ allRuns hits) : run.Nodup :=
  (List.nodup_flatten.1 (nodup_flatten_allRuns hits)).1 run h

lemma ne_nil_of_mem_allRuns (h : run ∈ allRuns hits) : run ≠ [] := by
  obtain ⟨_, -, h⟩ := mem_allRuns.1 h
  exact List.ne_nil_of_mem_splitBy h

/-- A hit is in one run. -/
lemma run_unique (h : run ∈ allRuns hits) (h' : run' ∈ allRuns hits) (hi : i ∈ run)
    (hi' : i ∈ run') : run = run' := by
  by_contra hne
  have hdisj := (List.nodup_flatten.1 (nodup_flatten_allRuns hits)).2
  have hsymm : Std.Symm (@List.Disjoint (Fin hits.length)) := ⟨fun _ _ h => h.symm⟩
  exact hdisj.forall h h' hne hi hi'

lemma nodup_allRuns (hits : Hits) : (allRuns hits).Nodup := by
  refine (List.nodup_flatten.1 (nodup_flatten_allRuns hits)).2.imp_of_mem ?_
  rintro run _ h _ hdisj rfl
  obtain ⟨i, hi⟩ := List.exists_mem_of_ne_nil _ (ne_nil_of_mem_allRuns h)
  exact hdisj hi hi

lemma path_eq_of_mem_run (h : run ∈ allRuns hits) (hi : i ∈ run) (hj : j ∈ run) :
    hits[i].file_path = hits[j].file_path := by
  obtain ⟨path, -, h⟩ := mem_allRuns.1 h
  have hsub := sublist_ordered h
  exact (mem_ordered.1 (hsub.mem hi)).trans (mem_ordered.1 (hsub.mem hj)).symm

lemma pairwise_run (h : run ∈ allRuns hits) : run.Pairwise fun i j => key hits i ≤ key hits j := by
  obtain ⟨path, -, h⟩ := mem_allRuns.1 h
  exact pairwise_ordered.sublist (sublist_ordered h)

lemma isChain_run (h : run ∈ allRuns hits) :
    run.IsChain fun i j => hits[j].start_line ≤ hits[i].end_line + 1 := by
  obtain ⟨path, -, h⟩ := mem_allRuns.1 h
  refine (List.isChain_of_mem_splitBy h).imp fun i j hij => ?_
  exact of_decide_eq_true hij

end Runs

/-! ### What a Run Leaves -/

section Outputs
variable (hits : Hits)

/-- The hits of a run. -/
def members (run : List (Fin hits.length)) : List Hit := run.map fun i => hits[i]

/-- The hit that stands for a merged run. -/
structure Stands (run : List (Fin hits.length)) (best : Fin hits.length) (h : Hit) : Prop where
  two : 2 ≤ run.length
  exact : ∀ i ∈ run, Exact hits[i].start_line hits[i].end_line hits[i].snippet
  mem : best ∈ run
  first : ∀ i ∈ run, best ≤ i
  file_path : h.file_path = hits[best].file_path
  source_id : h.source_id = hits[best].source_id
  bounds : (h.start_line, h.end_line) = bounds (members hits run)
  snippet : spliceSnippets (members hits run) = some h.snippet
  score : h.score = ((members hits run).map (·.score)).foldl max hits[best].score

/-- What a run leaves: its best hit, or all of them where it is not merged. -/
def survivors (run : List (Fin hits.length)) : List (Fin hits.length) :=
  match mergeRun hits run with
  | some (best, _) => [best]
  | none => run

def shown (run : List (Fin hits.length)) : List Hit :=
  match mergeRun hits run with
  | some (_, h) => [h]
  | none => members hits run

def merged : List (List (Fin hits.length) × Fin hits.length × Hit) :=
  (allRuns hits).filterMap fun run => (mergeRun hits run).map fun m => (run, m)

def consumed (i : Fin hits.length) : Bool :=
  (merged hits).any fun (run, best, _) => i ∈ run && i ≠ best

def output (i : Fin hits.length) : Hit :=
  (((merged hits).find? fun (_, best, _) => best = i).map fun (_, _, h) => h).getD hits[i]

lemma mergeAdjacentHits_eq : mergeAdjacentHits hits =
    ((List.finRange hits.length).filter fun i => !consumed hits i).map (output hits) := rfl

variable {hits} {run : List (Fin hits.length)} {i best : Fin hits.length} {h : Hit}

lemma insertionSort_members (hrun : run ∈ allRuns hits) :
    (members hits run).insertionSort (fun a b => a.start_line ≤ b.start_line) =
      members hits run := by
  refine List.Pairwise.insertionSort_eq ?_
  rw [members, List.pairwise_map]
  exact (pairwise_run hrun).imp start_le_of_key_le

lemma stands_of_mergeRun (hrun : run ∈ allRuns hits) (hm : mergeRun hits run = some (best, h)) :
    Stands hits run best h := by
  have hsort := insertionSort_members hrun
  match run, hm with
  | i :: j :: run, hm =>
    unfold mergeRun at hm
    rw [members] at hsort
    simp only [hsort] at hm
    obtain ⟨text, htext, hm⟩ := Option.map_eq_some_iff.1 hm
    obtain ⟨rfl, rfl⟩ := Prod.mk.inj hm
    refine ⟨by simp, ?_, foldl_min_mem i (j :: run), fun k hk => foldl_min_le hk, rfl, rfl, rfl,
      htext, rfl⟩
    intro k hk
    unfold spliceSnippets at htext
    split at htext
    case isTrue hexact => exact hexact _ (List.mem_map_of_mem hk)
    case isFalse => cases htext

lemma exists_mergeRun (hrun : run ∈ allRuns hits) (htwo : 2 ≤ run.length)
    (hexact : ∀ i ∈ run, Exact hits[i].start_line hits[i].end_line hits[i].snippet) :
    ∃ best h, mergeRun hits run = some (best, h) := by
  have hsort := insertionSort_members hrun
  match run, htwo with
  | i :: j :: run, _ =>
    unfold mergeRun
    rw [members] at hsort
    simp only [hsort]
    have hsplice : ∃ text, spliceSnippets ((i :: j :: run).map fun i => hits[i]) = some text := by
      unfold spliceSnippets
      rw [if_pos]
      · exact ⟨_, rfl⟩
      · intro a ha
        obtain ⟨k, hk, rfl⟩ := List.mem_map.1 ha
        exact hexact k hk
    obtain ⟨text, htext⟩ := hsplice
    rw [htext]
    exact ⟨_, _, rfl⟩

lemma mem_merged {x : List (Fin hits.length) × Fin hits.length × Hit} : x ∈ merged hits ↔
    x.1 ∈ allRuns hits ∧ mergeRun hits x.1 = some x.2 := by
  rw [merged, List.mem_filterMap]
  constructor
  · rintro ⟨run, hrun, hx⟩
    obtain ⟨m, hm, rfl⟩ := Option.map_eq_some_iff.1 hx
    exact ⟨hrun, hm⟩
  · rintro ⟨hrun, hm⟩
    exact ⟨x.1, hrun, by rw [hm]; rfl⟩

lemma consumed_iff : consumed hits i = true ↔ ∃ run ∈ allRuns hits, ∃ best h,
    mergeRun hits run = some (best, h) ∧ i ∈ run ∧ i ≠ best := by
  rw [consumed, List.any_eq_true]
  constructor
  · rintro ⟨⟨run, best, h⟩, hx, hi⟩
    obtain ⟨hrun, hm⟩ := mem_merged.1 hx
    rw [Bool.and_eq_true, decide_eq_true_eq, decide_eq_true_eq] at hi
    exact ⟨run, hrun, best, h, hm, hi⟩
  · rintro ⟨run, hrun, best, h, hm, hi⟩
    refine ⟨(run, best, h), mem_merged.2 ⟨hrun, hm⟩, ?_⟩
    rw [Bool.and_eq_true, decide_eq_true_eq, decide_eq_true_eq]
    exact hi

/-- The hits that are left are those that the runs leave. -/
lemma not_consumed_iff (hrun : run ∈ allRuns hits) (hi : i ∈ run) :
    consumed hits i = false ↔ i ∈ survivors hits run := by
  rw [← Bool.not_eq_true, consumed_iff, survivors]
  cases hm : mergeRun hits run with
  | none =>
    refine ⟨fun _ => hi, fun _ => ?_⟩
    rintro ⟨run', hrun', best, h, hm', hi', -⟩
    rw [run_unique hrun' hrun hi' hi, hm] at hm'
    cases hm'
  | some m =>
    obtain ⟨best, h⟩ := m
    rw [List.mem_singleton]
    constructor
    · intro hnot
      by_contra hne
      exact hnot ⟨run, hrun, best, h, hm, hi, hne⟩
    · rintro rfl ⟨run', hrun', best', h', hm', hi', hne⟩
      rw [run_unique hrun' hrun hi' hi, hm] at hm'
      exact hne (Prod.mk.inj (Option.some.inj hm')).1

lemma output_of_merged (hrun : run ∈ allRuns hits) (hm : mergeRun hits run = some (best, h)) :
    output hits best = h := by
  have hbest := (stands_of_mergeRun hrun hm).mem
  have hfind : ((merged hits).find? fun (_, best', _) => best' = best).isSome = true :=
    List.find?_isSome.2 ⟨(run, best, h), mem_merged.2 ⟨hrun, hm⟩, decide_eq_true rfl⟩
  obtain ⟨⟨run', best', h'⟩, hx⟩ := Option.isSome_iff_exists.1 hfind
  obtain ⟨hrun', hm'⟩ := mem_merged.1 (List.mem_of_find?_eq_some hx)
  have hb := List.find?_some hx
  obtain rfl : best' = best := of_decide_eq_true hb
  have hbest' := (stands_of_mergeRun hrun' hm').mem
  rw [run_unique hrun' hrun hbest' hbest, hm] at hm'
  obtain ⟨-, rfl⟩ := Prod.mk.inj (Option.some.inj hm')
  rw [output, hx]
  rfl

lemma output_of_unmerged (hrun : run ∈ allRuns hits) (hi : i ∈ run)
    (hm : mergeRun hits run = none) : output hits i = hits[i] := by
  have hfind : (merged hits).find? (fun (_, best', _) => best' = i) = none := by
    rw [List.find?_eq_none]
    rintro ⟨run', best', h'⟩ hx hb
    obtain ⟨hrun', hm'⟩ := mem_merged.1 hx
    obtain rfl : best' = i := of_decide_eq_true hb
    rw [run_unique hrun' hrun (stands_of_mergeRun hrun' hm').mem hi, hm] at hm'
    cases hm'
  rw [output, hfind]
  rfl

lemma map_output_survivors (hrun : run ∈ allRuns hits) :
    (survivors hits run).map (output hits) = shown hits run := by
  rw [survivors, shown]
  cases hm : mergeRun hits run with
  | none => exact List.map_congr_left fun i hi => output_of_unmerged hrun hi hm
  | some m =>
    obtain ⟨best, h⟩ := m
    exact congrArg (fun x => [x]) (output_of_merged hrun hm)

/-! ### Ranges -/

/-- The first line of a run is that of its first hit. -/
lemma bounds_fst_le (hrun : run ∈ allRuns hits) (hi : i ∈ run) :
    (bounds (members hits run)).1 ≤ hits[i].start_line := by
  have hpair := pairwise_run hrun
  cases run with
  | nil => cases hi
  | cons j run =>
    rcases List.mem_cons.1 hi with rfl | hi
    · exact le_rfl
    · exact start_le_of_key_le ((List.pairwise_cons.1 hpair).1 i hi)

lemma le_bounds_snd (hi : i ∈ run) : hits[i].end_line ≤ (bounds (members hits run)).2 := by
  refine le_foldl_max.2 (.inr ⟨hits[i].end_line, ?_, le_rfl⟩)
  exact List.mem_map_of_mem (List.mem_map_of_mem hi)

/-- The last line of a run is that of one of its hits. -/
lemma exists_end_ge (hrun : run ∈ allRuns hits) :
    ∃ i ∈ run, (bounds (members hits run)).2 ≤ hits[i].end_line := by
  rcases le_foldl_max.1 (le_refl (bounds (members hits run)).2) with hzero | ⟨m, hm, hle⟩
  · obtain ⟨i, hi⟩ := List.exists_mem_of_ne_nil _ (ne_nil_of_mem_allRuns hrun)
    exact ⟨i, hi, hzero.trans (Nat.zero_le _)⟩
  · rw [members, List.map_map] at hm
    obtain ⟨i, hi, rfl⟩ := List.mem_map.1 hm
    exact ⟨i, hi, hle⟩

/-- A run has every line of its range. -/
lemma exists_mem_covering (hrun : run ∈ allRuns hits) {n : ℕ}
    (hlo : (bounds (members hits run)).1 ≤ n) (hhi : n ≤ (bounds (members hits run)).2) :
    ∃ i ∈ run, hits[i].start_line ≤ n ∧ n ≤ hits[i].end_line := by
  have hchain := isChain_run hrun
  obtain ⟨k, hk, hend⟩ := exists_end_ge hrun
  obtain ⟨i, rest, rfl⟩ := List.exists_cons_of_ne_nil (ne_nil_of_mem_allRuns hrun)
  exact exists_covering (fun i : Fin hits.length => hits[i].start_line)
    (fun i : Fin hits.length => hits[i].end_line) hchain hlo ⟨k, hk, hhi.trans hend⟩

lemma lineOf_isSome_iff {h : Hit} (hexact : Exact h.start_line h.end_line h.snippet) {n : ℕ} :
    (lineOf h.start_line h.snippet n).isSome = true ↔ h.start_line ≤ n ∧ n ≤ h.end_line := by
  have hlines : h.start_line + (h.snippet.splitOn '\n').length = h.end_line + 1 := hexact
  unfold lineOf
  split
  · rw [isSome_getElem?]
    omega
  · simp
    omega

/-- A member that has a line gives it to the splice, or a later one does. -/
lemma linesByNo_isSome {ms : List Hit} {h : Hit} {n : ℕ} (hm : h ∈ ms)
    (hl : (lineOf h.start_line h.snippet n).isSome = true) : (linesByNo ms n).isSome = true := by
  have key : ∀ line, line.isSome = true ∨ h ∈ ms →
      (ms.foldl (fun line h => (lineOf h.start_line h.snippet n).or line) line).isSome = true := by
    clear hm
    induction ms with
    | nil => exact fun line hor => hor.resolve_right List.not_mem_nil
    | cons m ms ih =>
      intro line hor
      refine ih _ ?_
      rcases hor with hline | hmem
      · exact .inl (by rw [Option.isSome_or, hline, Bool.or_true])
      · rcases List.mem_cons.1 hmem with rfl | hmem
        · exact .inl (by rw [Option.isSome_or, hl, Bool.true_or])
        · exact .inr hmem
  exact key none (.inr hm)

/-- A run whose hits have the lines they declare leaves one hit, for its range. -/
lemma exists_shown (hrun : run ∈ allRuns hits)
    (hexact : ∀ h ∈ hits, Exact h.start_line h.end_line h.snippet) :
    ∃ o, ∃ best ∈ run, shown hits run = [o] ∧ o.file_path = hits[best].file_path ∧
      o.source_id = hits[best].source_id ∧
      (o.start_line, o.end_line) = bounds (members hits run) := by
  rcases Nat.lt_or_ge run.length 2 with hone | htwo
  · match run, ne_nil_of_mem_allRuns hrun, hone with
    | [i], _, _ =>
      refine ⟨hits[i], i, List.mem_cons_self, rfl, rfl, rfl, ?_⟩
      exact congrArg (hits[i].start_line, ·) (Nat.zero_max _).symm
  · obtain ⟨best, h, hm⟩ := exists_mergeRun hrun htwo fun i _ => hexact _ (List.getElem_mem i.2)
    have hs := stands_of_mergeRun hrun hm
    refine ⟨h, best, hs.mem, ?_, hs.file_path, hs.source_id, hs.bounds⟩
    rw [shown, hm]

/-- **What a merge returns** is what its runs leave. -/
theorem perm_mergeAdjacentHits (hits : Hits) :
    (mergeAdjacentHits hits).Perm ((allRuns hits).flatMap (shown hits)) := by
  have hsub : ∀ run ∈ allRuns hits, ∀ i ∈ survivors hits run, i ∈ run := by
    intro run hrun i hi
    rw [survivors] at hi
    cases hm : mergeRun hits run with
    | none => rw [hm] at hi; exact hi
    | some m =>
      rw [hm, List.mem_singleton] at hi
      exact hi ▸ (stands_of_mergeRun hrun hm).mem
  have hleft : ((List.finRange hits.length).filter fun i => !consumed hits i).Perm
      ((allRuns hits).flatMap (survivors hits)) := by
    refine (List.perm_ext_iff_of_nodup ((List.nodup_finRange _).filter _) ?_).2 fun i => ?_
    · refine List.nodup_flatMap.2 ⟨fun run hrun => ?_, ?_⟩
      · rw [survivors]
        split
        · exact List.nodup_singleton _
        · exact nodup_of_mem_allRuns hrun
      · refine (List.nodup_flatten.1 (nodup_flatten_allRuns hits)).2.imp_of_mem ?_
        intro a b ha hb hdisj i hia hib
        exact hdisj (hsub a ha i hia) (hsub b hb i hib)
    · rw [List.mem_filter, List.mem_flatMap, Bool.not_eq_true']
      obtain ⟨run, hrun, hi⟩ := exists_run i
      constructor
      · rintro ⟨-, hleft⟩
        exact ⟨run, hrun, (not_consumed_iff hrun hi).1 hleft⟩
      · rintro ⟨run', hrun', hi'⟩
        exact ⟨List.mem_finRange i, (not_consumed_iff hrun' (hsub run' hrun' i hi')).2 hi'⟩
  rw [mergeAdjacentHits_eq]
  refine (hleft.map (output hits)).trans (List.Perm.of_eq ?_)
  rw [List.map_flatMap]
  exact List.flatMap_congr fun run hrun => map_output_survivors hrun

end Outputs

end Treeweft.MergeRuns
