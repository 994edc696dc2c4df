import Treeweft.MergeRuns

/-!
The ranges of merged hits.

The sweep goes through the hits of a path in the order of their lines and cuts where a hit begins
after the line next to the end of the one before it. The one before need not be the one that reaches
farthest, and hits of one path need not be of one source.
-/

namespace Treeweft.MergedRanges

open Treeweft.Hydrate Treeweft.MergeRuns

/-- Two hits of a file have a line between them. -/
def Apart (a b : Hit) : Prop :=
  a.file_path = b.file_path → a.source_id = b.source_id →
    a.end_line + 1 < b.start_line ∨ b.end_line + 1 < a.start_line

lemma Apart.symm {a b : Hit} (h : Apart a b) : Apart b a :=
  fun hp hs => (h hp.symm hs.symm).symm

/-- A hit of the same file has the range of another. -/
def covers (o h : Hit) : Bool :=
  o.file_path = h.file_path && o.source_id = h.source_id && o.start_line ≤ h.start_line &&
    h.end_line ≤ o.end_line

lemma covers_iff {o h : Hit} : covers o h = true ↔ o.file_path = h.file_path ∧
    o.source_id = h.source_id ∧ o.start_line ≤ h.start_line ∧ h.end_line ≤ o.end_line := by
  simp only [covers, Bool.and_eq_true, decide_eq_true_eq, and_assoc]

/-- What is merged. -/
abbrev Hits := List Hit

/-- What a merge returns is maximal and disjoint in each file, and no file is mixed with another. -/
structure Separate (hits : Hits) : Prop where
  apart : (mergeAdjacentHits hits).Pairwise Apart
  covered : ∀ h ∈ hits, ∃ o, (mergeAdjacentHits hits).filter (covers · h) = [o]
  unmixed : ∀ run ∈ allRuns hits, (mergeRun hits run).isSome = true → ∀ i ∈ run, ∀ j ∈ run,
    hits[i].source_id = hits[j].source_id

/-- Where the sweep goes on from one hit of a path to the next, they are of one source; where it
cuts, no hit so far of the source of the next one reaches it. -/
structure WellCut (hits : Hits) : Prop where
  same : ∀ path ys c d zs, ordered hits path = ys ++ c :: d :: zs → touches hits c d = true →
    hits[c].source_id = hits[d].source_id
  clear : ∀ path ys c d zs, ordered hits path = ys ++ c :: d :: zs → touches hits c d = false →
    ∀ a ∈ ys ++ [c], hits[a].source_id = hits[d].source_id →
      hits[a].end_line + 1 < hits[d].start_line

section Cut
variable {hits : Hits} {run run' : List (Fin hits.length)} {i j : Fin hits.length}

/-- A run of a well-cut list is of one source. -/
lemma WellCut.source (hw : WellCut hits) (hrun : run ∈ allRuns hits) (hi : i ∈ run) (hj : j ∈ run) :
    hits[i].source_id = hits[j].source_id := by
  obtain ⟨path, -, h⟩ := mem_allRuns.1 hrun
  obtain ⟨P, S, hG⟩ := List.append_of_mem h
  have hflat := List.flatten_splitBy (touches hits) (ordered hits path)
  rw [hG, List.flatten_append, List.flatten_cons] at hflat
  have hchain : run.IsChain fun i j => hits[i].source_id = hits[j].source_id := by
    refine List.isChain_iff_forall_rel_of_append_cons_cons.2 fun c d l₁ l₂ hl => ?_
    have htouch := List.isChain_iff_forall_rel_of_append_cons_cons.1
      (List.isChain_of_mem_splitBy h) hl
    refine hw.same path (P.flatten ++ l₁) c d (l₂ ++ S.flatten) ?_ htouch
    rw [← hflat, hl]
    simp
  have hpair := List.isChain_iff_pairwise.1 hchain
  by_cases hij : i = j
  · rw [hij]
  · have hsymm : Std.Symm fun i j : Fin hits.length => hits[i].source_id = hits[j].source_id :=
      ⟨fun _ _ h => h.symm⟩
    exact hpair.forall hi hj hij

/-- Between two runs of one source there is a line. -/
lemma WellCut.gap (hw : WellCut hits) {path : List Char} {P S : List (List (Fin hits.length))}
    (hG : (ordered hits path).splitBy (touches hits) = P ++ run' :: S) (hrun : run ∈ P)
    (hi : i ∈ run) (hj : j ∈ run') (hs : hits[i].source_id = hits[j].source_id) :
    (bounds (members hits run)).2 + 1 < (bounds (members hits run')).1 := by
  have hmem : ∀ R ∈ P ++ run' :: S, R ∈ allRuns hits := fun R hR => mem_allRuns_of (hG ▸ hR)
  have hruns := hmem run (List.mem_append_left _ hrun)
  have hruns' := hmem run' (List.mem_append_right _ List.mem_cons_self)
  obtain ⟨ys, c, d, zs, hl, hcut, hys, hzs, hd⟩ := exists_cut hG (List.ne_nil_of_mem hrun)
  obtain ⟨k, hk, hend⟩ := exists_end_ge hruns
  have hreach : hits[k].end_line + 1 < hits[d].start_line := by
    refine hw.clear path ys c d zs hl hcut k ?_ ?_
    · rw [hys]
      exact List.mem_flatten.2 ⟨run, hrun, hk⟩
    · exact (hw.source hruns hk hi).trans (hs.trans (hw.source hruns' hj hd))
  have hfirst : hits[d].start_line = (bounds (members hits run')).1 := by
    obtain ⟨d', rest, rfl⟩ := List.exists_cons_of_ne_nil (List.ne_nil_of_mem hd)
    obtain ⟨rfl, -⟩ := List.cons.inj hzs
    rfl
  omega

/-- The outputs of two runs of a well-cut list. -/
lemma WellCut.apart_shown (hw : WellCut hits)
    (hexact : ∀ h ∈ hits, Exact h.start_line h.end_line h.snippet) (hrun : run ∈ allRuns hits)
    (hrun' : run' ∈ allRuns hits) (hne : run ≠ run') {o o' : Hit} (ho : o ∈ shown hits run)
    (ho' : o' ∈ shown hits run') : Apart o o' := by
  obtain ⟨_, i, hi, hshown, hfile, hsource, hbounds⟩ := exists_shown hrun hexact
  obtain ⟨_, j, hj, hshown', hfile', hsource', hbounds'⟩ := exists_shown hrun' hexact
  rw [hshown, List.mem_singleton] at ho
  rw [hshown', List.mem_singleton] at ho'
  subst ho ho'
  obtain ⟨hlo, hhi⟩ := Prod.mk.inj hbounds
  obtain ⟨hlo', hhi'⟩ := Prod.mk.inj hbounds'
  intro hpath hs
  rw [hfile, hfile'] at hpath
  rw [hsource, hsource'] at hs
  rw [hlo, hhi, hlo', hhi']
  obtain ⟨path, -, h⟩ := mem_allRuns.1 hrun
  obtain ⟨path', -, h'⟩ := mem_allRuns.1 hrun'
  obtain rfl : path = path' := by
    rw [← mem_ordered.1 ((sublist_ordered h).mem hi), hpath]
    exact mem_ordered.1 ((sublist_ordered h').mem hj)
  -- one of the two comes first on the path
  obtain ⟨P, S, hG⟩ := List.append_of_mem h'
  have hin : run ∈ P ++ run' :: S := hG ▸ h
  rcases List.mem_append.1 hin with hP | hS
  · exact .inl (hw.gap hG hP hi hj hs)
  · have hS := (List.mem_cons.1 hS).resolve_left hne
    obtain ⟨S₁, S₂, rfl⟩ := List.append_of_mem hS
    have hG' : (ordered hits path).splitBy (touches hits) = (P ++ run' :: S₁) ++ run :: S₂ := by
      rw [hG, List.append_assoc]
      rfl
    exact .inr (hw.gap hG' (List.mem_append_right _ List.mem_cons_self) hj hi hs.symm)

/-- The outputs are apart if those of any two runs are. -/
lemma pairwise_apart (hexact : ∀ h ∈ hits, Exact h.start_line h.end_line h.snippet) :
    (mergeAdjacentHits hits).Pairwise Apart ↔ ∀ run ∈ allRuns hits, ∀ run' ∈ allRuns hits,
      run ≠ run' → ∀ o ∈ shown hits run, ∀ o' ∈ shown hits run', Apart o o' := by
  have hsymm : Std.Symm fun run run' : List (Fin hits.length) =>
      ∀ o ∈ shown hits run, ∀ o' ∈ shown hits run', Apart o o' :=
    ⟨fun _ _ h o ho o' ho' => (h o' ho' o ho).symm⟩
  rw [(perm_mergeAdjacentHits hits).pairwise_iff Apart.symm, List.pairwise_flatMap]
  constructor
  · rintro ⟨-, hpair⟩ run hrun run' hrun' hne
    exact hpair.forall hrun hrun' hne
  · intro h
    refine ⟨fun run hrun => ?_, (nodup_allRuns hits).imp_of_mem fun hrun hrun' hne => ?_⟩
    · obtain ⟨o, _, _, hshown, -⟩ := exists_shown hrun hexact
      rw [hshown]
      exact List.pairwise_singleton _ _
    · exact h _ hrun _ hrun' hne

lemma flatMap_eq_of_unique {α β : Type*} {l : List α} (hl : l.Nodup) {a : α} (ha : a ∈ l)
    {f : α → List β} (h : ∀ b ∈ l, b ≠ a → f b = []) : l.flatMap f = f a := by
  obtain ⟨l₁, l₂, rfl⟩ := List.append_of_mem ha
  have hnil : ∀ l' : List α, (∀ b ∈ l', b ∈ l₁ ++ a :: l₂ ∧ b ≠ a) → l'.flatMap f = [] :=
    fun l' hl' => List.flatMap_eq_nil_iff.2 fun b hb => h b (hl' b hb).1 (hl' b hb).2
  obtain ⟨-, hl₂, hdisj⟩ := List.nodup_append.1 hl
  rw [List.flatMap_append, List.flatMap_cons, hnil l₁, hnil l₂, List.nil_append, List.append_nil]
  · rintro b hb
    refine ⟨by simp [hb], ?_⟩
    rintro rfl
    exact (List.nodup_cons.1 hl₂).1 hb
  · rintro b hb
    exact ⟨by simp [hb], fun heq => hdisj b hb a List.mem_cons_self heq⟩

lemma WellCut.covered (hw : WellCut hits)
    (hexact : ∀ h ∈ hits, Exact h.start_line h.end_line h.snippet) {h : Hit} (hh : h ∈ hits) :
    ∃ o, (mergeAdjacentHits hits).filter (covers · h) = [o] := by
  obtain ⟨i, hi, rfl⟩ := List.mem_iff_getElem.1 hh
  obtain ⟨run, hrun, hmem⟩ := exists_run (⟨i, hi⟩ : Fin hits.length)
  obtain ⟨o, best, hbest, hshown, hfile, hsource, hbounds⟩ := exists_shown hrun hexact
  obtain ⟨hlo, hhi⟩ := Prod.mk.inj hbounds
  have hcovers : covers o hits[i] = true := by
    refine covers_iff.2 ⟨?_, ?_, ?_, ?_⟩
    · exact hfile.trans (path_eq_of_mem_run hrun hbest hmem)
    · exact hsource.trans (hw.source hrun hbest hmem)
    · exact hlo ▸ bounds_fst_le hrun hmem
    · exact hhi ▸ le_bounds_snd hmem
  have hvalid : hits[i].start_line ≤ hits[i].end_line := by
    have hlines : hits[i].start_line + (hits[i].snippet.splitOn '\n').length =
      hits[i].end_line + 1 := hexact _ (List.getElem_mem hi)
    have hpos := List.length_pos_of_ne_nil (List.splitOn_ne_nil '\n' hits[i].snippet)
    omega
  have hothers : ∀ run' ∈ allRuns hits, run' ≠ run →
      (shown hits run').filter (covers · hits[i]) = [] := by
    intro run' hrun' hne
    rw [List.filter_eq_nil_iff]
    intro o' ho' hcovers'
    obtain ⟨hfile₁, hsource₁, hlo₁, hhi₁⟩ := covers_iff.1 hcovers
    obtain ⟨hfile₂, hsource₂, hlo₂, hhi₂⟩ := covers_iff.1 hcovers'
    have ho : o ∈ shown hits run := hshown ▸ List.mem_cons_self
    have hapart := hw.apart_shown hexact hrun hrun' hne.symm ho ho'
      (hfile₁.trans hfile₂.symm) (hsource₁.trans hsource₂.symm)
    omega
  have hfilter : ((allRuns hits).flatMap (shown hits)).filter (covers · hits[i]) = [o] := by
    rw [List.filter_flatMap, flatMap_eq_of_unique (nodup_allRuns hits) hrun hothers, hshown,
      List.filter_singleton, hcovers]
    rfl
  exact ⟨o, List.perm_singleton.1 (hfilter ▸ (perm_mergeAdjacentHits hits).filter _)⟩

/-- Two hits in one run are merged. -/
lemma Separate.source (h : Separate hits)
    (hexact : ∀ h ∈ hits, Exact h.start_line h.end_line h.snippet) (hrun : run ∈ allRuns hits)
    (hi : i ∈ run) (hj : j ∈ run) : hits[i].source_id = hits[j].source_id := by
  rcases Nat.lt_or_ge run.length 2 with hone | htwo
  · match run, hone with
    | [k], _ => rw [List.mem_singleton.1 hi, List.mem_singleton.1 hj]
  · obtain ⟨best, o, hm⟩ := exists_mergeRun hrun htwo fun i _ => hexact _ (List.getElem_mem i.2)
    exact h.unmixed run hrun (by rw [hm]; rfl) i hi j hj

lemma Separate.reach (h : Separate hits)
    (hexact : ∀ h ∈ hits, Exact h.start_line h.end_line h.snippet) {path : List Char}
    {ys zs : List (Fin hits.length)} {c d a : Fin hits.length}
    (hl : ordered hits path = ys ++ c :: d :: zs) (hcut : touches hits c d = false)
    (ha : a ∈ ys ++ [c]) (hs : hits[a].source_id = hits[d].source_id) :
    hits[a].end_line + 1 < hits[d].start_line := by
  have hl' : ordered hits path = (ys ++ [c]) ++ d :: zs := by
    rw [hl, List.append_assoc]
    rfl
  have hsplit := List.splitBy_append (r := touches hits) (l := ys ++ [c]) (m := d :: zs) (by
    intro x hx y hy
    rw [List.getLast?_concat, Option.mem_some_iff] at hx
    rw [List.head?_cons, Option.mem_some_iff] at hy
    exact hx ▸ hy ▸ hcut)
  rw [← hl'] at hsplit
  have hin : ∀ {l : List (Fin hits.length)} {k}, k ∈ l →
      ∃ R ∈ l.splitBy (touches hits), k ∈ R := by
    intro l k hk
    rw [← List.flatten_splitBy (touches hits) l] at hk
    exact List.mem_flatten.1 hk
  obtain ⟨run, hrun, har⟩ := hin ha
  obtain ⟨run', hrun', hdr⟩ := hin (List.mem_cons_self : d ∈ d :: zs)
  have hruns : run ∈ allRuns hits := mem_allRuns_of (hsplit ▸ List.mem_append_left _ hrun)
  have hruns' : run' ∈ allRuns hits := mem_allRuns_of (hsplit ▸ List.mem_append_right _ hrun')
  have hnodup : ((ys ++ [c]) ++ d :: zs).Nodup := hl' ▸ nodup_ordered
  have hne : run ≠ run' := by
    rintro rfl
    have hd : d ∈ ys ++ [c] := by
      rw [← List.flatten_splitBy (touches hits) (ys ++ [c])]
      exact List.mem_flatten.2 ⟨run, hrun, hdr⟩
    exact (List.nodup_append.1 hnodup).2.2 d hd d List.mem_cons_self rfl
  obtain ⟨o, best, hbest, hshown, hfile, hsource, hbounds⟩ := exists_shown hruns hexact
  obtain ⟨o', best', hbest', hshown', hfile', hsource', hbounds'⟩ := exists_shown hruns' hexact
  obtain ⟨hlo, hhi⟩ := Prod.mk.inj hbounds
  obtain ⟨hlo', hhi'⟩ := Prod.mk.inj hbounds'
  have hpath : o.file_path = o'.file_path := by
    rw [hfile, hfile', path_eq_of_mem_run hruns hbest har, path_eq_of_mem_run hruns' hbest' hdr]
    have hmem : ∀ k ∈ (ys ++ [c]) ++ d :: zs, hits[k].file_path = path := fun k hk =>
      mem_ordered.1 (hl' ▸ hk)
    rw [hmem a (List.mem_append_left _ ha), hmem d (List.mem_append_right _ List.mem_cons_self)]
  have hsources : o.source_id = o'.source_id := by
    rw [hsource, hsource', h.source hexact hruns hbest har, hs,
      h.source hexact hruns' hdr hbest']
  have hapart := (pairwise_apart hexact).1 h.apart run hruns run' hruns' hne o
    (hshown ▸ List.mem_cons_self) o' (hshown' ▸ List.mem_cons_self) hpath hsources
  -- the first of the two begins no later
  have hkey : key hits a ≤ key hits d := by
    have hpair : ((ys ++ [c]) ++ d :: zs).Pairwise fun i j => key hits i ≤ key hits j :=
      hl' ▸ pairwise_ordered
    exact (List.pairwise_append.1 hpair).2.2 a ha d List.mem_cons_self
  have hle := start_le_of_key_le hkey
  have hlines : hits[d].start_line + (hits[d].snippet.splitOn '\n').length =
    hits[d].end_line + 1 := hexact _ (List.getElem_mem d.2)
  have hpos := List.length_pos_of_ne_nil (List.splitOn_ne_nil '\n' hits[d].snippet)
  have hend : hits[a].end_line ≤ o.end_line := hhi ▸ le_bounds_snd har
  have hstart : o.start_line ≤ hits[a].start_line := hlo ▸ bounds_fst_le hruns har
  have hend' : hits[d].end_line ≤ o'.end_line := hhi' ▸ le_bounds_snd hdr
  have hstart' : o'.start_line ≤ hits[d].start_line := hlo' ▸ bounds_fst_le hruns' hdr
  omega

end Cut

/-- **When merged hits are maximal and disjoint**, each file for itself. -/
theorem separate_iff_wellCut (hits : Hits)
    (hexact : ∀ h ∈ hits, Exact h.start_line h.end_line h.snippet) :
    Separate hits ↔ WellCut hits := by
  constructor
  · intro h
    refine ⟨fun path ys c d zs hl htouch => ?_, fun path ys c d zs hl hcut a ha hs => ?_⟩
    · obtain ⟨run, hrun, hc, hd⟩ := exists_mem_splitBy_of_rel hl htouch
      exact h.source hexact (mem_allRuns_of hrun) hc hd
    · exact h.reach hexact hl hcut ha hs
  · intro hw
    refine ⟨(pairwise_apart hexact).2 fun run hrun run' hrun' hne o ho o' ho' => ?_,
      fun h hh => hw.covered hexact hh, fun run hrun _ i hi j hj => hw.source hrun hi hj⟩
    exact hw.apart_shown hexact hrun hrun' hne ho ho'

def hitOf (source_id : String) (start_line end_line : ℕ) (snippet : List Char) : Hit where
  file_path := ['a']
  start_line := start_line
  end_line := end_line
  language := "python"
  score := 1
  snippet := snippet
  source_id := source_id
  graph_enhanced := false

/-- A class, one of its methods, and another one below. -/
def nested : List Hit :=
  [hitOf "s" 1 4 ['a', '\n', 'b', '\n', 'c', '\n', 'd'], hitOf "s" 2 2 ['b'],
    hitOf "s" 4 4 ['d']]

def sameNamed : List Hit := [hitOf "s" 1 1 ['a'], hitOf "t" 2 2 ['b']]

/-- The second method is shown twice; the files of two sources become one. -/
theorem reach_and_source_forgotten :
    (mergeAdjacentHits nested = [hitOf "s" 1 4 ['a', '\n', 'b', '\n', 'c', '\n', 'd'],
        hitOf "s" 4 4 ['d']] ∧ ¬Separate nested) ∧
      mergeAdjacentHits sameNamed = [hitOf "s" 1 2 ['a', '\n', 'b']] ∧ ¬Separate sameNamed := by
  have hnested : mergeAdjacentHits nested =
      [hitOf "s" 1 4 ['a', '\n', 'b', '\n', 'c', '\n', 'd'], hitOf "s" 4 4 ['d']] := by
    decide +kernel
  have hmixed : mergeAdjacentHits sameNamed = [hitOf "s" 1 2 ['a', '\n', 'b']] := by
    decide +kernel
  refine ⟨⟨hnested, fun h => ?_⟩, hmixed, fun h => ?_⟩
  · have hpair := h.apart
    rw [hnested] at hpair
    have hapart := (List.pairwise_cons.1 hpair).1 _ List.mem_cons_self rfl rfl
    exact absurd hapart (by decide)
  · obtain ⟨o, ho⟩ := h.covered (hitOf "t" 2 2 ['b']) (by decide)
    have hnone : [hitOf "s" 1 2 ['a', '\n', 'b']].filter (covers · (hitOf "t" 2 2 ['b'])) = [] := by
      decide
    rw [hmixed, hnone] at ho
    cases ho

/-- Two methods of one file, the line between them in both. -/
def adjacent : List Hit := [hitOf "s" 1 2 ['a', '\n', 'b'], hitOf "s" 2 3 ['b', '\n', 'c']]

theorem adjacent_separate : Separate adjacent := by
  have hsource : ∀ i j : Fin adjacent.length, adjacent[i].source_id = adjacent[j].source_id := by
    decide
  have htouch : ∀ i j : Fin adjacent.length, touches adjacent i j = true := by decide
  refine (separate_iff_wellCut adjacent (by decide)).mpr ⟨fun _ _ c d _ _ _ => hsource c d,
    fun _ _ c d _ _ hcut => ?_⟩
  rw [htouch c d] at hcut
  cases hcut

end Treeweft.MergedRanges
