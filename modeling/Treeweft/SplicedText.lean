import Treeweft.MergeRuns

/-!
The text of merged hits, against the file their chunks are from.

A chunk is a piece of its file, so that its first and its last line may be cut. Where chunks share a
line, the splice takes it from the last of them, whether that one has all of it or not.
-/

namespace Treeweft.SplicedText

open Treeweft.Hydrate Treeweft.MergeRuns Treeweft.Indexer

/-! ### Pieces of a Text -/

/-- A part of a text, and the line that it begins on. -/
def Piece (source : List Char) (start : ℕ) (text : List Char) : Prop :=
  ∃ before after, source = before ++ (text ++ after) ∧ start = before.count '\n' + 1

lemma splitOn_cons (c : Char) (cs : List Char) : (c :: cs).splitOn '\n' =
    if c = '\n' then [] :: cs.splitOn '\n' else (cs.splitOn '\n').modifyHead (c :: ·) := by
  rw [List.splitOn, List.splitOnP_cons_eq_if_modifyHead, List.splitOn]
  by_cases hc : c = '\n' <;> simp [hc]

/-- A text that goes on has its lines, but that the last one goes on too. -/
lemma exists_after (text after : List Char) {k : ℕ} {l : List Char}
    (h : (text.splitOn '\n')[k]? = some l) :
    ∃ v, ((text ++ after).splitOn '\n')[k]? = some (l ++ v) := by
  induction text generalizing k l with
  | nil =>
    cases k with
    | zero =>
      obtain rfl : [] = l := Option.some.inj h
      obtain ⟨v, vs, hv⟩ := List.exists_cons_of_ne_nil (List.splitOn_ne_nil '\n' after)
      exact ⟨v, by rw [List.nil_append, hv]; rfl⟩
    | succ k => cases h
  | cons c text ih =>
    rw [splitOn_cons] at h
    rw [List.cons_append, splitOn_cons]
    split
    case isTrue hc =>
      rw [if_pos hc] at h
      cases k with
      | zero =>
        obtain rfl : [] = l := Option.some.inj h
        exact ⟨[], rfl⟩
      | succ k => exact ih h
    case isFalse hc =>
      rw [if_neg hc] at h
      obtain ⟨x, xs, hx⟩ := List.exists_cons_of_ne_nil (List.splitOn_ne_nil '\n' text)
      rw [hx] at h ih
      obtain ⟨y, ys, hy⟩ := List.exists_cons_of_ne_nil (List.splitOn_ne_nil '\n' (text ++ after))
      rw [hy] at ih ⊢
      cases k with
      | zero =>
        obtain rfl : c :: x = l := Option.some.inj h
        obtain ⟨v, hv⟩ := ih (k := 0) rfl
        obtain rfl : y = x ++ v := Option.some.inj hv
        exact ⟨v, rfl⟩
      | succ k => exact ih (k := k + 1) h

/-- A text has its lines behind another, but that its first one is longer. -/
lemma exists_before (before text : List Char) {k : ℕ} {l : List Char}
    (h : (text.splitOn '\n')[k]? = some l) :
    ∃ u, ((before ++ text).splitOn '\n')[before.count '\n' + k]? = some (u ++ l) := by
  induction before with
  | nil => exact ⟨[], by simpa using h⟩
  | cons c before ih =>
    obtain ⟨u, hu⟩ := ih
    rw [List.cons_append, splitOn_cons]
    split
    case isTrue hc =>
      refine ⟨u, ?_⟩
      rw [hc, List.count_cons_self, Nat.add_right_comm]
      exact hu
    case isFalse hc =>
      rw [List.count_cons_of_ne hc]
      obtain ⟨y, ys, hy⟩ := List.exists_cons_of_ne_nil (List.splitOn_ne_nil '\n' (before ++ text))
      rw [hy] at hu ⊢
      cases hk : before.count '\n' + k with
      | zero =>
        rw [hk] at hu
        obtain rfl : y = u ++ l := Option.some.inj hu
        exact ⟨c :: u, rfl⟩
      | succ m =>
        rw [hk] at hu
        exact ⟨u, hu⟩

/-- What a piece has of a line is a part of it. -/
lemma Piece.line {source text : List Char} {start n : ℕ} {l : List Char}
    (h : Piece source start text) (hl : lineOf start text n = some l) :
    ∃ u v, lineOf 1 source n = some (u ++ (l ++ v)) := by
  obtain ⟨before, after, rfl, rfl⟩ := h
  rw [lineOf] at hl
  split at hl
  case isTrue hn =>
    obtain ⟨v, hv⟩ := exists_after text after hl
    obtain ⟨u, hu⟩ := exists_before before (text ++ after) hv
    refine ⟨u, v, ?_⟩
    have hindex : before.count '\n' + (n - (before.count '\n' + 1)) = n - 1 := by omega
    rw [lineOf, if_pos (by omega), ← hu, hindex]
  case isFalse => cases hl

/-! ### Chunks are Pieces -/

/-- A chunker cuts its chunks out of the source. -/
def Cuts (tools : Tools) : Prop := ∀ lang source raw, tools.chunk lang source = some raw →
  ∀ c ∈ raw, c.startIndex ≤ c.endIndex ∧
    c.text.toList = (source.toList.take c.endIndex).drop c.startIndex

def nl (l : List Char) : List Char := l ++ ['\n']

lemma flatMap_nl_splitLines (cs : List Char) : (splitLines cs).flatMap nl = cs ++ ['\n'] := by
  induction cs with
  | nil => rfl
  | cons c cs ih =>
    unfold splitLines
    split
    case h_1 h => cases h
    case h_2 c' cs' h =>
      obtain ⟨rfl, rfl⟩ := List.cons.inj h
      rw [List.flatMap_cons, ih]
      rfl
    case h_3 c' cs' hne h =>
      obtain ⟨rfl, rfl⟩ := List.cons.inj h
      cases hl : splitLines cs with
      | nil =>
        rw [hl] at ih
        exact absurd ih.symm (List.append_ne_nil_of_right_ne_nil _ (List.cons_ne_nil _ _))
      | cons l ls =>
        rw [hl] at ih
        exact congrArg (c :: ·) ih

lemma not_mem_splitLines {cs l : List Char} (h : l ∈ splitLines cs) : '\n' ∉ l := by
  induction cs generalizing l with
  | nil =>
    rw [splitLines, List.mem_singleton] at h
    exact h ▸ List.not_mem_nil
  | cons c cs ih =>
    unfold splitLines at h
    split at h
    case h_1 heq => cases heq
    case h_2 c' cs' heq =>
      obtain ⟨rfl, rfl⟩ := List.cons.inj heq
      rcases List.mem_cons.1 h with rfl | h
      · exact List.not_mem_nil
      · exact ih h
    case h_3 c' cs' hne heq =>
      obtain ⟨rfl, rfl⟩ := List.cons.inj heq
      have hc : '\n' ≠ c := fun hc => hne hc.symm
      cases hl : splitLines cs with
      | nil =>
        rw [hl, List.mem_singleton] at h
        simp [h, hc]
      | cons x xs =>
        rw [hl] at h ih
        rcases List.mem_cons.1 h with rfl | h
        · simp [hc, ih List.mem_cons_self]
        · exact ih (List.mem_cons_of_mem x h)

lemma count_flatMap_nl {ls : List (List Char)} (h : ∀ l ∈ ls, '\n' ∉ l) :
    (ls.flatMap nl).count '\n' = ls.length := by
  induction ls with
  | nil => rfl
  | cons l ls ih =>
    rw [List.flatMap_cons, nl, List.count_append, List.count_append,
      List.count_eq_zero.2 (h l List.mem_cons_self), ih fun m hm => h m (List.mem_cons_of_mem l hm)]
    simp [Nat.add_comm]

lemma flatMap_nl_eq (ls : List (List Char)) :
    ls.flatMap nl = [] ∨ ∃ cs, ls.flatMap nl = cs ++ ['\n'] := by
  rcases List.eq_nil_or_concat' ls with rfl | ⟨ls, l, rfl⟩
  · exact .inl rfl
  · exact .inr ⟨ls.flatMap nl ++ l, by simp [nl]⟩

/-- Of a text that ends a line, stripping leaves a part without that end, and takes white space. -/
lemma exists_rstrip (cs : List Char) :
    ∃ ws, (∀ c ∈ ws, isSpace c = true) ∧
      cs ++ ['\n'] = rstrip (cs ++ ['\n']) ++ (ws ++ ['\n']) := by
  have hspace : isSpace '\n' = true := by decide
  have hstrip : rstrip (cs ++ ['\n']) = rstrip cs := by
    rw [rstrip, rstrip, List.reverse_append, List.reverse_singleton, List.singleton_append,
      List.dropWhile_cons_of_pos hspace]
  have hsplit := List.takeWhile_append_dropWhile (p := isSpace) (l := cs.reverse)
  refine ⟨(cs.reverse.takeWhile isSpace).reverse,
    fun c hc => List.mem_takeWhile_imp (List.mem_reverse.mp hc), ?_⟩
  rw [hstrip, rstrip, ← List.append_assoc, ← List.reverse_append, hsplit, List.reverse_reverse]

/-- A buffer of whole lines, stripped. -/
lemma piece_of_lines {source : List Char} {before lines after : List (List Char)}
    (h : splitLines source = before ++ (lines ++ after)) (hne : lines.flatMap nl ≠ []) :
    Piece source (before.length + 1) (rstrip (lines.flatMap nl)) := by
  have hsource := flatMap_nl_splitLines source
  rw [h, List.flatMap_append, List.flatMap_append] at hsource
  have hcount : (before.flatMap nl).count '\n' = before.length :=
    count_flatMap_nl fun l hl => not_mem_splitLines (h ▸ List.mem_append_left _ hl)
  obtain ⟨cs, hcs⟩ := (flatMap_nl_eq lines).resolve_left hne
  obtain ⟨ws, -, hws⟩ := exists_rstrip cs
  rw [← hcs] at hws
  rcases flatMap_nl_eq after with hafter | ⟨as, hafter⟩
  · refine ⟨before.flatMap nl, ws, ?_, by rw [hcount]⟩
    rw [hafter, List.append_nil, hws] at hsource
    refine List.append_cancel_right (hsource.symm.trans ?_)
    simp only [List.append_assoc]
  · refine ⟨before.flatMap nl, ws ++ ('\n' :: as), ?_, by rw [hcount]⟩
    rw [hafter, hws] at hsource
    refine List.append_cancel_right (hsource.symm.trans ?_)
    simp only [List.append_assoc, List.cons_append, List.nil_append]

/-- The state of the splitter after some lines: the buffer has the lines from its first one on. -/
structure CharInv (source : List Char) (past : List (List Char)) (s : CharState) : Prop where
  results : ∀ c ∈ s.results, Piece source c.startLine c.text.toList
  buf : ∃ before lines, past = before ++ lines ∧ s.buf = lines.flatMap nl ∧
    s.startLine = before.length + 1

lemma CharInv.flush {source : List Char} {past after : List (List Char)} {s : CharState}
    (h : CharInv source past s) (hsource : splitLines source = past ++ after) (hbuf : s.buf ≠ [])
    (p : Paths.FilePath) (lang : String) (n : ℕ) :
    ∀ c ∈ flush p lang s n, Piece source c.startLine c.text.toList := by
  intro c hc
  rcases List.mem_append.1 hc with hc | hc
  · exact h.results c hc
  · obtain ⟨before, lines, rfl, hlines, hstart⟩ := h.buf
    rw [List.mem_singleton.1 hc, String.toList_ofList, hstart, hlines]
    rw [List.append_assoc] at hsource
    exact piece_of_lines hsource (hlines ▸ hbuf)

lemma CharInv.step {source : List Char} {past after : List (List Char)} {l : List Char}
    {s : CharState} (h : CharInv source past s) (hsource : splitLines source = past ++ l :: after)
    (p : Paths.FilePath) (lang : String) :
    CharInv source (past ++ [l]) (charStep p lang s (l, past.length)) := by
  rw [charStep]
  split
  case isTrue hfull =>
    exact ⟨h.flush hsource hfull.2 p lang past.length, past, [l], rfl,
      by rw [List.flatMap_singleton]; rfl, rfl⟩
  case isFalse =>
    obtain ⟨before, lines, rfl, hlines, hstart⟩ := h.buf
    refine ⟨h.results, before, lines ++ [l], (List.append_assoc _ _ _), ?_, hstart⟩
    rw [List.flatMap_append, List.flatMap_singleton, ← hlines, List.append_assoc]
    rfl

lemma CharInv.fold {source : List Char} {past after : List (List Char)} {s : CharState}
    (h : CharInv source past s) (hsource : splitLines source = past ++ after) (p : Paths.FilePath)
    (lang : String) : CharInv source (past ++ after)
      ((after.zipIdx past.length).foldl (charStep p lang) s) := by
  induction after generalizing past s with
  | nil =>
    rw [List.append_nil]
    exact h
  | cons l after ih =>
    have hnext : splitLines source = (past ++ [l]) ++ after := by
      rw [hsource, List.append_assoc]
      rfl
    have hfold := ih (h.step hsource p lang) hnext
    rw [List.length_append, List.length_singleton, List.append_assoc] at hfold
    exact hfold

lemma piece_of_characterChunks {p : Paths.FilePath} {lang source : String} {c : Chunk}
    (hc : c ∈ characterChunks p lang source) : Piece source.toList c.startLine c.text.toList := by
  have hinit : CharInv source.toList [] ⟨[], [], 1⟩ :=
    ⟨fun _ h => absurd h List.not_mem_nil, [], [], rfl, rfl, rfl⟩
  have hall : splitLines source.toList = [] ++ splitLines source.toList := rfl
  have hinv := hinit.fold hall p lang
  rw [characterChunks] at hc
  split at hc
  case isTrue hany =>
    refine hinv.flush (List.append_nil _).symm (fun hnil => ?_) p lang _ c hc
    obtain ⟨x, hx, -⟩ := List.any_eq_true.1 hany
    rw [List.length_nil] at hnil
    rw [hnil] at hx
    cases hx
  case isFalse => exact hinv.results c hc

/-- Every chunk of a file is a piece of it. -/
theorem piece_of_parseAndChunk {tools : Tools} (htools : Cuts tools) {p : Paths.FilePath}
    {source : String} {c : Chunk} (hc : c ∈ parseAndChunk tools p source) :
    Piece source.toList c.startLine c.text.toList := by
  rw [parseAndChunk] at hc
  split at hc
  · cases hc
  · split at hc
    · cases hc
    · split at hc
      · exact piece_of_characterChunks hc
      · rename_i raw hraw
        obtain ⟨d, hd, rfl⟩ := List.mem_map.1 hc
        obtain ⟨hle, htext⟩ := htools _ _ _ hraw d hd
        refine ⟨source.toList.take d.startIndex, source.toList.drop d.endIndex, ?_, rfl⟩
        have htake : (source.toList.take d.endIndex).take d.startIndex =
            source.toList.take d.startIndex := by
          rw [List.take_take, Nat.min_eq_left hle]
        rw [htext, ← List.append_assoc, ← htake, List.take_append_drop, List.take_append_drop]

/-! ### The Splice -/

/-- The last hit that has a line. -/
def lastWith (ms : List Hit) (n : ℕ) : Option Hit :=
  (ms.filter fun h => (lineOf h.start_line h.snippet n).isSome).getLast?

/-- No character of the line is missing from what the hit has of it. -/
def Uncut (source : List Char) (h : Hit) (n : ℕ) : Prop :=
  (lineOf h.start_line h.snippet n).map List.length = (lineOf 1 source n).map List.length

/-- The text of a hit is that of its lines in the file. -/
def Faithful (source : List Char) (o : Hit) : Prop :=
  o.snippet = join ((List.range' o.start_line (o.end_line + 1 - o.start_line)).map fun n =>
    (lineOf 1 source n).getD [])

/-- The hits whose texts are spliced. -/
abbrev Hits := List Hit

/-- A hit that stands for a merged run. -/
def IsMerged (hits : Hits) (o : Hit) : Prop :=
  ∃ run ∈ allRuns hits, ∃ best, mergeRun hits run = some (best, o)

lemma IsMerged.mem {hits : Hits} {o : Hit} (h : IsMerged hits o) :
    o ∈ mergeAdjacentHits hits := by
  obtain ⟨run, hrun, best, hm⟩ := h
  refine (perm_mergeAdjacentHits hits).mem_iff.2 (List.mem_flatMap.2 ⟨run, hrun, ?_⟩)
  rw [shown, hm]
  exact List.mem_cons_self

lemma linesByNo_eq_lastWith (ms : List Hit) (n : ℕ) :
    linesByNo ms n = (lastWith ms n).bind fun h => lineOf h.start_line h.snippet n := by
  induction ms using List.reverseRecOn with
  | nil => rfl
  | append_singleton ms h ih =>
    have hstep : linesByNo (ms ++ [h]) n =
        (lineOf h.start_line h.snippet n).or (linesByNo ms n) := by
      rw [linesByNo, List.foldl_append]
      rfl
    rw [hstep, ih, lastWith, lastWith, List.filter_append]
    cases hl : lineOf h.start_line h.snippet n with
    | none => simp [hl]
    | some l => simp [hl]

lemma not_mem_lineOf {start n : ℕ} {text l : List Char} (h : lineOf start text n = some l) :
    '\n' ∉ l := by
  rw [lineOf] at h
  split at h
  case isTrue =>
    intro hl
    exact Bool.false_ne_true (not_of_mem_splitOnP (List.mem_of_getElem? h) '\n' hl).symm
  case isFalse => cases h

lemma join_inj {as bs : List (List Char)} (has : ∀ l ∈ as, '\n' ∉ l) (hbs : ∀ l ∈ bs, '\n' ∉ l)
    (hne : as ≠ []) (hne' : bs ≠ []) : join as = join bs ↔ as = bs := by
  refine ⟨fun h => ?_, fun h => congrArg join h⟩
  have hsplit := congrArg (List.splitOn '\n') h
  rw [join, join, List.splitOn_intercalate '\n' has hne, List.splitOn_intercalate '\n' hbs hne']
    at hsplit
  exact hsplit

section Run
variable {hits : Hits} {run : List (Fin hits.length)}

/-- A merged run has every line of its range. -/
lemma exists_lastWith (hrun : run ∈ allRuns hits)
    (hexact : ∀ i ∈ run, Exact hits[i].start_line hits[i].end_line hits[i].snippet) {n : ℕ}
    (hlo : (bounds (members hits run)).1 ≤ n) (hhi : n ≤ (bounds (members hits run)).2) :
    ∃ h l, h ∈ lastWith (members hits run) n ∧ lineOf h.start_line h.snippet n = some l := by
  obtain ⟨j, hj, hcover⟩ := exists_mem_covering hrun hlo hhi
  have hsome := (lineOf_isSome_iff (hexact j hj)).2 hcover
  have hne : (members hits run).filter
      (fun h => (lineOf h.start_line h.snippet n).isSome) ≠ [] :=
    List.ne_nil_of_mem (List.mem_filter.2 ⟨List.mem_map_of_mem hj, hsome⟩)
  have hlast := List.getLast_mem hne
  obtain ⟨l, hl⟩ := Option.isSome_iff_exists.1 (List.mem_filter.1 hlast).2
  exact ⟨_, l, List.getLast?_eq_some_getLast hne, hl⟩

/-- A line of a merged run is that of the file if the last hit that has it has all of it. -/
lemma line_eq_iff {source : List Char} (hpiece : ∀ h ∈ hits, Piece source h.start_line h.snippet)
    (hrun : run ∈ allRuns hits)
    (hexact : ∀ i ∈ run, Exact hits[i].start_line hits[i].end_line hits[i].snippet) {n : ℕ}
    (hlo : (bounds (members hits run)).1 ≤ n) (hhi : n ≤ (bounds (members hits run)).2) :
    (linesByNo (members hits run) n).getD [] = (lineOf 1 source n).getD [] ↔
      ∀ h ∈ lastWith (members hits run) n, Uncut source h n := by
  obtain ⟨h, l, hh, hl⟩ := exists_lastWith hrun hexact hlo hhi
  have hmem : h ∈ hits := by
    obtain ⟨i, -, rfl⟩ := List.mem_map.1 (List.mem_filter.1 (List.mem_of_getLast? hh)).1
    exact List.getElem_mem i.2
  obtain ⟨u, v, huv⟩ := (hpiece h hmem).line hl
  have hnumber : linesByNo (members hits run) n = some l := by
    rw [linesByNo_eq_lastWith, Option.mem_def.1 hh]
    exact hl
  have honly : (∀ h' ∈ lastWith (members hits run) n, Uncut source h' n) ↔ Uncut source h n := by
    refine ⟨fun hall => hall h hh, fun hcut h' hh' => ?_⟩
    exact Option.mem_unique hh' hh ▸ hcut
  rw [honly, hnumber, huv, Uncut, hl, huv]
  change l = u ++ (l ++ v) ↔ some l.length = some (u ++ (l ++ v)).length
  rw [Option.some_inj]
  refine ⟨fun h => congrArg List.length h, fun h => ?_⟩
  rw [List.length_append, List.length_append] at h
  obtain rfl := List.length_eq_zero_iff.1 (show u.length = 0 by omega)
  obtain rfl := List.length_eq_zero_iff.1 (show v.length = 0 by omega)
  rw [List.nil_append, List.append_nil]

lemma Stands.snippet_eq {best : Fin hits.length} {o : Hit} (hs : Stands hits run best o) :
    o.snippet = join ((List.range' (bounds (members hits run)).1
      ((bounds (members hits run)).2 + 1 - (bounds (members hits run)).1)).map fun n =>
        (linesByNo (members hits run) n).getD []) := by
  have hsplice := hs.snippet
  rw [spliceSnippets, if_pos] at hsplice
  · exact (Option.some.inj hsplice).symm
  · intro h hh
    obtain ⟨i, hi, rfl⟩ := List.mem_map.1 hh
    exact hs.exact i hi

lemma bounds_le (hrun : run ∈ allRuns hits)
    (hexact : ∀ i ∈ run, Exact hits[i].start_line hits[i].end_line hits[i].snippet) :
    (bounds (members hits run)).1 ≤ (bounds (members hits run)).2 := by
  obtain ⟨i, hi⟩ := List.exists_mem_of_ne_nil _ (ne_nil_of_mem_allRuns hrun)
  have hlines : hits[i].start_line + (hits[i].snippet.splitOn '\n').length =
    hits[i].end_line + 1 := hexact i hi
  have hpos := List.length_pos_of_ne_nil (List.splitOn_ne_nil '\n' hits[i].snippet)
  have hfirst := bounds_fst_le hrun hi
  have hlast : hits[i].end_line ≤ (bounds (members hits run)).2 := le_bounds_snd hi
  omega

lemma faithful_iff {source : List Char}
    (hpiece : ∀ h ∈ hits, Piece source h.start_line h.snippet) (hrun : run ∈ allRuns hits)
    {best : Fin hits.length} {o : Hit} (hm : mergeRun hits run = some (best, o)) :
    Faithful source o ↔ ∀ n, ∀ h ∈ lastWith (members hits run) n, Uncut source h n := by
  have hs := stands_of_mergeRun hrun hm
  have hlo : o.start_line = (bounds (members hits run)).1 := congrArg Prod.fst hs.bounds
  have hhi : o.end_line = (bounds (members hits run)).2 := congrArg Prod.snd hs.bounds
  have hle := bounds_le hrun hs.exact
  have hnl : ∀ {f : ℕ → Option (List Char)} {ns : List ℕ}, (∀ n l, f n = some l → '\n' ∉ l) →
      ∀ l ∈ ns.map fun n => (f n).getD [], '\n' ∉ l := by
    intro f ns hf l hl
    obtain ⟨n, -, rfl⟩ := List.mem_map.1 hl
    cases hn : f n with
    | none => exact List.not_mem_nil
    | some l => exact hf n l hn
  have hne : ∀ f : ℕ → List Char, (List.range' (bounds (members hits run)).1
      ((bounds (members hits run)).2 + 1 - (bounds (members hits run)).1)).map f ≠ [] := by
    intro f h
    rw [List.map_eq_nil_iff, List.range'_eq_nil_iff] at h
    omega
  have hspliced : ∀ n l, linesByNo (members hits run) n = some l → '\n' ∉ l := by
    intro n l hl
    rw [linesByNo_eq_lastWith] at hl
    obtain ⟨h, -, hl⟩ := Option.bind_eq_some_iff.1 hl
    exact not_mem_lineOf hl
  rw [Faithful, Stands.snippet_eq hs, hlo, hhi,
    join_inj (hnl hspliced) (hnl fun _ _ => not_mem_lineOf) (hne _) (hne _), List.map_inj_left]
  refine forall_congr' fun n => ?_
  rw [List.mem_range'_1]
  constructor
  · intro h h' hh'
    -- a hit has no lines but those of its range
    obtain ⟨hmem, hsome⟩ := List.mem_filter.1 (List.mem_of_getLast? hh')
    obtain ⟨i, hi, rfl⟩ := List.mem_map.1 hmem
    obtain ⟨hfirst, hlast⟩ := (lineOf_isSome_iff (hs.exact i hi)).1 hsome
    have hfirst' := (bounds_fst_le hrun hi).trans hfirst
    have hlast' := hlast.trans (le_bounds_snd hi)
    exact (line_eq_iff hpiece hrun hs.exact hfirst' hlast').1 (h ⟨hfirst', by omega⟩) _ hh'
  · rintro h ⟨hfirst, hlast⟩
    exact (line_eq_iff hpiece hrun hs.exact hfirst (by omega)).2 h

end Run

/-- The hit of a chunk. -/
structure Shows (c : Chunk) (h : Hit) : Prop where
  file_path : h.file_path = c.filePath.str.toList
  start_line : h.start_line = c.startLine
  end_line : h.end_line = c.endLine
  snippet : h.snippet = c.text.toList

/-- **When merged hits have the text of the file**: no line of a merged stretch is taken from a chunk
that was cut within it. -/
theorem merged_faithful_iff_uncut {tools : Tools} (htools : Cuts tools) (p : Paths.FilePath)
    (source : String) {hits : Hits}
    (hhits : ∀ h ∈ hits, ∃ c ∈ parseAndChunk tools p source, Shows c h) :
    (∀ o ∈ mergeAdjacentHits hits, IsMerged hits o → Faithful source.toList o) ↔
      ∀ path run, Stretch hits path run → 2 ≤ run.length →
        (∀ i ∈ run, Exact hits[i].start_line hits[i].end_line hits[i].snippet) →
        ∀ n, ∀ h ∈ lastWith (members hits run) n, Uncut source.toList h n := by
  have hpiece : ∀ h ∈ hits, Piece source.toList h.start_line h.snippet := by
    intro h hh
    obtain ⟨c, hc, hshows⟩ := hhits h hh
    rw [hshows.start_line, hshows.snippet]
    exact piece_of_parseAndChunk htools hc
  constructor
  · intro hall path run hstretch htwo hexact
    have hrun := mem_allRuns_iff.2 ⟨path, hstretch⟩
    obtain ⟨best, o, hm⟩ := exists_mergeRun hrun htwo hexact
    have hmerged : IsMerged hits o := ⟨run, hrun, best, hm⟩
    exact (faithful_iff hpiece hrun hm).1 (hall o hmerged.mem hmerged)
  · rintro hall o - ⟨run, hrun, best, hm⟩
    obtain ⟨path, hstretch⟩ := mem_allRuns_iff.1 hrun
    have hs := stands_of_mergeRun hrun hm
    exact (faithful_iff hpiece hrun hm).2 (hall path run hstretch hs.two hs.exact)

/-- A chunker for one source: it cuts it at one place. -/
def cutAt (source : String) (k : ℕ) : Tools where
  chunk _ s :=
    if s = source then
      some [⟨String.ofList (s.toList.take k), 0, k⟩,
        ⟨String.ofList (s.toList.drop k), k, s.toList.length⟩]
    else none
  captures _ _ := none
  resolveImport _ q := q
  fnmatch _ _ := false

lemma cuts_cutAt {source : String} {k : ℕ} (hk : k ≤ source.toList.length) :
    Cuts (cutAt source k) := by
  intro _ s raw hraw c hc
  change (if s = source then _ else none) = _ at hraw
  split at hraw
  case isTrue hs =>
    subst hs
    obtain rfl := Option.some.inj hraw
    simp only [List.mem_cons, List.not_mem_nil, or_false] at hc
    rcases hc with rfl | rfl
    · exact ⟨Nat.zero_le _, String.toList_ofList⟩
    · exact ⟨hk, by rw [String.toList_ofList, List.take_length]⟩
  case isFalse => cases hraw

def file : Paths.FilePath := .rel ["a.py"]

def chunkOf (start_line end_line : ℕ) (snippet : List Char) : Hit where
  file_path := file.str.toList
  start_line := start_line
  end_line := end_line
  language := "python"
  score := 1
  snippet := snippet
  source_id := "s"
  graph_enhanced := false

/-- Two statements on a line, and the boundary of two chunks between them. -/
def halves : List Hit := [chunkOf 1 1 "a=1;".toList, chunkOf 1 2 "b=2\nc=3".toList]

/-- The first half of the line is lost. -/
theorem half_line_lost :
    Cuts (cutAt "a=1;b=2\nc=3" 4) ∧
      (∀ h ∈ halves, ∃ c ∈ parseAndChunk (cutAt "a=1;b=2\nc=3" 4) file "a=1;b=2\nc=3", Shows c h) ∧
      mergeAdjacentHits halves = [chunkOf 1 2 "b=2\nc=3".toList] ∧
      ¬∀ o ∈ mergeAdjacentHits halves, IsMerged halves o →
        Faithful "a=1;b=2\nc=3".toList o := by
  have hchunks : parseAndChunk (cutAt "a=1;b=2\nc=3" 4) file "a=1;b=2\nc=3" =
      [⟨"a=1;", file, "python", 1, 1⟩, ⟨"b=2\nc=3", file, "python", 1, 2⟩] := by decide +kernel
  have hmerge : mergeAdjacentHits halves = [chunkOf 1 2 "b=2\nc=3".toList] := by decide +kernel
  have hmerged : IsMerged halves (chunkOf 1 2 "b=2\nc=3".toList) :=
    ⟨[⟨0, by decide⟩, ⟨1, by decide⟩], by decide +kernel, ⟨0, by decide⟩, by decide +kernel⟩
  refine ⟨cuts_cutAt (by decide +kernel), ?_, hmerge, fun hall => ?_⟩
  · rw [hchunks]
    intro h hh
    rcases List.mem_cons.1 hh with rfl | hh
    · exact ⟨_, List.mem_cons_self, rfl, rfl, rfl, rfl⟩
    · rw [List.mem_singleton.1 hh]
      exact ⟨_, List.mem_cons_of_mem _ List.mem_cons_self, rfl, rfl, rfl, rfl⟩
  · exact absurd (hall _ hmerged.mem hmerged) (by unfold Faithful; decide +kernel)

/-- The boundary of the chunks between two lines. -/
def wholeLines : List Hit := [chunkOf 1 2 "a\n".toList, chunkOf 2 2 "b".toList]

theorem whole_lines_faithful :
    IsMerged wholeLines (chunkOf 1 2 "a\nb".toList) ∧
      Faithful "a\nb".toList (chunkOf 1 2 "a\nb".toList) := by
  have hchunks : parseAndChunk (cutAt "a\nb" 2) file "a\nb" =
      [⟨"a\n", file, "python", 1, 2⟩, ⟨"b", file, "python", 2, 2⟩] := by decide +kernel
  have hruns : allRuns wholeLines = [[⟨0, by decide⟩, ⟨1, by decide⟩]] := by decide +kernel
  have hmerged : IsMerged wholeLines (chunkOf 1 2 "a\nb".toList) :=
    ⟨[⟨0, by decide⟩, ⟨1, by decide⟩], by decide +kernel, ⟨0, by decide⟩, by decide +kernel⟩
  have hcuts : Cuts (cutAt "a\nb" 2) := cuts_cutAt (by decide +kernel)
  refine ⟨hmerged, (merged_faithful_iff_uncut hcuts file "a\nb" ?_).mpr ?_ _ hmerged.mem hmerged⟩
  · rw [hchunks]
    intro h hh
    rcases List.mem_cons.1 hh with rfl | hh
    · exact ⟨_, List.mem_cons_self, rfl, rfl, rfl, rfl⟩
    · rw [List.mem_singleton.1 hh]
      exact ⟨_, List.mem_cons_of_mem _ List.mem_cons_self, rfl, rfl, rfl, rfl⟩
  · intro path run hstretch _ _ n h hh
    have hrun := mem_allRuns_iff.2 ⟨path, hstretch⟩
    rw [hruns, List.mem_singleton] at hrun
    subst hrun
    have hmembers : members wholeLines [⟨0, by decide⟩, ⟨1, by decide⟩] = wholeLines := rfl
    rw [hmembers] at hh
    rcases n with _ | _ | _ | n
    · cases hh
    · have hfirst : lastWith wholeLines 1 = some (chunkOf 1 2 "a\n".toList) := by decide +kernel
      rw [hfirst, Option.mem_some_iff] at hh
      subst hh
      unfold Uncut
      decide +kernel
    · have hsecond : lastWith wholeLines 2 = some (chunkOf 2 2 "b".toList) := by decide +kernel
      rw [hsecond, Option.mem_some_iff] at hh
      subst hh
      unfold Uncut
      decide +kernel
    · have hnone : lastWith wholeLines (n + 3) = none := rfl
      rw [hnone] at hh
      cases hh

end Treeweft.SplicedText
