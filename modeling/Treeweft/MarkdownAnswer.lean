import Treeweft.CommonMark

/-!
The Markdown that the server renders of a search response, and what a reader of Markdown takes each
of its lines for.
-/

namespace Treeweft.MarkdownAnswer

open CommonMark

/-! ### The Response -/

/-- A text of the server's own that is printed on one line: a number, a digest, an address. -/
structure Inline where
  text : Text
  oneLine : OneLine text
  deriving DecidableEq

/-- An identifier of the server's own: the name of a kind of entity, the id of a source. -/
structure Label where
  text : Text
  ne_nil : text ≠ []
  isAlphanum : ∀ c ∈ text, c.isAlphanum
  deriving DecidableEq

/-- Of `snippet`, `none` is a field that is absent; of the other texts, the empty text is. -/
structure Chunk where
  filePath : Text
  startLine : Inline
  endLine : Inline
  score : Inline
  citation : Text
  snippet : Option Text
  language : Text
  header : Text
  hitId : Text
  deriving DecidableEq

structure Neighbor where
  type : Option Label
  name : Text
  id : Text
  filePath : Text
  startLine : Inline
  relType : Inline
  relDirection : Inline
  deriving DecidableEq

structure Provenance where
  commitSha : Inline
  isStale : Bool
  permalinkBase : Inline
  deriving DecidableEq

structure Response where
  sourceId : Option Label
  chunks : List Chunk
  neighbors : List Neighbor
  communitySummaries : List Text
  sources : List (Label × Provenance)
  deriving DecidableEq

/-! ### Rendering -/

/-- The length of the longest run of backticks. -/
def longestRun : Text → ℕ
  | [] => 0
  | c :: cs => max (run tick (c :: cs)) (longestRun cs)

/-- The shortest fence, of three backticks or more, that the text cannot close. -/
def fenceFor (t : Text) : Text := List.replicate (max 3 (longestRun t + 1)) tick

def mdLineBreaker (c : Char) : Bool := c ∈ ['\r', '\n', '\u2028', '\u2029']

/-- Each run of line breakers becomes one space; `inRun` is set inside such a run. -/
def joinLines : Bool → Text → Text
  | _, [] => []
  | inRun, c :: cs =>
    if mdLineBreaker c then if inRun then joinLines true cs else ' ' :: joinLines true cs
    else c :: joinLines false cs

def mdOneLine : Text → Text := joinLines false

def chunkHeading (c : Chunk) : Text :=
  "### ".toList ++ (mdOneLine c.filePath ++ ':' :: c.startLine.text ++ '-' :: c.endLine.text ++
    " (score ".toList ++ c.score.text ++ [')'] ++
      if c.citation = [] then [] else " — ".toList ++ mdOneLine c.citation)

def hitIdLine (hitId : Text) : Text := "hit_id: ".toList ++ hitId

lemma head?_hitIdLine (hitId : Text) : (hitIdLine hitId).head? = some 'h' := rfl

def fenced (language snippet : Text) : Text :=
  fenceFor snippet ++ language ++ '\n' :: snippet ++ '\n' :: fenceFor snippet

/-- Without a snippet the header stands for the code, and the handle by which it can be fetched. -/
def chunkBody (c : Chunk) : List Text :=
  match c.snippet with
  | none => (if c.header = [] then [] else [mdOneLine c.header]) ++
      if c.hitId = [] then [] else [hitIdLine c.hitId]
  | some snippet => [fenced c.language snippet]

def item (t : Text) : Text := '-' :: ' ' :: t

def neighborLabel (n : Neighbor) : Text := if n.name = [] then n.id else n.name

def neighborText (n : Neighbor) : Text :=
  (n.type.elim [] Label.text) ++ ' ' :: (neighborLabel n ++
    (if n.filePath = [] then [] else ' ' :: n.filePath ++ ':' :: n.startLine.text) ++
      " (".toList ++ n.relType.text ++ ' ' :: n.relDirection.text ++ [')'])

def shortSha (p : Provenance) : Text := p.commitSha.text.take 12

def provenanceText (sid : Label) (p : Provenance) : Text :=
  sid.text ++ ':' :: ' ' :: (shortSha p ++ (if p.isStale then " STALE".toList else []) ++
    if p.permalinkBase.text = [] then [] else ' ' :: ' ' :: p.permalinkBase.text)

def provenanceLines (sources : List (Label × Provenance)) : List Text :=
  (sources.filter fun s => shortSha s.2 ≠ []).map fun s => provenanceText s.1 s.2

/-- A title and its list, left out if the list is empty. -/
def listed (title : Text) (items : List Text) : List Text :=
  if items = [] then [] else [['\n'].intercalate (title :: items.map item)]

def searchResponseToMarkdown (d : Response) : Text :=
  ['\n', '\n'].intercalate
    ((d.sourceId.toList.map fun sid => "source: ".toList ++ sid.text) ++
      (d.chunks.flatMap fun c => chunkHeading c :: chunkBody c) ++
      listed "related:".toList (d.neighbors.map neighborText) ++
      listed "communities:".toList d.communitySummaries ++
      listed "provenance:".toList (provenanceLines d.sources))

/-! ### What Is Meant -/

/-- A line on its own. -/
def prose (l : Text) : Block where
  text := l
  meant := [(l, if isBlank l then .blank else .text)]
  ne_nil := nofun
  settled := by
    intro x hx
    obtain rfl := Option.mem_some_iff.mp hx
    split_ifs <;> exact ⟨nofun, nofun⟩
  lines_eq h := by
    have hl : OneLine l := h _ List.mem_cons_self
    exact ⟨lines_of_oneLine hl, closedLines_of_oneLine hl⟩

def heading (l : Text) : Block where
  text := l
  meant := [(l, .heading)]
  ne_nil := nofun
  settled := by
    intro x hx
    obtain rfl := Option.mem_some_iff.mp hx
    exact ⟨nofun, nofun⟩
  lines_eq h := by
    have hl : OneLine l := h _ List.mem_cons_self
    exact ⟨lines_of_oneLine hl, closedLines_of_oneLine hl⟩

/-- The language stands behind the opening backticks, the code on the lines below it. -/
def fencedLines (fence : Text) (ls : List Text) : List (Text × Role) :=
  match ls with
  | [] => [(fence, .closes)]
  | info :: code => (fence ++ info, .opens) :: (code.map (·, .code) ++ [(fence, .closes)])

lemma fencedLines_eq (fence : Text) (ls : List Text) : ∃ init,
    fencedLines fence ls = init ++ [(fence, .closes)] ∧
      init.map Prod.fst = ls.modifyHead (fence ++ ·) := by
  cases ls with
  | nil => exact ⟨[], rfl, rfl⟩
  | cons info code =>
    exact ⟨(fence ++ info, .opens) :: code.map (·, .code), rfl, by simp [Function.comp_def]⟩

lemma oneLine_fenceFor (t : Text) : OneLine (fenceFor t) := by
  intro c hc
  obtain rfl := List.eq_of_mem_replicate hc
  rfl

lemma lines_fenced (language snippet : Text) : lines (fenced language snippet) =
      (closedLines language ++ closedLines snippet).modifyHead (fenceFor snippet ++ ·) ++
        [fenceFor snippet] ∧
    closedLines (fenced language snippet) =
      (closedLines language ++ closedLines snippet).modifyHead (fenceFor snippet ++ ·) ++
        [fenceFor snippet] := by
  have hone := oneLine_fenceFor snippet
  have hsplit : fenced language snippet =
      (fenceFor snippet ++ language) ++ '\n' :: (snippet ++ '\n' :: fenceFor snippet) := by
    simp [fenced]
  obtain ⟨l, ls, hl⟩ := List.exists_cons_of_ne_nil (closedLines_ne_nil language)
  rw [hsplit, lines_append_lf, lines_append_lf, closedLines_append_lf, closedLines_append_lf,
    closedLines_oneLine_append hone, lines_of_oneLine hone, closedLines_of_oneLine hone, hl]
  simp

def fence (language snippet : Text) : Block where
  text := fenced language snippet
  meant := fencedLines (fenceFor snippet) (closedLines language ++ closedLines snippet)
  ne_nil := by
    obtain ⟨init, heq, -⟩ :=
      fencedLines_eq (fenceFor snippet) (closedLines language ++ closedLines snippet)
    simp [heq]
  settled := by
    obtain ⟨init, heq, -⟩ :=
      fencedLines_eq (fenceFor snippet) (closedLines language ++ closedLines snippet)
    intro x hx
    rw [heq, List.getLast?_concat] at hx
    obtain rfl := Option.mem_some_iff.mp hx
    exact ⟨nofun, nofun⟩
  lines_eq _ := by
    obtain ⟨init, heq, hmap⟩ :=
      fencedLines_eq (fenceFor snippet) (closedLines language ++ closedLines snippet)
    rw [heq, List.map_append, hmap]
    exact lines_fenced language snippet

def list (title : Text) (items : List Text) : Block where
  text := ['\n'].intercalate (title :: items.map item)
  meant := (title, .text) :: items.map fun t => (item t, .item)
  ne_nil := nofun
  settled := by
    intro x hx
    rcases List.mem_cons.mp (List.mem_of_getLast? hx) with rfl | hx
    · exact ⟨nofun, nofun⟩
    · obtain ⟨t, -, rfl⟩ := List.mem_map.mp hx
      exact ⟨nofun, nofun⟩
  lines_eq h := by
    have hmap : ((title, Role.text) :: items.map fun t => (item t, Role.item)).map Prod.fst =
        title :: items.map item := by simp
    rw [hmap]
    refine lines_join nofun fun l hl => ?_
    rw [← hmap] at hl
    obtain ⟨x, hx, rfl⟩ := List.mem_map.mp hl
    exact h x hx

def chunkBlocks (c : Chunk) : List Block :=
  heading (chunkHeading c) ::
    match c.snippet with
    | none => (if c.header = [] then [] else [prose (mdOneLine c.header)]) ++
        if c.hitId = [] then [] else [prose (hitIdLine c.hitId)]
    | some snippet => [fence c.language snippet]

def listBlocks (title : Text) (items : List Text) : List Block :=
  if items = [] then [] else [list title items]

def blocks (d : Response) : List Block :=
  (d.sourceId.toList.map fun sid => prose ("source: ".toList ++ sid.text)) ++
    d.chunks.flatMap chunkBlocks ++
    listBlocks "related:".toList (d.neighbors.map neighborText) ++
    listBlocks "communities:".toList d.communitySummaries ++
    listBlocks "provenance:".toList (provenanceLines d.sources)

/-- Every line of the answer is read as what it was written as: each field stays in its own line or
its own fence. -/
def Contained (html : Text → Bool) (d : Response) : Prop :=
  readText html (searchResponseToMarkdown d) = spaced ((blocks d).map Block.meant)

lemma markdown_eq (d : Response) :
    searchResponseToMarkdown d = ['\n', '\n'].intercalate ((blocks d).map Block.text) := by
  have hchunk : ∀ c, (chunkBlocks c).map Block.text = chunkHeading c :: chunkBody c := by
    intro c
    unfold chunkBlocks chunkBody
    cases c.snippet with
    | none => split_ifs <;> rfl
    | some snippet => rfl
  have hlist : ∀ title items, (listBlocks title items).map Block.text = listed title items := by
    intro title items
    unfold listBlocks listed
    split_ifs <;> rfl
  unfold searchResponseToMarkdown blocks
  simp only [List.map_append, List.map_flatMap, List.map_map, hchunk, hlist]
  rfl

lemma contained_iff_reads (html : Text → Bool) (d : Response) :
    Contained html d ↔ ∀ b ∈ blocks d, b.Reads html := by
  unfold Contained
  rw [markdown_eq]
  exact readText_blocks html (blocks d)

/-! ### Lines and Lists -/

section Reads
variable {html : Text → Bool}

lemma prose_reads (l : Text) :
    (prose l).Reads html ↔ OneLine l ∧ startsBlock html 0 l = false := by
  have hone : (∀ x ∈ (prose l).meant, OneLine x.1) ↔ OneLine l := by simp [prose]
  refine and_congr hone ?_
  have hread : readLines html .flow ((prose l).meant.map Prod.fst) =
      [(l, (readLine html .flow l).1)] := rfl
  rw [hread]
  by_cases hblank : isBlank l
  · have hno : startsBlock html 0 l = false := by simp [startsBlock, hblank]
    have hrole : (readLine html .flow l).1 = .blank := by
      rw [readLine_eq (by simp)]
      unfold readOpen
      rw [if_pos hblank]
    simp [prose, hblank, hno, hrole]
  · have htext : (readLine html .flow l).1 = .text ↔ _ := readLine_flow_text
    simpa [prose, hblank] using htext

lemma heading_reads {l : Text} (h : OneLine l) (hstart : "### ".toList <+: l) :
    (heading l).Reads html := by
  obtain ⟨t, rfl⟩ := hstart
  refine ⟨by simpa [heading] using h, ?_⟩
  have hread : readLines html .flow ((heading ("### ".toList ++ t)).meant.map Prod.fst) =
      [("### ".toList ++ t, (readLine html .flow ("### ".toList ++ t)).1)] := rfl
  rw [hread]
  rfl

/-- A text that can be an item of a list: it stays on its line and begins nothing there. -/
def Itemizable (html : Text → Bool) (t : Text) : Prop :=
  OneLine t ∧ thematicBreak (item t) = false ∧ startsBlock html 2 t = false

lemma readLines_items {ctx : Context} (hctx : ctx = .paragraph ∨ ctx = .list) (ts : List Text) :
    readLines html ctx (ts.map item) = ts.map (fun t => (item t, .item)) ↔
      (∀ t ∈ ts, thematicBreak (item t) = false ∧ startsBlock html 2 t = false) ∧
        (ctx = .paragraph → ∀ t ∈ ts.head?, isBlank t = false) := by
  induction ts generalizing ctx with
  | nil => simp [readLines]
  | cons t ts ih =>
    have hitem : (readLine html ctx (item t)).1 = .item ↔ _ := readLine_dash_item hctx t
    have hnext : (readLine html ctx (item t)).1 = .item → _ := readLine_item hctx t
    rw [List.map_cons, List.map_cons, readLines, List.cons.injEq, List.forall_mem_cons]
    constructor
    · rintro ⟨hhead, htail⟩
      have hrole : (readLine html ctx (item t)).1 = .item := congrArg Prod.snd hhead
      obtain ⟨hblank, hthem, hstart⟩ := hitem.mp hrole
      have hlist : (readLine html ctx (item t)).2 = .list := hnext hrole
      rw [hlist] at htail
      refine ⟨⟨⟨hthem, hstart⟩, ((ih (.inr rfl)).mp htail).1⟩, fun hp u hu => ?_⟩
      obtain rfl := Option.some.inj hu
      exact hblank hp
    · rintro ⟨⟨⟨hthem, hstart⟩, hrest⟩, hblank⟩
      have hrole : (readLine html ctx (item t)).1 = .item :=
        hitem.mpr ⟨fun hp => hblank hp t rfl, hthem, hstart⟩
      have hlist : (readLine html ctx (item t)).2 = .list := hnext hrole
      rw [hlist, hrole]
      exact ⟨rfl, (ih (.inr rfl)).mpr ⟨hrest, fun hp => by cases hp⟩⟩

/-- The list is read as one if each item is, and if the first does not underline the title. -/
lemma list_reads (hhtml : ∀ t, html t → t.head? = some '<') {c : Char} {cs : Text}
    (hc : c.isAlpha) (hone : OneLine (c :: cs)) (items : List Text) :
    (list (c :: cs) items).Reads html ↔
      (∀ t ∈ items, Itemizable html t) ∧ ∀ t ∈ items.head?, isBlank t = false := by
  have htitle : readLine html .flow (c :: cs) = (.text, .paragraph) :=
    readLine_plain hhtml (by simp) (plainStart_of_isAlphanum (by simp [Char.isAlphanum, hc]))
      (ordered_of_not_isDigit (not_isDigit_of_isAlpha hc))
  have hlines : (∀ x ∈ (list (c :: cs) items).meant, OneLine x.1) ↔ ∀ t ∈ items, OneLine t := by
    have hitem : ∀ t, OneLine (item t) ↔ OneLine t := by
      intro t
      simp [OneLine, item, isBreak]
    simp [list, hone, hitem]
  have hread : readLines html .flow ((list (c :: cs) items).meant.map Prod.fst) =
      (c :: cs, .text) :: readLines html .paragraph (items.map item) := by
    have hmap : (list (c :: cs) items).meant.map Prod.fst = (c :: cs) :: items.map item := by
      simp [list]
    rw [hmap, readLines, htitle]
  unfold Block.Reads
  rw [hlines, hread]
  have hmeant : (list (c :: cs) items).meant =
      (c :: cs, .text) :: items.map fun t => (item t, .item) := rfl
  rw [hmeant, List.cons.injEq, readLines_items (.inl rfl)]
  constructor
  · rintro ⟨h1, -, h2, h3⟩
    exact ⟨fun t ht => ⟨h1 t ht, h2 t ht⟩, h3 rfl⟩
  · rintro ⟨h1, h2⟩
    exact ⟨fun t ht => (h1 t ht).1, rfl, fun t ht => (h1 t ht).2, fun _ => h2⟩

end Reads

/-! ### Fences -/

lemma run_le_longestRun (t : Text) : run tick t ≤ longestRun t := by
  cases t with
  | nil => exact Nat.zero_le _
  | cons c cs => exact Nat.le_max_left _ _

lemma longestRun_le_append (a t : Text) : longestRun t ≤ longestRun (a ++ t) := by
  induction a with
  | nil => exact Nat.le_refl _
  | cons c a ih => exact ih.trans (Nat.le_max_right _ _)

lemma run_append_le (t b : Text) : run tick t ≤ run tick (t ++ b) := by
  induction t with
  | nil => exact Nat.zero_le _
  | cons c t ih =>
    unfold run at ih ⊢
    by_cases hc : c = tick
    · simpa [hc] using ih
    · simp [hc]

lemma longestRun_append_le (t b : Text) : longestRun t ≤ longestRun (t ++ b) := by
  induction t with
  | nil => exact Nat.zero_le _
  | cons c t ih =>
    have hrun := run_append_le (c :: t) b
    have hnext : longestRun (c :: t ++ b) =
        max (run tick (c :: t ++ b)) (longestRun (t ++ b)) := rfl
    rw [hnext, longestRun]
    omega

lemma longestRun_le_of_within {l t : Text} (h : l <:+: t) : longestRun l ≤ longestRun t := by
  obtain ⟨a, b, rfl⟩ := h
  rw [List.append_assoc]
  exact (longestRun_append_le l b).trans (longestRun_le_append a _)

lemma longestRun_lf (t : Text) : longestRun (t ++ ['\n']) = longestRun t := by
  have hrun : ∀ u : Text, run tick (u ++ ['\n']) = run tick u := by
    intro u
    induction u with
    | nil => rfl
    | cons c u ih =>
      unfold run at ih ⊢
      by_cases hc : c = tick
      · simpa [hc] using ih
      · simp [hc]
  induction t with
  | nil => rfl
  | cons c t ih =>
    have hcons := hrun (c :: t)
    have hnext : longestRun (c :: t ++ ['\n']) =
        max (run tick (c :: t ++ ['\n'])) (longestRun (t ++ ['\n'])) := rfl
    rw [hnext, hcons, ih, longestRun]

/-- No line of the text closes the fence that is made for it. -/
lemma not_closesFence {t l : Text} (h : l ∈ closedLines t) :
    closesFence (fenceFor t).length l = false := by
  have hinfix : l <:+: t ++ ['\n'] := infix_of_mem_lines ((List.dropLast_sublist _).subset h)
  have hstrip : strip l <:+: l := (List.dropWhile_suffix _).isInfix
  have hrun : run tick (strip l) ≤ longestRun t := by
    rw [← longestRun_lf t]
    exact (run_le_longestRun _).trans (longestRun_le_of_within (hstrip.trans hinfix))
  have hlen : ¬ (fenceFor t).length ≤ run tick (strip l) := by
    simp only [fenceFor, List.length_replicate]
    omega
  simp [closesFence, hlen]

/-- What stands behind the opening backticks is no more than an info string: it has no backtick, and
if it goes on to other lines, none of them closes the fence. -/
def InfoString (n : ℕ) (language : Text) : Prop :=
  (∀ l ∈ (closedLines language).head?, tick ∉ l) ∧
    ∀ l ∈ (closedLines language).tail, closesFence n l = false

lemma fence_reads (html : Text → Bool) (language snippet : Text) :
    (fence language snippet).Reads html ↔ InfoString (fenceFor snippet).length language := by
  have hthree : 3 ≤ max 3 (longestRun snippet + 1) := Nat.le_max_left _ _
  have hclose : ∀ l ∈ closedLines snippet,
      closesFence (max 3 (longestRun snippet + 1)) l = false := by
    intro l hl
    have hno := not_closesFence hl
    rwa [fenceFor, List.length_replicate] at hno
  obtain ⟨info, ls, hl⟩ := List.exists_cons_of_ne_nil (closedLines_ne_nil language)
  have hmeant : (fence language snippet).meant = (fenceFor snippet ++ info, .opens) ::
      ((ls ++ closedLines snippet).map (·, .code) ++ [(fenceFor snippet, .closes)]) := by
    change fencedLines (fenceFor snippet) (closedLines language ++ closedLines snippet) = _
    rw [hl]
    rfl
  have hfst : (fence language snippet).meant.map Prod.fst = (fenceFor snippet ++ info) ::
      ((ls ++ closedLines snippet) ++ [fenceFor snippet]) := by
    rw [hmeant]
    simp [Function.comp_def]
  have hone : ∀ x ∈ (fence language snippet).meant, OneLine x.1 := by
    intro x hx
    have hmem := List.mem_map_of_mem (f := Prod.fst) hx
    have hlines : (fence language snippet).meant.map Prod.fst =
        lines (fenced language snippet) := by
      rw [hfst, (lines_fenced language snippet).1, hl]
      rfl
    rw [hlines] at hmem
    exact oneLine_of_mem hmem
  unfold Block.Reads InfoString
  rw [hfst, hmeant, hl]
  unfold fenceFor
  rw [readLines_fence hthree info (ls ++ closedLines snippet), List.length_replicate]
  constructor
  · rintro ⟨-, hinfo, hcode⟩
    refine ⟨fun l h => ?_, fun l h => hcode l (List.mem_append_left _ h)⟩
    obtain rfl := Option.some.inj h
    exact hinfo
  · rintro ⟨hinfo, hcode⟩
    refine ⟨?_, hinfo info rfl, fun l h => ?_⟩
    · rw [hmeant] at hone
      exact hone
    · rcases List.mem_append.mp h with h | h
      · exact hcode l h
      · exact hclose l h

/-! ### Fields -/

lemma oneLine_append {a b : Text} : OneLine (a ++ b) ↔ OneLine a ∧ OneLine b :=
  List.forall_mem_append

lemma oneLine_cons {c : Char} {b : Text} : OneLine (c :: b) ↔ isBreak c = false ∧ OneLine b :=
  List.forall_mem_cons

lemma Label.oneLine (w : Label) : OneLine w.text := by
  intro c hc
  have halnum := w.isAlphanum c hc
  unfold isBreak
  rw [Bool.or_eq_false_iff, decide_eq_false_iff_not, decide_eq_false_iff_not]
  refine ⟨?_, ?_⟩ <;> rintro rfl <;> exact absurd halnum (by decide)

lemma oneLine_mdOneLine (t : Text) : OneLine (mdOneLine t) := by
  have hjoin : ∀ inRun, OneLine (joinLines inRun t) := by
    induction t with
    | nil => exact fun _ => nofun
    | cons c t ih =>
      intro inRun
      unfold joinLines
      split_ifs with hc hr
      · exact ih true
      · exact oneLine_cons.mpr ⟨rfl, ih true⟩
      · refine oneLine_cons.mpr ⟨?_, ih false⟩
        simp only [mdLineBreaker, List.mem_cons, decide_eq_true_eq, not_or] at hc
        simp [isBreak, hc.1, hc.2.1]
  exact hjoin false

lemma oneLine_chunkHeading (c : Chunk) : OneLine (chunkHeading c) := by
  have hpath := oneLine_mdOneLine c.filePath
  have hcite : OneLine (if c.citation = [] then [] else " — ".toList ++ mdOneLine c.citation) := by
    split_ifs
    · exact nofun
    · exact oneLine_append.mpr ⟨by decide, oneLine_mdOneLine _⟩
  have hhash : OneLine "### ".toList := by decide
  have hscore : OneLine " (score ".toList := by decide
  have hclose : OneLine [')'] := by decide
  have hmarks : isBreak ':' = false ∧ isBreak '-' = false := by decide
  simp only [chunkHeading, oneLine_append, oneLine_cons, hmarks, hhash, hscore, hclose, hcite,
    hpath, c.startLine.oneLine, c.endLine.oneLine, c.score.oneLine, and_self]

lemma oneLine_hitIdLine (hitId : Text) : OneLine (hitIdLine hitId) ↔ OneLine hitId := by
  have hlabel : OneLine "hit_id: ".toList := by decide
  unfold hitIdLine
  rw [oneLine_append, and_iff_right hlabel]

/-- The texts of a chunk that is shown without its code stay on one line and begin no block; before
the code stands no more than an info string. -/
def Chunk.Fits (html : Text → Bool) (c : Chunk) : Prop :=
  match c.snippet with
  | none => startsBlock html 0 (mdOneLine c.header) = false ∧ OneLine c.hitId
  | some snippet => InfoString (fenceFor snippet).length c.language

def Neighbor.Fits (html : Text → Bool) (n : Neighbor) : Prop :=
  OneLine (neighborLabel n) ∧ OneLine n.filePath ∧
    (n.type = none → startsBlock html 2 (neighborText n) = false)

lemma mem_neighborText (n : Neighbor) : '(' ∈ neighborText n := by
  have hopen : '(' ∈ " (".toList := by decide
  simp only [neighborText, List.mem_append, List.mem_cons, hopen, true_or, or_true]

section Fits
variable {html : Text → Bool} (hhtml : ∀ t, html t → t.head? = some '<')

lemma listBlocks_reads (hhtml : ∀ t, html t → t.head? = some '<') {c : Char} {cs : Text}
    (hc : c.isAlpha) (hone : OneLine (c :: cs)) (items : List Text) :
    (∀ b ∈ listBlocks (c :: cs) items, b.Reads html) ↔
      (∀ t ∈ items, Itemizable html t) ∧ ∀ t ∈ items.head?, isBlank t = false := by
  unfold listBlocks
  split_ifs with hnil
  · subst hnil
    exact iff_of_true nofun ⟨nofun, nofun⟩
  · rw [List.forall_mem_singleton, list_reads hhtml hc hone]

include hhtml

lemma letter_not_startsBlock {l : Text} {c : Char} (hc : c.isAlpha) (h : l.head? = some c)
    (col : ℕ) : startsBlock html col l = false := by
  obtain ⟨t, rfl⟩ := List.head?_eq_some_iff.mp h
  exact not_startsBlock hhtml (plainStart_of_isAlphanum (by simp [Char.isAlphanum, hc]))
    (ordered_of_not_isDigit (not_isDigit_of_isAlpha hc)) col

lemma chunk_reads (c : Chunk) : (∀ b ∈ chunkBlocks c, b.Reads html) ↔ c.Fits html := by
  have hheading : (heading (chunkHeading c)).Reads html :=
    heading_reads (oneLine_chunkHeading c) ⟨_, rfl⟩
  unfold chunkBlocks Chunk.Fits
  rw [List.forall_mem_cons, and_iff_right hheading]
  cases c.snippet with
  | some snippet => rw [List.forall_mem_singleton, fence_reads]
  | none =>
    dsimp only
    rw [List.forall_mem_append]
    refine and_congr ?_ ?_
    · split_ifs with hnil
      · rw [hnil]
        exact iff_of_true nofun rfl
      · rw [List.forall_mem_singleton, prose_reads, and_iff_right (oneLine_mdOneLine _)]
    · split_ifs with hnil
      · rw [hnil]
        exact iff_of_true nofun nofun
      · have hstart : startsBlock html 0 (hitIdLine c.hitId) = false :=
          letter_not_startsBlock hhtml (by decide) (head?_hitIdLine c.hitId) 0
        rw [List.forall_mem_singleton, prose_reads, and_iff_left hstart]
        exact oneLine_hitIdLine c.hitId

lemma word_not_startsBlock (w : Label) {c : Char} (hc : c = ' ' ∨ c = ':') (t : Text) (col : ℕ) :
    startsBlock html col (w.text ++ c :: t) = false := by
  obtain ⟨d, ds, hw⟩ := List.exists_cons_of_ne_nil w.ne_nil
  have hord := ordered_of_word (t := t) w.isAlphanum hc
  have hd := w.isAlphanum d (by rw [hw]; exact List.mem_cons_self)
  rw [hw, List.cons_append] at hord ⊢
  exact not_startsBlock hhtml (plainStart_of_isAlphanum hd) hord col

lemma neighbor_itemizable (n : Neighbor) : Itemizable html (neighborText n) ↔ n.Fits html := by
  have hthem : thematicBreak (item (neighborText n)) = false :=
    not_thematicBreak_of_mem
      (List.mem_cons_of_mem _ (List.mem_cons_of_mem _ (mem_neighborText n))) (by decide)
  have hone : OneLine (neighborText n) ↔ OneLine (neighborLabel n) ∧ OneLine n.filePath := by
    have htype : OneLine (n.type.elim [] Label.text) := by
      cases n.type with
      | none => exact nofun
      | some w => exact w.oneLine
    have hloc : OneLine (if n.filePath = [] then [] else
        ' ' :: n.filePath ++ ':' :: n.startLine.text) ↔ OneLine n.filePath := by
      split_ifs with hnil
      · rw [hnil]
      · simp [oneLine_append, oneLine_cons, n.startLine.oneLine, isBreak]
    have hopen : OneLine " (".toList := by decide
    have hclose : OneLine [')'] := by decide
    have hspace : isBreak ' ' = false := by decide
    simp only [neighborText, oneLine_append, oneLine_cons, hspace, hloc, htype, hopen, hclose,
      n.relType.oneLine, n.relDirection.oneLine, true_and, and_true]
  have hstart : startsBlock html 2 (neighborText n) = false ↔
      (n.type = none → startsBlock html 2 (neighborText n) = false) := by
    refine ⟨fun h _ => h, fun h => ?_⟩
    cases htype : n.type with
    | none => exact h htype
    | some w =>
      unfold neighborText
      rw [htype]
      exact word_not_startsBlock hhtml w (.inl rfl) _ 2
  unfold Itemizable Neighbor.Fits
  rw [and_iff_right hthem, hone, and_assoc, ← hstart]

lemma neighbors_itemizable (ns : List Neighbor) :
    ((∀ t ∈ ns.map neighborText, Itemizable html t) ∧
      ∀ t ∈ (ns.map neighborText).head?, isBlank t = false) ↔ ∀ n ∈ ns, n.Fits html := by
  have hblank : ∀ t ∈ (ns.map neighborText).head?, isBlank t = false := by
    intro t ht
    obtain ⟨n, -, rfl⟩ := List.mem_map.mp (List.mem_of_head? ht)
    exact not_blank_of_mem (mem_neighborText n) (by decide)
  rw [and_iff_left hblank, List.forall_mem_map]
  exact forall₂_congr fun n _ => neighbor_itemizable hhtml n

lemma provenance_itemizable (sources : List (Label × Provenance)) :
    (∀ t ∈ provenanceLines sources, Itemizable html t) ∧
      ∀ t ∈ (provenanceLines sources).head?, isBlank t = false := by
  have htext : ∀ t ∈ provenanceLines sources, ∃ w p, t = provenanceText w p := by
    intro t ht
    obtain ⟨s, -, rfl⟩ := List.mem_map.mp ht
    exact ⟨s.1, s.2, rfl⟩
  have hcolon : ∀ w p, ':' ∈ provenanceText w p := by
    intro w p
    simp [provenanceText]
  refine ⟨fun t ht => ?_, fun t ht => ?_⟩
  · obtain ⟨w, p, rfl⟩ := htext t ht
    refine ⟨?_, ?_, word_not_startsBlock hhtml w (.inr rfl) _ 2⟩
    · have hstale : OneLine (if p.isStale then " STALE".toList else []) := by
        split_ifs <;> decide
      have hlink : OneLine (if p.permalinkBase.text = [] then [] else
          ' ' :: ' ' :: p.permalinkBase.text) := by
        split_ifs
        · exact nofun
        · simp [oneLine_cons, p.permalinkBase.oneLine, isBreak]
      have hsha : OneLine (shortSha p) := fun c hc =>
        p.commitSha.oneLine c (List.mem_of_mem_take hc)
      have hmarks : isBreak ':' = false ∧ isBreak ' ' = false := by decide
      simp only [provenanceText, oneLine_append, oneLine_cons, hmarks, hstale, hlink, hsha,
        w.oneLine, and_self]
    · exact not_thematicBreak_of_mem
        (List.mem_cons_of_mem _ (List.mem_cons_of_mem _ (hcolon w p))) (by decide)
  · obtain ⟨w, p, rfl⟩ := htext t (List.mem_of_head? ht)
    exact not_blank_of_mem (hcolon w p) (by decide)

lemma source_reads (sid : Label) : (prose ("source: ".toList ++ sid.text)).Reads html := by
  have hlabel : OneLine "source: ".toList := by decide
  have hhead : ("source: ".toList ++ sid.text).head? = some 's' := rfl
  rw [prose_reads, oneLine_append]
  exact ⟨⟨hlabel, sid.oneLine⟩, letter_not_startsBlock hhtml (by decide) hhead 0⟩

end Fits

/-- An answer keeps every field in its own line or fence exactly if each field fits where it is
printed as it stands: the header and the language, the handles, the names and paths of the
neighbours, and the summaries. -/
theorem contained_iff (html : Text → Bool) (hhtml : ∀ t, html t → t.head? = some '<')
    (d : Response) : Contained html d ↔
      (∀ c ∈ d.chunks, c.Fits html) ∧ (∀ n ∈ d.neighbors, n.Fits html) ∧
        (∀ v ∈ d.communitySummaries, Itemizable html v) ∧
          ∀ v ∈ d.communitySummaries.head?, isBlank v = false := by
  have hsource : ∀ b ∈ d.sourceId.toList.map fun sid => prose ("source: ".toList ++ sid.text),
      b.Reads html := by
    intro b hb
    obtain ⟨sid, -, rfl⟩ := List.mem_map.mp hb
    exact source_reads hhtml sid
  have hchunks : (∀ b ∈ d.chunks.flatMap chunkBlocks, b.Reads html) ↔
      ∀ c ∈ d.chunks, c.Fits html := by
    rw [List.forall_mem_flatMap]
    exact forall₂_congr fun c _ => chunk_reads hhtml c
  have hrelated : (∀ b ∈ listBlocks "related:".toList (d.neighbors.map neighborText),
      b.Reads html) ↔ ∀ n ∈ d.neighbors, n.Fits html := by
    rw [← neighbors_itemizable hhtml]
    exact listBlocks_reads hhtml (by decide) (by decide) _
  have hcommunities : (∀ b ∈ listBlocks "communities:".toList d.communitySummaries,
      b.Reads html) ↔ (∀ v ∈ d.communitySummaries, Itemizable html v) ∧
        ∀ v ∈ d.communitySummaries.head?, isBlank v = false :=
    listBlocks_reads hhtml (by decide) (by decide) _
  have hprovenance : ∀ b ∈ listBlocks "provenance:".toList (provenanceLines d.sources),
      b.Reads html :=
    (listBlocks_reads hhtml (by decide) (by decide) _).mpr (provenance_itemizable hhtml d.sources)
  rw [contained_iff_reads, blocks]
  simp only [List.forall_mem_append]
  rw [and_iff_left hprovenance, hcommunities, hrelated, hchunks, and_iff_right hsource, and_assoc]

/-- The least that begins an HTML block. -/
def htmlStart (t : Text) : Bool := t.head? = some '<'

def one : Inline := ⟨['1'], by decide⟩

/-- A chunk whose code holds a fence of its own, beside a chunk that is shown by its header. -/
def fencedAnswer : Response where
  sourceId := some ⟨"a1".toList, by decide, List.forall_iff_forall_mem.mp (by decide)⟩
  chunks :=
    [⟨"a\n# b.md".toList, one, one, one, "b.md".toList, some "```\n# x\n````".toList, "md".toList,
      [], []⟩,
     ⟨"c.py".toList, one, one, one, [], none, [], "class C\n# x".toList, "c.py:1-1".toList⟩]
  neighbors := [⟨none, "f".toList, [], "c.py".toList, one, one, one⟩]
  communitySummaries := ["The parser".toList, []]
  sources := [(⟨"a1".toList, by decide, List.forall_iff_forall_mem.mp (by decide)⟩, ⟨one, true, one⟩)]

/-- Neither the fence in the code nor the line feeds in the path and the header leave their place;
the second summary is an empty item. -/
theorem fencedAnswer_contained : Contained htmlStart fencedAnswer := by
  refine (contained_iff htmlStart (fun t ht => of_decide_eq_true ht) fencedAnswer).mpr
    ⟨?_, ?_, ?_, ?_⟩
  · refine List.forall_mem_cons.mpr ⟨?_, List.forall_mem_singleton.mpr ?_⟩
    · exact ⟨by decide, by decide⟩
    · exact ⟨by decide, by decide⟩
  · exact List.forall_mem_singleton.mpr ⟨by decide, by decide, fun _ => by decide⟩
  · refine List.forall_mem_cons.mpr ⟨?_, List.forall_mem_singleton.mpr ?_⟩
    · exact ⟨by decide, by decide, by decide⟩
    · exact ⟨by decide, by decide, by decide⟩
  · exact fun v hv => by
      obtain rfl := Option.some.inj hv
      decide

/-- A handle is printed as it stands: a line feed in the path goes on to a heading of its own. -/
theorem handle_begins_heading : ¬ Contained htmlStart
    ⟨none, [⟨"a\n# b.py".toList, one, one, one, [], none, [], [], "a\n# b.py:1-1".toList⟩],
      [], [], []⟩ := by
  unfold Contained
  decide

end Treeweft.MarkdownAnswer
