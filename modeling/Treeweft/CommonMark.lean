import Mathlib.Data.List.Basic
import Mathlib.Data.List.TakeWhile
import Mathlib.Order.Nat

/-!
How CommonMark reads a text line by line: what begins a block, and what ends a fence.

Followed are headings, paragraphs, the items of a list and backtick fences at the margin. Any other
block that a line begins is `other`, and what it contains is not followed. The start conditions of
HTML blocks are a parameter: all that matters of them is that such a block begins with `<`.
-/

namespace Treeweft.CommonMark

abbrev Text := List Char

/-! ### Lines -/

def isBreak (c : Char) : Bool := c = '\n' || c = '\r'

/-- A line ends with a line feed, a carriage return, or both. -/
def lines : Text → List Text
  | [] => [[]]
  | '\r' :: '\n' :: cs => [] :: lines cs
  | c :: cs => if isBreak c then [] :: lines cs else (lines cs).modifyHead (c :: ·)

example : lines ['\r', '\n'] = [[], []] := by rw [lines, lines]

/-- No character of the text ends a line. -/
def OneLine (t : Text) : Prop := ∀ c ∈ t, isBreak c = false

instance (t : Text) : Decidable (OneLine t) := List.decidableBAll _ t

/-- The lines of a text that is followed by a line feed. -/
def closedLines (t : Text) : List Text := (lines (t ++ ['\n'])).dropLast

/-! ### What a Line Begins -/

def isWs (c : Char) : Bool := c = ' ' || c = '\t'

def isBlank (l : Text) : Bool := l.all isWs

/-- The column of the first character that is no space and no tab. -/
def indent (col : ℕ) : Text → ℕ
  | ' ' :: cs => indent (col + 1) cs
  | '\t' :: cs => indent (col + (4 - col % 4)) cs
  | _ => col

def strip (l : Text) : Text := l.dropWhile isWs

def tick : Char := '\x60'

def run (c : Char) (t : Text) : ℕ := (t.takeWhile (· = c)).length

/-- The end of the line, a space or a tab. -/
def wsOrEnd (t : Text) : Bool := t.head?.all isWs

/-- The info string of a backtick fence has no backtick. -/
def backtickFence (t : Text) : Bool := 3 ≤ run tick t && tick ∉ t.drop (run tick t)

def tildeFence (t : Text) : Bool := 3 ≤ run '~' t

def heading (t : Text) : Bool := 1 ≤ run '#' t && run '#' t ≤ 6 && wsOrEnd (t.drop (run '#' t))

def thematicBreak (t : Text) : Bool :=
  ['-', '_', '*'].any fun c => t.all (fun d => d = c || isWs d) && 3 ≤ t.count c

def quote (t : Text) : Bool := t.head? = some '>'

def bullet : Text → Bool
  | c :: t => (c = '-' || c = '+' || c = '*') && wsOrEnd t
  | [] => false

def ordered (t : Text) : Bool :=
  let digits := t.takeWhile Char.isDigit
  1 ≤ digits.length && digits.length ≤ 9 &&
    match t.dropWhile Char.isDigit with
    | c :: rest => (c = '.' || c = ')') && wsOrEnd rest
    | [] => false

/-- An underline that makes a heading of the paragraph above it. -/
def setext (l : Text) : Bool :=
  indent 0 l < 4 && ['=', '-'].any fun c => 1 ≤ run c (strip l) &&
    isBlank ((strip l).drop (run c (strip l)))

section Blocks
variable (html : Text → Bool)

/-- The text, which stands at column `col` of a fresh container, begins a block that is no
paragraph. -/
def startsBlock (col : ℕ) (l : Text) : Bool :=
  !isBlank l && (decide (col + 4 ≤ indent col l) || backtickFence (strip l) ||
    tildeFence (strip l) || heading (strip l) || thematicBreak (strip l) || quote (strip l) ||
    bullet (strip l) || ordered (strip l) || html (strip l))

/-- The backticks of the fence that the line opens. -/
def opensFence (l : Text) : Option ℕ :=
  if indent 0 l < 4 ∧ backtickFence (strip l) then some (run tick (strip l)) else none

/-- The line closes a fence of `n` backticks. -/
def closesFence (n : ℕ) (l : Text) : Bool :=
  indent 0 l < 4 && n ≤ run tick (strip l) && isBlank ((strip l).drop (run tick (strip l)))

/-! ### Reading -/

/-- What is open before a line: nothing, a paragraph, an item of a list, or a fence. -/
inductive Context
  | flow
  | paragraph
  | list
  | code (backticks : ℕ)
  deriving DecidableEq, Repr

/-- What a line is read as. -/
inductive Role
  | blank
  | text
  | heading
  | item
  | opens
  | code
  | closes
  | other
  deriving DecidableEq, Repr

/-- A line that is no line of a fence. -/
def readOpen (ctx : Context) (l : Text) : Role × Context :=
  if isBlank l then (.blank, .flow)
  else
    match opensFence l with
    | some n => (.opens, .code n)
    | none =>
      if indent 0 l < 4 ∧ CommonMark.heading (strip l) then (.heading, .flow)
      else if ctx = .paragraph ∧ setext l then (.other, .flow)
      else if indent 0 l < 4 ∧ thematicBreak (strip l) then (.other, .flow)
      else
        match l with
        | '-' :: ' ' :: inner =>
          if startsBlock html 2 inner then (.other, .list) else (.item, .list)
        | _ =>
          if startsBlock html 0 l ∧ (ctx = .flow ∨ indent 0 l < 4) then (.other, .flow)
          else (.text, if ctx = .flow then .paragraph else ctx)

def readLine : Context → Text → Role × Context
  | .code n, l => if closesFence n l then (.closes, .flow) else (.code, .code n)
  | ctx, l => readOpen html ctx l

/-- The lines with their roles. -/
def readLines : Context → List Text → List (Text × Role)
  | _, [] => []
  | ctx, l :: ls => (l, (readLine html ctx l).1) :: readLines (readLine html ctx l).2 ls

/-- What is open after some lines. -/
def after (ctx : Context) (ls : List Text) : Context :=
  ls.foldl (fun ctx l => (readLine html ctx l).2) ctx

def readText (t : Text) : List (Text × Role) := readLines html .flow (lines t)

end Blocks

/-! ### Lines of Joined Texts -/

lemma lines_ne_nil (t : Text) : lines t ≠ [] := by
  fun_induction lines t with
  | case1 => exact nofun
  | case2 => exact nofun
  | case3 => exact nofun
  | case4 c cs _ _ ih =>
    obtain ⟨l, ls, h⟩ := List.exists_cons_of_ne_nil ih
    rw [h]
    exact nofun

lemma oneLine_of_mem {t l : Text} (h : l ∈ lines t) : OneLine l := by
  fun_induction lines t generalizing l with
  | case1 =>
    obtain rfl := List.mem_singleton.mp h
    exact nofun
  | case2 cs ih =>
    rcases List.mem_cons.mp h with rfl | h
    · exact nofun
    · exact ih h
  | case3 c cs _ _ ih =>
    rcases List.mem_cons.mp h with rfl | h
    · exact nofun
    · exact ih h
  | case4 c cs _ hc ih =>
    obtain ⟨m, ms, hm⟩ := List.exists_cons_of_ne_nil (lines_ne_nil cs)
    rw [hm] at h ih
    rcases List.mem_cons.mp h with rfl | h
    · intro d hd
      rcases List.mem_cons.mp hd with rfl | hd
      · simpa using hc
      · exact ih List.mem_cons_self d hd
    · exact ih (List.mem_cons_of_mem _ h)

lemma lines_crlf (cs : Text) : lines ('\r' :: '\n' :: cs) = [] :: lines cs := by rw [lines]

lemma lines_cons {c : Char} {cs : Text} (h : ∀ ds, c = '\r' → cs ≠ '\n' :: ds) :
    lines (c :: cs) = if isBreak c then [] :: lines cs else (lines cs).modifyHead (c :: ·) := by
  rw [lines]
  exact fun ds hc hcs => h ds hc hcs

lemma lines_lf (cs : Text) : lines ('\n' :: cs) = [] :: lines cs := by
  rw [lines_cons fun _ h => absurd h (by decide)]
  rfl

lemma closedLines_spec (a : Text) : closedLines a ≠ [] ∧
    ∀ b, lines (a ++ '\n' :: b) = closedLines a ++ lines b := by
  have hdrop : ∀ (l : Text) t, (l :: lines t).dropLast = l :: (lines t).dropLast := fun l t =>
    List.dropLast_cons_of_ne_nil (lines_ne_nil t)
  fun_induction lines a with
  | case1 => exact ⟨nofun, lines_lf⟩
  | case2 cs ih =>
    have hclosed : closedLines ('\r' :: '\n' :: cs) = [] :: closedLines cs := by
      unfold closedLines
      simp only [List.cons_append, lines_crlf, hdrop]
    rw [hclosed]
    exact ⟨nofun, fun b => by simp only [List.cons_append, lines_crlf, ih.2 b]⟩
  | case3 c cs hcr hc ih =>
    by_cases hlast : c = '\r' ∧ cs = []
    · obtain ⟨rfl, rfl⟩ := hlast
      exact ⟨nofun, lines_crlf⟩
    · have hcons : ∀ t, lines (c :: (cs ++ '\n' :: t)) = [] :: lines (cs ++ '\n' :: t) := by
        intro t
        rw [lines_cons, if_pos hc]
        intro ds hc' heq
        cases cs with
        | nil => exact hlast ⟨hc', rfl⟩
        | cons d cs => exact hcr cs hc' (by rw [(List.cons.inj heq).1])
      have hclosed : closedLines (c :: cs) = [] :: closedLines cs := by
        unfold closedLines
        simp only [List.cons_append, hcons, hdrop]
      rw [hclosed]
      exact ⟨nofun, fun b => by simp only [List.cons_append, hcons, ih.2 b]⟩
  | case4 c cs hcr hc ih =>
    have hcons : ∀ t, lines (c :: (cs ++ '\n' :: t)) =
        (closedLines cs ++ lines t).modifyHead (c :: ·) := by
      intro t
      rw [lines_cons, if_neg hc, ih.2 t]
      rintro ds rfl
      exact (hc (by decide)).elim
    obtain ⟨l, ls, hl⟩ := List.exists_cons_of_ne_nil ih.1
    have hclosed : closedLines (c :: cs) = (c :: l) :: ls := by
      have hone := hcons []
      rw [hl] at hone
      unfold closedLines
      rw [List.cons_append, hone]
      change (((c :: l) :: ls) ++ [[]]).dropLast = _
      exact List.dropLast_concat
    rw [hclosed]
    refine ⟨nofun, fun b => ?_⟩
    rw [List.cons_append, hcons b, hl]
    rfl

lemma closedLines_ne_nil (a : Text) : closedLines a ≠ [] := (closedLines_spec a).1

/-- A line feed closes the lines before it. -/
lemma lines_append_lf (a b : Text) : lines (a ++ '\n' :: b) = closedLines a ++ lines b :=
  (closedLines_spec a).2 b

lemma closedLines_append_lf (a b : Text) :
    closedLines (a ++ '\n' :: b) = closedLines a ++ closedLines b := by
  unfold closedLines
  rw [List.append_assoc, List.cons_append, lines_append_lf,
    List.dropLast_append_of_ne_nil (lines_ne_nil _)]
  rfl

lemma lines_of_oneLine {t : Text} (h : OneLine t) : lines t = [t] := by
  induction t with
  | nil => rfl
  | cons c t ih =>
    have hc := h c List.mem_cons_self
    rw [lines_cons, if_neg (by simp [hc]), ih fun d hd => h d (List.mem_cons_of_mem _ hd)]
    · rfl
    · rintro ds rfl
      exact absurd hc (by decide)

lemma closedLines_of_oneLine {t : Text} (h : OneLine t) : closedLines t = [t] := by
  have hlines : lines (t ++ ['\n']) = [t, []] := by
    induction t with
    | nil => rfl
    | cons c t ih =>
      have hc := h c List.mem_cons_self
      rw [List.cons_append, lines_cons, if_neg (by simp [hc]),
        ih fun d hd => h d (List.mem_cons_of_mem _ hd)]
      · rfl
      · rintro ds rfl
        exact absurd hc (by decide)
  unfold closedLines
  rw [hlines]
  rfl

lemma oneLine_of_mem_closedLines {t l : Text} (h : l ∈ closedLines t) : OneLine l :=
  oneLine_of_mem ((List.dropLast_sublist _).subset h)

/-- Every line stands in the text as it is. -/
lemma infix_of_mem_lines {t l : Text} (h : l ∈ lines t) : l <:+: t := by
  have hall : (∀ m ∈ (lines t).head?, m <+: t) ∧ ∀ m ∈ lines t, m <:+: t := by
    clear h
    fun_induction lines t with
    | case1 => simp
    | case2 cs ih =>
      refine ⟨by simp, fun m hm => ?_⟩
      rcases List.mem_cons.mp hm with rfl | hm
      · exact List.nil_infix
      · exact (ih.2 m hm).trans ⟨['\r', '\n'], [], by simp⟩
    | case3 c cs _ _ ih =>
      refine ⟨by simp, fun m hm => ?_⟩
      rcases List.mem_cons.mp hm with rfl | hm
      · exact List.nil_infix
      · exact (ih.2 m hm).trans ⟨[c], [], by simp⟩
    | case4 c cs _ _ ih =>
      obtain ⟨m, ms, hm⟩ := List.exists_cons_of_ne_nil (lines_ne_nil cs)
      rw [hm] at ih ⊢
      have hhead : (c :: m) <+: c :: cs := (List.cons_prefix_cons).mpr ⟨rfl, ih.1 m rfl⟩
      refine ⟨by simpa using hhead, fun k hk => ?_⟩
      rcases List.mem_cons.mp hk with rfl | hk
      · exact hhead.isInfix
      · exact (ih.2 k (List.mem_cons_of_mem _ hk)).trans ⟨[c], [], by simp⟩
  exact hall.2 l h

lemma lines_oneLine_append {a : Text} (h : OneLine a) (b : Text) :
    lines (a ++ b) = (lines b).modifyHead (a ++ ·) := by
  induction a with
  | nil => exact (congrFun List.modifyHead_id _).symm
  | cons c a ih =>
    have hc := h c List.mem_cons_self
    rw [List.cons_append, lines_cons, if_neg (by simp [hc]),
      ih fun d hd => h d (List.mem_cons_of_mem _ hd), List.modifyHead_modifyHead]
    · rfl
    · rintro ds rfl
      exact absurd hc (by decide)

lemma closedLines_oneLine_append {a : Text} (h : OneLine a) (b : Text) :
    closedLines (a ++ b) = (closedLines b).modifyHead (a ++ ·) := by
  obtain ⟨l, ls, hl⟩ := List.exists_cons_of_ne_nil (lines_ne_nil (b ++ ['\n']))
  obtain ⟨m, ms, rfl⟩ : ∃ m ms, ls = m :: ms := by
    refine List.exists_cons_of_ne_nil ?_
    rintro rfl
    exact closedLines_ne_nil b (by rw [closedLines, hl]; rfl)
  unfold closedLines
  rw [List.append_assoc, lines_oneLine_append h, hl]
  rfl

/-- Lines that hold no line ending, joined by line feeds. -/
lemma lines_join {ls : List Text} (hne : ls ≠ []) (h : ∀ l ∈ ls, OneLine l) :
    lines (['\n'].intercalate ls) = ls ∧ closedLines (['\n'].intercalate ls) = ls := by
  induction ls with
  | nil => exact absurd rfl hne
  | cons l ls ih =>
    have hl := h l List.mem_cons_self
    cases ls with
    | nil =>
      rw [List.intercalate_singleton]
      exact ⟨lines_of_oneLine hl, closedLines_of_oneLine hl⟩
    | cons m ls =>
      obtain ⟨hlines, hclosed⟩ := ih nofun fun k hk => h k (List.mem_cons_of_mem _ hk)
      rw [List.intercalate_cons_cons, List.append_assoc, List.singleton_append, lines_append_lf,
        closedLines_append_lf, closedLines_of_oneLine hl, hlines, hclosed]
      exact ⟨rfl, rfl⟩

/-! ### Reading Lines -/

section Reading
variable {html : Text → Bool}

lemma readLines_append (ctx : Context) (ls ms : List Text) :
    readLines html ctx (ls ++ ms) =
      readLines html ctx ls ++ readLines html (after html ctx ls) ms := by
  induction ls generalizing ctx with
  | nil => rfl
  | cons l ls ih => exact congrArg (_ :: ·) (ih _)

lemma map_fst_readLines (ctx : Context) (ls : List Text) :
    (readLines html ctx ls).map Prod.fst = ls := by
  induction ls generalizing ctx with
  | nil => rfl
  | cons l ls ih => exact congrArg (l :: ·) (ih _)

lemma readLine_eq {ctx : Context} (h : ∀ n, ctx ≠ .code n) (l : Text) :
    readLine html ctx l = readOpen html ctx l := by
  cases ctx with
  | code n => exact absurd rfl (h n)
  | flow | paragraph | list => rfl

/-- After a blank line nothing is open, unless it is a line of code. -/
lemma readLine_nil {ctx : Context} (h : ∀ n, ctx ≠ .code n) :
    readLine html ctx [] = (.blank, .flow) := by
  rw [readLine_eq h]
  rfl

/-- A character that begins no block but a paragraph and, if it is a digit, an ordered list. -/
def plainStart (c : Char) : Bool :=
  c ∉ [' ', '\t', '-', '_', '*', '+', '#', '>', '<', '=', '~', tick]

lemma plainStart_of_isAlphanum {c : Char} (h : c.isAlphanum) : plainStart c := by
  have hnot : ∀ d ∈ [' ', '\t', '-', '_', '*', '+', '#', '>', '<', '=', '~', tick],
      d.isAlphanum = false := List.forall_iff_forall_mem.mp (by decide)
  refine decide_eq_true fun hmem => ?_
  rw [hnot c hmem] at h
  cases h

lemma not_isDigit_of_isAlpha {c : Char} (h : c.isAlpha) : c.isDigit = false := by
  by_contra hd
  have hdigit : 48 ≤ c.toNat ∧ c.toNat ≤ 57 := by
    simpa [Char.isDigit, UInt32.le_iff_toNat_le] using hd
  have halpha : (65 ≤ c.toNat ∧ c.toNat ≤ 90) ∨ (97 ≤ c.toNat ∧ c.toNat ≤ 122) := by
    rcases Bool.or_eq_true_iff.mp (h : (c.isUpper || c.isLower) = true) with hupper | hlower
    · have hbounds : 'A'.val ≤ c.val ∧ c.val ≤ 'Z'.val := of_decide_eq_true hupper
      exact .inl (by simpa [UInt32.le_iff_toNat_le] using hbounds)
    · have hand : (decide ('a'.val ≤ c.val) && decide (c.val ≤ 'z'.val)) = true := hlower
      have hbounds := Bool.and_eq_true_iff.mp hand
      exact .inr (by simpa [UInt32.le_iff_toNat_le] using hbounds)
  omega

lemma ordered_of_not_isDigit {c : Char} {t : Text} (h : c.isDigit = false) :
    ordered (c :: t) = false := by
  simp [ordered, List.takeWhile_cons_of_neg, h]

/-- Behind the letters and digits stands neither a period nor a parenthesis. -/
lemma ordered_of_word {w : Text} {c : Char} {t : Text} (hw : ∀ d ∈ w, d.isAlphanum)
    (hc : c = ' ' ∨ c = ':') : ordered (w ++ c :: t) = false := by
  have hrest : ∃ d ds, (w ++ c :: t).dropWhile Char.isDigit = d :: ds ∧
      (d.isAlphanum ∨ d = c) := by
    induction w with
    | nil =>
      refine ⟨c, t, List.dropWhile_cons_of_neg ?_, .inr rfl⟩
      rcases hc with rfl | rfl <;> decide
    | cons a w ih =>
      by_cases ha : a.isDigit
      · obtain ⟨d, ds, hdrop, hd⟩ := ih fun d hd => hw d (List.mem_cons_of_mem _ hd)
        exact ⟨d, ds, by rw [List.cons_append, List.dropWhile_cons_of_pos ha, hdrop], hd⟩
      · exact ⟨a, _, List.dropWhile_cons_of_neg ha, .inl (hw a List.mem_cons_self)⟩
  obtain ⟨d, ds, hdrop, hd⟩ := hrest
  have hnone : d ≠ '.' ∧ d ≠ ')' := by
    rcases hd with hd | rfl
    · refine ⟨?_, ?_⟩ <;> rintro rfl <;> exact absurd hd (by decide)
    · rcases hc with rfl | rfl <;> decide
  unfold ordered
  rw [hdrop]
  simp [hnone]

section Plain
variable {c : Char} {t : Text}

lemma run_plain {d : Char} (h : c ≠ d) : run d (c :: t) = 0 := by
  unfold run
  rw [List.takeWhile_cons_of_neg (by simpa using h)]
  rfl

lemma strip_plain (h : isWs c = false) : strip (c :: t) = c :: t :=
  List.dropWhile_cons_of_neg (by simp [h])

lemma indent_plain (h : isWs c = false) (col : ℕ) : indent col (c :: t) = col := by
  unfold indent
  split
  · exact absurd h (by simp_all [isWs])
  · exact absurd h (by simp_all [isWs])
  · rfl

lemma plainStart_ne {d : Char} (h : plainStart c)
    (hd : d ∈ [' ', '\t', '-', '_', '*', '+', '#', '>', '<', '=', '~', tick]) : c ≠ d := by
  rintro rfl
  exact of_decide_eq_true h hd

lemma isWs_of_plainStart (h : plainStart c) : isWs c = false := by
  have hspace := plainStart_ne h (d := ' ') (by decide)
  have htab := plainStart_ne h (d := '\t') (by decide)
  simp [isWs, hspace, htab]

lemma not_thematicBreak (h : plainStart c) : thematicBreak (c :: t) = false := by
  have hsub : ∀ d ∈ ['-', '_', '*'],
      d ∈ [' ', '\t', '-', '_', '*', '+', '#', '>', '<', '=', '~', tick] :=
    List.forall_iff_forall_mem.mp (by decide)
  unfold thematicBreak
  rw [List.any_eq_false]
  intro d hd
  simp [isWs_of_plainStart h, plainStart_ne h (hsub d hd)]

/-- A character that is neither white nor a mark of a break keeps the line from being one. -/
lemma not_thematicBreak_of_mem {d : Char} {l : Text} (hd : d ∈ l)
    (h : d ∉ [' ', '\t', '-', '_', '*']) : thematicBreak l = false := by
  simp only [List.mem_cons, List.not_mem_nil, or_false, not_or] at h
  obtain ⟨hspace, htab, hdash, hunder, hstar⟩ := h
  unfold thematicBreak
  rw [List.any_eq_false]
  intro e he hbreak
  rw [Bool.and_eq_true, List.all_eq_true] at hbreak
  have hmark := hbreak.1 d hd
  simp only [isWs, hspace, htab, decide_false, Bool.or_false, decide_eq_true_eq] at hmark
  subst hmark
  simp [hdash, hunder, hstar] at he

lemma not_blank_of_mem {d : Char} {l : Text} (hd : d ∈ l) (h : isWs d = false) :
    isBlank l = false := by
  unfold isBlank
  rw [List.all_eq_false]
  exact ⟨d, hd, by simp [h]⟩

lemma not_blank_plain (h : isWs c = false) : isBlank (c :: t) = false := by
  simp [isBlank, h]

lemma not_startsBlock (hhtml : ∀ t, html t → t.head? = some '<') (h : plainStart c)
    (hord : ordered (c :: t) = false) (col : ℕ) : startsBlock html col (c :: t) = false := by
  have hws := isWs_of_plainStart h
  have hne : ∀ {d}, d ∈ [' ', '\t', '-', '_', '*', '+', '#', '>', '<', '=', '~', tick] → c ≠ d :=
    plainStart_ne h
  have hnohtml : html (c :: t) = false := by
    by_contra hh
    have hhead := hhtml _ (by simpa using hh)
    exact hne (by decide) (Option.some.inj hhead)
  unfold startsBlock backtickFence tildeFence heading quote bullet
  rw [strip_plain hws, indent_plain hws, run_plain (hne (by decide)), run_plain (hne (by decide)),
    run_plain (hne (by decide)), not_thematicBreak h, hnohtml, hord]
  have h1 : c ≠ '-' := hne (by decide)
  have h2 : c ≠ '+' := hne (by decide)
  have h3 : c ≠ '*' := hne (by decide)
  have h4 : c ≠ '>' := hne (by decide)
  simp [h1, h2, h3, h4]

/-- A line that begins so begins no block. -/
lemma readLine_plain (hhtml : ∀ t, html t → t.head? = some '<') {ctx : Context}
    (hctx : ∀ n, ctx ≠ .code n) (h : plainStart c) (hord : ordered (c :: t) = false) :
    readLine html ctx (c :: t) = (.text, if ctx = .flow then .paragraph else ctx) := by
  have hws := isWs_of_plainStart h
  have hopens : opensFence (c :: t) = none := by
    unfold opensFence backtickFence
    rw [strip_plain hws, run_plain (plainStart_ne h (by decide))]
    simp
  have hheading : heading (c :: t) = false := by
    unfold heading
    rw [run_plain (plainStart_ne h (by decide))]
    simp
  have hsetext : setext (c :: t) = false := by
    unfold setext
    rw [strip_plain hws]
    simp [run_plain (plainStart_ne h (d := '=') (by decide)),
      run_plain (plainStart_ne h (d := '-') (by decide))]
  have hstart := not_startsBlock hhtml h hord 0
  have hdash : c ≠ '-' := plainStart_ne h (by decide)
  rw [readLine_eq hctx]
  simp only [readOpen, not_blank_plain hws, hopens, strip_plain hws, hheading, hsetext,
    not_thematicBreak h, hstart, Bool.false_eq_true, and_false, false_and, if_false]
  split
  · rename_i heq
    exact absurd (List.cons.inj heq).1 hdash
  · rfl

end Plain

/-- In the open, a line is a paragraph if it begins no other block. -/
lemma readLine_flow_text {l : Text} : (readLine html .flow l).1 = .text ↔
    isBlank l = false ∧ startsBlock html 0 l = false := by
  rw [readLine_eq (by simp)]
  unfold readOpen
  by_cases hblank : isBlank l
  · simp [hblank]
  have hstarts : ∀ b : Bool, b = true → (b = true → startsBlock html 0 l = true) →
      ¬ (isBlank l = false ∧ startsBlock html 0 l = false) := by
    rintro b hb h ⟨-, hno⟩
    rw [h hb] at hno
    cases hno
  rw [if_neg hblank]
  cases hopens : opensFence l with
  | some n =>
    unfold opensFence at hopens
    split_ifs at hopens with hfence
    refine iff_of_false nofun (hstarts _ hfence.2 fun h => ?_)
    simp [startsBlock, hblank, h]
  | none =>
    dsimp only
    by_cases hhead : indent 0 l < 4 ∧ heading (strip l)
    · rw [if_pos hhead]
      refine iff_of_false nofun (hstarts _ hhead.2 fun h => ?_)
      simp [startsBlock, hblank, h]
    rw [if_neg hhead, if_neg (by simp)]
    by_cases hthem : indent 0 l < 4 ∧ thematicBreak (strip l)
    · rw [if_pos hthem]
      refine iff_of_false nofun (hstarts _ hthem.2 fun h => ?_)
      simp [startsBlock, hblank, h]
    rw [if_neg hthem]
    split
    · rename_i inner
      refine iff_of_false ?_ (hstarts _ rfl fun _ => ?_)
      · split <;> exact nofun
      · have hstrip : strip ('-' :: ' ' :: inner) = '-' :: ' ' :: inner := rfl
        have hbullet : bullet ('-' :: ' ' :: inner) = true := rfl
        simp [startsBlock, hblank, hstrip, hbullet]
    · by_cases hs : startsBlock html 0 l
      · rw [if_pos ⟨hs, .inl rfl⟩]
        exact iff_of_false nofun (hstarts _ rfl fun _ => hs)
      · rw [if_neg fun h => hs h.1]
        exact iff_of_true rfl ⟨by simpa using hblank, by simpa using hs⟩

section Dash
variable {ctx : Context} (hctx : ctx = .paragraph ∨ ctx = .list) (inner : Text)
include hctx

/-- A line that begins with a dash and a space: an underline, a break, or an item. -/
lemma readLine_dash : readLine html ctx ('-' :: ' ' :: inner) =
    if ctx = .paragraph ∧ isBlank inner then (.other, .flow)
    else if thematicBreak ('-' :: ' ' :: inner) then (.other, .flow)
    else if startsBlock html 2 inner then (.other, .list) else (.item, .list) := by
  have hcode : ∀ n, ctx ≠ .code n := by rcases hctx with rfl | rfl <;> simp
  have hopens : opensFence ('-' :: ' ' :: inner) = none := rfl
  have hindent : indent 0 ('-' :: ' ' :: inner) < 4 := Nat.zero_lt_succ 3
  have hstrip : strip ('-' :: ' ' :: inner) = '-' :: ' ' :: inner := rfl
  have hhead : heading ('-' :: ' ' :: inner) = false := rfl
  have hsetext : setext ('-' :: ' ' :: inner) = isBlank inner := by
    have hblank : isBlank (' ' :: inner) = isBlank inner := rfl
    have heq : run '=' ('-' :: ' ' :: inner) = 0 := rfl
    have hdash : run '-' ('-' :: ' ' :: inner) = 1 := rfl
    simp [setext, hindent, hstrip, heq, hdash, hblank]
  rw [readLine_eq hcode]
  unfold readOpen
  rw [if_neg (by simp [isBlank, isWs]), hopens]
  simp only [hindent, hstrip, hhead, hsetext, true_and, Bool.false_eq_true, if_false]

lemma readLine_dash_item : (readLine html ctx ('-' :: ' ' :: inner)).1 = .item ↔
    (ctx = .paragraph → isBlank inner = false) ∧ thematicBreak ('-' :: ' ' :: inner) = false ∧
      startsBlock html 2 inner = false := by
  rw [readLine_dash hctx]
  split_ifs with h1 h2 h3
  · exact iff_of_false nofun fun h => absurd h1.2 (by simp [h.1 h1.1])
  · exact iff_of_false nofun fun h => absurd h2 (by simp [h.2.1])
  · exact iff_of_false nofun fun h => absurd h3 (by simp [h.2.2])
  · refine iff_of_true rfl ⟨fun hp => ?_, by simpa using h2, by simpa using h3⟩
    simpa using fun hblank => h1 ⟨hp, hblank⟩

lemma readLine_item (h : (readLine html ctx ('-' :: ' ' :: inner)).1 = .item) :
    (readLine html ctx ('-' :: ' ' :: inner)).2 = .list := by
  obtain ⟨hblank, hthem, hstart⟩ := (readLine_dash_item hctx inner).mp h
  have hno : ¬ (ctx = .paragraph ∧ isBlank inner) := fun ⟨hp, hb⟩ => by
    rw [hblank hp] at hb
    cases hb
  rw [readLine_dash hctx, if_neg hno, if_neg (by simp [hthem]), if_neg (by simp [hstart])]

end Dash

lemma readLine_code (n : ℕ) (l : Text) : readLine html (.code n) l =
    if closesFence n l then (.closes, .flow) else (.code, .code n) := rfl

lemma readLines_code {n : ℕ} {code : List Text} :
    readLines html (.code n) code = code.map (·, .code) ↔
      ∀ l ∈ code, closesFence n l = false := by
  induction code with
  | nil => exact iff_of_true rfl nofun
  | cons l code ih =>
    rw [readLines, readLine_code, List.forall_mem_cons, ← ih]
    by_cases h : closesFence n l
    · rw [if_pos h]
      refine iff_of_false (fun heq => ?_) (fun hno => ?_)
      · have hrole := congrArg Prod.snd (List.cons.inj heq).1
        cases hrole
      · rw [h] at hno
        cases hno.1
    · rw [if_neg h]
      simp [h]

lemma after_code {n : ℕ} {code : List Text} (h : ∀ l ∈ code, closesFence n l = false) :
    after html (.code n) code = .code n := by
  induction code with
  | nil => rfl
  | cons l code ih =>
    have hl := h l List.mem_cons_self
    have hstep : after html (.code n) (l :: code) = after html (.code n) code := by
      unfold after
      rw [List.foldl_cons, readLine_code, if_neg (by simp [hl])]
    rw [hstep, ih fun m hm => h m (List.mem_cons_of_mem _ hm)]

section Opens
variable {l : Text} (hblank : isBlank l = false)
include hblank

lemma readLine_opens {n : ℕ} (h : opensFence l = some n) :
    readLine html .flow l = (.opens, .code n) := by
  rw [readLine_eq (by simp)]
  unfold readOpen
  rw [if_neg (by simp [hblank]), h]

lemma opensFence_of_opens (h : (readLine html .flow l).1 = .opens) :
    ∃ n, opensFence l = some n := by
  rw [readLine_eq (by simp)] at h
  unfold readOpen at h
  rw [if_neg (by simp [hblank])] at h
  cases hopens : opensFence l with
  | some n => exact ⟨n, rfl⟩
  | none =>
    exfalso
    rw [hopens] at h
    dsimp only at h
    split at h
    · cases h
    split at h
    · cases h
    split at h
    · cases h
    split at h
    · split at h <;> cases h
    split at h <;> cases h

end Opens

section Fence
variable {n : ℕ} (hn : 3 ≤ n)

lemma run_fence (info : Text) : run tick (List.replicate n tick ++ info) = n + run tick info := by
  unfold run
  rw [List.takeWhile_append_of_pos (by simp), List.length_append, List.length_replicate]

include hn

lemma fence_cons (info : Text) : ∃ t, List.replicate n tick ++ info = tick :: t := by
  obtain ⟨m, rfl⟩ : ∃ m, n = m + 1 := ⟨n - 1, by omega⟩
  exact ⟨List.replicate m tick ++ info, rfl⟩

lemma strip_fence (info : Text) : strip (List.replicate n tick ++ info) =
    List.replicate n tick ++ info ∧ indent 0 (List.replicate n tick ++ info) = 0 ∧
      isBlank (List.replicate n tick ++ info) = false := by
  obtain ⟨t, ht⟩ := fence_cons hn info
  rw [ht]
  exact ⟨strip_plain rfl, indent_plain rfl 0, not_blank_plain rfl⟩

lemma opensFence_fence (info : Text) : opensFence (List.replicate n tick ++ info) =
    if tick ∉ info.drop (run tick info) then some (n + run tick info) else none := by
  obtain ⟨hstrip, hindent, -⟩ := strip_fence hn info
  have hdrop : (List.replicate n tick ++ info).drop (n + run tick info) =
      info.drop (run tick info) := by
    rw [List.drop_append, List.length_replicate, Nat.add_sub_cancel_left,
      List.drop_eq_nil_of_le (by simp), List.nil_append]
  have hthree : 3 ≤ n + run tick info := by omega
  unfold opensFence backtickFence
  rw [hstrip, hindent, run_fence, hdrop]
  simp [hthree]

lemma closesFence_fence {m : ℕ} : closesFence m (List.replicate n tick) = decide (m ≤ n) := by
  have hstrip := strip_fence hn []
  have hrun := run_fence (n := n) []
  rw [List.append_nil] at hstrip hrun
  unfold closesFence
  rw [hstrip.1, hstrip.2.1, hrun]
  have hzero : run tick [] = 0 := rfl
  have hdrop : (List.replicate n tick).drop n = [] := List.drop_eq_nil_of_le (by simp)
  rw [hzero, Nat.add_zero, hdrop]
  exact Bool.and_true _

/-- The lines of a fence: it opens unless its info string has a backtick, and it closes with the
backticks it was opened with unless a line of the code closes it before. -/
lemma readLines_fence (info : Text) (code : List Text) :
    readLines html .flow ((List.replicate n tick ++ info) :: (code ++ [List.replicate n tick])) =
        (List.replicate n tick ++ info, .opens) ::
          (code.map (·, .code) ++ [(List.replicate n tick, .closes)]) ↔
      tick ∉ info ∧ ∀ l ∈ code, closesFence n l = false := by
  have hblank := (strip_fence hn info).2.2
  have hfence := opensFence_fence hn info
  have hlast : ∀ m, readLines html (.code m) [List.replicate n tick] =
      [(List.replicate n tick, .closes)] ↔ m ≤ n := by
    intro m
    rw [readLines, readLine_code, closesFence_fence hn, readLines]
    by_cases hm : m ≤ n
    · simp [hm]
    · simp [hm]
  rw [readLines]
  constructor
  · intro h
    obtain ⟨hhead, htail⟩ := List.cons.inj h
    obtain ⟨m, hm⟩ := opensFence_of_opens hblank (congrArg Prod.snd hhead)
    rw [readLine_opens hblank hm, readLines_append] at htail
    rw [hm] at hfence
    split_ifs at hfence with hinfo
    have hlen : (readLines html (.code m) code).length = (code.map (·, Role.code)).length := by
      rw [← List.length_map Prod.fst, map_fst_readLines, List.length_map]
    obtain ⟨hcode, hclose⟩ := List.append_inj htail hlen
    rw [readLines_code] at hcode
    rw [after_code hcode, hlast] at hclose
    -- the closing backticks are no fewer than the opening ones, so the info string adds none
    have hrun : run tick info = 0 := by
      have := Option.some.inj hfence
      omega
    rw [hrun] at hfence hinfo
    obtain rfl : m = n := Option.some.inj hfence
    exact ⟨hinfo, hcode⟩
  · rintro ⟨hinfo, hcode⟩
    have hrun : run tick info = 0 := by
      cases info with
      | nil => rfl
      | cons c info => exact run_plain fun hc => hinfo (by rw [hc]; exact List.mem_cons_self)
    rw [hrun, if_pos (by simpa using hinfo)] at hfence
    rw [readLine_opens hblank hfence]
    dsimp only [Nat.add_zero]
    rw [readLines_append, readLines_code.mpr hcode, after_code hcode, (hlast n).mpr le_rfl]

end Fence

/-- A fence stays open only behind its opening line and its code. -/
lemma role_of_code {ctx : Context} {l : Text} {n : ℕ} (h : (readLine html ctx l).2 = .code n) :
    (readLine html ctx l).1 = .opens ∨ (readLine html ctx l).1 = .code := by
  by_cases hctx : ∃ m, ctx = .code m
  · obtain ⟨m, rfl⟩ := hctx
    rw [readLine_code] at h ⊢
    split_ifs at h ⊢
    exact .inr rfl
  · have hne : ∀ m, ctx ≠ .code m := fun m hm => hctx ⟨m, hm⟩
    rw [readLine_eq hne] at h ⊢
    unfold readOpen at h ⊢
    by_cases hblank : isBlank l
    · rw [if_pos hblank] at h
      cases h
    rw [if_neg hblank] at h ⊢
    cases hopens : opensFence l with
    | some m => exact .inl rfl
    | none =>
      exfalso
      rw [hopens] at h
      dsimp only at h
      have hnext : ∀ m, (if ctx = .flow then .paragraph else ctx) ≠ Context.code m := by
        intro m
        split_ifs
        · exact nofun
        · exact hne m
      split at h
      · cases h
      split at h
      · cases h
      split at h
      · cases h
      split at h
      · split at h <;> cases h
      split at h
      · cases h
      · exact hnext n h

/-- What is open after some lines is a fence only if the last of them opens it or is its code. -/
lemma after_ne_code {ctx : Context} {ls : List Text} (hctx : ∀ n, ctx ≠ .code n)
    (h : ∀ x ∈ (readLines html ctx ls).getLast?, x.2 ≠ .opens ∧ x.2 ≠ .code) (n : ℕ) :
    after html ctx ls ≠ .code n := by
  rcases List.eq_nil_or_concat ls with rfl | ⟨ls, l, rfl⟩
  · exact hctx n
  · rw [List.concat_eq_append] at h ⊢
    rw [readLines_append] at h
    have hlast := h (l, (readLine html (after html ctx ls) l).1) (by simp [readLines])
    have hafter : after html ctx (ls ++ [l]) = (readLine html (after html ctx ls) l).2 := by
      simp [after]
    rw [hafter]
    intro hcode
    rcases role_of_code hcode with hrole | hrole
    · exact hlast.1 hrole
    · exact hlast.2 hrole

end Reading

/-! ### Texts with Blank Lines Between Them -/

/-- Lines with a blank line between one group and the next. -/
def spaced : List (List (Text × Role)) → List (Text × Role)
  | [] => [([], .blank)]
  | [b] => b
  | b :: c :: bs => b ++ ([], .blank) :: spaced (c :: bs)

/-- A text and what its lines are meant to be read as. -/
structure Block where
  text : Text
  meant : List (Text × Role)
  ne_nil : meant ≠ []
  settled : ∀ x ∈ meant.getLast?, x.2 ≠ .opens ∧ x.2 ≠ .code
  /-- If the lines that are meant are lines at all, they are the lines of the text. -/
  lines_eq : (∀ x ∈ meant, OneLine x.1) →
    lines text = meant.map Prod.fst ∧ closedLines text = meant.map Prod.fst

/-- The block is read as it is meant. -/
def Block.Reads (html : Text → Bool) (b : Block) : Prop :=
  (∀ x ∈ b.meant, OneLine x.1) ∧ readLines html .flow (b.meant.map Prod.fst) = b.meant

lemma mem_spaced {x : Text × Role} {b : List (Text × Role)} {bs : List (List (Text × Role))}
    (hb : b ∈ bs) (hx : x ∈ b) : x ∈ spaced bs := by
  fun_induction spaced bs with
  | case1 => cases hb
  | case2 c =>
    obtain rfl := List.mem_singleton.mp hb
    exact hx
  | case3 c d bs ih =>
    rcases List.mem_cons.mp hb with rfl | hb
    · exact List.mem_append_left _ hx
    · exact List.mem_append_right _ (List.mem_cons_of_mem _ (ih hb))

lemma lines_blocks {bs : List Block} (h : ∀ b ∈ bs, ∀ x ∈ b.meant, OneLine x.1) :
    lines (['\n', '\n'].intercalate (bs.map Block.text)) =
      (spaced (bs.map Block.meant)).map Prod.fst := by
  induction bs with
  | nil => rfl
  | cons b bs ih =>
    obtain ⟨hlines, hclosed⟩ := b.lines_eq (h b List.mem_cons_self)
    cases bs with
    | nil => simpa [spaced] using hlines
    | cons c bs =>
      have hrest := ih fun d hd => h d (List.mem_cons_of_mem _ hd)
      have htwo : ∀ t : Text, b.text ++ ['\n', '\n'] ++ t = b.text ++ '\n' :: '\n' :: t := by simp
      simp only [List.map_cons] at hrest ⊢
      rw [List.intercalate_cons_cons, htwo, lines_append_lf, lines_lf, hclosed, hrest, spaced,
        List.map_append, List.map_cons]

lemma readLines_spaced {html : Text → Bool} (bs : List Block) :
    readLines html .flow ((spaced (bs.map Block.meant)).map Prod.fst) =
      spaced (bs.map Block.meant) ↔
        ∀ b ∈ bs, readLines html .flow (b.meant.map Prod.fst) = b.meant := by
  induction bs with
  | nil => exact iff_of_true rfl nofun
  | cons b bs ih =>
    cases bs with
    | nil => simp [spaced]
    | cons c bs =>
      rw [List.forall_mem_cons, ← ih]
      have hlen : (readLines html .flow (b.meant.map Prod.fst)).length = b.meant.length := by
        rw [← List.length_map Prod.fst, map_fst_readLines, List.length_map]
      have hsplit : spaced ((b :: c :: bs).map Block.meant) =
          b.meant ++ ([], .blank) :: spaced ((c :: bs).map Block.meant) := rfl
      have htail : readLines html .flow (b.meant.map Prod.fst) = b.meant → ∀ ls,
          readLines html (after html .flow (b.meant.map Prod.fst)) ([] :: ls) =
            ([], .blank) :: readLines html .flow ls := by
        intro hb ls
        have hafter : ∀ n, after html .flow (b.meant.map Prod.fst) ≠ .code n :=
          after_ne_code (by simp) (by rw [hb]; exact b.settled)
        rw [readLines, readLine_nil hafter]
      rw [hsplit, List.map_append, List.map_cons, readLines_append]
      constructor
      · intro h
        obtain ⟨hb, hrest⟩ := List.append_inj h hlen
        rw [htail hb] at hrest
        exact ⟨hb, (List.cons.inj hrest).2⟩
      · rintro ⟨hb, hrest⟩
        rw [htail hb, hb, hrest]

/-- Blocks that blank lines separate are read as they are meant exactly if each of them is. -/
lemma readText_blocks (html : Text → Bool) (bs : List Block) :
    readText html (['\n', '\n'].intercalate (bs.map Block.text)) =
      spaced (bs.map Block.meant) ↔ ∀ b ∈ bs, b.Reads html := by
  unfold readText
  have hone : readLines html .flow (lines (['\n', '\n'].intercalate (bs.map Block.text))) =
      spaced (bs.map Block.meant) → ∀ b ∈ bs, ∀ x ∈ b.meant, OneLine x.1 := by
    intro h b hb x hx
    have hmem := mem_spaced (List.mem_map_of_mem hb) hx
    rw [← h] at hmem
    have hline := List.mem_map_of_mem (f := Prod.fst) hmem
    rw [map_fst_readLines] at hline
    exact oneLine_of_mem hline
  constructor
  · intro h b hb
    have hlines := hone h
    rw [lines_blocks hlines, readLines_spaced] at h
    exact ⟨hlines b hb, h b hb⟩
  · intro h
    rw [lines_blocks fun b hb => (h b hb).1, readLines_spaced]
    exact fun b hb => (h b hb).2

end Treeweft.CommonMark
