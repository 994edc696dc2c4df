import Treeweft.Migrations
import Treeweft.SqlLexer
import Mathlib.Data.List.TakeWhile

/-!
The scanner of migration scripts, beside the lexical rules of the database.

Both read a script from the front. Where no lexeme is of the few kinds that they read
differently, they are at the same place after each; what the scanner keeps of a statement is then
its words and its blanks.
-/

namespace Treeweft.ScannerAgreement

open Treeweft.Migrations Treeweft.SqlLexer
open Treeweft.Indexer (isSpace rstrip)

/-- What is assumed of `\w`: its ASCII characters, and that it has no whitespace. -/
structure IsWord (word : Char → Bool) : Prop where
  ascii : ∀ c : Char, c.toNat < 128 → word c = (c.isAlpha || c.isDigit || c = '_')
  not_space : ∀ c, word c = true → isSpace c = false

/-! ### What the Scanner Keeps -/

/-- What the scanner keeps of a lexeme. -/
def shown : Lexeme → List Char
  | .space c => [c]
  | .lineComment => []
  | .blockComment => [' ']
  | .plain => [' ']
  | .escaped e => [e, ' ']
  | .resumed => [' ']
  | .semicolon => [';']
  | .word w => w
  | .number w => w
  | .other c => [c]

/-- The text of a statement as the scanner has it. -/
def shownText (ls : List Lexeme) : List Char := strip (ls.flatMap shown)

/-- The statements that begin in `current`, last character first, and go on with `ls`. -/
def texts (current : List Char) (ls : List Lexeme) : List (List Char) :=
  (((ls.splitOnP Lexeme.isSemicolon).map (·.flatMap shown)).modifyHead
    (current.reverse ++ ·)).map strip

lemma texts_nil (current : List Char) : texts current [] = [strip current.reverse] := by
  simp [texts]

lemma texts_semicolon (current : List Char) (ls : List Lexeme) :
    texts current (.semicolon :: ls) = strip current.reverse :: texts [] ls := by
  unfold texts
  rw [List.splitOnP_cons_eq_if_modifyHead, if_pos (by rfl)]
  obtain ⟨m, ms, hm⟩ := List.exists_cons_of_ne_nil (List.splitOnP_ne_nil Lexeme.isSemicolon ls)
  simp [hm]

lemma texts_cons (current : List Char) {l : Lexeme} (hl : l ≠ .semicolon) (ls : List Lexeme) :
    texts current (l :: ls) = texts ((shown l).reverse ++ current) ls := by
  unfold texts
  rw [List.splitOnP_cons_eq_if_modifyHead, if_neg (by simpa [Lexeme.isSemicolon] using hl)]
  obtain ⟨m, ms, hm⟩ := List.exists_cons_of_ne_nil (List.splitOnP_ne_nil Lexeme.isSemicolon ls)
  simp [hm]

/-! ### Lexemes both Read Alike -/

/-- No block comment is opened before the first `*/`. -/
def noInner : List Char → Bool
  | '*' :: '/' :: _ => true
  | '/' :: '*' :: _ => false
  | _ :: cs => noInner cs
  | [] => true

/-- No quote of an escape string is escaped with a backslash. -/
def noEscapedQuote : List Char → Bool
  | [] => true
  | [_] => true
  | c :: d :: cs =>
    if c = '\\' then d ≠ '\'' && noEscapedQuote cs
    else if c = '\'' then if d = '\'' then noEscapedQuote cs else true
    else noEscapedQuote (d :: cs)

section Alike
variable (word : Char → Bool)

/-- The lexeme that begins `text` ends where the scanner ends it: after a carriage return that ends
a comment the line is blank; block comments do not nest; escape strings have no escaped quote; the
tag of a dollar quote is of `\w`; and there is no `$..$` that `\$\w*\$` finds where the database
sees no dollar quote, as within an identifier. -/
def alikeAt (text : List Char) : Lexeme → Bool
  | .lineComment => ((text.dropWhile fun c => !newline c).takeWhile (· ≠ '\n')).all space
  | .blockComment => noInner (text.drop 2)
  | .escaped _ => noEscapedQuote (text.drop 2)
  | .resumed => noEscapedQuote (text.drop 1)
  | .plain => (dollarQuote text).all fun tag => tag.all fun c => c = '$' || word c
  | .word w => (List.range w.length).all fun k => dollarTag word (text.drop k) = none
  | .other _ => dollarTag word text = none
  | _ => true

def alikeFrom (resume : Option Bool) : List Char → Bool
  | [] => true
  | c :: cs => alikeAt word (c :: cs) (nextLexeme resume c cs).1 &&
    alikeFrom (nextLexeme resume c cs).2.1 (nextLexeme resume c cs).2.2
  termination_by cs => cs.length
  decreasing_by exact Nat.lt_succ_of_le (length_nextLexeme resume c cs)

/-- Not a keyword, but the scanner finds one at its beginning. -/
def misread (kw : String) (w : List Char) : Bool :=
  (keyword kw w).any (boundary word) && !isKeyword kw w

/-- A token both take alike where a keyword of `kws` may stand: it is no quoted text, does not begin
with what only the scanner takes for whitespace, and is not misread. -/
def readsAlike (kws : List String) : Lexeme → Bool
  | .plain => false
  | .other c => !isSpace c
  | .word w => !w.head?.any isSpace && kws.all fun kw => !misread word kw w
  | _ => true

def opening : List String := ["BEGIN", "START", "COMMIT", "END", "ROLLBACK", "ABORT", "PREPARE"]

/-- The words that decide what kind of statement this is are read alike. -/
def beginsAlike (ls : List Lexeme) : Bool :=
  match tokens ls with
  | [] => true
  | l :: rest => readsAlike word opening l &&
    match l with
    | .word w =>
      if isKeyword "START" w || isKeyword "PREPARE" w then
        rest.head?.all (readsAlike word ["TRANSACTION"])
      else true
    | _ => true

end Alike

/-! ### Both are at the Same Place -/

lemma dropWhile_dropWhile {p q : Char → Bool} (h : ∀ c, q c → p c) (cs : List Char) :
    (cs.dropWhile q).dropWhile p = cs.dropWhile p := by
  induction cs with
  | nil => rfl
  | cons c cs ih =>
    cases hq : q c with
    | true => rw [List.dropWhile_cons_of_pos hq, List.dropWhile_cons_of_pos (h c hq), ih]
    | false => rw [List.dropWhile_cons_of_neg (by simp [hq])]

lemma dropWhile_and {p q : Char → Bool} {cs : List Char} (h : (cs.takeWhile p).all q) :
    (cs.dropWhile fun c => q c && p c) = cs.dropWhile p := by
  induction cs with
  | nil => rfl
  | cons c cs ih =>
    cases hp : p c with
    | true =>
      rw [List.takeWhile_cons_of_pos hp, List.all_cons, Bool.and_eq_true] at h
      rw [List.dropWhile_cons_of_pos hp, List.dropWhile_cons_of_pos (by simp [hp, h.1]), ih h.2]
    | false =>
      rw [List.dropWhile_cons_of_neg (by simp [hp]), List.dropWhile_cons_of_neg (by simp [hp])]

lemma afterLine_eq {cs : List Char}
    (h : ((cs.dropWhile fun c => !newline c).takeWhile (· ≠ '\n')).all space) :
    afterLine cs = cs.dropWhile (· ≠ '\n') := by
  unfold afterLine
  rw [dropWhile_and h]
  refine dropWhile_dropWhile (fun c hc => ?_) cs
  have hne : c ≠ '\n' := by
    rintro rfl
    exact absurd hc (by decide)
  exact decide_eq_true hne

lemma afterBlock_eq {cs : List Char} (h : noInner cs) :
    afterBlock 1 cs = (afterSub ['*', '/'] cs).getD [] := by
  fun_induction noInner cs with
  | case1 cs => simp [afterBlock, afterSub, List.isPrefixOf]
  | case2 => exact absurd h (by simp)
  | case3 c cs hstop hopen ih =>
    have hnot : List.isPrefixOf ['*', '/'] (c :: cs) = false := by
      by_contra hp
      obtain ⟨rest, hrest⟩ := List.isPrefixOf_iff_prefix.mp (Bool.of_not_eq_false hp)
      obtain ⟨rfl, rfl⟩ := List.cons.inj hrest
      exact hstop _ rfl rfl
    rw [afterBlock, afterSub, hnot, ih h]
    · rfl
    · exact hstop
    · exact hopen
  | case4 => simp [afterBlock, afterSub]

lemma afterText_eq (q : Char) (cs : List Char) : SqlLexer.afterText q cs = afterQuote q cs := by
  fun_induction SqlLexer.afterText q cs with
  | case1 => rfl
  | case2 => rfl
  | case3 cs ih => rw [afterQuote, if_pos rfl, if_pos rfl, ih]
  | case4 d cs hd => rw [afterQuote, if_pos rfl, if_neg hd]
  | case5 c d cs hc ih => rw [afterQuote, if_neg hc, ih]

lemma afterQuote_cons {q c : Char} (hc : c ≠ q) (cs : List Char) :
    afterQuote q (c :: cs) = afterQuote q cs := by
  cases cs with
  | nil => rfl
  | cons d cs => rw [afterQuote, if_neg hc]

lemma afterEscaped_eq {cs : List Char} (h : noEscapedQuote cs) :
    afterEscaped cs = afterQuote '\'' cs := by
  fun_induction noEscapedQuote cs with
  | case1 => rfl
  | case2 => rfl
  | case3 d cs ih =>
    obtain ⟨hd, hcs⟩ := Bool.and_eq_true_iff.mp h
    rw [afterEscaped, if_pos rfl, afterQuote_cons (by decide), afterQuote_cons (of_decide_eq_true hd),
      ih hcs]
  | case4 cs _ ih => rw [afterEscaped, if_neg (by decide), if_pos rfl, if_pos rfl, afterQuote,
      if_pos rfl, if_pos rfl, ih h]
  | case5 d cs hd _ => rw [afterEscaped, if_neg (by decide), if_pos rfl, if_neg hd, afterQuote,
      if_pos rfl, if_neg hd]
  | case6 c d cs hc hq ih => rw [afterEscaped, if_neg hc, if_neg hq, afterQuote, if_neg hq, ih h]

lemma afterFirst_eq {sub : List Char} (hsub : sub ≠ []) (cs : List Char) :
    afterFirst sub cs = (afterSub sub cs).getD [] := by
  induction cs with
  | nil => simp [afterFirst, afterSub, hsub]
  | cons c cs ih =>
    rw [afterFirst, afterSub]
    split
    · rfl
    · exact ih

section Lockstep
variable {word : Char → Bool}

lemma dollarTag_eq (hword : IsWord word) {cs tag : List Char} (h : dollarQuote cs = some tag)
    (htag : ∀ c ∈ tag, c = '$' ∨ word c) : dollarTag word cs = some tag := by
  unfold dollarQuote at h
  split at h
  · rename_i cs
    split at h
    · rename_i rest hrest
      split_ifs at h with hstart
      cases h
      have hsplit : cs = cs.takeWhile tagCont ++ '$' :: rest := by
        rw [← hrest, List.takeWhile_append_dropWhile]
      have hdollar : word '$' = false := hword.ascii '$' (by decide)
      have hall : ∀ c ∈ cs.takeWhile tagCont, word c := by
        intro c hc
        refine (htag c ?_).resolve_left fun heq => ?_
        · simp [hc]
        · subst heq
          exact absurd (List.mem_takeWhile_imp hc) (by decide)
      have htake : cs.takeWhile word = cs.takeWhile tagCont := by
        conv_lhs => rw [hsplit]
        rw [List.takeWhile_append_of_pos hall, List.takeWhile_cons_of_neg (by simp [hdollar]),
          List.append_nil]
      have hdrop : cs.dropWhile word = '$' :: rest := by
        conv_lhs => rw [hsplit]
        rw [List.dropWhile_append_of_pos hall, List.dropWhile_cons_of_neg (by simp [hdollar])]
      simp only [dollarTag, hdrop, htake]
    · cases h
  · cases h

lemma statementsFrom_cons {current : List Char} {c : Char} {cs : List Char}
    (hline : ¬ (c = '-' ∧ cs.head? = some '-')) (hblock : ¬ (c = '/' ∧ cs.head? = some '*')) :
    statementsFrom word current (c :: cs) =
      if c = '\'' ∨ c = '"' then statementsFrom word (' ' :: current) (afterQuote c cs)
      else
        match dollarTag word (c :: cs) with
        | some tag => statementsFrom word (' ' :: current)
            ((afterSub tag (cs.drop (tag.length - 1))).getD [])
        | none =>
          if c = ';' then strip current.reverse :: statementsFrom word [] cs
          else statementsFrom word (c :: current) cs := by
  refine statementsFrom.eq_4 word current c cs ?_ ?_
  · rintro cs rfl rfl
    exact hline ⟨rfl, rfl⟩
  · rintro cs rfl rfl
    exact hblock ⟨rfl, rfl⟩

/-- A character that begins neither a comment nor a quoted text, nor ends a statement. -/
def ordinary (c : Char) : Bool := c ≠ '-' && c ≠ '/' && c ≠ '\'' && c ≠ '"' && c ≠ ';'

lemma statementsFrom_ordinary {current : List Char} {c : Char} {cs : List Char} (hc : ordinary c)
    (hdollar : dollarTag word (c :: cs) = none) :
    statementsFrom word current (c :: cs) = statementsFrom word (c :: current) cs := by
  simp only [ordinary, Bool.and_eq_true, decide_eq_true_eq] at hc
  obtain ⟨⟨⟨⟨h1, h2⟩, h3⟩, h4⟩, h5⟩ := hc
  rw [statementsFrom_cons (fun h => h1 h.1) (fun h => h2 h.1), if_neg (by simp [h3, h4]), hdollar]
  exact if_neg h5

lemma statementsFrom_append {w rest : List Char} : ∀ {current : List Char},
    (∀ c ∈ w, ordinary c) →
    (∀ k < w.length, dollarTag word ((w ++ rest).drop k) = none) →
      statementsFrom word current (w ++ rest) = statementsFrom word (w.reverse ++ current) rest := by
  induction w with
  | nil => exact fun _ _ => rfl
  | cons c w ih =>
    intro current hw hdollar
    have hhead : dollarTag word (c :: (w ++ rest)) = none := hdollar 0 (by simp)
    rw [List.cons_append, statementsFrom_ordinary (hw c List.mem_cons_self) hhead,
      ih (fun d hd => hw d (List.mem_cons_of_mem _ hd)) fun k hk => ?_]
    · rw [List.reverse_cons, List.append_assoc, List.singleton_append]
    · exact hdollar (k + 1) (by simpa using hk)

lemma dollarTag_of_ne {c : Char} {cs : List Char} (hc : c ≠ '$') :
    dollarTag word (c :: cs) = none := by
  unfold dollarTag
  split
  · rename_i heq
    exact absurd (List.cons.inj heq).1 hc
  · rfl

lemma dollarQuote_of_ne {c : Char} {cs : List Char} (hc : c ≠ '$') :
    dollarQuote (c :: cs) = none := by
  unfold dollarQuote
  split
  · rename_i heq
    exact absurd (List.cons.inj heq).1 hc
  · rfl

lemma dollarQuote_ne_nil {cs tag : List Char} (h : dollarQuote cs = some tag) : tag ≠ [] := by
  unfold dollarQuote at h
  split at h
  · split at h
    · split_ifs at h
      cases h
      exact nofun
    · cases h
  · cases h

lemma ordinary_of_identCont {c : Char} (hc : identCont c) : ordinary c := by
  unfold ordinary
  by_contra h
  simp only [Bool.and_eq_true, decide_eq_true_eq, not_and_or, not_not] at h
  obtain (((h | h) | h) | h) | h := h <;> subst h <;> exact absurd hc (by decide)

/-- **Step lemma**: after a lexeme that both read alike, they are at the same place. -/
lemma statementsFrom_next (hword : IsWord word) (resume : Option Bool) (current : List Char)
    (c : Char) (cs : List Char) (h : alikeAt word (c :: cs) (nextLexeme resume c cs).1) :
    statementsFrom word current (c :: cs) =
      if (nextLexeme resume c cs).1 = .semicolon then
        strip current.reverse :: statementsFrom word [] (nextLexeme resume c cs).2.2
      else statementsFrom word ((shown (nextLexeme resume c cs).1).reverse ++ current)
        (nextLexeme resume c cs).2.2 := by
  unfold nextLexeme at h ⊢
  by_cases hline : c = '-' ∧ cs.head? = some '-'
  · rw [if_pos hline] at h ⊢
    obtain ⟨rfl, hcs⟩ := hline
    obtain ⟨ds, rfl⟩ : ∃ ds, cs = '-' :: ds := List.head?_eq_some_iff.mp hcs
    rw [if_neg (by simp), statementsFrom]
    exact congrArg _ (afterLine_eq h).symm
  rw [if_neg hline] at h ⊢
  by_cases hblock : c = '/' ∧ cs.head? = some '*'
  · rw [if_pos hblock] at h ⊢
    obtain ⟨rfl, hcs⟩ := hblock
    obtain ⟨ds, rfl⟩ : ∃ ds, cs = '*' :: ds := List.head?_eq_some_iff.mp hcs
    rw [if_neg (by simp), statementsFrom]
    exact congrArg _ (afterBlock_eq h).symm
  rw [if_neg hblock] at h ⊢
  have hcons := @statementsFrom_cons word current c cs hline hblock
  by_cases hquote : c = '\''
  · rw [if_pos hquote] at h ⊢
    rw [hcons, if_pos (.inl hquote)]
    subst hquote
    by_cases hresume : resume = some true
    · rw [if_pos hresume] at h ⊢
      rw [if_neg (by simp)]
      exact congrArg _ (afterEscaped_eq h).symm
    · rw [if_neg hresume] at h ⊢
      rw [if_neg (by simp)]
      exact congrArg _ (afterText_eq _ _).symm
  rw [if_neg hquote] at h ⊢
  by_cases hdouble : c = '"'
  · rw [if_pos hdouble] at h ⊢
    rw [hcons, if_pos (.inr hdouble)]
    subst hdouble
    rw [if_neg (by simp)]
    exact congrArg _ (afterText_eq _ _).symm
  rw [if_neg hdouble] at h ⊢
  rw [if_neg (not_or.mpr ⟨hquote, hdouble⟩)] at hcons
  by_cases hescape : (c = 'e' ∨ c = 'E') ∧ cs.head? = some '\''
  · rw [if_pos hescape] at h ⊢
    obtain ⟨hc, hcs⟩ := hescape
    obtain ⟨ds, rfl⟩ : ∃ ds, cs = '\'' :: ds := List.head?_eq_some_iff.mp hcs
    have hordinary : ordinary c := by rcases hc with rfl | rfl <;> decide
    have hne : c ≠ '$' := by rcases hc with rfl | rfl <;> decide
    rw [if_neg (by simp), statementsFrom_ordinary hordinary (dollarTag_of_ne hne),
      statementsFrom_cons (by simp) (by simp), if_pos (.inl rfl)]
    exact congrArg _ (afterEscaped_eq h).symm
  rw [if_neg hescape] at h ⊢
  by_cases hsemi : c = ';'
  · rw [if_pos hsemi]
    subst hsemi
    rw [if_pos rfl, hcons, dollarTag_of_ne (by decide)]
    rfl
  rw [if_neg hsemi] at h ⊢
  by_cases hspace : space c
  · rw [if_pos hspace, if_neg (by simp)]
    have hne : c ≠ '$' := by
      rintro rfl
      exact absurd hspace (by decide)
    rw [hcons, dollarTag_of_ne hne]
    exact if_neg hsemi
  rw [if_neg hspace] at h ⊢
  by_cases hident : identStart c
  · rw [if_pos hident] at h ⊢
    rw [if_neg (by simp)]
    have hcont : ∀ d ∈ c :: cs.takeWhile identCont, identCont d := by
      intro d hd
      rcases List.mem_cons.mp hd with rfl | hd
      · simp [identCont, hident]
      · exact List.mem_takeWhile_imp hd
    have hsplit : c :: cs = (c :: cs.takeWhile identCont) ++ cs.dropWhile identCont := by
      rw [List.cons_append, List.takeWhile_append_dropWhile]
    refine (congrArg _ hsplit).trans
      (statementsFrom_append (fun d hd => ordinary_of_identCont (hcont d hd)) fun k hk => ?_)
    rw [← hsplit]
    exact of_decide_eq_true (List.all_eq_true.mp h k (List.mem_range.mpr hk))
  rw [if_neg hident] at h ⊢
  by_cases hdigit : c.isDigit
  · rw [if_pos hdigit, if_neg (by simp)]
    have hcont : ∀ d ∈ c :: cs.takeWhile tagCont, tagCont d := by
      intro d hd
      rcases List.mem_cons.mp hd with rfl | hd
      · simp [tagCont, hdigit]
      · exact List.mem_takeWhile_imp hd
    have hsplit : c :: cs = (c :: cs.takeWhile tagCont) ++ cs.dropWhile tagCont := by
      rw [List.cons_append, List.takeWhile_append_dropWhile]
    refine (congrArg _ hsplit).trans
      (statementsFrom_append (fun d hd => ordinary_of_identCont ?_) fun k hk => ?_)
    · have hd := hcont d hd
      unfold tagCont at hd
      simp [identCont, hd]
    · rw [List.drop_append_of_le_length hk.le, List.drop_eq_getElem_cons hk, List.cons_append]
      refine dollarTag_of_ne fun heq => ?_
      have hd := hcont _ (List.getElem_mem hk)
      rw [heq] at hd
      exact absurd hd (by decide)
  rw [if_neg hdigit] at h ⊢
  cases hdollar : dollarQuote (c :: cs) with
  | some tag =>
    rw [hdollar] at h
    have htag : ∀ d ∈ tag, d = '$' ∨ word d := by
      have hall : (dollarQuote (c :: cs)).all (fun tag => tag.all fun c => c = '$' || word c) :=
        h
      rw [hdollar] at hall
      intro d hd
      have hd := List.all_eq_true.mp hall d hd
      rwa [Bool.or_eq_true, decide_eq_true_eq] at hd
    rw [hcons, dollarTag_eq hword hdollar htag]
    simp only
    rw [if_neg (by simp), afterFirst_eq (dollarQuote_ne_nil hdollar)]
    rfl
  | none =>
    rw [hdollar] at h
    have hnone : dollarTag word (c :: cs) = none := of_decide_eq_true h
    rw [hcons, hnone]
    simp only
    rw [if_neg hsemi, if_neg (by simp)]
    rfl

/-- **Agreement of the scans**: where every lexeme is read alike, the scanner has the statements
that the database has. -/
lemma statementsFrom_eq (hword : IsWord word) (resume : Option Bool) (cs : List Char) :
    ∀ current, alikeFrom word resume cs →
      statementsFrom word current cs = texts current (lexemes resume cs) := by
  fun_induction lexemes resume cs with
  | case1 resume =>
    intro current _
    rw [texts_nil, statementsFrom]
  | case2 resume c cs ih =>
    intro current h
    rw [alikeFrom, Bool.and_eq_true] at h
    rw [statementsFrom_next hword resume current c cs h.1]
    by_cases hsemi : (nextLexeme resume c cs).1 = .semicolon
    · rw [if_pos hsemi, hsemi, texts_semicolon, ih [] h.2]
    · rw [if_neg hsemi, texts_cons current hsemi, ih _ h.2]

end Lockstep

/-! ### Words and What Follows Them -/

def flat (ls : List Lexeme) : List Char := ls.flatMap shown

/-- The text does not go on with a character of an identifier. -/
def Ends (t : List Char) : Prop := ∀ c, t.head? = some c → identCont c = false

/-- What the characters of a lexeme are. -/
def Lawful : Lexeme → Prop
  | .space c => isSpace c
  | .word w => ∃ c t, w = c :: t ∧ identStart c
  | .number w => ∃ c t, w = c :: t ∧ c.isDigit
  | .other c => identStart c = false
  | .escaped e => isSpace e = false
  | _ => True

/-- Lexemes as they come from a script: a word goes on as long as it can. -/
def Formed : List Lexeme → Prop
  | [] => True
  | l :: ls => Lawful l ∧ (∀ w, l = .word w → Ends (flat ls)) ∧ Formed ls

lemma isSpace_of_space {c : Char} (h : space c) : isSpace c := by
  simp only [space, Bool.or_eq_true, decide_eq_true_eq] at h
  obtain ((((h | h) | h) | h) | h) | h := h <;> subst h <;> decide

lemma ends_dropWhile (p : Char → Bool) (hp : ∀ c, identCont c → p c) (cs : List Char) :
    Ends (cs.dropWhile p) := by
  induction cs with
  | nil => exact nofun
  | cons c cs ih =>
    cases hc : p c with
    | true =>
      rw [List.dropWhile_cons_of_pos hc]
      exact ih
    | false =>
      rw [List.dropWhile_cons_of_neg (by simp [hc])]
      rintro d ⟨⟩
      by_contra hd
      rw [hp c (by simpa using hd)] at hc
      cases hc

lemma ends_cons {c : Char} {t : List Char} (hc : identCont c = false) : Ends (c :: t) := by
  rintro d ⟨⟩
  exact hc

/-- A lexeme is lawful, a word ends where it can end, and what does not begin like an identifier is
not shown so. -/
lemma nextLexeme_lawful {word : Char → Bool} (resume : Option Bool) (c : Char) (cs : List Char)
    (h : alikeAt word (c :: cs) (nextLexeme resume c cs).1) :
    Lawful (nextLexeme resume c cs).1 ∧
      (∀ w, (nextLexeme resume c cs).1 = .word w → Ends (nextLexeme resume c cs).2.2) ∧
      (identCont c = false →
        (shown (nextLexeme resume c cs).1 = [] ∧ Ends (nextLexeme resume c cs).2.2) ∨
          ∃ d t, shown (nextLexeme resume c cs).1 = d :: t ∧ identCont d = false) := by
  have hblank : identCont ' ' = false := by decide
  unfold nextLexeme at h ⊢
  by_cases hline : c = '-' ∧ cs.head? = some '-'
  · rw [if_pos hline] at h ⊢
    obtain ⟨rfl, hcs⟩ := hline
    obtain ⟨ds, rfl⟩ : ∃ ds, cs = '-' :: ds := List.head?_eq_some_iff.mp hcs
    refine ⟨trivial, nofun, fun _ => .inl ⟨rfl, ?_⟩⟩
    have hrest : afterLine ('-' :: ds) = ('-' :: ds).dropWhile (· ≠ '\n') := afterLine_eq h
    change Ends (afterLine ('-' :: ds))
    rw [hrest]
    refine ends_dropWhile _ (fun d hd => decide_eq_true ?_) _
    rintro rfl
    exact absurd hd (by decide)
  rw [if_neg hline]
  by_cases hblock : c = '/' ∧ cs.head? = some '*'
  · rw [if_pos hblock]
    exact ⟨trivial, nofun, fun _ => .inr ⟨' ', [], rfl, hblank⟩⟩
  rw [if_neg hblock]
  by_cases hquote : c = '\''
  · rw [if_pos hquote]
    by_cases hresume : resume = some true
    · rw [if_pos hresume]
      exact ⟨trivial, nofun, fun _ => .inr ⟨' ', [], rfl, hblank⟩⟩
    · rw [if_neg hresume]
      exact ⟨trivial, nofun, fun _ => .inr ⟨' ', [], rfl, hblank⟩⟩
  rw [if_neg hquote]
  by_cases hdouble : c = '"'
  · rw [if_pos hdouble]
    exact ⟨trivial, nofun, fun _ => .inr ⟨' ', [], rfl, hblank⟩⟩
  rw [if_neg hdouble]
  by_cases hescape : (c = 'e' ∨ c = 'E') ∧ cs.head? = some '\''
  · rw [if_pos hescape]
    have he : identCont c ∧ isSpace c = false := by rcases hescape.1 with rfl | rfl <;> decide
    refine ⟨he.2, nofun, fun hc => ?_⟩
    rw [he.1] at hc
    cases hc
  rw [if_neg hescape]
  by_cases hsemi : c = ';'
  · rw [if_pos hsemi]
    exact ⟨trivial, nofun, fun _ => .inr ⟨';', [], rfl, by decide⟩⟩
  rw [if_neg hsemi]
  by_cases hspace : space c
  · rw [if_pos hspace]
    exact ⟨isSpace_of_space hspace, nofun, fun hc => .inr ⟨c, [], rfl, hc⟩⟩
  rw [if_neg hspace]
  by_cases hident : identStart c
  · rw [if_pos hident]
    refine ⟨⟨c, _, rfl, hident⟩, fun _ _ => ends_dropWhile _ (fun _ hd => hd) cs, fun hc => ?_⟩
    simp [identCont, hident] at hc
  rw [if_neg hident]
  by_cases hdigit : c.isDigit
  · rw [if_pos hdigit]
    refine ⟨⟨c, _, rfl, hdigit⟩, nofun, fun hc => ?_⟩
    simp [identCont, hdigit] at hc
  rw [if_neg hdigit]
  cases hdollar : dollarQuote (c :: cs) with
  | some tag => exact ⟨trivial, nofun, fun _ => .inr ⟨' ', [], rfl, hblank⟩⟩
  | none =>
    exact ⟨show identStart c = false by simpa using hident, nofun, fun hc => .inr ⟨c, [], rfl, hc⟩⟩

/-- What a script shows does not go on with an identifier where the script does not. -/
lemma formed_lexemes {word : Char → Bool} (resume : Option Bool) (cs : List Char) :
    alikeFrom word resume cs → Formed (lexemes resume cs) ∧
      (Ends cs → Ends (flat (lexemes resume cs))) := by
  fun_induction lexemes resume cs with
  | case1 => exact fun _ => ⟨trivial, fun h => h⟩
  | case2 resume c cs ih =>
    intro h
    rw [alikeFrom, Bool.and_eq_true] at h
    obtain ⟨hformed, hends⟩ := ih h.2
    obtain ⟨hlawful, hword, hshown⟩ := nextLexeme_lawful resume c cs h.1
    refine ⟨⟨hlawful, fun w hw => hends (hword w hw), hformed⟩, fun hc => ?_⟩
    unfold flat at hends ⊢
    rw [List.flatMap_cons]
    rcases hshown (hc c rfl) with ⟨hnil, hrest⟩ | ⟨d, t, hshow, hd⟩
    · rw [hnil, List.nil_append]
      exact hends hrest
    · rw [hshow]
      exact ends_cons hd

/-- The statements of a script are formed like the script. -/
lemma formed_split (ls : List Lexeme) : Formed ls →
    ∃ s ss, ls.splitOnP Lexeme.isSemicolon = s :: ss ∧ Formed s ∧ (∀ t ∈ ss, Formed t) ∧
      (Ends (flat ls) → Ends (flat s)) := by
  induction ls with
  | nil => exact fun _ => ⟨[], [], rfl, trivial, nofun, fun h => h⟩
  | cons l ls ih =>
    intro ⟨hlawful, hword, hformed⟩
    obtain ⟨s, ss, hsplit, hs, hss, hends⟩ := ih hformed
    rw [List.splitOnP_cons_eq_if_modifyHead, hsplit]
    cases hl : l.isSemicolon with
    | true =>
      refine ⟨[], s :: ss, rfl, trivial, fun t ht => ?_, fun _ => nofun⟩
      rcases List.mem_cons.mp ht with rfl | ht
      · exact hs
      · exact hss t ht
    | false =>
      refine ⟨l :: s, ss, rfl, ⟨hlawful, fun w hw => hends (hword w hw), hs⟩, hss, fun h => ?_⟩
      unfold flat at h hends ⊢
      rw [List.flatMap_cons] at h ⊢
      cases hshow : shown l with
      | nil =>
        rw [hshow, List.nil_append] at h
        exact hends h
      | cons d t =>
        rw [hshow] at h
        exact fun c hc => h c hc

lemma formed_statements {word : Char → Bool} {cs : List Char} (h : alikeFrom word none cs) :
    ∀ s ∈ SqlLexer.statements cs, Formed s := by
  obtain ⟨s, ss, hsplit, hs, hss, -⟩ := formed_split _ (formed_lexemes none cs h).1
  unfold SqlLexer.statements
  rw [hsplit]
  intro t ht
  rcases List.mem_cons.mp ht with rfl | ht
  · exact hs
  · exact hss t ht

/-! ### What the Pattern Matches -/

def keywordList : List String := "TRANSACTION" :: opening

lemma isUpper_of_keyword {kw : String} (hkw : kw ∈ keywordList) : ∀ c ∈ kw.toList, c.isUpper := by
  have hall : ∀ kw ∈ keywordList, kw.toList.Forall fun c => c.isUpper := by decide
  exact List.forall_iff_forall_mem.mp (hall kw hkw)

lemma keyword_ne_nil {kw : String} (hkw : kw ∈ keywordList) : kw.toList ≠ [] := by
  have hall : ∀ kw ∈ keywordList, kw.toList ≠ [] := by decide
  exact hall kw hkw

lemma toNat_of_isAlpha {c : Char} (h : c.isAlpha) :
    (65 ≤ c.toNat ∧ c.toNat ≤ 90) ∨ (97 ≤ c.toNat ∧ c.toNat ≤ 122) := by
  rcases Bool.or_eq_true_iff.mp (h : (c.isUpper || c.isLower) = true) with hupper | hlower
  · have hbounds : 'A'.val ≤ c.val ∧ c.val ≤ 'Z'.val := of_decide_eq_true hupper
    exact .inl (by simpa [UInt32.le_iff_toNat_le] using hbounds)
  · have hand : (decide ('a'.val ≤ c.val) && decide (c.val ≤ 'z'.val)) = true := hlower
    have hbounds := Bool.and_eq_true_iff.mp hand
    exact .inr (by simpa [UInt32.le_iff_toNat_le] using hbounds)

lemma toNat_of_isDigit {c : Char} (h : c.isDigit) : 48 ≤ c.toNat ∧ c.toNat ≤ 57 := by
  simpa [Char.isDigit, UInt32.le_iff_toNat_le] using h

lemma isAlpha_of_toUpper {c : Char} (h : c.toUpper.isUpper) : c.isAlpha := by
  unfold Char.toUpper at h
  split at h
  · rename_i hlower
    exact Bool.or_eq_true_iff.mpr (.inr (Bool.and_eq_true_iff.mpr
      ⟨decide_eq_true hlower.1, decide_eq_true hlower.2⟩))
  · exact Bool.or_eq_true_iff.mpr (.inl h)

lemma mem_keywordList_one {kw : String}
    (h : kw ∈ ["BEGIN", "COMMIT", "END", "ROLLBACK", "ABORT"]) : kw ∈ keywordList := by
  have hall : ∀ kw ∈ ["BEGIN", "COMMIT", "END", "ROLLBACK", "ABORT"], kw ∈ keywordList := by decide
  exact hall kw h

lemma mem_keywordList_two {kw : String} (h : kw ∈ ["START", "PREPARE"]) : kw ∈ keywordList := by
  have hall : ∀ kw ∈ ["START", "PREPARE"], kw ∈ keywordList := by decide
  exact hall kw h

/-- What folds to a capital is a letter, or none of ASCII, and no whitespace. -/
lemma identStart_of_fold {c : Char} (h : (fold c).isUpper) :
    identStart c ∧ isSpace c = false := by
  unfold fold at h
  split at h
  · decide
  · decide
  · decide
  · decide
  · have h := isAlpha_of_toUpper h
    refine ⟨by simp [identStart, h], ?_⟩
    have hrange := toNat_of_isAlpha h
    simp only [isSpace, Bool.or_eq_false_iff, Bool.and_eq_false_iff, decide_eq_false_iff_not]
    omega

lemma fold_eq_toUpper {c : Char} (h : c.toUpper.isUpper) : fold c = c.toUpper := by
  unfold fold
  split
  · exact absurd h (by decide)
  · exact absurd h (by decide)
  · exact absurd h (by decide)
  · exact absurd h (by decide)
  · rfl

lemma keyword_eq_some {kw : String} {cs rest : List Char} :
    keyword kw cs = some rest ↔ ∃ u, cs = u ++ rest ∧ u.map fold = kw.toList := by
  unfold keyword
  constructor
  · intro h
    split_ifs at h with hkw
    cases h
    exact ⟨_, (List.take_append_drop _ cs).symm, hkw⟩
  · rintro ⟨u, rfl, hu⟩
    have hlen : u.length = kw.length := by
      have hlength := congrArg List.length hu
      rwa [List.length_map, String.length_toList] at hlength
    rw [← hlen, List.take_left, List.drop_left, if_pos hu]

/-- The keywords the pattern reads, and whitespace between two. -/
inductive Matched : List Char → Prop
  | one {kw : String} {u : List Char} (hkw : kw ∈ ["BEGIN", "COMMIT", "END", "ROLLBACK", "ABORT"])
      (hu : u.map fold = kw.toList) : Matched u
  | two {kw : String} {u s v : List Char} (hkw : kw ∈ ["START", "PREPARE"])
      (hu : u.map fold = kw.toList) (hs : s ≠ []) (hspace : ∀ c ∈ s, isSpace c)
      (hv : v.map fold = "TRANSACTION".toList) : Matched (u ++ s ++ v)

/-- `_TRANSACTION_CONTROL.match`, on the characters. -/
def controlsText (word : Char → Bool) (cs : List Char) : Bool :=
  [keyword "BEGIN" cs, keywords "START" "TRANSACTION" cs, keyword "COMMIT" cs, keyword "END" cs,
    keyword "ROLLBACK" cs, keyword "ABORT" cs, keywords "PREPARE" "TRANSACTION" cs].any fun rest =>
    rest.any (boundary word)

section Pattern
variable {word : Char → Bool}

/-- A keyword begins with a letter, whatever its case. -/
lemma keyword_head {kw : String} (hkw : kw ∈ keywordList) {u : List Char}
    (hu : u.map fold = kw.toList) : ∃ c t, u = c :: t ∧ identStart c ∧ isSpace c = false := by
  have hupper := isUpper_of_keyword hkw
  have hne := keyword_ne_nil hkw
  rw [← hu] at hupper hne
  cases u with
  | nil => exact absurd rfl hne
  | cons c t => exact ⟨c, t, rfl, identStart_of_fold (hupper _ List.mem_cons_self)⟩

lemma keyword_last {kw : String} (hkw : kw ∈ keywordList) {u : List Char}
    (hu : u.map fold = kw.toList) : ∃ t c, u = t ++ [c] ∧ isSpace c = false := by
  have hupper := isUpper_of_keyword hkw
  have hne := keyword_ne_nil hkw
  rw [← hu] at hupper hne
  rcases List.eq_nil_or_concat' u with rfl | ⟨t, c, rfl⟩
  · exact absurd rfl hne
  · refine ⟨t, c, rfl, (identStart_of_fold (hupper _ ?_)).2⟩
    exact List.mem_map_of_mem (by simp)

lemma keywords_eq_some {kw kw' : String} {cs rest : List Char} (hkw' : kw' ∈ keywordList) :
    keywords kw kw' cs = some rest ↔ ∃ u s v, cs = u ++ s ++ v ++ rest ∧ u.map fold = kw.toList ∧
      s ≠ [] ∧ (∀ c ∈ s, isSpace c) ∧ v.map fold = kw'.toList := by
  constructor
  · intro h
    unfold keywords at h
    split at h
    · rename_i c ds hfirst
      split_ifs at h with hc
      obtain ⟨u, rfl, hu⟩ := keyword_eq_some.mp hfirst
      obtain ⟨v, hv, hvkw⟩ := keyword_eq_some.mp h
      refine ⟨u, c :: ds.takeWhile isSpace, v, ?_, hu, nofun, fun d hd => ?_, hvkw⟩
      · rw [List.append_assoc, List.append_assoc, List.cons_append, ← hv,
          List.takeWhile_append_dropWhile]
      · rcases List.mem_cons.mp hd with rfl | hd
        · exact hc
        · exact List.mem_takeWhile_imp hd
    · cases h
  · rintro ⟨u, s, v, rfl, hu, hs, hspace, hv⟩
    obtain ⟨c, t, rfl⟩ := List.exists_cons_of_ne_nil hs
    have hfirst : keyword kw (u ++ (c :: t) ++ v ++ rest) = some (c :: (t ++ v ++ rest)) :=
      keyword_eq_some.mpr ⟨u, by simp, hu⟩
    have hdrop : (t ++ v ++ rest).dropWhile isSpace = v ++ rest := by
      obtain ⟨d, v', rfl, -, hd⟩ := keyword_head hkw' hv
      rw [List.append_assoc, List.dropWhile_append_of_pos
        fun e he => hspace e (List.mem_cons_of_mem _ he), List.cons_append,
        List.dropWhile_cons_of_neg (by simp [hd])]
    unfold keywords
    rw [hfirst]
    simp only [hspace c List.mem_cons_self, if_true]
    rw [hdrop]
    exact keyword_eq_some.mpr ⟨v, rfl, hv⟩

lemma controlsText_iff {cs : List Char} : controlsText word cs ↔
    ∃ p rest, cs = p ++ rest ∧ Matched p ∧ boundary word rest := by
  have hone : ∀ kw, (keyword kw cs).any (boundary word) ↔
      ∃ u rest, cs = u ++ rest ∧ u.map fold = kw.toList ∧ boundary word rest := by
    intro kw
    rw [Option.any_eq_true]
    constructor
    · rintro ⟨rest, h, hb⟩
      obtain ⟨u, hcs, hu⟩ := keyword_eq_some.mp h
      exact ⟨u, rest, hcs, hu, hb⟩
    · rintro ⟨u, rest, hcs, hu, hb⟩
      exact ⟨rest, keyword_eq_some.mpr ⟨u, hcs, hu⟩, hb⟩
  have htwo : ∀ kw, (keywords kw "TRANSACTION" cs).any (boundary word) ↔
      ∃ u s v rest, cs = u ++ s ++ v ++ rest ∧ u.map fold = kw.toList ∧ s ≠ [] ∧
        (∀ c ∈ s, isSpace c) ∧ v.map fold = "TRANSACTION".toList ∧ boundary word rest := by
    intro kw
    rw [Option.any_eq_true]
    constructor
    · rintro ⟨rest, h, hb⟩
      obtain ⟨u, s, v, hcs, hu, hs, hspace, hv⟩ := (keywords_eq_some (by decide)).mp h
      exact ⟨u, s, v, rest, hcs, hu, hs, hspace, hv, hb⟩
    · rintro ⟨u, s, v, rest, hcs, hu, hs, hspace, hv, hb⟩
      exact ⟨rest, (keywords_eq_some (by decide)).mpr ⟨u, s, v, hcs, hu, hs, hspace, hv⟩, hb⟩
  unfold controlsText
  simp only [List.any_cons, List.any_nil, Bool.or_eq_true, Bool.or_false, hone, htwo]
  constructor
  · rintro (⟨u, rest, hcs, hu, hb⟩ | ⟨u, s, v, rest, hcs, hu, hs, hspace, hv, hb⟩ |
      ⟨u, rest, hcs, hu, hb⟩ | ⟨u, rest, hcs, hu, hb⟩ | ⟨u, rest, hcs, hu, hb⟩ |
      ⟨u, rest, hcs, hu, hb⟩ | ⟨u, s, v, rest, hcs, hu, hs, hspace, hv, hb⟩)
    · exact ⟨u, rest, hcs, .one (by decide) hu, hb⟩
    · exact ⟨_, rest, hcs, .two (by decide) hu hs hspace hv, hb⟩
    · exact ⟨u, rest, hcs, .one (by decide) hu, hb⟩
    · exact ⟨u, rest, hcs, .one (by decide) hu, hb⟩
    · exact ⟨u, rest, hcs, .one (by decide) hu, hb⟩
    · exact ⟨u, rest, hcs, .one (by decide) hu, hb⟩
    · exact ⟨_, rest, hcs, .two (by decide) hu hs hspace hv, hb⟩
  · rintro ⟨p, rest, rfl, hp, hb⟩
    cases hp with
    | one hkw hu =>
      simp only [List.mem_cons, List.not_mem_nil, or_false] at hkw
      obtain rfl | rfl | rfl | rfl | rfl := hkw
      · exact .inl ⟨_, rest, rfl, hu, hb⟩
      · exact .inr (.inr (.inl ⟨_, rest, rfl, hu, hb⟩))
      · exact .inr (.inr (.inr (.inl ⟨_, rest, rfl, hu, hb⟩)))
      · exact .inr (.inr (.inr (.inr (.inl ⟨_, rest, rfl, hu, hb⟩))))
      · exact .inr (.inr (.inr (.inr (.inr (.inl ⟨_, rest, rfl, hu, hb⟩)))))
    | two hkw hu hs hspace hv =>
      simp only [List.mem_cons, List.not_mem_nil, or_false] at hkw
      obtain rfl | rfl := hkw
      · exact .inr (.inl ⟨_, _, _, rest, rfl, hu, hs, hspace, hv, hb⟩)
      · exact .inr (.inr (.inr (.inr (.inr (.inr ⟨_, _, _, rest, rfl, hu, hs, hspace, hv, hb⟩)))))

lemma matched_last {p : List Char} (h : Matched p) : ∃ t c, p = t ++ [c] ∧ isSpace c = false := by
  cases h with
  | one hkw hu =>
    exact keyword_last (mem_keywordList_one hkw) hu
  | two hkw hu hs hspace hv =>
    obtain ⟨t, c, rfl, hc⟩ := keyword_last (by decide) hv
    exact ⟨_, c, (List.append_assoc _ _ _).symm, hc⟩

/-- Whitespace at the end of a statement does not bear on the pattern. -/
lemma controlsText_append (hword : IsWord word) {cs v : List Char} (hv : ∀ c ∈ v, isSpace c) :
    controlsText word (cs ++ v) = controlsText word cs := by
  rw [Bool.eq_iff_iff, controlsText_iff, controlsText_iff]
  constructor
  · rintro ⟨p, rest, heq, hp, hb⟩
    rcases List.append_eq_append_iff.mp heq with ⟨a, rfl, rfl⟩ | ⟨a, rfl, rfl⟩
    · obtain ⟨t, c, ht, hc⟩ := matched_last hp
      rcases List.eq_nil_or_concat' a with rfl | ⟨b, d, rfl⟩
      · exact ⟨cs, [], by simp, by simpa using hp, rfl⟩
      · rw [← List.append_assoc] at ht
        obtain ⟨-, hdc⟩ := List.append_inj' ht rfl
        obtain rfl := List.singleton_inj.mp hdc
        rw [hv d (by simp)] at hc
        cases hc
    · refine ⟨p, a, rfl, hp, ?_⟩
      cases a with
      | nil => rfl
      | cons c a => exact hb
  · rintro ⟨p, rest, rfl, hp, hb⟩
    refine ⟨p, rest ++ v, List.append_assoc _ _ _, hp, ?_⟩
    cases rest with
    | cons c rest => exact hb
    | nil =>
      cases v with
      | nil => rfl
      | cons c v =>
        have hc := hv c List.mem_cons_self
        unfold boundary
        simp only [List.nil_append, Bool.not_eq_true']
        by_contra hw
        rw [hword.not_space c (by simpa using hw)] at hc
        cases hc

lemma controlsText_strip (hword : IsWord word) (cs : List Char) :
    controlsText word (strip cs) = controlsText word (cs.dropWhile isSpace) := by
  unfold strip rstrip
  have hsplit := List.takeWhile_append_dropWhile (p := isSpace)
    (l := (cs.dropWhile isSpace).reverse)
  have hback := congrArg List.reverse hsplit
  rw [List.reverse_append, List.reverse_reverse] at hback
  conv_rhs => rw [← hback]
  refine (controlsText_append hword fun c hc => ?_).symm
  exact List.mem_takeWhile_imp (List.mem_reverse.mp hc)

end Pattern

/-! ### What a Statement Begins with -/

section Head
variable {word : Char → Bool} {ls : List Lexeme}

lemma boundary_of_ends (hword : IsWord word) {t : List Char} (h : Ends t) : boundary word t := by
  cases t with
  | nil => rfl
  | cons c t =>
    have hc := h c rfl
    simp only [identCont, identStart, Bool.or_eq_false_iff, decide_eq_false_iff_not] at hc
    obtain ⟨⟨⟨⟨halpha, hunder⟩, hascii⟩, hdigit⟩, -⟩ := hc
    change (!word c) = true
    rw [hword.ascii c (by omega)]
    simp [halpha, hdigit, hunder]

lemma isKeyword_fold {kw : String} (hkw : kw ∈ keywordList) {w : List Char}
    (h : isKeyword kw w) : w.map fold = kw.toList := by
  have hmap : w.map Char.toUpper = kw.toList := of_decide_eq_true h
  have hupper := isUpper_of_keyword hkw
  rw [← hmap] at hupper ⊢
  exact List.map_congr_left fun c hc => fold_eq_toUpper (hupper _ (List.mem_map_of_mem hc))

/-- **A keyword is a word**: where no word is misread, the pattern reads one as a whole. -/
lemma word_match {kw : String} (hkw : kw ∈ keywordList) {w s u rest : List Char} (hs : Ends s)
    (hread : misread word kw w = false) (heq : w ++ s = u ++ rest) (hu : u.map fold = kw.toList)
    (hb : boundary word rest) : isKeyword kw w ∧ u = w ∧ rest = s := by
  have hupper := isUpper_of_keyword hkw
  rw [← hu] at hupper
  have hmis : ∀ a, w = u ++ a → boundary word a → isKeyword kw w := by
    intro a hw ha
    have hsome := keyword_eq_some.mpr ⟨u, hw, hu⟩
    simpa [misread, hsome, ha] using hread
  have hlen : ∀ a, w = u ++ a → isKeyword kw w → a = [] := by
    intro a hw hk
    have hcount := congrArg List.length ((isKeyword_fold hkw hk).trans hu.symm)
    rw [List.length_map, List.length_map, hw, List.length_append] at hcount
    exact List.length_eq_zero_iff.mp (by omega)
  rcases List.append_eq_append_iff.mp heq with ⟨a, rfl, rfl⟩ | ⟨a, rfl, rfl⟩
  · cases a with
    | nil => exact ⟨hmis [] (by simp) rfl, List.append_nil _, rfl⟩
    | cons c a =>
      -- the keyword would go on with a character that no identifier goes on with
      have hc := (identStart_of_fold (hupper (fold c) (List.mem_map_of_mem (by simp)))).1
      have hend := hs c rfl
      simp [identCont, hc] at hend
  · have ha : boundary word a := by
      cases a with
      | nil => rfl
      | cons c a => exact hb
    have hk := hmis a rfl ha
    obtain rfl := hlen a rfl hk
    exact ⟨hk, (List.append_nil _).symm, rfl⟩

lemma isSpace_of_blank {l : Lexeme} (hl : l.isBlank) (hlawful : Lawful l) :
    ∀ c ∈ shown l, isSpace c := by
  cases l with
  | space c =>
    intro d hd
    obtain rfl := List.mem_singleton.mp hd
    exact hlawful
  | lineComment => exact nofun
  | blockComment => exact List.forall_iff_forall_mem.mp (by decide)
  | resumed => exact List.forall_iff_forall_mem.mp (by decide)
  | plain | escaped | semicolon | word | number | other => cases hl

/-- The first token, and what the scanner has from there on. -/
lemma split_blanks : ∀ {ls : List Lexeme}, Formed ls →
    (tokens ls = [] ∧ (flat ls).dropWhile isSpace = []) ∨
      ∃ l ls', tokens ls = l :: tokens ls' ∧ l.isBlank = false ∧ Formed (l :: ls') ∧
        (flat ls).dropWhile isSpace = (flat (l :: ls')).dropWhile isSpace := by
  intro ls
  induction ls with
  | nil => exact fun _ => .inl ⟨rfl, rfl⟩
  | cons l ls ih =>
    intro hformed
    cases hl : l.isBlank with
    | false => exact .inr ⟨l, ls, by simp [tokens, hl], hl, hformed, rfl⟩
    | true =>
      have htokens : tokens (l :: ls) = tokens ls := by simp [tokens, hl]
      have hdrop : (flat (l :: ls)).dropWhile isSpace = (flat ls).dropWhile isSpace := by
        unfold flat
        rw [List.flatMap_cons]
        exact List.dropWhile_append_of_pos (isSpace_of_blank hl hformed.1)
      rw [htokens, hdrop]
      exact ih hformed.2.2

/-- A token both take alike begins with no whitespace. -/
lemma dropWhile_token {l : Lexeme} {kws : List String} (hl : l.isBlank = false)
    (hlawful : Lawful l) (hread : readsAlike word kws l) :
    (flat (l :: ls)).dropWhile isSpace = flat (l :: ls) := by
  have hhead : ∃ c t, shown l = c :: t ∧ isSpace c = false := by
    cases l with
    | space | lineComment | blockComment | resumed => cases hl
    | plain => cases hread
    | escaped e => exact ⟨e, [' '], rfl, hlawful⟩
    | semicolon => exact ⟨';', [], rfl, by decide⟩
    | word w =>
      obtain ⟨c, t, rfl, -⟩ := hlawful
      refine ⟨c, t, rfl, ?_⟩
      simpa using (Bool.and_eq_true_iff.mp hread).1
    | number w =>
      obtain ⟨c, t, rfl, hc⟩ := hlawful
      refine ⟨c, t, rfl, ?_⟩
      have hrange := toNat_of_isDigit hc
      simp only [isSpace, Bool.or_eq_false_iff, Bool.and_eq_false_iff, decide_eq_false_iff_not]
      omega
    | other c => exact ⟨c, [], rfl, by simpa [readsAlike] using hread⟩
  obtain ⟨c, t, hshow, hc⟩ := hhead
  unfold flat
  rw [List.flatMap_cons, hshow, List.cons_append, List.dropWhile_cons_of_neg (by simp [hc])]

/-- No other token looks like a keyword. -/
lemma not_keyword {l : Lexeme} {kws : List String} {kw : String} (hkw : kw ∈ keywordList)
    (hl : l.isBlank = false) (hlawful : Lawful l) (hread : readsAlike word kws l)
    (hnot : ∀ w, l ≠ .word w) {u rest : List Char} (hu : u.map fold = kw.toList) :
    flat (l :: ls) ≠ u ++ rest := by
  have hupper := isUpper_of_keyword hkw
  have htwo : ∃ c d t, u = c :: d :: t := by
    have hlen : ∀ kw ∈ keywordList, 2 ≤ kw.toList.length := by decide
    have hu2 := hlen kw hkw
    rw [← hu, List.length_map] at hu2
    match u, hu2 with
    | c :: d :: t, _ => exact ⟨c, d, t, rfl⟩
  obtain ⟨c, d, t, rfl⟩ := htwo
  rw [← hu] at hupper
  have hc := (identStart_of_fold (hupper (fold c) (by simp))).1
  have hd := (identStart_of_fold (hupper (fold d) (by simp))).1
  intro heq
  unfold flat at heq
  rw [List.flatMap_cons] at heq
  cases l with
  | space | lineComment | blockComment | resumed => cases hl
  | plain => cases hread
  | word w => exact hnot w rfl
  | escaped e =>
    obtain rfl := (List.cons.inj (List.cons.inj heq).2).1
    exact absurd hd (by decide)
  | semicolon =>
    obtain rfl := (List.cons.inj heq).1
    exact absurd hc (by decide)
  | other o =>
    obtain rfl := (List.cons.inj heq).1
    rw [show identStart o = false from hlawful] at hc
    cases hc
  | number w =>
    obtain ⟨o, t', rfl, ho⟩ := hlawful
    obtain rfl := (List.cons.inj heq).1
    have hrange := toNat_of_isDigit ho
    simp only [identStart, Bool.or_eq_true, decide_eq_true_eq] at hc
    rcases hc with (hc | rfl) | hc
    · have halpha := toNat_of_isAlpha hc
      omega
    · exact absurd hrange (by decide)
    · omega

/-- Where the first token is read alike, one keyword is matched where it is that token. -/
lemma matched_one (hword : IsWord word) {kws : List String} {kw : String} (hkws : kw ∈ kws)
    (hkw : kw ∈ keywordList) (hformed : Formed ls)
    (hread : (tokens ls).head?.all (readsAlike word kws)) :
    (∃ u rest, (flat ls).dropWhile isSpace = u ++ rest ∧ u.map fold = kw.toList ∧
      boundary word rest) ↔ ∃ w, (tokens ls).head? = some (.word w) ∧ isKeyword kw w := by
  rcases split_blanks hformed with ⟨htokens, hdrop⟩ | ⟨l, ls', htokens, hl, hformed', hdrop⟩
  · rw [htokens, hdrop]
    constructor
    · rintro ⟨u, rest, heq, hu, -⟩
      obtain ⟨c, t, rfl, -⟩ := keyword_head hkw hu
      cases heq
    · rintro ⟨w, hw, -⟩
      cases hw
  · rw [htokens] at hread ⊢
    have hreads : readsAlike word kws l := by simpa using hread
    rw [hdrop, dropWhile_token hl hformed'.1 hreads]
    by_cases hw : ∃ w, l = .word w
    · obtain ⟨w, rfl⟩ := hw
      have hends : Ends (flat ls') := hformed'.2.1 w rfl
      have hmis : misread word kw w = false := by
        simpa using List.all_eq_true.mp (Bool.and_eq_true_iff.mp hreads).2 kw hkws
      change (∃ u rest, w ++ flat ls' = u ++ rest ∧ _) ↔ _
      constructor
      · rintro ⟨u, rest, heq, hu, hb⟩
        exact ⟨w, rfl, (word_match hkw hends hmis heq hu hb).1⟩
      · rintro ⟨w', ⟨⟩, hk⟩
        exact ⟨w, flat ls', rfl, isKeyword_fold hkw hk, boundary_of_ends hword hends⟩
    · push Not at hw
      constructor
      · rintro ⟨u, rest, heq, hu, -⟩
        exact absurd heq (not_keyword hkw hl hformed'.1 hreads hw hu)
      · rintro ⟨w, hhead, -⟩
        exact absurd (Option.some.inj hhead) (hw w)

/-- The same of two keywords, where both tokens are read alike. -/
lemma matched_two (hword : IsWord word) {kw : String} (hkw : kw ∈ ["START", "PREPARE"])
    (hformed : Formed ls) (hread : (tokens ls).head?.all (readsAlike word opening))
    (hnext : ∀ w rest, tokens ls = .word w :: rest → isKeyword kw w →
      rest.head?.all (readsAlike word ["TRANSACTION"])) :
    (∃ u s v rest, (flat ls).dropWhile isSpace = u ++ s ++ v ++ rest ∧ u.map fold = kw.toList ∧
      s ≠ [] ∧ (∀ c ∈ s, isSpace c) ∧ v.map fold = "TRANSACTION".toList ∧ boundary word rest) ↔
    ∃ w w' rest, tokens ls = .word w :: .word w' :: rest ∧ isKeyword kw w ∧
      isKeyword "TRANSACTION" w' := by
  have hmem := mem_keywordList_two hkw
  have hopen : kw ∈ opening := by
    have hall : ∀ kw ∈ ["START", "PREPARE"], kw ∈ opening := by decide
    exact hall kw hkw
  rcases split_blanks hformed with ⟨htokens, hdrop⟩ | ⟨l, ls', htokens, hl, hformed', hdrop⟩
  · rw [htokens, hdrop]
    constructor
    · rintro ⟨u, s, v, rest, heq, hu, -⟩
      obtain ⟨c, t, rfl, -⟩ := keyword_head hmem hu
      cases heq
    · rintro ⟨w, w', rest, h, -⟩
      cases h
  · rw [htokens] at hread hnext ⊢
    have hreads : readsAlike word opening l := by simpa using hread
    rw [hdrop, dropWhile_token hl hformed'.1 hreads]
    by_cases hw : ∃ w, l = .word w
    · obtain ⟨w, rfl⟩ := hw
      have hends : Ends (flat ls') := hformed'.2.1 w rfl
      have hmis : misread word kw w = false := by
        simpa using List.all_eq_true.mp (Bool.and_eq_true_iff.mp hreads).2 kw hopen
      change (∃ u s v rest, w ++ flat ls' = u ++ s ++ v ++ rest ∧ _) ↔ _
      constructor
      · rintro ⟨u, s, v, rest, heq, hu, hs, hspace, hv, hb⟩
        obtain ⟨c, t, rfl⟩ := List.exists_cons_of_ne_nil hs
        have hbound : boundary word (c :: t ++ v ++ rest) := by
          have hc := hspace c List.mem_cons_self
          change (!word c) = true
          by_contra hnot
          rw [hword.not_space c (by simpa using hnot)] at hc
          cases hc
        obtain ⟨hk, rfl, hrest⟩ := word_match hmem hends hmis
          (by rw [heq, List.append_assoc, List.append_assoc, ← List.append_assoc (c :: t)]) hu hbound
        have hdrop' : (flat ls').dropWhile isSpace = v ++ rest := by
          obtain ⟨d, v', rfl, -, hd⟩ := keyword_head (by decide) hv
          rw [← hrest, List.append_assoc, List.dropWhile_append_of_pos hspace, List.cons_append,
            List.dropWhile_cons_of_neg (by simp [hd])]
        obtain ⟨w', hw', hk'⟩ := (matched_one hword (List.mem_singleton.mpr rfl) (by decide)
          hformed'.2.2 (hnext _ _ rfl hk)).mp ⟨v, rest, hdrop', hv, hb⟩
        obtain ⟨more, hmore⟩ := List.head?_eq_some_iff.mp hw'
        exact ⟨_, w', more, by rw [hmore], hk, hk'⟩
      · rintro ⟨w₁, w', more, heq, hk, hk'⟩
        obtain ⟨hw₁, hmore⟩ := List.cons.inj heq
        obtain rfl : w = w₁ := Lexeme.word.inj hw₁
        obtain ⟨v, rest, hdrop', hv, hb⟩ := (matched_one hword (List.mem_singleton.mpr rfl)
          (by decide) hformed'.2.2 (hnext _ _ rfl hk)).mpr ⟨w', by rw [hmore]; rfl, hk'⟩
        have hsplit : flat ls' = (flat ls').takeWhile isSpace ++ (v ++ rest) := by
          rw [← hdrop', List.takeWhile_append_dropWhile]
        refine ⟨w, (flat ls').takeWhile isSpace, v, rest, ?_, isKeyword_fold hmem hk, ?_,
          fun c hc => List.mem_takeWhile_imp hc, hv, hb⟩
        · rw [List.append_assoc, List.append_assoc, ← hsplit]
        · -- two words do not stand side by side
          intro hnil
          rw [hnil] at hsplit
          obtain ⟨d, v', rfl, hd, -⟩ := keyword_head (by decide) hv
          have hend := hends d (by rw [hsplit]; rfl)
          simp [identCont, hd] at hend
    · push Not at hw
      constructor
      · rintro ⟨u, s, v, rest, heq, hu, -⟩
        rw [List.append_assoc, List.append_assoc] at heq
        exact absurd heq (not_keyword hmem hl hformed'.1 hreads hw hu)
      · rintro ⟨w, w', rest, heq, -⟩
        exact absurd (List.cons.inj heq).1 (hw w)

/-- **Agreement on a statement** whose first words are read alike. -/
lemma controlsText_shownText (hword : IsWord word) (hformed : Formed ls)
    (hbegins : beginsAlike word ls) :
    controlsText word (shownText ls) = isTransactionControl ls := by
  have hread : (tokens ls).head?.all (readsAlike word opening) := by
    unfold beginsAlike at hbegins
    split at hbegins
    · rename_i h
      rw [h]
      rfl
    · rename_i h
      rw [h]
      exact (Bool.and_eq_true_iff.mp hbegins).1
  have hnext : ∀ kw ∈ ["START", "PREPARE"], ∀ w rest, tokens ls = .word w :: rest →
      isKeyword kw w → rest.head?.all (readsAlike word ["TRANSACTION"]) := by
    intro kw hkw w rest htokens hk
    unfold beginsAlike at hbegins
    rw [htokens] at hbegins
    have hopen : (isKeyword "START" w || isKeyword "PREPARE" w) = true := by
      simp only [List.mem_cons, List.not_mem_nil, or_false] at hkw
      rcases hkw with rfl | rfl <;> simp [hk]
    have hsecond := (Bool.and_eq_true_iff.mp hbegins).2
    simpa only [hopen, if_true] using hsecond
  have hone : ∀ kw ∈ ["BEGIN", "COMMIT", "END", "ROLLBACK", "ABORT"],
      (∃ u rest, (flat ls).dropWhile isSpace = u ++ rest ∧ u.map fold = kw.toList ∧
        boundary word rest) ↔ ∃ w, (tokens ls).head? = some (.word w) ∧ isKeyword kw w := by
    intro kw hkw
    have hall : ∀ kw ∈ ["BEGIN", "COMMIT", "END", "ROLLBACK", "ABORT"], kw ∈ opening := by decide
    exact matched_one hword (hall kw hkw) (mem_keywordList_one hkw) hformed hread
  have htwo := fun (kw : String) (hkw : kw ∈ ["START", "PREPARE"]) =>
    matched_two hword hkw hformed hread (hnext kw hkw)
  unfold shownText
  rw [Bool.eq_iff_iff, controlsText_strip hword, controlsText_iff, isTransactionControl_iff]
  change (∃ p rest, (flat ls).dropWhile isSpace = p ++ rest ∧ _) ↔ _
  constructor
  · rintro ⟨p, rest, heq, hp, hb⟩
    cases hp with
    | one hkw hu => exact .inl ⟨_, hkw, (hone _ hkw).mp ⟨p, rest, heq, hu, hb⟩⟩
    | two hkw hu hs hspace hv =>
      exact .inr ⟨_, hkw, (htwo _ hkw).mp ⟨_, _, _, rest, heq, hu, hs, hspace, hv, hb⟩⟩
  · rintro (⟨kw, hkw, h⟩ | ⟨kw, hkw, h⟩)
    · obtain ⟨u, rest, heq, hu, hb⟩ := (hone kw hkw).mpr h
      exact ⟨u, rest, heq, .one hkw hu, hb⟩
    · obtain ⟨u, s, v, rest, heq, hu, hs, hspace, hv, hb⟩ := (htwo kw hkw).mpr h
      exact ⟨_, rest, heq, .two hkw hu hs hspace hv, hb⟩

end Head

/-! ### A Script -/

/-- Every lexeme of the script, and the beginning of every statement, is read alike. -/
def readAlike (word : Char → Bool) (sql : String) : Bool :=
  alikeFrom word none sql.toList && (SqlLexer.statements sql.toList).all (beginsAlike word)

/-- The transaction-control statements of the database, as the scanner shows them. -/
def controlStatements (sql : String) : List String :=
  ((SqlLexer.statements sql.toList).filter isTransactionControl).map fun ls =>
    String.ofList (shownText ls)

/-- Empty texts are left out, and start or end nothing. -/
lemma reported_eq {word : Char → Bool} {lss : List (List Lexeme)}
    (h : ∀ ls ∈ lss, controlsText word (shownText ls) = isTransactionControl ls) :
    (((lss.map shownText).filter (· ≠ [])).map String.ofList).filter (controls word) =
      (lss.filter isTransactionControl).map fun ls => String.ofList (shownText ls) := by
  have hchars : ∀ cs, controls word (String.ofList cs) = controlsText word cs := by
    intro cs
    unfold controls controlsText
    rw [String.toList_ofList]
  induction lss with
  | nil => rfl
  | cons ls lss ih =>
    have hrest := ih fun t ht => h t (List.mem_cons_of_mem _ ht)
    have hhead := h ls List.mem_cons_self
    by_cases hempty : shownText ls = []
    · have hnot : isTransactionControl ls = false := by
        rw [← hhead, hempty]
        rfl
      rw [List.map_cons, List.filter_cons_of_neg (by simp [hempty]), hrest,
        List.filter_cons_of_neg (by simp [hnot])]
    · rw [List.map_cons, List.filter_cons_of_pos (by simp [hempty]), List.map_cons,
        List.filter_cons, List.filter_cons, hchars, hhead]
      split
      · rw [hrest, List.map_cons]
      · exact hrest

/-- `\w` of a script in ASCII. -/
def asciiWord (c : Char) : Bool := c.isAlpha || c.isDigit || c = '_'

lemma isWord_asciiWord : IsWord asciiWord := by
  refine ⟨fun _ _ => rfl, fun c hc => ?_⟩
  simp only [asciiWord, Bool.or_eq_true, decide_eq_true_eq] at hc
  have hrange : c.toNat = 95 ∨ (48 ≤ c.toNat ∧ c.toNat ≤ 57) ∨ (65 ≤ c.toNat ∧ c.toNat ≤ 90) ∨
      (97 ≤ c.toNat ∧ c.toNat ≤ 122) := by
    rcases hc with (hc | hc) | rfl
    · exact .inr (.inr (toNat_of_isAlpha hc))
    · exact .inr (.inl (toNat_of_isDigit hc))
    · exact .inl rfl
  simp only [isSpace, Bool.or_eq_false_iff, Bool.and_eq_false_iff, decide_eq_false_iff_not]
  omega

example : transactionControl asciiWord "/* a /* b */; COMMIT; */ SELECT 1" = ["COMMIT"] ∧
    (SqlLexer.statements "/* a /* b */; COMMIT; */ SELECT 1".toList).any isTransactionControl =
      false := by decide +kernel

end Treeweft.ScannerAgreement
