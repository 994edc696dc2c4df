import Mathlib.Data.List.Basic
import Mathlib.Order.Nat

/-!
The lexical rules of PostgreSQL, as far as they decide where the statements of a script end and
which words they begin with.

Letters of a quoted text, a comment or a number do not matter here, only where these end. An
operator is read a character at a time; `--` and `/*` end one.
-/

namespace Treeweft.SqlLexer

/-! ### Characters -/

def space (c : Char) : Bool :=
  c = ' ' || c = '\t' || c = '\n' || c = '\r' || c = '\x0b' || c = '\x0c'

def newline (c : Char) : Bool := c = '\n' || c = '\r'

/-- Every character beyond ASCII can stand in an identifier. -/
def identStart (c : Char) : Bool := c.isAlpha || c = '_' || 128 ≤ c.toNat

def identCont (c : Char) : Bool := identStart c || c.isDigit || c = '$'

def tagCont (c : Char) : Bool := identStart c || c.isDigit

/-! ### Where Comments and Quoted Texts End -/

/-- A comment to the end of its line, with the blanks that are left before the line feed. -/
def afterLine (cs : List Char) : List Char :=
  (cs.dropWhile fun c => !newline c).dropWhile fun c => space c && c ≠ '\n'

/-- Block comments nest. -/
def afterBlock : ℕ → List Char → List Char
  | 0, cs => cs
  | _, [] => []
  | n + 1, '*' :: '/' :: cs => afterBlock n cs
  | n + 1, '/' :: '*' :: cs => afterBlock (n + 2) cs
  | n + 1, _ :: cs => afterBlock (n + 1) cs
  termination_by _ cs => cs.length

/-- A doubled quote stands for one. -/
def afterText (q : Char) : List Char → List Char
  | [] => []
  | [_] => []
  | c :: d :: cs =>
    if c = q then if d = q then afterText q cs else d :: cs
    else afterText q (d :: cs)

/-- In an escape string a backslash takes the next character with it. -/
def afterEscaped : List Char → List Char
  | [] => []
  | [_] => []
  | c :: d :: cs =>
    if c = '\\' then afterEscaped cs
    else if c = '\'' then if d = '\'' then afterEscaped cs else d :: cs
    else afterEscaped (d :: cs)

/-- What follows the first `sub`. -/
def afterFirst (sub : List Char) : List Char → List Char
  | [] => []
  | c :: cs =>
    if sub.isPrefixOf (c :: cs) then (c :: cs).drop sub.length else afterFirst sub cs

/-- The tag of a dollar quote is empty or an identifier without a dollar sign. -/
def dollarQuote : List Char → Option (List Char)
  | '$' :: cs =>
    match cs.dropWhile tagCont with
    | '$' :: _ =>
      if (cs.takeWhile tagCont).head?.all identStart then some ('$' :: cs.takeWhile tagCont ++ ['$'])
      else none
    | _ => none
  | _ => none

/-! ### Lexemes -/

inductive Lexeme
  | space (c : Char)
  | lineComment
  | blockComment
  | plain
  | escaped (e : Char)
  | resumed
  | semicolon
  | word (w : List Char)
  | number (w : List Char)
  | other (c : Char)
  deriving DecidableEq, Repr

/-- The lexeme that begins with `c`, and what follows it. After an escape string, a quote behind
whitespace with a line end in it resumes the string: `resume` says whether that line end was
seen. -/
def nextLexeme (resume : Option Bool) (c : Char) (cs : List Char) : Lexeme × Option Bool × List Char :=
  if c = '-' ∧ cs.head? = some '-' then (.lineComment, resume.map fun _ => true, afterLine cs)
  else if c = '/' ∧ cs.head? = some '*' then (.blockComment, none, afterBlock 1 cs.tail)
  else if c = '\'' then
    if resume = some true then (.resumed, some false, afterEscaped cs)
    else (.plain, none, afterText '\'' cs)
  else if c = '"' then (.plain, none, afterText '"' cs)
  else if (c = 'e' ∨ c = 'E') ∧ cs.head? = some '\'' then
    (.escaped c, some false, afterEscaped cs.tail)
  else if c = ';' then (.semicolon, none, cs)
  else if space c then (.space c, resume.map fun seen => seen || newline c, cs)
  else if identStart c then (.word (c :: cs.takeWhile identCont), none, cs.dropWhile identCont)
  else if c.isDigit then (.number (c :: cs.takeWhile tagCont), none, cs.dropWhile tagCont)
  else
    match dollarQuote (c :: cs) with
    | some tag => (.plain, none, afterFirst tag (cs.drop (tag.length - 1)))
    | none => (.other c, none, cs)

lemma length_dropWhile_le (p : Char → Bool) (cs : List Char) :
    (cs.dropWhile p).length ≤ cs.length := (List.dropWhile_sublist p).length_le

lemma length_afterLine (cs : List Char) : (afterLine cs).length ≤ cs.length :=
  (length_dropWhile_le _ _).trans (length_dropWhile_le _ _)

lemma length_afterBlock (n : ℕ) (cs : List Char) : (afterBlock n cs).length ≤ cs.length := by
  fun_induction afterBlock n cs with
  | case1 => exact le_rfl
  | case2 => exact le_rfl
  | case3 n cs ih => exact ih.trans (by simp; omega)
  | case4 n cs ih => exact ih.trans (by simp; omega)
  | case5 n c cs _ _ ih => exact ih.trans (Nat.le_succ _)

lemma length_afterText (q : Char) (cs : List Char) : (afterText q cs).length ≤ cs.length := by
  fun_induction afterText q cs with
  | case1 => exact le_rfl
  | case2 => exact Nat.zero_le _
  | case3 cs ih => exact ih.trans (by simp; omega)
  | case4 => exact Nat.le_succ _
  | case5 c d cs _ ih => exact ih.trans (Nat.le_succ _)

lemma length_afterEscaped (cs : List Char) : (afterEscaped cs).length ≤ cs.length := by
  fun_induction afterEscaped cs with
  | case1 => exact le_rfl
  | case2 => exact Nat.zero_le _
  | case3 d cs ih => exact ih.trans (by simp; omega)
  | case4 cs _ ih => exact ih.trans (by simp; omega)
  | case5 => exact Nat.le_succ _
  | case6 c d cs _ _ ih => exact ih.trans (Nat.le_succ _)

lemma length_afterFirst (sub cs : List Char) : (afterFirst sub cs).length ≤ cs.length := by
  induction cs with
  | nil => exact le_rfl
  | cons c cs ih =>
    unfold afterFirst
    split
    · rw [List.length_drop]
      exact Nat.sub_le _ _
    · exact ih.trans (Nat.le_succ _)

lemma length_nextLexeme (resume : Option Bool) (c : Char) (cs : List Char) :
    (nextLexeme resume c cs).2.2.length ≤ cs.length := by
  have htail : cs.tail.length ≤ cs.length := by
    rw [List.length_tail]
    exact Nat.sub_le _ _
  unfold nextLexeme
  split
  · exact length_afterLine cs
  split
  · exact (length_afterBlock _ _).trans htail
  split
  · split
    · exact length_afterEscaped cs
    · exact length_afterText _ cs
  split
  · exact length_afterText _ cs
  split
  · exact (length_afterEscaped _).trans htail
  split
  · exact le_rfl
  split
  · exact le_rfl
  split
  · exact length_dropWhile_le _ _
  split
  · exact length_dropWhile_le _ _
  split
  · refine (length_afterFirst _ _).trans ?_
    rw [List.length_drop]
    exact Nat.sub_le _ _
  · exact le_rfl

/-- The lexemes of a script. -/
def lexemes (resume : Option Bool) : List Char → List Lexeme
  | [] => []
  | c :: cs =>
    (nextLexeme resume c cs).1 :: lexemes (nextLexeme resume c cs).2.1 (nextLexeme resume c cs).2.2
  termination_by cs => cs.length
  decreasing_by exact Nat.lt_succ_of_le (length_nextLexeme resume c cs)

/-! ### Statements -/

def Lexeme.isBlank : Lexeme → Bool
  | .space _ | .lineComment | .blockComment | .resumed => true
  | _ => false

def Lexeme.isSemicolon (l : Lexeme) : Bool := l = .semicolon

/-- The statements of a script, with their blanks. -/
def statements (cs : List Char) : List (List Lexeme) :=
  (lexemes none cs).splitOnP Lexeme.isSemicolon

def tokens (ls : List Lexeme) : List Lexeme := ls.filter fun l => !l.isBlank

/-- A word is a keyword by its ASCII letters, upper or lower case. -/
def isKeyword (kw : String) (w : List Char) : Bool := w.map Char.toUpper = kw.toList

/-- The statement starts or ends a transaction. -/
def isTransactionControl (ls : List Lexeme) : Bool :=
  match tokens ls with
  | .word w :: rest =>
    (["BEGIN", "COMMIT", "END", "ROLLBACK", "ABORT"].any fun kw => isKeyword kw w) ||
      ((isKeyword "START" w || isKeyword "PREPARE" w) &&
        match rest with
        | .word w' :: _ => isKeyword "TRANSACTION" w'
        | _ => false)
  | _ => false

lemma isTransactionControl_iff {ls : List Lexeme} : isTransactionControl ls ↔
    (∃ kw ∈ ["BEGIN", "COMMIT", "END", "ROLLBACK", "ABORT"], ∃ w,
      (tokens ls).head? = some (.word w) ∧ isKeyword kw w) ∨
    ∃ kw ∈ ["START", "PREPARE"], ∃ w w' rest, tokens ls = .word w :: .word w' :: rest ∧
      isKeyword kw w ∧ isKeyword "TRANSACTION" w' := by
  unfold isTransactionControl
  constructor
  · intro h
    split at h
    · rename_i w rest htokens
      rw [htokens]
      rcases (Bool.or_eq_true_iff.mp h) with h | h
      · obtain ⟨kw, hkw, hk⟩ := List.any_eq_true.mp h
        exact .inl ⟨kw, hkw, w, rfl, hk⟩
      · obtain ⟨hfirst, hsecond⟩ := Bool.and_eq_true_iff.mp h
        split at hsecond
        · rename_i w' more _
          rcases Bool.or_eq_true_iff.mp hfirst with hk | hk
          · exact .inr ⟨"START", by decide, w, w', more, rfl, hk, hsecond⟩
          · exact .inr ⟨"PREPARE", by decide, w, w', more, rfl, hk, hsecond⟩
        · cases hsecond
    · cases h
  · rintro (⟨kw, hkw, w, hhead, hk⟩ | ⟨kw, hkw, w, w', rest, htokens, hk, hk'⟩)
    · obtain ⟨rest, htokens⟩ := List.head?_eq_some_iff.mp hhead
      rw [htokens]
      exact Bool.or_eq_true_iff.mpr (.inl (List.any_eq_true.mpr ⟨kw, hkw, hk⟩))
    · rw [htokens]
      have hopen : (isKeyword "START" w || isKeyword "PREPARE" w) = true := by
        simp only [List.mem_cons, List.not_mem_nil, or_false] at hkw
        rcases hkw with rfl | rfl <;> simp [hk]
      refine Bool.or_eq_true_iff.mpr (.inr ?_)
      simp only [hopen, hk', Bool.and_self]

example : (statements "BEGIN;/* a /* b; */ COMMIT */ x $a$;$a$".toList).map
    isTransactionControl = [true, false] := by decide +kernel

end Treeweft.SqlLexer
