import Mathlib.Data.List.Basic

/-!
Boolean expressions as texts: a scanner for words, quoted literals and symbols, and a parser for
conjunctions and disjunctions of atoms.

How a literal is quoted and what an atom looks like is up to the language; `read_join` says that
texts of atoms, joined by a keyword, are read as the conjunction of these atoms.
-/

namespace Treeweft.BoolExpr

/-! ### The Scanner -/

inductive Token
  | word (w : List Char)
  | literal (v : List Char)
  | sym (c : Char)
  deriving DecidableEq, Repr

/-- The quote of a literal. Inside, either an escape gives the next character its meaning, or, where
there is none, a doubled quote is a quote. -/
structure Quoting where
  quote : Char
  escape : Option Char
  unescape : Char → Char

inductive Mode
  | start
  | word (w : List Char)
  | inside (v : List Char)
  | escaped (v : List Char)
  | closing (v : List Char)
  deriving DecidableEq, Repr

def wordChar (c : Char) : Bool := c.isAlphanum || c = '_'

section Scan
variable (Q : Quoting)

def begin (c : Char) : List Token × Mode :=
  if c = Q.quote then ([], .inside [])
  else if c.isWhitespace then ([], .start)
  else if wordChar c then ([], .word [c])
  else ([.sym c], .start)

def step (m : Mode) (c : Char) : List Token × Mode :=
  match m with
  | .start => begin Q c
  | .word w =>
    if wordChar c then ([], .word (w ++ [c])) else (.word w :: (begin Q c).1, (begin Q c).2)
  | .inside v =>
    match Q.escape with
    | some e =>
      if c = e then ([], .escaped v)
      else if c = Q.quote then ([.literal v], .start)
      else ([], .inside (v ++ [c]))
    | none => if c = Q.quote then ([], .closing v) else ([], .inside (v ++ [c]))
  | .escaped v => ([], .inside (v ++ [Q.unescape c]))
  | .closing v =>
    if c = Q.quote then ([], .inside (v ++ [c]))
    else (.literal v :: (begin Q c).1, (begin Q c).2)

def scan : Mode → List Char → List Token × Mode
  | m, [] => ([], m)
  | m, c :: cs =>
    let x := scan (step Q m c).2 cs
    ((step Q m c).1 ++ x.1, x.2)

/-- What the end of the text makes of a mode; a literal has to be closed. -/
def finish : Mode → Option (List Token)
  | .start => some []
  | .word w => some [.word w]
  | .closing v => some [.literal v]
  | _ => none

def lex (cs : List Char) : Option (List Token) :=
  (finish (scan Q .start cs).2).map ((scan Q .start cs).1 ++ ·)

lemma scan_append (m : Mode) (cs ds : List Char) :
    scan Q m (cs ++ ds) = ((scan Q m cs).1 ++ (scan Q (scan Q m cs).2 ds).1,
      (scan Q (scan Q m cs).2 ds).2) := by
  induction cs generalizing m with
  | nil => rfl
  | cons c cs ih => simp only [List.cons_append, scan, ih, List.append_assoc]

/-- A character at which a word or a literal ends. -/
def Stops (c : Char) : Prop := c ≠ Q.quote ∧ wordChar c = false

/-- The text is these tokens, whatever comes after it. -/
structure Spells (cs : List Char) (ts : List Token) : Prop where
  mk ::
  stop : ∃ late, finish (scan Q .start cs).2 = some late ∧ (scan Q .start cs).1 ++ late = ts ∧
    ∀ c, Stops Q c → step Q (scan Q .start cs).2 c = (late ++ (begin Q c).1, (begin Q c).2)

variable {Q} {cs ds : List Char} {ts us : List Token}

lemma Spells.lex (h : Spells Q cs ts) : lex Q cs = some ts := by
  obtain ⟨late, hfin, hts, -⟩ := h.stop
  rw [BoolExpr.lex, hfin, Option.map_some, hts]

/-- Two texts, where the second begins with a character that ends the first. -/
lemma Spells.append {c : Char} (h : Spells Q cs ts) (hc : Stops Q c) (h' : Spells Q (c :: ds) us) :
    Spells Q (cs ++ c :: ds) (ts ++ us) := by
  obtain ⟨late, -, hts, hstop⟩ := h.stop
  obtain ⟨late', hfin', hus, hstop'⟩ := h'.stop
  have hscan : scan Q .start (cs ++ c :: ds) =
      (ts ++ (scan Q .start (c :: ds)).1, (scan Q .start (c :: ds)).2) := by
    rw [scan_append, scan, hstop c hc, ← hts]
    simp only [scan, step, List.append_assoc]
  refine ⟨late', ?_, ?_, ?_⟩
  · rw [hscan]
    exact hfin'
  · rw [hscan, List.append_assoc, hus]
  · rw [hscan]
    exact hstop'

lemma Spells.of_start (h : scan Q .start cs = (ts, .start)) : Spells Q cs ts := by
  refine ⟨[], ?_, ?_, ?_⟩
  · rw [h]
    rfl
  · rw [h, List.append_nil]
  · intro c _
    rw [h]
    rfl

/-- What comes after a text that ends between two tokens. -/
lemma Spells.after (h : scan Q .start cs = (ts, .start)) (h' : Spells Q ds us) :
    Spells Q (cs ++ ds) (ts ++ us) := by
  obtain ⟨late, hfin, hus, hstop⟩ := h'.stop
  have hscan : scan Q .start (cs ++ ds) =
      (ts ++ (scan Q .start ds).1, (scan Q .start ds).2) := by
    rw [scan_append, h]
  refine ⟨late, ?_, ?_, ?_⟩
  · rw [hscan]
    exact hfin
  · rw [hscan, List.append_assoc, hus]
  · rw [hscan]
    exact hstop

/-- A literal whose inside is read without leaving it. -/
lemma Spells.literal {v : List Char} (h : scan Q (.inside []) cs = ([], .inside v))
    (hq : Q.escape ≠ some Q.quote) : Spells Q (Q.quote :: cs ++ [Q.quote]) [.literal v] := by
  have hbegin : begin Q Q.quote = ([], .inside []) := if_pos rfl
  have hopen : scan Q .start (Q.quote :: cs ++ [Q.quote]) = scan Q (.inside v) [Q.quote] := by
    rw [List.cons_append, scan, step, hbegin, scan_append, h]
    rfl
  cases he : Q.escape with
  | none =>
    have hscan : scan Q .start (Q.quote :: cs ++ [Q.quote]) = ([], .closing v) := by
      rw [hopen, scan, step, he]
      dsimp only
      rw [if_pos rfl]
      rfl
    refine ⟨[.literal v], ?_, ?_, ?_⟩
    · rw [hscan]
      rfl
    · rw [hscan]
      rfl
    · intro c hc
      rw [hscan]
      exact if_neg hc.1
  | some e =>
    have hne : Q.quote ≠ e := fun h => hq (he.trans (congrArg some h.symm))
    refine Spells.of_start ?_
    rw [hopen, scan, step, he]
    dsimp only
    rw [if_neg hne, if_pos rfl]
    rfl

lemma scan_word (w cs : List Char) (h : ∀ c ∈ cs, wordChar c = true) :
    scan Q (.word w) cs = ([], .word (w ++ cs)) := by
  induction cs generalizing w with
  | nil => rw [List.append_nil, scan]
  | cons c cs ih =>
    rw [scan, step, if_pos (h c List.mem_cons_self), ih _ fun d hd =>
      h d (List.mem_cons_of_mem c hd), List.append_assoc]
    rfl

lemma Spells.word {c : Char} (hc : begin Q c = ([], .word [c]))
    (h : ∀ d ∈ cs, wordChar d = true) : Spells Q (c :: cs) [.word (c :: cs)] := by
  have hscan : scan Q .start (c :: cs) = ([], .word (c :: cs)) := by
    rw [scan, step, hc, scan_word [c] cs h]
    rfl
  refine ⟨[.word (c :: cs)], ?_, ?_, ?_⟩
  · rw [hscan]
    rfl
  · rw [hscan]
    rfl
  · intro d hd
    rw [hscan]
    exact if_neg (Bool.eq_false_iff.mp hd.2)

end Scan

/-! ### Expressions -/

inductive Expr (α : Type)
  | atom (a : α)
  | and (e f : Expr α)
  | or (e f : Expr α)
  deriving DecidableEq, Repr

section Expr
variable {α β : Type}

/-- The top-level conjuncts. -/
def Expr.conjuncts : Expr α → List (Expr α)
  | .and e f => e.conjuncts ++ f.conjuncts
  | e => [e]

def allOf (e : Expr α) (es : List (Expr α)) : Expr α := es.foldl .and e
def anyOf (e : Expr α) (es : List (Expr α)) : Expr α := es.foldl .or e

/-- The conjunction of some atoms, if there is any. -/
def conjunction : List α → Option (Expr α)
  | [] => none
  | a :: as => some (allOf (.atom a) (as.map .atom))

lemma conjuncts_allOf (e : Expr α) (es : List (Expr α)) :
    (allOf e es).conjuncts = e.conjuncts ++ es.flatMap Expr.conjuncts := by
  induction es generalizing e with
  | nil => exact (List.append_nil _).symm
  | cons f es ih =>
    refine (ih (.and e f)).trans ?_
    rw [Expr.conjuncts, List.append_assoc, List.flatMap_cons]

lemma conjuncts_conjunction {as : List α} {e : Expr α} (h : conjunction as = some e) :
    e.conjuncts = as.map .atom := by
  cases as with
  | nil => cases h
  | cons a as =>
    cases h
    rw [conjuncts_allOf, List.map_cons]
    have hatoms : (as.map Expr.atom).flatMap Expr.conjuncts = as.map Expr.atom := by
      induction as with
      | nil => rfl
      | cons b as ih => exact congrArg (Expr.atom b :: ·) ih
    rw [hatoms]
    rfl

/-! ### The Parser -/

/-- One `p` and any number of others, each after a separator. -/
def chain (sep : Token → Bool) (p : List Token → Option (β × List Token)) :
    ℕ → List Token → Option ((β × List β) × List Token)
  | 0, _ => none
  | n + 1, ts =>
    match p ts with
    | none => none
    | some (b, []) => some ((b, []), [])
    | some (b, t :: rest) =>
      if sep t then (chain sep p n rest).map fun x => ((b, x.1.1 :: x.1.2), x.2)
      else some ((b, []), t :: rest)

/-- A keyword in any case. -/
def keyword (k : String) : Token → Bool
  | .word w => w.map Char.toLower = k.toList
  | _ => false

variable (atom : List Token → Option (α × List Token))

/-- A bracketed expression, or an atom. -/
def primary (inner : List Token → Option (Expr α × List Token)) (ts : List Token) :
    Option (Expr α × List Token) :=
  match ts with
  | .sym '(' :: rest =>
    match inner rest with
    | some (e, .sym ')' :: ts) => some (e, ts)
    | _ => none
  | ts => (atom ts).map fun x => (.atom x.1, x.2)

/-- Disjunctions of conjunctions; `n` bounds their length and how deep brackets go. -/
def parseExpr : ℕ → List Token → Option (Expr α × List Token)
  | 0, _ => none
  | n + 1, ts =>
    (chain (keyword "or") (fun ts => (chain (keyword "and") (primary atom (parseExpr n)) (n + 1)
      ts).map fun x => (allOf x.1.1 x.1.2, x.2)) (n + 1) ts).map fun x => (anyOf x.1.1 x.1.2, x.2)

def parse (ts : List Token) : Option (Expr α) :=
  match parseExpr atom (ts.length + 1) ts with
  | some (e, []) => some e
  | _ => none

/-- `p` takes exactly these tokens, whatever comes after them. -/
def Takes (p : List Token → Option (β × List Token)) (ts : List Token) (b : β) : Prop :=
  ∀ rest, p (ts ++ rest) = some (b, rest)

variable {atom} {sep : Token → Bool} {p : List Token → Option (β × List Token)}

/-- What is joined by a separator is read as it was joined. -/
lemma chain_join {s : Token} (hs : sep s = true) {x : List Token × β} {xs : List (List Token × β)}
    (h : ∀ y ∈ x :: xs, Takes p y.1 y.2) {rest : List Token}
    (hrest : ∀ t ts, rest = t :: ts → sep t = false) {n : ℕ} (hn : xs.length < n) :
    chain sep p n (x.1 ++ (xs.flatMap (fun y => s :: y.1) ++ rest)) =
      some ((x.2, xs.map Prod.snd), rest) := by
  induction xs generalizing x n with
  | nil =>
    obtain ⟨n, rfl⟩ := Nat.exists_eq_succ_of_ne_zero (Nat.ne_of_gt hn)
    rw [List.flatMap_nil, List.nil_append, chain, h x List.mem_cons_self]
    cases rest with
    | nil => rfl
    | cons t ts =>
      dsimp only
      rw [if_neg (Bool.eq_false_iff.mp (hrest t ts rfl))]
      rfl
  | cons y ys ih =>
    obtain ⟨n, rfl⟩ := Nat.exists_eq_succ_of_ne_zero (Nat.ne_of_gt (Nat.zero_lt_of_lt hn))
    rw [chain, h x List.mem_cons_self, List.flatMap_cons, List.cons_append, List.cons_append]
    dsimp only
    rw [if_pos hs, List.append_assoc, ih (fun z hz => h z (List.mem_cons_of_mem x hz))
      (Nat.lt_of_succ_lt_succ hn)]
    rfl

/-- An atom that no bracket opens. -/
structure Reads (atom : List Token → Option (α × List Token)) (ts : List Token) (a : α) : Prop where
  takes : Takes atom ts a
  word : ∃ w us, ts = .word w :: us

lemma Reads.bare {inner : List Token → Option (Expr α × List Token)} {ts : List Token} {a : α}
    (h : Reads atom ts a) : Takes (primary atom inner) ts (.atom a) := by
  intro rest
  have htakes := h.takes rest
  obtain ⟨w, us, rfl⟩ := h.word
  change (atom ((.word w :: us) ++ rest)).map (fun x => (Expr.atom x.1, x.2)) = _
  rw [htakes]
  rfl

lemma Reads.brackets {ts : List Token} {a : α} (h : Reads atom ts a) (n : ℕ) :
    Takes (primary atom (parseExpr atom (n + 1))) (.sym '(' :: ts ++ [.sym ')']) (.atom a) := by
  intro rest
  have hbare : Takes (primary atom (parseExpr atom n)) ts (.atom a) := h.bare
  have hexpr : parseExpr atom (n + 1) (ts ++ .sym ')' :: rest) =
      some (.atom a, .sym ')' :: rest) := by
    rw [parseExpr, chain, chain, hbare]
    rfl
  rw [List.cons_append, List.cons_append, List.append_assoc, primary]
  change (match parseExpr atom (n + 1) (ts ++ .sym ')' :: rest) with
    | some (e, .sym ')' :: us) => some (e, us)
    | _ => none) = _
  rw [hexpr]
  rfl

lemma length_le_flatMap {s : Token} (xs : List (List Token × α)) :
    xs.length ≤ (xs.flatMap fun y => s :: y.1).length := by
  induction xs with
  | nil => exact Nat.zero_le _
  | cons y ys ih =>
    rw [List.flatMap_cons, List.length_append, List.length_cons, List.length_cons]
    omega

/-- Atoms, bare or in brackets, that a keyword joins are read as their conjunction. -/
lemma parse_join {s : Token} (hs : keyword "and" s = true) {x : List Token × α}
    {xs : List (List Token × α)} (hx : x.1 ≠ [])
    (h : ∀ n, ∀ y ∈ x :: xs, Takes (primary atom (parseExpr atom (n + 1))) y.1 (.atom y.2)) :
    parse atom (x.1 ++ xs.flatMap fun y => s :: y.1) = conjunction (x.2 :: xs.map Prod.snd) := by
  have hshort := length_le_flatMap (s := s) xs
  obtain ⟨n, hn⟩ : ∃ n, (x.1 ++ xs.flatMap fun y => s :: y.1).length = n + 1 :=
    Nat.exists_eq_succ_of_ne_zero
      (Nat.ne_of_gt (List.length_pos_of_ne_nil (List.append_ne_nil_of_left_ne_nil hx _)))
  let node : List Token × α → List Token × Expr α := fun y => (y.1, .atom y.2)
  have hread : ∀ y ∈ node x :: xs.map node,
      Takes (primary atom (parseExpr atom (n + 1))) y.1 y.2 := by
    rw [← List.map_cons]
    intro y hy
    obtain ⟨z, hz, rfl⟩ := List.mem_map.mp hy
    exact h n z hz
  have hroom : (xs.map node).length < n + 2 := by
    rw [List.length_append] at hn
    rw [List.length_map]
    omega
  have hand : chain (keyword "and") (primary atom (parseExpr atom (n + 1))) (n + 2)
      (x.1 ++ xs.flatMap fun y => s :: y.1) =
        some ((.atom x.2, xs.map fun y => .atom y.2), []) := by
    have hend : ∀ t ts, [] = t :: ts → keyword "and" t = false := fun _ _ h => nomatch h
    have hjoin := chain_join hs hread hend hroom
    rw [List.append_nil, List.flatMap_map, List.map_map] at hjoin
    exact hjoin
  rw [parse, hn, parseExpr, chain, hand]
  rw [conjunction, List.map_map]
  rfl

/-! ### Joined Texts -/

/-- `sep.join(parts)` -/
def join (sep : List Char) : List (List Char) → List Char
  | [] => []
  | p :: ps => p ++ ps.flatMap (sep ++ ·)

/-- The reading of a text, where it has one. -/
def read (Q : Quoting) (atom : List Token → Option (α × List Token)) (cs : List Char) :
    Option (Expr α) :=
  (lex Q cs).bind (parse atom)

/-- A text that is an atom, bare or in brackets, wherever a conjunct may stand. -/
structure Writes (Q : Quoting) (atom : List Token → Option (α × List Token)) (cs : List Char)
    (a : α) : Prop where
  spells : ∃ ts, Spells Q cs ts ∧ ts ≠ [] ∧
    ∀ n, Takes (primary atom (parseExpr atom (n + 1))) ts (.atom a)

variable {Q : Quoting}

lemma Writes.bare {cs : List Char} {ts : List Token} {a : α} (h : Spells Q cs ts)
    (hr : Reads atom ts a) : Writes Q atom cs a := by
  refine ⟨ts, h, ?_, fun n => hr.bare⟩
  obtain ⟨w, us, rfl⟩ := hr.word
  exact List.cons_ne_nil _ _

lemma Writes.brackets {cs : List Char} {ts : List Token} {a : α}
    (h : Spells Q cs (.sym '(' :: ts ++ [.sym ')'])) (hr : Reads atom ts a) : Writes Q atom cs a :=
  ⟨_, h, List.cons_ne_nil _ _, hr.brackets⟩

lemma Writes.ne_nil {cs : List Char} {a : α} (h : Writes Q atom cs a) : cs ≠ [] := by
  rintro rfl
  obtain ⟨ts, hts, hne, -⟩ := h.spells
  exact hne (Option.some.inj hts.lex).symm

/-- The tokens of texts that a separator joins. -/
lemma spells_join {sep : List Char} {c : Char} {cs : List Char} {s : Token} (hsep : sep = c :: cs)
    (hstop : Stops Q c) (hscan : scan Q .start sep = ([s], .start)) {p : List Char}
    {ps : List (List Char)} {ts : List Token} {tss : List (List Token)} (hp : Spells Q p ts)
    (hps : List.Forall₂ (Spells Q) ps tss) :
    Spells Q (join sep (p :: ps)) (ts ++ tss.flatMap (s :: ·)) := by
  induction hps generalizing p ts with
  | nil =>
    rw [join, List.flatMap_nil, List.flatMap_nil, List.append_nil, List.append_nil]
    exact hp
  | @cons q us ps tss hq _ ih =>
    have hrest := Spells.after hscan (ih hq)
    have hcons : sep ++ join sep (q :: ps) = c :: (cs ++ join sep (q :: ps)) := by
      rw [hsep]
      rfl
    rw [hcons] at hrest
    have happ := hp.append hstop hrest
    rw [← hcons] at happ
    rw [join, List.flatMap_cons, List.flatMap_cons]
    rw [join, ← List.append_assoc] at happ
    simp only [List.append_assoc, List.cons_append] at happ ⊢
    exact happ

lemma exists_tokens {texts : List (List Char)} {as : List α}
    (h : List.Forall₂ (Writes Q atom) texts as) :
    ∃ xs : List (List Token × α), xs.map Prod.snd = as ∧
      List.Forall₂ (Spells Q) texts (xs.map Prod.fst) ∧ ∀ y ∈ xs, y.1 ≠ [] ∧
        ∀ n, Takes (primary atom (parseExpr atom (n + 1))) y.1 (.atom y.2) := by
  induction h with
  | nil => exact ⟨[], rfl, .nil, fun _ h => nomatch h⟩
  | @cons text a texts as hw _ ih =>
    obtain ⟨ts, hts, hne, htakes⟩ := hw.spells
    obtain ⟨xs, rfl, hspells, hreads⟩ := ih
    refine ⟨(ts, a) :: xs, rfl, .cons hts hspells, ?_⟩
    intro y hy
    rcases List.mem_cons.mp hy with rfl | hy
    · exact ⟨hne, htakes⟩
    · exact hreads y hy

/-- Texts of atoms, joined by a keyword, are read as the conjunction of these atoms. -/
lemma read_join {sep : List Char} {c : Char} {cs : List Char} {s : Token} (hsep : sep = c :: cs)
    (hstop : Stops Q c) (hscan : scan Q .start sep = ([s], .start)) (hs : keyword "and" s = true)
    {texts : List (List Char)} {as : List α} (h : List.Forall₂ (Writes Q atom) texts as)
    (hne : texts ≠ []) : read Q atom (join sep texts) = conjunction as := by
  obtain ⟨xs, rfl, hspells, hreads⟩ := exists_tokens h
  cases xs with
  | nil =>
    cases hspells
    exact absurd rfl hne
  | cons x xs =>
    cases hspells with
    | cons hp hps =>
      have hjoin := (spells_join hsep hstop hscan hp hps).lex
      rw [List.flatMap_map] at hjoin
      rw [read, hjoin, Option.bind_some]
      exact parse_join hs (hreads x List.mem_cons_self).1 fun n y hy => (hreads y hy).2 n

end Expr

end Treeweft.BoolExpr
