import Treeweft.BoolExpr
import Treeweft.Hydrate
import Treeweft.PathFilter

/-!
The predicates that the LanceDB and the Milvus adapters write, as the targets read them.

LanceDB takes a text of SQL, where a doubled quote stands for a quote. Milvus takes an expression,
where a backslash escapes, and the values of its placeholders apart from it.
-/

namespace Treeweft.FilterText

open Treeweft.BoolExpr Treeweft.PathFilter
open Treeweft.Hydrate (Location showInt parseNat)

/-- A comparison of a column with the values that the literals stand for. -/
inductive Comparison
  | eq (column value : Text)
  | like (column pattern : Text)
  | isIn (column : Text) (values : List Text)
  | notIn (column : Text) (values : List Text)
  | atLeast (column : Text) (n : ℤ)
  | atMost (column : Text) (n : ℤ)
  deriving DecidableEq, Repr

def chars (s : String) : Text := s.toList

/-- What the filter of a search is to say. -/
def comparisons (a : Args) : List Comparison :=
  ((given a.language).map (.eq (chars "language"))).toList ++
    ((given a.pathPrefix).map fun p => .like (chars "file_path") (p ++ ['%'])).toList ++
    ((given a.sourceId).map (.eq (chars "source_id"))).toList ++
    if a.excludeSourceIds = [] then [] else [.notIn (chars "source_id") a.excludeSourceIds]

/-! ### LanceDB -/

/-- `f"'{_esc(value)}'"` -/
def quoted (v : Text) : Text := '\'' :: esc v ++ ['\'']

def lanceParts (a : Args) : List Text :=
  ((given a.language).map fun v => chars "language = " ++ quoted v).toList ++
    ((given a.pathPrefix).map fun p =>
      chars "file_path LIKE " ++ ('\'' :: (esc p ++ ['%']) ++ ['\''])).toList ++
    ((given a.sourceId).map fun v => chars "source_id = " ++ quoted v).toList ++
    if a.excludeSourceIds = [] then []
    else [chars "source_id NOT IN (" ++ join (chars ", ") (a.excludeSourceIds.map quoted) ++ [')']]

/-- `_build_filter`: the clauses, or `None` where there are none. -/
def lanceBuildFilter (a : Args) : Option Text := given (some (join (chars " AND ") (lanceParts a)))

/-- `delete_chunks_by_source`, `list_indexed_paths` and the others of one source. -/
def lanceSource (source_id : Text) : Text := chars "source_id = " ++ quoted source_id

/-- `delete_chunks_by_file` -/
def lanceFile (source_id file_path : Text) : Text :=
  chars "source_id = " ++ quoted source_id ++
    (chars " AND file_path = " ++ quoted file_path)

/-- `fetch_rows` -/
def lanceIds (ids : List Text) : Text :=
  chars "id IN (" ++ join (chars ", ") (ids.map quoted) ++ [')']

def sql : Quoting := ⟨'\'', none, id⟩

def literal : List Token → Option (Text × List Token)
  | .literal v :: rest => some (v, rest)
  | _ => none

def comma : Token → Bool := (· = .sym ',')

/-- The literals up to the bracket that closes their list. -/
def literals (ts : List Token) : Option (List Text × List Token) :=
  match chain comma literal (ts.length + 1) ts with
  | some ((v, vs), .sym ')' :: rest) => some (v :: vs, rest)
  | _ => none

def sqlAtom : List Token → Option (Comparison × List Token)
  | .word col :: .sym '=' :: .literal v :: rest => some (.eq col v, rest)
  | .word col :: k :: .literal v :: rest =>
    if keyword "like" k then some (.like col v, rest) else none
  | .word col :: k :: .sym '(' :: rest =>
    if keyword "in" k then (literals rest).map fun x => (.isIn col x.1, x.2) else none
  | .word col :: n :: k :: .sym '(' :: rest =>
    if keyword "not" n && keyword "in" k then
      (literals rest).map fun x => (.notIn col x.1, x.2)
    else none
  | _ => none

/-! ### Milvus -/

inductive Value
  | one (v : Text)
  | many (vs : List Text)
  deriving DecidableEq, Repr

abbrev Params := List (Text × Value)

/-- The clauses, each with the values of its placeholders. -/
def milvusParts (a : Args) : List (Text × Params) :=
  ((given a.language).map fun v =>
      (chars "(language == {f_language})", [(chars "f_language", .one v)])).toList ++
    ((given a.pathPrefix).map fun p =>
      (chars "(file_path like " ++ ('"' :: (escapeLiteral p ++ ['%']) ++ ['"']) ++ [')'],
        [])).toList ++
    ((given a.sourceId).map fun v =>
      (chars "(source_id == {f_source_id})", [(chars "f_source_id", .one v)])).toList ++
    if a.excludeSourceIds = [] then []
    else [(chars "(source_id not in {f_exclude})", [(chars "f_exclude", .many a.excludeSourceIds)])]

/-- `_build_filter` -/
def milvusBuildFilter (a : Args) : Text × Params :=
  (join (chars " and ") ((milvusParts a).map Prod.fst), (milvusParts a).flatMap Prod.snd)

/-- `list_indexed_paths` and `snapshot_source_row_ids`, which can not bind. -/
def milvusSource (source_id : Text) : Text :=
  chars "source_id == " ++ ('"' :: escapeLiteral source_id ++ ['"'])

/-- `delete_chunks_by_source` -/
def milvusDeleteSource (source_id : Text) : Text × Params :=
  (chars "source_id == {f_value}", [(chars "f_value", .one source_id)])

/-- `delete_chunks_by_file` -/
def milvusFile (source_id file_path : Text) : Text × Params :=
  (chars "source_id == {f_source_id} and file_path == {f_file_path}",
    [(chars "f_source_id", .one source_id), (chars "f_file_path", .one file_path)])

/-- `get_chunk_bodies`, for one place. -/
def milvusBodies (loc : Location) (source_id : Option Text) (exclude : List Text) : Text × Params :=
  (chars "file_path == {f_file_path} and start_line >= " ++ showInt loc.2.1 ++
      (chars " and end_line <= " ++ showInt loc.2.2) ++
      ((given source_id).elim [] fun _ => chars " and source_id == {f_source_id}") ++
      (if exclude = [] then [] else chars " and source_id not in {f_exclude}"),
    [(chars "f_file_path", .one loc.1)] ++
      ((given source_id).elim [] fun v => [(chars "f_source_id", .one v)]) ++
      (if exclude = [] then [] else [(chars "f_exclude", .many exclude)]))

/-- What a character means after a backslash. -/
def unescape (c : Char) : Char :=
  if c = 'n' then '\n' else if c = 'r' then '\r' else if c = 't' then '\t' else c

def milvus : Quoting := ⟨'"', some '\\', unescape⟩

section Milvus
variable (params : Params)

/-- A literal, or the value that a placeholder is bound to. -/
def operand : List Token → Option (Value × List Token)
  | .literal v :: rest => some (.one v, rest)
  | .sym '{' :: .word name :: .sym '}' :: rest => (params.lookup name).map fun v => (v, rest)
  | _ => none

def number : List Token → Option (ℤ × List Token)
  | .word w :: rest => (parseNat w).map fun n => ((n : ℤ), rest)
  | .sym '-' :: .word w :: rest => (parseNat w).map fun n => (-(n : ℤ), rest)
  | _ => none

def milvusAtom : List Token → Option (Comparison × List Token)
  | .word col :: .sym '=' :: .sym '=' :: rest =>
    match operand params rest with
    | some (.one v, rest) => some (.eq col v, rest)
    | _ => none
  | .word col :: .sym '>' :: .sym '=' :: rest =>
    (number rest).map fun x => (.atLeast col x.1, x.2)
  | .word col :: .sym '<' :: .sym '=' :: rest =>
    (number rest).map fun x => (.atMost col x.1, x.2)
  | .word col :: k :: .literal v :: rest =>
    if keyword "like" k then some (.like col v, rest) else none
  | .word col :: n :: k :: rest =>
    if keyword "not" n && keyword "in" k then
      match operand params rest with
      | some (.many vs, rest) => some (.notIn col vs, rest)
      | _ => none
    else none
  | _ => none

end Milvus

/-! ### Literals -/

lemma scan_esc (u v : Text) : scan sql (.inside u) (esc v) = ([], .inside (u ++ v)) := by
  induction v generalizing u with
  | nil => rw [List.append_nil, esc, scan]
  | cons c cs ih =>
    rw [esc]
    split
    case isTrue hc =>
      subst hc
      have hstep := ih (u ++ ['\''])
      rw [List.append_assoc] at hstep
      rw [scan, scan]
      exact hstep
    case isFalse hc =>
      have hstep := ih (u ++ [c])
      have hinside : step sql (.inside u) c = ([], .inside (u ++ [c])) := if_neg hc
      rw [List.append_assoc] at hstep
      rw [scan, hinside]
      exact hstep

lemma scan_escapeLiteral (u v : Text) :
    scan milvus (.inside u) (escapeLiteral v) = ([], .inside (u ++ v)) := by
  induction v generalizing u with
  | nil => rw [List.append_nil, escapeLiteral, scan]
  | cons c cs ih =>
    have hstep := ih (u ++ [c])
    rw [List.append_assoc] at hstep
    rw [escapeLiteral]
    split
    case isTrue hc =>
      rw [scan, scan]
      rcases hc with rfl | rfl
      · exact hstep
      · exact hstep
    case isFalse hc =>
      obtain ⟨hback, hquote⟩ := not_or.mp hc
      have hinside : step milvus (.inside u) c = ([], .inside (u ++ [c])) :=
        (if_neg hback).trans (if_neg hquote)
      rw [scan, hinside]
      exact hstep

lemma spells_quoted (v : Text) : Spells sql (quoted v) [.literal v] :=
  Spells.literal (scan_esc [] v) (by decide)

lemma spells_likeLance (p : Text) :
    Spells sql ('\'' :: (esc p ++ ['%']) ++ ['\'']) [.literal (p ++ ['%'])] := by
  refine Spells.literal ?_ (by decide)
  rw [scan_append, scan_esc]
  rfl

lemma spells_escaped (v : Text) : Spells milvus ('"' :: escapeLiteral v ++ ['"']) [.literal v] :=
  Spells.literal (scan_escapeLiteral [] v) (by decide)

lemma spells_likeMilvus (p : Text) :
    Spells milvus ('"' :: (escapeLiteral p ++ ['%']) ++ ['"']) [.literal (p ++ ['%'])] := by
  refine Spells.literal ?_ (by decide)
  rw [scan_append, scan_escapeLiteral]
  rfl

/-! ### The Clauses of LanceDB -/

lemma reads_eq (col v : Text) : Reads sqlAtom [.word col, .sym '=', .literal v] (.eq col v) :=
  ⟨fun _ => rfl, _, _, rfl⟩

lemma reads_like (col v : Text) :
    Reads sqlAtom [.word col, .word (chars "LIKE"), .literal v] (.like col v) :=
  ⟨fun _ => rfl, _, _, rfl⟩

/-- The literals of a list, each after a comma but the first. -/
def commas (v : Text) (vs : List Text) : List Token :=
  .literal v :: vs.flatMap fun v => [.sym ',', .literal v]

lemma literals_commas (v : Text) (vs : List Text) (rest : List Token) :
    literals (commas v vs ++ .sym ')' :: rest) = some (v :: vs, rest) := by
  let lit : Text → List Token × Text := fun v => ([.literal v], v)
  have htakes : ∀ y ∈ lit v :: vs.map lit, Takes literal y.1 y.2 := by
    rw [← List.map_cons]
    intro y hy
    obtain ⟨w, -, rfl⟩ := List.mem_map.mp hy
    exact fun _ => rfl
  have hend : ∀ t ts, Token.sym ')' :: rest = t :: ts → comma t = false := by
    intro t ts h
    obtain ⟨rfl, -⟩ := List.cons.inj h
    rfl
  have hroom : (vs.map lit).length < (commas v vs ++ .sym ')' :: rest).length + 1 := by
    have hshort := length_le_flatMap (s := .sym ',') (vs.map lit)
    rw [List.flatMap_map] at hshort
    rw [List.length_append, commas, List.length_cons]
    change _ ≤ (vs.flatMap fun v => [Token.sym ',', .literal v]).length at hshort
    omega
  have hcomma : comma (.sym ',') = true := rfl
  have hchain := chain_join hcomma htakes hend hroom
  rw [List.flatMap_map, List.map_map] at hchain
  have hread : chain comma literal ((commas v vs ++ .sym ')' :: rest).length + 1)
      (commas v vs ++ .sym ')' :: rest) = some ((v, vs.map (Prod.snd ∘ lit)), .sym ')' :: rest) :=
    hchain
  rw [literals, hread]
  exact congrArg (fun us => some (v :: us, rest)) (List.map_id vs)

lemma writes_eq {pre col : Text} (h : scan sql .start pre = ([.word col, .sym '='], .start))
    (v : Text) : Writes sql sqlAtom (pre ++ quoted v) (.eq col v) :=
  .bare (.after h (spells_quoted v)) (reads_eq col v)

lemma writes_likeLance (p : Text) :
    Writes sql sqlAtom (chars "file_path LIKE " ++ ('\'' :: (esc p ++ ['%']) ++ ['\'']))
      (.like (chars "file_path") (p ++ ['%'])) :=
  have hscan : scan sql .start (chars "file_path LIKE ") =
    ([.word (chars "file_path"), .word (chars "LIKE")], .start) := rfl
  .bare (.after hscan (spells_likeLance p)) (reads_like _ _)

lemma spells_list (v : Text) (vs : List Text) :
    Spells sql (join (chars ", ") ((v :: vs).map quoted) ++ [')']) (commas v vs ++ [.sym ')']) := by
  have hlit : List.Forall₂ (Spells sql) (vs.map quoted) (vs.map fun v => [.literal v]) := by
    rw [List.forall₂_map_left_iff, List.forall₂_map_right_iff, List.forall₂_same]
    exact fun w _ => spells_quoted w
  have hsep : chars ", " = ',' :: [' '] := rfl
  have hscan : scan sql .start (chars ", ") = ([.sym ','], .start) := rfl
  have hjoin := spells_join hsep ⟨by decide, by decide⟩ hscan (spells_quoted v) hlit
  rw [List.flatMap_map] at hjoin
  exact hjoin.append ⟨by decide, by decide⟩ (.of_start rfl)

lemma reads_in (col v : Text) (vs : List Text) :
    Reads sqlAtom ([.word col, .word (chars "IN"), .sym '('] ++ (commas v vs ++ [.sym ')']))
      (.isIn col (v :: vs)) := by
  refine ⟨fun rest => ?_, col, _, rfl⟩
  change (literals (commas v vs ++ [.sym ')'] ++ rest)).map (fun x => (Comparison.isIn col x.1, x.2)) = _
  rw [List.append_assoc, List.singleton_append, literals_commas]
  rfl

lemma reads_notIn (col v : Text) (vs : List Text) :
    Reads sqlAtom ([.word col, .word (chars "NOT"), .word (chars "IN"), .sym '('] ++
      (commas v vs ++ [.sym ')'])) (.notIn col (v :: vs)) := by
  refine ⟨fun rest => ?_, col, _, rfl⟩
  change (literals (commas v vs ++ [.sym ')'] ++ rest)).map (fun x => (Comparison.notIn col x.1, x.2)) = _
  rw [List.append_assoc, List.singleton_append, literals_commas]
  rfl

lemma writes_in {ids : List Text} (h : ids ≠ []) :
    Writes sql sqlAtom (lanceIds ids) (.isIn (chars "id") ids) := by
  obtain ⟨v, vs, rfl⟩ := List.exists_cons_of_ne_nil h
  have hscan : scan sql .start (chars "id IN (") =
    ([.word (chars "id"), .word (chars "IN"), .sym '('], .start) := rfl
  rw [lanceIds, List.append_assoc]
  exact .bare (.after hscan (spells_list v vs)) (reads_in _ v vs)

lemma writes_notIn {exclude : List Text} (h : exclude ≠ []) :
    Writes sql sqlAtom
      (chars "source_id NOT IN (" ++ join (chars ", ") (exclude.map quoted) ++ [')'])
      (.notIn (chars "source_id") exclude) := by
  obtain ⟨v, vs, rfl⟩ := List.exists_cons_of_ne_nil h
  have hscan : scan sql .start (chars "source_id NOT IN (") =
    ([.word (chars "source_id"), .word (chars "NOT"), .word (chars "IN"), .sym '('], .start) := rfl
  rw [List.append_assoc]
  exact .bare (.after hscan (spells_list v vs)) (reads_notIn _ v vs)

section Clauses
variable {Q : Quoting} {atom : List Token → Option (Comparison × List Token)}

lemma writes_given {v : Option Text} {text : Text → Text} {c : Text → Comparison}
    (h : ∀ w, given v = some w → Writes Q atom (text w) (c w)) :
    List.Forall₂ (Writes Q atom) ((given v).map text).toList ((given v).map c).toList := by
  cases hv : given v with
  | none => exact .nil
  | some w => exact .cons (h w hv) .nil

lemma writes_exclude {exclude : List Text} {text : Text} {c : Comparison}
    (h : exclude ≠ [] → Writes Q atom text c) :
    List.Forall₂ (Writes Q atom) (if exclude = [] then [] else [text])
      (if exclude = [] then [] else [c]) := by
  split
  case isTrue => exact .nil
  case isFalse hne => exact .cons (h hne) .nil

end Clauses

lemma writes_lanceParts (a : Args) :
    List.Forall₂ (Writes sql sqlAtom) (lanceParts a) (comparisons a) :=
  List.rel_append (List.rel_append (List.rel_append
    (writes_given fun v _ => writes_eq rfl v) (writes_given fun p _ => writes_likeLance p))
    (writes_given fun v _ => writes_eq rfl v)) (writes_exclude writes_notIn)

lemma read_lance {texts : List Text} {cs : List Comparison}
    (h : List.Forall₂ (Writes sql sqlAtom) texts cs) (hne : texts ≠ []) :
    read sql sqlAtom (join (chars " AND ") texts) = conjunction cs :=
  read_join (rfl : chars " AND " = ' ' :: ['A', 'N', 'D', ' ']) ⟨by decide, by decide⟩
    (rfl : scan sql .start (chars " AND ") = ([.word (chars "AND")], .start)) rfl h hne

lemma read_lance_one {text : Text} {c : Comparison} (h : Writes sql sqlAtom text c) :
    read sql sqlAtom text = some (.atom c) := by
  have hone := read_lance (.cons h .nil) (List.cons_ne_nil text [])
  rw [join, List.flatMap_nil, List.append_nil] at hone
  exact hone

/-! ### The Clauses of Milvus -/

section Milvus
variable {params : Params}

lemma reads_bound {name v : Text} (h : params.lookup name = some (.one v)) (col : Text) :
    Reads (milvusAtom params)
      [.word col, .sym '=', .sym '=', .sym '{', .word name, .sym '}'] (.eq col v) := by
  refine ⟨fun rest => ?_, col, _, rfl⟩
  change (match (params.lookup name).map fun v => (v, rest) with
    | some (.one v, rest) => some (Comparison.eq col v, rest)
    | _ => none) = _
  rw [h]
  rfl

lemma reads_bound_list {name : Text} {vs : List Text} (h : params.lookup name = some (.many vs))
    (col : Text) : Reads (milvusAtom params)
      [.word col, .word (chars "not"), .word (chars "in"), .sym '{', .word name, .sym '}']
      (.notIn col vs) := by
  refine ⟨fun rest => ?_, col, _, rfl⟩
  change (match (params.lookup name).map fun v => (v, rest) with
    | some (.many vs, rest) => some (Comparison.notIn col vs, rest)
    | _ => none) = _
  rw [h]
  rfl

lemma writes_likeMilvus (p : Text) :
    Writes milvus (milvusAtom params)
      (chars "(file_path like " ++ ('"' :: (escapeLiteral p ++ ['%']) ++ ['"']) ++ [')'])
      (.like (chars "file_path") (p ++ ['%'])) := by
  have hreads : Reads (milvusAtom params)
      [.word (chars "file_path"), .word (chars "like"), .literal (p ++ ['%'])]
      (.like (chars "file_path") (p ++ ['%'])) := ⟨fun _ => rfl, _, _, rfl⟩
  have hscan : scan milvus .start (chars "(file_path like ") =
    ([.sym '(', .word (chars "file_path"), .word (chars "like")], .start) := rfl
  have hopen := Spells.after hscan (spells_likeMilvus p)
  exact .brackets (hopen.append (c := ')') ⟨by decide, by decide⟩ (.of_start rfl)) hreads

end Milvus

/-- The values that a filter binds. -/
lemma milvusBuildFilter_snd (a : Args) : (milvusBuildFilter a).2 =
    ((given a.language).map fun v => (chars "f_language", Value.one v)).toList ++
      ((given a.sourceId).map fun v => (chars "f_source_id", Value.one v)).toList ++
      if a.excludeSourceIds = [] then [] else [(chars "f_exclude", .many a.excludeSourceIds)] := by
  rw [milvusBuildFilter, milvusParts]
  cases given a.language <;> cases given a.pathPrefix <;> cases given a.sourceId <;>
    by_cases h : a.excludeSourceIds = [] <;> simp [h]

lemma milvusParts_fst (a : Args) : (milvusParts a).map Prod.fst =
    ((given a.language).map fun _ => chars "(language == {f_language})").toList ++
      ((given a.pathPrefix).map fun p =>
        chars "(file_path like " ++ ('"' :: (escapeLiteral p ++ ['%']) ++ ['"']) ++ [')']).toList ++
      ((given a.sourceId).map fun _ => chars "(source_id == {f_source_id})").toList ++
      if a.excludeSourceIds = [] then [] else [chars "(source_id not in {f_exclude})"] := by
  rw [milvusParts]
  cases given a.language <;> cases given a.pathPrefix <;> cases given a.sourceId <;>
    by_cases h : a.excludeSourceIds = [] <;> simp [h]

lemma lookup_language {a : Args} {v : Text} (h : given a.language = some v) :
    (milvusBuildFilter a).2.lookup (chars "f_language") = some (.one v) := by
  rw [milvusBuildFilter_snd, h]
  rfl

lemma lookup_source {a : Args} {v : Text} (h : given a.sourceId = some v) :
    (milvusBuildFilter a).2.lookup (chars "f_source_id") = some (.one v) := by
  rw [milvusBuildFilter_snd, h]
  cases given a.language <;> rfl

lemma lookup_exclude {a : Args} (h : a.excludeSourceIds ≠ []) :
    (milvusBuildFilter a).2.lookup (chars "f_exclude") = some (.many a.excludeSourceIds) := by
  rw [milvusBuildFilter_snd, if_neg h]
  cases given a.language <;> cases given a.sourceId <;> rfl

lemma writes_milvusParts (a : Args) :
    List.Forall₂ (Writes milvus (milvusAtom (milvusBuildFilter a).2))
      ((milvusParts a).map Prod.fst) (comparisons a) := by
  rw [milvusParts_fst]
  refine List.rel_append (List.rel_append (List.rel_append ?_ ?_) ?_) ?_
  · exact writes_given fun v hv =>
      .brackets (.of_start rfl) (reads_bound (lookup_language hv) (chars "language"))
  · exact writes_given fun p _ => writes_likeMilvus p
  · exact writes_given fun v hv =>
      .brackets (.of_start rfl) (reads_bound (lookup_source hv) (chars "source_id"))
  · exact writes_exclude fun h =>
      .brackets (.of_start rfl) (reads_bound_list (lookup_exclude h) (chars "source_id"))

lemma read_milvus {params : Params} {texts : List Text} {cs : List Comparison}
    (h : List.Forall₂ (Writes milvus (milvusAtom params)) texts cs) (hne : texts ≠ []) :
    read milvus (milvusAtom params) (join (chars " and ") texts) = conjunction cs :=
  read_join (rfl : chars " and " = ' ' :: ['a', 'n', 'd', ' ']) ⟨by decide, by decide⟩
    (rfl : scan milvus .start (chars " and ") = ([.word (chars "and")], .start)) rfl h hne

/-! ### The Other Predicates of Milvus -/

lemma spells_digits (n : ℕ) : Spells milvus (Nat.toDigits 10 n) [.word (Nat.toDigits 10 n)] := by
  have hword : ∀ c ∈ Nat.toDigits 10 n, wordChar c = true := by
    intro c hc
    rw [wordChar, Char.isAlphanum, Hydrate.isDigit_of_mem_toDigits hc, Bool.or_true, Bool.true_or]
  cases hd : Nat.toDigits 10 n with
  | nil => exact absurd hd Nat.toDigits_ne_nil
  | cons c cs =>
    rw [hd] at hword
    have hdigit : c.isDigit = true :=
      Hydrate.isDigit_of_mem_toDigits (n := n) (hd ▸ List.mem_cons_self)
    refine Spells.word ?_ fun d h => hword d (List.mem_cons_of_mem c h)
    have hne : ∀ d, d.isDigit = false → c ≠ d := fun _ => Hydrate.ne_of_isDigit hdigit
    have hspace : c.isWhitespace = false := by
      simp only [Char.isWhitespace, Bool.or_eq_false_iff, decide_eq_false_iff_not]
      exact ⟨⟨⟨hne _ rfl, hne _ rfl⟩, hne _ rfl⟩, hne _ rfl⟩
    rw [begin, if_neg (hne _ rfl), if_neg (Bool.eq_false_iff.mp hspace),
      if_pos (hword c List.mem_cons_self)]

/-- A number is read as it was written, with its sign apart from its digits. -/
lemma exists_number (n : ℤ) : ∃ ts, Spells milvus (showInt n) ts ∧ Takes number ts n := by
  cases n with
  | ofNat n =>
    refine ⟨_, spells_digits n, fun rest => ?_⟩
    change (parseNat (Nat.toDigits 10 n)).map (fun n => ((n : ℤ), rest)) = _
    rw [Hydrate.parseNat_toDigits]
    rfl
  | negSucc n =>
    have hscan : scan milvus .start ['-'] = ([.sym '-'], .start) := rfl
    refine ⟨_, .after hscan (spells_digits (n + 1)), fun rest => ?_⟩
    change (parseNat (Nat.toDigits 10 (n + 1))).map (fun n => (-(n : ℤ), rest)) = _
    rw [Hydrate.parseNat_toDigits]
    rfl

lemma writes_atLeast {params : Params} {pre col : Text}
    (h : scan milvus .start pre = ([.word col, .sym '>', .sym '='], .start)) (n : ℤ) :
    Writes milvus (milvusAtom params) (pre ++ showInt n) (.atLeast col n) := by
  obtain ⟨ts, hts, htakes⟩ := exists_number n
  refine .bare (.after h hts) ⟨fun rest => ?_, col, _, rfl⟩
  change (number (ts ++ rest)).map (fun x => (Comparison.atLeast col x.1, x.2)) = _
  rw [htakes]
  rfl

lemma writes_atMost {params : Params} {pre col : Text}
    (h : scan milvus .start pre = ([.word col, .sym '<', .sym '='], .start)) (n : ℤ) :
    Writes milvus (milvusAtom params) (pre ++ showInt n) (.atMost col n) := by
  obtain ⟨ts, hts, htakes⟩ := exists_number n
  refine .bare (.after h hts) ⟨fun rest => ?_, col, _, rfl⟩
  change (number (ts ++ rest)).map (fun x => (Comparison.atMost col x.1, x.2)) = _
  rw [htakes]
  rfl

lemma read_milvus_one {params : Params} {text : Text} {c : Comparison}
    (h : Writes milvus (milvusAtom params) text c) :
    read milvus (milvusAtom params) text = some (.atom c) := by
  have hone := read_milvus (.cons h .nil) (List.cons_ne_nil text [])
  rw [join, List.flatMap_nil, List.append_nil] at hone
  exact hone

/-- What the filter of `get_chunk_bodies` is to say. -/
def bodyComparisons (loc : Location) (source_id : Option Text) (exclude : List Text) :
    List Comparison :=
  [.eq (chars "file_path") loc.1, .atLeast (chars "start_line") loc.2.1,
    .atMost (chars "end_line") loc.2.2] ++
    ((given source_id).map (.eq (chars "source_id"))).toList ++
    if exclude = [] then [] else [.notIn (chars "source_id") exclude]

def bodyTexts (loc : Location) (source_id : Option Text) (exclude : List Text) : List Text :=
  [chars "file_path == {f_file_path}", chars "start_line >= " ++ showInt loc.2.1,
    chars "end_line <= " ++ showInt loc.2.2] ++
    ((given source_id).map fun _ => chars "source_id == {f_source_id}").toList ++
    if exclude = [] then [] else [chars "source_id not in {f_exclude}"]

lemma milvusBodies_fst (loc : Location) (source_id : Option Text) (exclude : List Text) :
    (milvusBodies loc source_id exclude).1 =
      join (chars " and ") (bodyTexts loc source_id exclude) := by
  have hfirst : chars "file_path == {f_file_path} and start_line >= " =
      chars "file_path == {f_file_path}" ++ (chars " and " ++ chars "start_line >= ") := rfl
  have hlast : chars " and end_line <= " = chars " and " ++ chars "end_line <= " := rfl
  have hsource : chars " and source_id == {f_source_id}" =
      chars " and " ++ chars "source_id == {f_source_id}" := rfl
  have hexclude : chars " and source_id not in {f_exclude}" =
      chars " and " ++ chars "source_id not in {f_exclude}" := rfl
  rw [milvusBodies, bodyTexts, hfirst, hlast, hsource, hexclude]
  cases given source_id <;> by_cases h : exclude = [] <;> simp [join, h]

lemma read_milvusBodies (loc : Location) (source_id : Option Text) (exclude : List Text) :
    read milvus (milvusAtom (milvusBodies loc source_id exclude).2)
      (milvusBodies loc source_id exclude).1 =
        conjunction (bodyComparisons loc source_id exclude) := by
  have hfile : (milvusBodies loc source_id exclude).2.lookup (chars "f_file_path") =
      some (.one loc.1) := rfl
  have hsource : ∀ v, given source_id = some v →
      (milvusBodies loc source_id exclude).2.lookup (chars "f_source_id") = some (.one v) := by
    intro v hv
    rw [milvusBodies, hv]
    rfl
  have hexclude : exclude ≠ [] →
      (milvusBodies loc source_id exclude).2.lookup (chars "f_exclude") =
        some (.many exclude) := by
    intro hne
    rw [milvusBodies, if_neg hne, if_neg hne]
    cases given source_id <;> rfl
  rw [milvusBodies_fst]
  refine read_milvus (List.rel_append (List.rel_append ?_ ?_) ?_) (List.cons_ne_nil _ _)
  · exact .cons (.bare (.of_start rfl) (reads_bound hfile (chars "file_path")))
      (.cons (writes_atLeast rfl loc.2.1) (.cons (writes_atMost rfl loc.2.2) .nil))
  · exact writes_given fun v hv =>
      .bare (.of_start rfl) (reads_bound (hsource v hv) (chars "source_id"))
  · exact writes_exclude fun h =>
      .bare (.of_start rfl) (reads_bound_list (hexclude h) (chars "source_id"))

/-! ### What the Predicates Say -/

lemma comparisons_eq_nil_of {Q : Quoting} {atom : List Token → Option (Comparison × List Token)}
    {texts : List Text} {cs : List Comparison} (h : List.Forall₂ (Writes Q atom) texts cs)
    (sep : Text) : join sep texts = [] ↔ cs = [] := by
  cases h with
  | nil => exact ⟨fun _ => rfl, fun _ => rfl⟩
  | cons hw _ =>
    refine ⟨fun hnil => ?_, fun hnil => nomatch hnil⟩
    exact absurd (List.append_eq_nil_iff.mp hnil).1 hw.ne_nil

/-- A text that joins clauses says nothing where there are none, and their conjunction otherwise. -/
lemma read_given {Q : Quoting} {atom : List Token → Option (Comparison × List Token)}
    {texts : List Text} {cs : List Comparison} {sep : Text}
    (h : List.Forall₂ (Writes Q atom) texts cs)
    (hread : texts ≠ [] → read Q atom (join sep texts) = conjunction cs) :
    (given (some (join sep texts))).bind (read Q atom) = conjunction cs := by
  cases h with
  | nil => rfl
  | @cons text c texts cs hw _ =>
    have hne : join sep (text :: texts) ≠ [] := fun hnil =>
      hw.ne_nil (List.append_eq_nil_iff.mp hnil).1
    have hgiven : given (some (join sep (text :: texts))) = some (join sep (text :: texts)) :=
      if_pos (decide_eq_true hne)
    rw [hgiven]
    exact hread (List.cons_ne_nil text texts)

lemma notIn_mem_conjuncts {a : Args} (h : a.excludeSourceIds ≠ []) :
    ∃ e, conjunction (comparisons a) = some e ∧
      .atom (.notIn (chars "source_id") a.excludeSourceIds) ∈ e.conjuncts := by
  have hmem : .notIn (chars "source_id") a.excludeSourceIds ∈ comparisons a := by
    rw [comparisons, if_neg h]
    exact List.mem_append_right _ List.mem_cons_self
  cases hc : comparisons a with
  | nil => exact absurd (hc ▸ hmem) List.not_mem_nil
  | cons c cs =>
    obtain ⟨e, he⟩ : ∃ e, conjunction (c :: cs) = some e := ⟨_, rfl⟩
    refine ⟨e, he, ?_⟩
    rw [conjuncts_conjunction he, ← hc]
    exact List.mem_map_of_mem hmem

/-- The predicate of a LanceDB search. -/
def lanceReads (a : Args) : Option (Expr Comparison) :=
  (lanceBuildFilter a).bind (read sql sqlAtom)

/-- The predicate of a Milvus search; an empty text is no filter. -/
def milvusReads (a : Args) : Option (Expr Comparison) :=
  (given (some (milvusBuildFilter a).1)).bind (read milvus (milvusAtom (milvusBuildFilter a).2))

lemma lanceReads_eq (a : Args) : lanceReads a = conjunction (comparisons a) :=
  read_given (writes_lanceParts a) (read_lance (writes_lanceParts a))

lemma milvusReads_eq (a : Args) : milvusReads a = conjunction (comparisons a) :=
  read_given (writes_milvusParts a) (read_milvus (writes_milvusParts a))

lemma lanceBuildFilter_eq_none {a : Args} : lanceBuildFilter a = none ↔ comparisons a = [] := by
  rw [← comparisons_eq_nil_of (writes_lanceParts a) (chars " AND ")]
  cases hj : join (chars " AND ") (lanceParts a) with
  | nil => exact ⟨fun _ => rfl, fun _ => by rw [lanceBuildFilter, hj]; rfl⟩
  | cons c cs =>
    refine ⟨fun h => ?_, fun h => nomatch h⟩
    rw [lanceBuildFilter, hj] at h
    exact nomatch h

lemma read_lanceFile (source_id file_path : Text) :
    read sql sqlAtom (lanceFile source_id file_path) =
      conjunction [.eq (chars "source_id") source_id, .eq (chars "file_path") file_path] := by
  have hwrites : List.Forall₂ (Writes sql sqlAtom)
      [chars "source_id = " ++ quoted source_id, chars "file_path = " ++ quoted file_path]
      [.eq (chars "source_id") source_id, .eq (chars "file_path") file_path] :=
    .cons (writes_eq rfl source_id) (.cons (writes_eq rfl file_path) .nil)
  have hjoin := read_lance hwrites (List.cons_ne_nil _ _)
  rw [join, List.flatMap_cons, List.flatMap_nil, List.append_nil] at hjoin
  exact hjoin

lemma writes_milvusSource {params : Params} (source_id : Text) :
    Writes milvus (milvusAtom params) (milvusSource source_id)
      (.eq (chars "source_id") source_id) := by
  have hscan : scan milvus .start (chars "source_id == ") =
    ([.word (chars "source_id"), .sym '=', .sym '='], .start) := rfl
  exact .bare (.after hscan (spells_escaped source_id)) ⟨fun _ => rfl, _, _, rfl⟩

lemma read_milvusFile (source_id file_path : Text) :
    read milvus (milvusAtom (milvusFile source_id file_path).2) (milvusFile source_id file_path).1 =
      conjunction [.eq (chars "source_id") source_id, .eq (chars "file_path") file_path] := by
  have hsource : (milvusFile source_id file_path).2.lookup (chars "f_source_id") =
      some (.one source_id) := rfl
  have hfile : (milvusFile source_id file_path).2.lookup (chars "f_file_path") =
      some (.one file_path) := rfl
  have hwrites : List.Forall₂ (Writes milvus (milvusAtom (milvusFile source_id file_path).2))
      [chars "source_id == {f_source_id}", chars "file_path == {f_file_path}"]
      [.eq (chars "source_id") source_id, .eq (chars "file_path") file_path] :=
    .cons (.bare (.of_start rfl) (reads_bound hsource (chars "source_id")))
      (.cons (.bare (.of_start rfl) (reads_bound hfile (chars "file_path"))) .nil)
  have hjoin : join (chars " and ")
      [chars "source_id == {f_source_id}", chars "file_path == {f_file_path}"] =
    (milvusFile source_id file_path).1 := rfl
  rw [← hjoin]
  exact read_milvus hwrites (List.cons_ne_nil _ _)

lemma writes_milvusDeleteSource (source_id : Text) :
    Writes milvus (milvusAtom (milvusDeleteSource source_id).2) (milvusDeleteSource source_id).1
      (.eq (chars "source_id") source_id) := by
  have hvalue : (milvusDeleteSource source_id).2.lookup (chars "f_value") =
      some (.one source_id) := rfl
  have hscan : scan milvus .start (chars "source_id == {f_value}") =
    ([.word (chars "source_id"), .sym '=', .sym '=', .sym '{', .word (chars "f_value"),
      .sym '}'], .start) := rfl
  exact .bare (.of_start hscan) (reads_bound hvalue (chars "source_id"))

/-- Every predicate is read as the conjunction of the comparisons it is to make, the values of the
caller as they are; the exclusion of a search is one of its conjuncts. -/
theorem predicates_say_comparisons :
    (∀ a, (lanceBuildFilter a = none ↔ comparisons a = []) ∧
      lanceReads a = conjunction (comparisons a)) ∧
    (∀ a, ((milvusBuildFilter a).1 = [] ↔ comparisons a = []) ∧
      milvusReads a = conjunction (comparisons a)) ∧
    (∀ a, a.excludeSourceIds ≠ [] → ∃ e, lanceReads a = some e ∧ milvusReads a = some e ∧
      .atom (.notIn (chars "source_id") a.excludeSourceIds) ∈ e.conjuncts) ∧
    (∀ source_id file_path, read sql sqlAtom (lanceFile source_id file_path) =
        conjunction [.eq (chars "source_id") source_id, .eq (chars "file_path") file_path] ∧
      read milvus (milvusAtom (milvusFile source_id file_path).2)
        (milvusFile source_id file_path).1 =
        conjunction [.eq (chars "source_id") source_id, .eq (chars "file_path") file_path]) ∧
    (∀ source_id, read sql sqlAtom (lanceSource source_id) =
        some (.atom (.eq (chars "source_id") source_id)) ∧
      read milvus (milvusAtom []) (milvusSource source_id) =
        some (.atom (.eq (chars "source_id") source_id)) ∧
      read milvus (milvusAtom (milvusDeleteSource source_id).2)
        (milvusDeleteSource source_id).1 = some (.atom (.eq (chars "source_id") source_id))) ∧
    (∀ ids, ids ≠ [] →
      read sql sqlAtom (lanceIds ids) = some (.atom (.isIn (chars "id") ids))) ∧
    ∀ loc source_id exclude, read milvus (milvusAtom (milvusBodies loc source_id exclude).2)
      (milvusBodies loc source_id exclude).1 =
        conjunction (bodyComparisons loc source_id exclude) := by
  refine ⟨fun a => ⟨lanceBuildFilter_eq_none, lanceReads_eq a⟩, fun a => ⟨?_, milvusReads_eq a⟩,
    fun a hne => ?_, fun sid path => ⟨read_lanceFile sid path, read_milvusFile sid path⟩,
    fun sid => ⟨?_, ?_, ?_⟩, fun ids hne => read_lance_one (writes_in hne), read_milvusBodies⟩
  · exact comparisons_eq_nil_of (writes_milvusParts a) (chars " and ")
  · obtain ⟨e, he, hmem⟩ := notIn_mem_conjuncts hne
    exact ⟨e, (lanceReads_eq a).trans he, (milvusReads_eq a).trans he, hmem⟩
  · exact read_lance_one (writes_eq rfl sid)
  · exact read_milvus_one (writes_milvusSource sid)
  · exact read_milvus_one (writes_milvusDeleteSource sid)

/-- A prefix that would close its literal and go on as another condition. -/
theorem injected_prefix_excluded :
    ∃ e, lanceReads ⟨none, some (chars "%\" or source_id == \"b"), none, [chars "b'"]⟩ = some e ∧
      milvusReads ⟨none, some (chars "%\" or source_id == \"b"), none, [chars "b'"]⟩ = some e ∧
      .atom (.notIn (chars "source_id") [chars "b'"]) ∈ e.conjuncts :=
  predicates_say_comparisons.2.2.1
    ⟨none, some (chars "%\" or source_id == \"b"), none, [chars "b'"]⟩ (List.cons_ne_nil _ _)

end Treeweft.FilterText
