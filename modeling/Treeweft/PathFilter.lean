import Mathlib
import Treeweft.Like

/-!
The path filter of the LanceDB, Milvus, Chroma and SQLite adapters.

Each adapter writes the prefix in the language of its target, and the target reads it back. The
first three filter chunk rows by one set of arguments; the SQLite one filters entities.
-/

namespace Treeweft.PathFilter

open Treeweft.Like

abbrev Text := List Char

structure Row where
  language : Text
  filePath : Text
  sourceId : Text
  deriving DecidableEq, Repr

structure Args where
  language : Option Text
  pathPrefix : Option Text
  sourceId : Option Text
  excludeSourceIds : List Text

/-- An empty value counts as none. -/
def given (v : Option Text) : Option Text := v.filter (· ≠ [])

/-- A clause of a filter, its operands as they are written there. -/
inductive Clause
  | language (v : Text)
  | path (pattern : Text)
  | source (v : Text)
  | notIn (vs : List Text)
  deriving DecidableEq, Repr

/-- How a target reads the operands it is handed, and how it compares patterns. -/
structure Target where
  readValue : Text → Text
  readPattern : Text → Text
  dialect : Dialect

local instance lawfulBEqText : LawfulBEq Text := inferInstance

def holds (t : Target) (row : Row) : Clause → Bool
  | .language v => row.language = t.readValue v
  | .path pattern => like t.dialect (t.readPattern pattern) row.filePath
  | .source v => row.sourceId = t.readValue v
  | .notIn vs => row.sourceId ∉ vs.map t.readValue

def passes (t : Target) (clauses : List Clause) (row : Row) : Bool := clauses.all (holds t row)

/-- `_build_filter`: the clauses in their order, `value` and `pattern` writing the operands. -/
def buildFilter (value pattern : Text → Text) (a : Args) : List Clause :=
  ((given a.language).map fun v => .language (value v)).toList ++
    ((given a.pathPrefix).map fun p => .path (pattern p ++ ['%'])).toList ++
    ((given a.sourceId).map fun v => .source (value v)).toList ++
    if a.excludeSourceIds = [] then [] else [.notIn (a.excludeSourceIds.map value)]

/-! ### LanceDB -/

/-- `value.replace("'", "''")` -/
def esc : Text → Text
  | [] => []
  | c :: cs => if c = '\'' then c :: c :: esc cs else c :: esc cs

/-- The inside of a quoted SQL string: a doubled quote is a quote. -/
def readQuoted : Text → Text
  | [] => []
  | [c] => [c]
  | c :: d :: cs => if c = '\'' ∧ d = '\'' then c :: readQuoted cs else c :: readQuoted (d :: cs)

def lanceFilter (a : Args) : List Clause := buildFilter esc esc a

/-! ### Milvus -/

/-- The backslash first, then the double quote. -/
def escapeLiteral : Text → Text
  | [] => []
  | c :: cs => if c = '\\' ∨ c = '"' then '\\' :: c :: escapeLiteral cs else c :: escapeLiteral cs

/-- The inside of a double-quoted string: a backslash takes the next character as it is. -/
def readEscaped : Text → Text
  | [] => []
  | [c] => [c]
  | c :: d :: cs => if c = '\\' then d :: readEscaped cs else c :: readEscaped (d :: cs)

/-- Values are bound as parameters; a pattern can not be. -/
def milvusFilter (a : Args) : List Clause := buildFilter id escapeLiteral a

/-! ### Chroma -/

/-- The `where` of a search: equality clauses alone. An exclusion raises. -/
def chromaWhere (a : Args) : Option (List Clause) :=
  if a.excludeSourceIds ≠ [] then none
  else
    some (((given a.sourceId).map .source).toList ++ ((given a.language).map .language).toList)

/-! ### SQLite -/

structure Entity where
  type : Option Text
  name : Option Text
  filePath : Option Text
  sources : List Text
  deriving DecidableEq, Repr

structure ListArgs where
  types : List Text
  sourceId : Option Text
  pathPrefix : Option Text
  exclude : List Text

/-- The `WHERE` of `list_entities`. -/
def listEntities (a : ListArgs) (e : Entity) : Bool :=
  (given a.sourceId).all (· ∈ e.sources) && e.type.any (· ∈ a.types) && e.name.isSome &&
    match e.filePath with
    | none => false
    | some f =>
      ((given a.pathPrefix).all fun p => like sqlite (p ++ ['%']) f) &&
        a.exclude.all fun sub => !like sqlite ('%' :: sub ++ ['%']) f

/-! ### The Four Filters -/

/-- Comparison without folding. -/
def sensitive (escape : Option Char) (h : escape ≠ some '%' ∧ escape ≠ some '_') : Dialect :=
  ⟨escape, id, h⟩

/-- The character that escapes in the patterns of LanceDB and of Milvus, if any: a backslash. -/
structure Escapes where
  lance : Option Char
  milvus : Option Char
  lance_ne : lance ≠ some '%' ∧ lance ≠ some '_'
  milvus_ne : milvus ≠ some '%' ∧ milvus ≠ some '_'

def lanceTarget (x : Escapes) : Target := ⟨readQuoted, readQuoted, sensitive x.lance x.lance_ne⟩

def milvusTarget (x : Escapes) : Target := ⟨id, readEscaped, sensitive x.milvus x.milvus_ne⟩

/-- Chroma compares values and knows no pattern. -/
lemma no_escape : (none : Option Char) ≠ some '%' ∧ (none : Option Char) ≠ some '_' := by decide

def chromaTarget : Target := ⟨id, id, sensitive none no_escape⟩

inductive Backend
  | lancedb
  | milvus
  | chroma
  deriving DecidableEq, Repr

/-- The chunk rows that a search of the backend considers. -/
def considers (x : Escapes) (b : Backend) (a : Args) (row : Row) : Bool :=
  match b with
  | .lancedb => passes (lanceTarget x) (lanceFilter a) row
  | .milvus => passes (milvusTarget x) (milvusFilter a) row
  | .chroma => (chromaWhere a).any fun clauses => passes chromaTarget clauses row

/-- A prefix is compared exactly: it keeps, of the rows that are kept without it, those whose path
starts with it. -/
def Exact (x : Escapes) (b : Backend) (p : Text) : Prop :=
  ∀ (a : Args) row, considers x b { a with pathPrefix := some p } row = true ↔
    considers x b { a with pathPrefix := none } row = true ∧ p <+: row.filePath

def ExactEntities (p : Text) : Prop :=
  ∀ (a : ListArgs) e, listEntities { a with pathPrefix := some p } e = true ↔
    listEntities { a with pathPrefix := none } e = true ∧ ∃ f, e.filePath = some f ∧ p <+: f

/-! ### What a Target Reads -/

lemma readQuoted_esc (p : Text) : readQuoted (esc p ++ ['%']) = p ++ ['%'] := by
  induction p with
  | nil => rfl
  | cons c p ih =>
    by_cases hc : c = '\''
    · simp [esc, readQuoted, hc, ih]
    · obtain ⟨d, ds, hd⟩ : ∃ d ds, esc p ++ ['%'] = d :: ds :=
        List.exists_cons_of_ne_nil (by simp)
      rw [hd] at ih
      simp [esc, hc, hd, readQuoted, ih]

lemma readEscaped_escapeLiteral (p : Text) :
    readEscaped (escapeLiteral p ++ ['%']) = p ++ ['%'] := by
  induction p with
  | nil => rfl
  | cons c p ih =>
    by_cases hc : c = '\\' ∨ c = '"'
    · simp [escapeLiteral, readEscaped, hc, ih]
    · obtain ⟨d, ds, hd⟩ : ∃ d ds, escapeLiteral p ++ ['%'] = d :: ds :=
        List.exists_cons_of_ne_nil (by simp)
      rw [hd] at ih
      have hb : c ≠ '\\' := fun h => hc (.inl h)
      rw [escapeLiteral, if_neg hc, List.cons_append, hd, readEscaped, if_neg hb, ih,
        List.cons_append]

/-! ### The Clause of the Prefix -/

section Clause
variable {t : Target} {value pattern : Text → Text}

@[simp] lemma given_none : given none = none := rfl

@[simp] lemma given_nil : given (some []) = none := rfl

@[simp] lemma given_cons (c : Char) (p : Text) : given (some (c :: p)) = some (c :: p) := rfl

/-- The other clauses are the same with and without a prefix. -/
lemma passes_buildFilter (hread : ∀ p, t.readPattern (pattern p ++ ['%']) = p ++ ['%'])
    (a : Args) (p : Text) (row : Row) :
    passes t (buildFilter value pattern { a with pathPrefix := some p }) row = true ↔
      passes t (buildFilter value pattern { a with pathPrefix := none }) row = true ∧
        like t.dialect (p ++ ['%']) row.filePath = true := by
  cases p with
  | nil => simp [buildFilter]
  | cons c p =>
    have hpath : holds t row (.path (pattern (c :: p) ++ ['%'])) =
        like t.dialect (c :: p ++ ['%']) row.filePath := by
      rw [holds, hread]
    simp only [buildFilter, given_cons, given_none, passes, List.all_append, Option.map_some,
      Option.map_none, Option.toList_some, Option.toList_none, List.all_cons, List.all_nil, hpath,
      Bool.and_eq_true, and_true]
    tauto

/-- A filter that turns the prefix into a pattern is exact where the pattern is. -/
lemma exact_buildFilter (hread : ∀ p, t.readPattern (pattern p ++ ['%']) = p ++ ['%'])
    (p : Text) :
    (∀ (a : Args) row, passes t (buildFilter value pattern { a with pathPrefix := some p }) row = true ↔
      passes t (buildFilter value pattern { a with pathPrefix := none }) row = true ∧
        p <+: row.filePath) ↔ ∀ c ∈ p, ¬Special t.dialect c := by
  rw [← startsLike_iff]
  simp only [passes_buildFilter hread]
  constructor
  · intro h s
    have hs := h ⟨none, none, none, []⟩ ⟨[], s, []⟩
    have hall :
        passes t (buildFilter value pattern ⟨none, none, none, []⟩) ⟨[], s, []⟩ = true := rfl
    simpa only [hall, true_and] using hs
  · intro h a row
    rw [h]

end Clause

lemma not_special_sensitive {escape : Option Char}
    {h : escape ≠ some '%' ∧ escape ≠ some '_'} {c : Char} :
    Special (sensitive escape h) c ↔ c = '%' ∨ c = '_' ∨ escape = some c := by
  simp only [Special, sensitive, id]
  constructor
  · rintro (h | h | h | ⟨d, hne, hd⟩)
    · exact .inl h
    · exact .inr (.inl h)
    · exact .inr (.inr h)
    · exact absurd hd hne
  · rintro (h | h | h)
    · exact .inl h
    · exact .inr (.inl h)
    · exact .inr (.inr (.inl h))

/-- SQLite tells letters apart by nothing but their case. -/
lemma special_sqlite {c : Char} : Special sqlite c ↔ c = '%' ∨ c = '_' ∨ c.isAlpha = true := by
  have hfold : (∃ d, d ≠ c ∧ d.toLower = c.toLower) ↔ c.isAlpha = true := by
    constructor
    · rintro ⟨d, hne, hd⟩
      by_contra hc
      have hcl : c.toLower = c := Char.toLower_eq_of_not_isUpper fun hu =>
        hc (Bool.or_eq_true_iff.mpr (.inl hu))
      by_cases hu : d.isUpper = true
      · have hlower := Char.isLower_toLower_eq_isAlpha d
        have halpha : d.isAlpha = true := Bool.or_eq_true_iff.mpr (.inl hu)
        rw [hd, hcl, halpha] at hlower
        exact hc (Bool.or_eq_true_iff.mpr (.inr hlower))
      · rw [Char.toLower_eq_of_not_isUpper hu, hcl] at hd
        exact hne hd
    · intro hc
      by_cases hu : c.isUpper = true
      · refine ⟨c.toLower, fun h => ?_, Char.toLower_toLower_eq_toLower c⟩
        have := Char.isUpper_toLower_eq_false c
        rw [h, hu] at this
        cases this
      · refine ⟨c.toUpper, fun h => ?_, Char.toLower_toUpper_eq_toLower c⟩
        have := Char.isUpper_toUpper_eq_isAlpha c
        rw [h, hc] at this
        exact hu this
  simp only [Special, sqlite, hfold, reduceCtorEq, false_or]

/-! ### Where Each Filter Is Exact -/

section Backends
variable {x : Escapes} {p : Text}

lemma exact_lancedb : Exact x .lancedb p ↔ ∀ c ∈ p, c ≠ '%' ∧ c ≠ '_' ∧ x.lance ≠ some c := by
  have h := @exact_buildFilter (lanceTarget x) esc _ readQuoted_esc p
  simp only [lanceTarget, not_special_sensitive, not_or] at h
  exact h

lemma exact_milvus : Exact x .milvus p ↔ ∀ c ∈ p, c ≠ '%' ∧ c ≠ '_' ∧ x.milvus ≠ some c := by
  have h := @exact_buildFilter (milvusTarget x) id _ readEscaped_escapeLiteral p
  simp only [milvusTarget, not_special_sensitive, not_or] at h
  exact h

/-- Chroma considers the same rows with and without a prefix. -/
lemma considers_chroma (a : Args) (q : Option Text) (row : Row) :
    considers x .chroma { a with pathPrefix := q } row = considers x .chroma a row := rfl

lemma exact_chroma : Exact x .chroma p ↔ p = [] := by
  constructor
  · intro h
    have hp := (h ⟨none, none, none, []⟩ ⟨[], [], []⟩).mp rfl
    exact List.prefix_nil.mp hp.2
  · rintro rfl a row
    simp [considers_chroma a (some []), considers_chroma a none]

lemma listEntities_pathPrefix (a : ListArgs) (e : Entity) :
    listEntities { a with pathPrefix := some p } e = true ↔
      listEntities { a with pathPrefix := none } e = true ∧
        ∃ f, e.filePath = some f ∧ like sqlite (p ++ ['%']) f = true := by
  cases hf : e.filePath with
  | none => simp [listEntities, hf]
  | some f =>
    cases p with
    | nil => simp [listEntities, hf]
    | cons c p =>
      simp only [listEntities, hf, given_cons, given_none, Option.all_some, Option.all_none,
        Bool.and_eq_true, Bool.true_and, Option.some.injEq, exists_eq_left']
      tauto

lemma exact_sqlite : ExactEntities p ↔ ∀ c ∈ p, c ≠ '%' ∧ c ≠ '_' ∧ c.isAlpha = false := by
  have hplain : (∀ c ∈ p, ¬Special sqlite c) ↔
      ∀ c ∈ p, c ≠ '%' ∧ c ≠ '_' ∧ c.isAlpha = false := by
    simp only [special_sqlite, not_or, Bool.not_eq_true]
  rw [← hplain, ← startsLike_iff]
  simp only [ExactEntities, listEntities_pathPrefix]
  constructor
  · intro h s
    have hs := h ⟨[[]], none, none, []⟩ ⟨some [], some [], some s, []⟩
    have hall : listEntities ⟨[[]], none, none, []⟩ ⟨some [], some [], some s, []⟩ = true := by
      simp [listEntities]
    simpa [hall] using hs
  · intro h a e
    simp only [h]

/-- Whatever the prefix, a row that starts with it is not lost, as long as nothing in it escapes. -/
lemma considers_of_startsWith {a : Args} {row : Row}
    (hp : ∀ c ∈ p, x.lance ≠ some c ∧ x.milvus ≠ some c) {b : Backend}
    (hrow : considers x b { a with pathPrefix := none } row = true) (h : p <+: row.filePath) :
    considers x b { a with pathPrefix := some p } row = true := by
  cases b with
  | lancedb =>
    exact (passes_buildFilter readQuoted_esc a p row).mpr
      ⟨hrow, like_of_startsWith (fun c hc => (hp c hc).1) h⟩
  | milvus =>
    exact (passes_buildFilter readEscaped_escapeLiteral a p row).mpr
      ⟨hrow, like_of_startsWith (fun c hc => (hp c hc).2) h⟩
  | chroma => exact hrow

lemma listEntities_of_startsWith {a : ListArgs} {e : Entity} {f : Text} (hf : e.filePath = some f)
    (hrow : listEntities { a with pathPrefix := none } e = true) (h : p <+: f) :
    listEntities { a with pathPrefix := some p } e = true :=
  (listEntities_pathPrefix a e).mpr
    ⟨hrow, f, hf, like_of_startsWith (fun c _ => by simp [sqlite]) h⟩

/-- An entity that passes starts with the prefix up to the case of its letters. -/
lemma startsWith_of_listEntities {a : ListArgs} {e : Entity} (hp : ∀ c ∈ p, c ≠ '%' ∧ c ≠ '_')
    (h : listEntities { a with pathPrefix := some p } e = true) :
    ∃ f, e.filePath = some f ∧ p.map Char.toLower <+: f.map Char.toLower := by
  obtain ⟨-, f, hf, hlike⟩ := (listEntities_pathPrefix a e).mp h
  refine ⟨f, hf, (startsLike_fold (fun c hc => ?_) f).mp hlike⟩
  exact ⟨(hp c hc).1, (hp c hc).2, by simp [sqlite]⟩

end Backends

/-- **The path filters**: on LanceDB and Milvus a prefix without pattern characters is compared
exactly, quotes and case included; on SQLite it is compared up to case, and exactly where it has
no letters. Pattern characters let more rows in and lose none. Chroma does not filter by path. -/
theorem filters_agree (x : Escapes) :
    (∀ p : Text, (∀ c ∈ p, c ≠ '%' ∧ c ≠ '_' ∧ x.lance ≠ some c) → Exact x .lancedb p) ∧
    (∀ p : Text, (∀ c ∈ p, c ≠ '%' ∧ c ≠ '_' ∧ x.milvus ≠ some c) → Exact x .milvus p) ∧
    (∀ p : Text, (∀ c ∈ p, c ≠ '%' ∧ c ≠ '_' ∧ c.isAlpha = false) → ExactEntities p) ∧
    (∀ (p : Text) (a : ListArgs) (e : Entity), (∀ c ∈ p, c ≠ '%' ∧ c ≠ '_') →
      listEntities { a with pathPrefix := some p } e = true →
        ∃ f, e.filePath = some f ∧ p.map Char.toLower <+: f.map Char.toLower) ∧
    (∀ (p : Text) (a : ListArgs) (e : Entity) (f : Text), e.filePath = some f → p <+: f →
      listEntities { a with pathPrefix := none } e = true →
        listEntities { a with pathPrefix := some p } e = true) ∧
    (∀ (p : Text) (b : Backend) (a : Args) (row : Row),
      (∀ c ∈ p, x.lance ≠ some c ∧ x.milvus ≠ some c) → p <+: row.filePath →
        considers x b { a with pathPrefix := none } row = true →
          considers x b { a with pathPrefix := some p } row = true) ∧
    (∀ (p : Option Text) (a : Args) (row : Row),
      considers x .chroma { a with pathPrefix := p } row = considers x .chroma a row) := by
  refine ⟨fun p hp => exact_lancedb.mpr hp, fun p hp => exact_milvus.mpr hp,
    fun p hp => exact_sqlite.mpr hp, fun p a e hp h => startsWith_of_listEntities hp h,
    fun p a e f hf hpre h => listEntities_of_startsWith hf h hpre,
    fun p b a row hp hpre h => considers_of_startsWith hp h hpre,
    fun p a row => considers_chroma a p row⟩

def backslashes : Escapes := ⟨some '\\', some '\\', by decide, by decide⟩

/-- The folder of the sources, on LanceDB. -/
theorem folder_exact : Exact backslashes .lancedb ['s', 'r', 'c', '/'] := by
  refine (filters_agree backslashes).1 _ fun c hc => ?_
  simp only [List.mem_cons, List.not_mem_nil, or_false] at hc
  rcases hc with rfl | rfl | rfl | rfl <;> exact ⟨by decide, by decide, by decide⟩

/-- Chroma ignores a prefix, and to Milvus a percent sign is a wildcard. -/
theorem not_all_exact :
    ¬Exact backslashes .chroma ['s', 'r', 'c', '/'] ∧ ¬Exact backslashes .milvus ['%'] := by
  constructor
  · rw [exact_chroma]
    exact List.cons_ne_nil _ _
  · rw [exact_milvus]
    exact fun h => (h '%' (by simp)).1 rfl

end Treeweft.PathFilter
