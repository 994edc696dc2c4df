import Treeweft.Keyed
import Treeweft.Paths
import Mathlib.Data.List.Sort

/-!
What one source file turns into: chunks for the vector store, entities and relationships for
the graph store.

The chunker and the tree-sitter queries are packages of their own and stand here as a
parameter, `Tools`. Everything the repository does around them is written out: the language
table, the line numbers, the fallback splitter, the identifiers of the graph.
-/

namespace Treeweft.Indexer

open Treeweft.Paths

def languageMap : String → Option String
  | ".py" => some "python"
  | ".js" => some "javascript"
  | ".ts" => some "typescript"
  | ".tsx" => some "tsx"
  | ".rs" => some "rust"
  | ".go" => some "go"
  | ".java" => some "java"
  | ".cpp" => some "cpp"
  | ".c" => some "c"
  | ".h" => some "cpp"
  | ".hpp" => some "cpp"
  | ".rb" => some "ruby"
  | ".php" => some "php"
  | ".swift" => some "swift"
  | ".kt" => some "kotlin"
  | ".scala" => some "scala"
  | ".sql" => some "sql"
  | ".sh" => some "bash"
  | ".yaml" => some "yaml"
  | ".yml" => some "yaml"
  | ".json" => some "json"
  | ".cs" => some "csharp"
  | ".jsx" => some "javascript"
  | ".html" => some "html"
  | ".css" => some "css"
  | _ => none

def markdownMap : String → Option String
  | ".md" => some "markdown"
  | ".markdown" => some "markdown"
  | ".mdx" => some "markdown"
  | _ => none

def supportedExtension (ext : String) : Bool := (languageMap ext).isSome || (markdownMap ext).isSome

def detectLanguage (p : FilePath) : Option String :=
  (languageMap (suffix p.name)).orElse fun _ => markdownMap (suffix p.name)

/-! ### Chunks -/

structure Chunk where
  text : String
  filePath : FilePath
  language : String
  startLine : ℕ
  endLine : ℕ
  deriving DecidableEq, Repr

/-- What a chunker returns for one chunk: its text and its offsets in the source. -/
structure RawChunk where
  text : String
  startIndex : ℕ
  endIndex : ℕ
  deriving DecidableEq, Repr

/-- One class of a file: its name, lines and the names of its bases. -/
structure ClassDef where
  name : String
  startLine : ℕ
  endLine : ℕ
  bases : List String
  deriving DecidableEq, Repr

/-- One function of a file. -/
structure FuncDef where
  name : String
  startLine : ℕ
  endLine : ℕ
  signature : String
  deriving DecidableEq, Repr

/-- What the tree-sitter queries capture in one file; a call is the line it is on and the name
it calls. -/
structure Captures where
  classes : List ClassDef
  funcs : List FuncDef
  imports : List String
  calls : List (ℕ × String)

/-- The packages the indexer calls. `chunk` and `captures` take the language and the source and
are `none` where the call raises; `resolveImport` is `_resolve_import_path`, which asks the
file system for the working directory. -/
structure Tools where
  chunk : String → String → Option (List RawChunk)
  captures : String → String → Option Captures
  resolveImport : String → FilePath → FilePath
  fnmatch : String → String → Bool

/-- The characters `str.strip` removes. -/
def isSpace (c : Char) : Bool :=
  let n := c.toNat
  (9 ≤ n && n ≤ 13) || (28 ≤ n && n ≤ 32) || n = 0x85 || n = 0xA0 || n = 0x1680 ||
    (0x2000 ≤ n && n ≤ 0x200A) || n = 0x2028 || n = 0x2029 || n = 0x202F || n = 0x205F ||
    n = 0x3000

def rstrip (cs : List Char) : List Char := (cs.reverse.dropWhile isSpace).reverse

/-- `str.split("\n")`. -/
def splitLines : List Char → List (List Char)
  | [] => [[]]
  | '\n' :: cs => [] :: splitLines cs
  | c :: cs =>
    match splitLines cs with
    | [] => [[c]]
    | l :: ls => (c :: l) :: ls

def fallbackChunkChars : ℕ := 2048

/-- The state of the fallback splitter: chunks so far, buffer, first line of the buffer. -/
structure CharState where
  results : List Chunk
  buf : List Char
  startLine : ℕ

section CharacterChunks
variable (filePath : FilePath) (lang : String)

def flush (s : CharState) (endLine : ℕ) : List Chunk :=
  s.results ++ [⟨String.ofList (rstrip s.buf), filePath, lang, s.startLine, endLine⟩]

/-- One line: a buffer it would overfill is flushed first. -/
def charStep (s : CharState) (l : List Char × ℕ) : CharState :=
  if s.buf.length + l.1.length > fallbackChunkChars ∧ s.buf ≠ [] then
    ⟨flush filePath lang s l.2, l.1 ++ ['\n'], l.2 + 1⟩
  else { s with buf := s.buf ++ l.1 ++ ['\n'] }

/-- Split a source into chunks of a fixed number of characters, at newlines. -/
def characterChunks (source : String) : List Chunk :=
  let lines := splitLines source.toList
  let s := lines.zipIdx.foldl (charStep filePath lang) ⟨[], [], 1⟩
  if s.buf.any fun c => !isSpace c then flush filePath lang s lines.length else s.results

end CharacterChunks

/-- The line an offset is on: the newlines strictly before it, plus one. -/
def lineAt (source : String) (offset : ℕ) : ℕ := (source.toList.take offset).count '\n' + 1

variable (tools : Tools)

def parseAndChunk (filePath : FilePath) (source : String) : List Chunk :=
  match detectLanguage filePath with
  | none => []
  | some lang =>
    if source.toList.all isSpace then []
    else
      match tools.chunk lang source with
      | none => characterChunks filePath lang source
      | some raw => raw.map fun c =>
          ⟨c.text, filePath, lang, lineAt source c.startIndex, lineAt source c.endIndex⟩

/-- The same chunk, read under another path. -/
def Chunk.relocate (q : FilePath) (c : Chunk) : Chunk := { c with filePath := q }

def CharState.relocate (q : FilePath) (s : CharState) : CharState :=
  { s with results := s.results.map (Chunk.relocate q) }

lemma flush_relocate (p q : FilePath) (lang : String) (s : CharState) (n : ℕ) :
    flush q lang (s.relocate q) n = (flush p lang s n).map (Chunk.relocate q) := by
  simp [flush, CharState.relocate, Chunk.relocate]

lemma charStep_relocate (p q : FilePath) (lang : String) (s : CharState) (l : List Char × ℕ) :
    charStep q lang (s.relocate q) l = (charStep p lang s l).relocate q := by
  have hb : (s.relocate q).buf = s.buf := rfl
  unfold charStep
  rw [hb]
  split
  · rw [flush_relocate p q]
    rfl
  · rfl

lemma characterChunks_relocate (p q : FilePath) (lang source : String) :
    characterChunks q lang source = (characterChunks p lang source).map (Chunk.relocate q) := by
  have key : ∀ (ls : List (List Char × ℕ)) (s : CharState),
      ls.foldl (charStep q lang) (s.relocate q) = (ls.foldl (charStep p lang) s).relocate q := by
    intro ls
    induction ls with
    | nil => exact fun s => rfl
    | cons l ls ih =>
      intro s
      rw [List.foldl_cons, List.foldl_cons, charStep_relocate p q, ih]
  have h0 := key (splitLines source.toList).zipIdx ⟨[], [], 1⟩
  change _ = _ at h0
  simp only [characterChunks]
  rw [show (⟨[], [], 1⟩ : CharState) = (⟨[], [], 1⟩ : CharState).relocate q from rfl, h0]
  split
  · rw [if_pos (by assumption), flush_relocate p q]
    rfl
  · rw [if_neg (by assumption)]
    rfl

/-- A path enters the chunks of a file through its name alone, and as the path they carry. -/
lemma parseAndChunk_relocate {p q : FilePath} (h : p.name = q.name) (source : String) :
    parseAndChunk tools q source = (parseAndChunk tools p source).map (Chunk.relocate q) := by
  have hl : detectLanguage q = detectLanguage p := by rw [detectLanguage, detectLanguage, h]
  unfold parseAndChunk
  rw [hl]
  cases detectLanguage p with
  | none => rfl
  | some lang =>
    dsimp only
    split
    · rfl
    · cases tools.chunk lang source with
      | none => exact characterChunks_relocate p q lang source
      | some raw => simp [Chunk.relocate]

/-- Every chunk carries the path it was parsed under. -/
lemma parseAndChunk_filePath {p : FilePath} {source : String} {c : Chunk}
    (h : c ∈ parseAndChunk tools p source) : c.filePath = p := by
  rw [parseAndChunk_relocate tools (rfl : p.name = p.name)] at h
  obtain ⟨d, -, rfl⟩ := List.mem_map.1 h
  rfl

end Treeweft.Indexer
