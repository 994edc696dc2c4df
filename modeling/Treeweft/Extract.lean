import Treeweft.Indexer

/-!
The graph of one file.

An identifier is a scheme, the path the file was read under, and for a definition its name.
Because the path is part of it, the same file read under two paths has two disjoint graphs.
-/

namespace Treeweft.Extract

open Treeweft.Paths Treeweft.Indexer

/-- `module://path`, `class://path#name` and `func://path#name`. -/
inductive EntityId
  | module (path : FilePath)
  | cls (path : FilePath) (name : String)
  | func (path : FilePath) (name : String)
  deriving DecidableEq, Repr

def EntityId.path : EntityId → FilePath
  | module p => p
  | cls p _ => p
  | func p _ => p

inductive EntityType
  | module | cls | function | externalModule
  deriving DecidableEq, Repr

inductive RelType
  | defines | imports | calls | inherits
  deriving DecidableEq, Repr

structure Entity where
  id : EntityId
  type : EntityType
  name : String
  filePath : FilePath
  startLine : ℕ
  endLine : ℕ
  signature : String
  language : String
  deriving DecidableEq, Repr

structure Relationship where
  sourceId : EntityId
  targetId : EntityId
  type : RelType
  deriving DecidableEq, Repr

def detectGraphLanguage (p : FilePath) : Option String := languageMap (suffix p.name)

/-- The languages `LANGUAGE_QUERIES` has an entry for. -/
def hasQueries (lang : String) : Bool :=
  lang ∈ ["python", "javascript", "typescript", "go", "java", "csharp", "tsx", "rust", "ruby",
    "php", "kotlin", "scala", "swift", "c", "cpp"]

def lineCount (source : String) : ℕ := source.toList.count '\n' + 1

def moduleEntity (p : FilePath) (source lang : String) : Entity :=
  ⟨.module p, .module, p.str, p, 1, lineCount source, "", lang⟩

def fallbackModuleEntity (p : FilePath) (source : String) : List Entity × List Relationship :=
  ([moduleEntity p source ((detectGraphLanguage p).getD "")], [])

def classEntity (p : FilePath) (lang : String) (c : ClassDef) : Entity :=
  ⟨.cls p c.name, .cls, c.name, p, c.startLine, c.endLine,
    if c.bases = [] then "class " ++ c.name
    else "class " ++ c.name ++ "(" ++ ", ".intercalate c.bases ++ ")", lang⟩

def funcEntity (p : FilePath) (lang : String) (f : FuncDef) : Entity :=
  ⟨.func p f.name, .function, f.name, p, f.startLine, f.endLine, f.signature, lang⟩

/-- The function a line is in: the one that ends last among those that span it. -/
def findEnclosingFunc (line : ℕ) (fs : List FuncDef) : Option FuncDef :=
  (fs.insertionSort fun a b => b.endLine ≤ a.endLine).find? fun f =>
    f.startLine ≤ line ∧ line ≤ f.endLine

variable (tools : Tools)

/-- The entities and relationships of a file whose queries returned `cap`. -/
def graphOf (p : FilePath) (source lang : String) (cap : Captures) :
    List Entity × List Relationship :=
  -- a later definition of a name takes the entry of an earlier one
  let funcEntities : Keyed FuncDef.name := cap.funcs.foldl (fun d f => d.put f) Keyed.empty
  let classParents : Keyed ClassDef.name := cap.classes.foldl (fun d c => d.put c) Keyed.empty
  let entities := moduleEntity p source lang ::
    (cap.classes.map (classEntity p lang) ++ cap.funcs.map (funcEntity p lang))
  let defines := cap.classes.map (fun c => ⟨.module p, .cls p c.name, .defines⟩) ++
    cap.funcs.map fun f => ⟨.module p, .func p f.name, .defines⟩
  let imports := cap.imports.map fun m =>
    ⟨.module p, .module (tools.resolveImport m p), .imports⟩
  let calls := if funcEntities.rows = [] then [] else cap.calls.filterMap fun (line, name) =>
    match findEnclosingFunc line funcEntities.rows, funcEntities.get? name with
    | some caller, some callee => some ⟨.func p caller.name, .func p callee.name, .calls⟩
    | _, _ => none
  let inherits := classParents.rows.flatMap fun c =>
    c.bases.map fun b => ⟨.cls p c.name, .cls p b, .inherits⟩
  (entities, defines ++ imports ++ calls ++ inherits)

def extractGraph (p : FilePath) (source : String) : List Entity × List Relationship :=
  match detectGraphLanguage p with
  | none => fallbackModuleEntity p source
  | some lang =>
    if hasQueries lang then
      match tools.captures lang source with
      | none => fallbackModuleEntity p source
      | some cap => graphOf tools p source lang cap
    else fallbackModuleEntity p source

/-- An entity whose identifier is built from the path it is stored under. -/
def Entity.KeyedBy (p : FilePath) (e : Entity) : Prop := e.filePath = p ∧ e.id.path = p

lemma graphOf_keyedBy {p : FilePath} {source lang : String} {cap : Captures} {e : Entity}
    (h : e ∈ (graphOf tools p source lang cap).1) : e.KeyedBy p := by
  simp only [graphOf, List.mem_cons, List.mem_append, List.mem_map] at h
  rcases h with rfl | ⟨c, -, rfl⟩ | ⟨f, -, rfl⟩ <;> exact ⟨rfl, rfl⟩

/-- Every entity of a file carries the path the file was read under, in its column and in its
identifier. -/
lemma extractGraph_keyedBy {p : FilePath} {source : String} {e : Entity}
    (h : e ∈ (extractGraph tools p source).1) : e.KeyedBy p := by
  have hf : ∀ {e : Entity}, e ∈ (fallbackModuleEntity p source).1 → e.KeyedBy p := by
    intro e he
    rw [fallbackModuleEntity, List.mem_singleton] at he
    subst he
    exact ⟨rfl, rfl⟩
  unfold extractGraph at h
  split at h
  · exact hf h
  · split at h
    · split at h
      · exact hf h
      · exact graphOf_keyedBy tools h
    · exact hf h

/-- No file has an empty graph: its module is always there. -/
lemma extractGraph_module (p : FilePath) (source : String) :
    ∃ e ∈ (extractGraph tools p source).1, e.id = .module p := by
  unfold extractGraph
  split
  · exact ⟨_, List.mem_singleton_self _, rfl⟩
  · split
    · split
      · exact ⟨_, List.mem_singleton_self _, rfl⟩
      · exact ⟨_, List.mem_cons_self, rfl⟩
    · exact ⟨_, List.mem_singleton_self _, rfl⟩

end Treeweft.Extract
