import Treeweft.Extract

/-!
The graph of a file against its syntax tree.

A definition is known by its kind and its simple name, so that of the functions of one name only the
last that was captured is a caller. A call is attributed by its line alone.
-/

namespace Treeweft.SyntaxGraph

open Treeweft.Indexer Treeweft.Extract Treeweft.Paths

/-- What a node is to the queries; a call is the identifier that is called. -/
inductive Label
  | cls (name : String) (bases : List String)
  | func (name signature : String)
  | call (name : String)
  | other
deriving DecidableEq

inductive Tree
  | node (label : Label) (startLine endLine : ℕ) (children : List Tree)

structure Node where
  label : Label
  startLine : ℕ
  endLine : ℕ
deriving DecidableEq

mutual

/-- The nodes of a tree, a parent before its children. -/
def Tree.nodes : Tree → List Node
  | .node label s e children => ⟨label, s, e⟩ :: nodesOf children

def nodesOf : List Tree → List Node
  | [] => []
  | t :: ts => t.nodes ++ nodesOf ts

end

mutual

/-- Every node lies in its parent, and the root between two lines. -/
def Tree.Nested : ℕ → ℕ → Tree → Prop
  | lo, hi, .node _ s e children => lo ≤ s ∧ s ≤ e ∧ e ≤ hi ∧ NestedAll s e children

def NestedAll : ℕ → ℕ → List Tree → Prop
  | _, _, [] => True
  | lo, hi, t :: ts => t.Nested lo hi ∧ NestedAll lo hi ts

end

mutual

def Tree.subtrees : Tree → List Tree
  | .node label s e children => .node label s e children :: subtreesOf children

def subtreesOf : List Tree → List Tree
  | [] => []
  | t :: ts => t.subtrees ++ subtreesOf ts

end

def Node.classDef? : Node → Option ClassDef
  | ⟨.cls name bases, s, e⟩ => some ⟨name, s, e, bases⟩
  | _ => none

def Node.funcDef? : Node → Option FuncDef
  | ⟨.func name signature, s, e⟩ => some ⟨name, s, e, signature⟩
  | _ => none

def Node.call? : Node → Option (ℕ × String)
  | ⟨.call name, s, _⟩ => some (s, name)
  | _ => none

def Tree.classes (t : Tree) : List ClassDef := t.nodes.filterMap Node.classDef?

def Tree.funcs (t : Tree) : List FuncDef := t.nodes.filterMap Node.funcDef?

def Tree.calls (t : Tree) : List (ℕ × String) := t.nodes.filterMap Node.call?

/-- A tree, and what the queries return for it: each node they match once, in some order. -/
structure Parsed where
  tree : Tree
  captures : Captures
  nested : ∃ lo hi, tree.Nested lo hi
  classes : captures.classes.Perm tree.classes
  funcs : captures.funcs.Perm tree.funcs
  calls : captures.calls.Perm tree.calls

/-! ### Nodes in their parents -/

mutual

lemma Tree.Nested.mem_nodes {lo hi : ℕ} : ∀ {t : Tree}, t.Nested lo hi →
    ∀ n ∈ t.nodes, lo ≤ n.startLine ∧ n.startLine ≤ n.endLine ∧ n.endLine ≤ hi
  | .node label s e children, h, n, hn => by
    rw [Tree.Nested] at h
    rw [Tree.nodes] at hn
    obtain ⟨h1, h2, h3, hall⟩ := h
    obtain rfl | hn := List.mem_cons.mp hn
    · exact ⟨h1, h2, h3⟩
    · obtain ⟨h4, h5, h6⟩ := mem_nodesOf hall n hn
      exact ⟨h1.trans h4, h5, h6.trans h3⟩

lemma mem_nodesOf {lo hi : ℕ} : ∀ {ts : List Tree}, NestedAll lo hi ts →
    ∀ n ∈ nodesOf ts, lo ≤ n.startLine ∧ n.startLine ≤ n.endLine ∧ n.endLine ≤ hi
  | [], _, n, hn => by
    rw [nodesOf] at hn
    exact absurd hn List.not_mem_nil
  | t :: ts, h, n, hn => by
    rw [NestedAll] at h
    rw [nodesOf] at hn
    obtain hn | hn := List.mem_append.mp hn
    · exact h.1.mem_nodes n hn
    · exact mem_nodesOf h.2 n hn

end

mutual

lemma Tree.Nested.subtree {lo hi : ℕ} : ∀ {t : Tree}, t.Nested lo hi →
    ∀ u ∈ t.subtrees, (∃ lo hi, u.Nested lo hi) ∧ ∀ n ∈ u.nodes, n ∈ t.nodes
  | .node label s e children, h, u, hu => by
    rw [Tree.subtrees] at hu
    obtain rfl | hu := List.mem_cons.mp hu
    · exact ⟨⟨lo, hi, h⟩, fun _ hn => hn⟩
    · rw [Tree.Nested] at h
      obtain ⟨hu, hsub⟩ := mem_subtreesOf h.2.2.2 u hu
      refine ⟨hu, fun n hn => ?_⟩
      rw [Tree.nodes]
      exact List.mem_cons_of_mem _ (hsub n hn)

lemma mem_subtreesOf {lo hi : ℕ} : ∀ {ts : List Tree}, NestedAll lo hi ts →
    ∀ u ∈ subtreesOf ts, (∃ lo hi, u.Nested lo hi) ∧ ∀ n ∈ u.nodes, n ∈ nodesOf ts
  | [], _, u, hu => by
    rw [subtreesOf] at hu
    exact absurd hu List.not_mem_nil
  | t :: ts, h, u, hu => by
    rw [NestedAll] at h
    rw [subtreesOf] at hu
    rw [nodesOf]
    obtain hu | hu := List.mem_append.mp hu
    · obtain ⟨hu, hsub⟩ := h.1.subtree u hu
      exact ⟨hu, fun n hn => List.mem_append_left _ (hsub n hn)⟩
    · obtain ⟨hu, hsub⟩ := mem_subtreesOf h.2 u hu
      exact ⟨hu, fun n hn => List.mem_append_right _ (hsub n hn)⟩

end

/-- The calls that are written in some nodes. -/
def callsIn (ts : List Tree) : List (ℕ × String) := (nodesOf ts).filterMap Node.call?

/-- A call in the body of a function is on one of its lines. -/
lemma Parsed.body (f : Parsed) {name signature : String} {s e : ℕ} {children : List Tree}
    (hu : .node (.func name signature) s e children ∈ f.tree.subtrees) :
    ⟨name, s, e, signature⟩ ∈ f.tree.funcs ∧
      ∀ c ∈ callsIn children, c ∈ f.tree.calls ∧ s ≤ c.1 ∧ c.1 ≤ e := by
  obtain ⟨lo, hi, hnested⟩ := f.nested
  obtain ⟨⟨lo', hi', hu⟩, hsub⟩ := hnested.subtree _ hu
  rw [Tree.nodes] at hsub
  rw [Tree.Nested] at hu
  refine ⟨List.mem_filterMap.mpr ⟨_, hsub _ List.mem_cons_self, rfl⟩, fun c hc => ?_⟩
  obtain ⟨n, hn, hc⟩ := List.mem_filterMap.mp hc
  refine ⟨List.mem_filterMap.mpr ⟨n, hsub n (List.mem_cons_of_mem _ hn), hc⟩, ?_⟩
  obtain ⟨h1, h2, h3⟩ := mem_nodesOf hu.2.2.2 n hn
  obtain ⟨label, ns, ne⟩ := n
  cases label with
  | call callee =>
    obtain rfl := Option.some.inj hc
    exact ⟨h1, h2.trans h3⟩
  | _ => exact absurd hc nofun

/-! ### Callers -/

section Survivors
variable {α κ : Type} {key : α → κ} [DecidableEq κ]

lemma mem_foldl_put {xs : List α} {t : Keyed key} {a : α}
    (h : a ∈ xs.foldl (fun t x => t.put x) t) : a ∈ t ∨ a ∈ xs := by
  induction xs generalizing t with
  | nil => exact .inl h
  | cons x xs ih =>
    obtain h | h := ih h
    · obtain rfl | ⟨h, -⟩ := Keyed.mem_put.mp h
      exacts [.inr List.mem_cons_self, .inl h]
    · exact .inr (List.mem_cons_of_mem _ h)

lemma key_foldl_put {xs : List α} {t : Keyed key} {k : κ} :
    (∃ a ∈ xs.foldl (fun t x => t.put x) t, key a = k) ↔
      (∃ a ∈ t, key a = k) ∨ ∃ a ∈ xs, key a = k := by
  induction xs generalizing t with
  | nil => simp
  | cons x xs ih =>
    rw [List.foldl_cons, ih]
    simp only [Keyed.mem_put, List.mem_cons]
    constructor
    · rintro (⟨a, rfl | ⟨ha, -⟩, hk⟩ | ⟨a, ha, hk⟩)
      exacts [.inr ⟨a, .inl rfl, hk⟩, .inl ⟨a, ha, hk⟩, .inr ⟨a, .inr ha, hk⟩]
    · rintro (⟨a, ha, hk⟩ | ⟨a, rfl | ha, hk⟩)
      · by_cases hx : key a = key x
        · exact .inl ⟨x, .inl rfl, hx.symm.trans hk⟩
        · exact .inl ⟨a, .inr ⟨ha, hx⟩, hk⟩
      · exact .inl ⟨a, .inl rfl, hk⟩
      · exact .inr ⟨a, ha, hk⟩

end Survivors

/-- The last captured function of every name. -/
def Parsed.survivors (f : Parsed) : Keyed FuncDef.name :=
  f.captures.funcs.foldl (fun d x => d.put x) Keyed.empty

lemma Parsed.mem_funcs_of_survivors (f : Parsed) {d : FuncDef} (h : d ∈ f.survivors) :
    d ∈ f.tree.funcs :=
  f.funcs.mem_iff.mp ((mem_foldl_put h).resolve_left Keyed.not_mem_empty)

lemma Parsed.survivors_name (f : Parsed) {name : String} :
    (∃ d ∈ f.survivors, d.name = name) ↔ ∃ d ∈ f.tree.funcs, d.name = name := by
  rw [survivors, key_foldl_put]
  constructor
  · rintro (⟨a, ha, -⟩ | ⟨a, ha, hk⟩)
    exacts [absurd ha Keyed.not_mem_empty, ⟨a, f.funcs.mem_iff.mp ha, hk⟩]
  · rintro ⟨a, ha, hk⟩
    exact .inr ⟨a, f.funcs.mem_iff.mpr ha, hk⟩

/-- The lines of a definition. -/
def Spans (d : FuncDef) (line : ℕ) : Prop := d.startLine ≤ line ∧ line ≤ d.endLine

lemma findEnclosingFunc_spec {line : ℕ} {fs : List FuncDef} :
    (∀ d, findEnclosingFunc line fs = some d → d ∈ fs ∧ Spans d line) ∧
      (∀ d ∈ fs, Spans d line → ∃ e, findEnclosingFunc line fs = some e) := by
  constructor
  · intro d h
    exact ⟨(List.mem_insertionSort _).mp (List.mem_of_find?_eq_some h),
      by simpa [Spans] using List.find?_some h⟩
  · intro d hd hs
    refine Option.isSome_iff_exists.mp (List.find?_isSome.mpr ⟨d, ?_, by simpa [Spans] using hs⟩)
    exact (List.mem_insertionSort _).mpr hd

/-- A call relation is that of a call, from a survivor on its line to a function of the file. -/
lemma Parsed.mem_calls (f : Parsed) (tools : Tools) (p : FilePath) (source lang : String)
    {r : Relationship} :
    (r ∈ (graphOf tools p source lang f.captures).2 ∧ r.type = .calls) ↔
      ∃ c ∈ f.tree.calls, ∃ d, findEnclosingFunc c.1 f.survivors.rows = some d ∧
        (∃ callee ∈ f.tree.funcs, callee.name = c.2) ∧
          r = ⟨.func p d.name, .func p c.2, .calls⟩ := by
  rw [graphOf]
  dsimp only
  constructor
  · rintro ⟨h, ht⟩
    obtain h | h := List.mem_append.mp h
    · obtain h | h := List.mem_append.mp h
      · obtain h | h := List.mem_append.mp h
        · obtain h | h := List.mem_append.mp h <;>
          · obtain ⟨_, -, rfl⟩ := List.mem_map.mp h
            cases ht
        · obtain ⟨_, -, rfl⟩ := List.mem_map.mp h
          cases ht
      · split at h
        · exact absurd h List.not_mem_nil
        · obtain ⟨c, hc, h⟩ := List.mem_filterMap.mp h
          split at h
          · rename_i d e hd hget
            obtain ⟨he, hk⟩ := Keyed.get?_eq_some.mp hget
            refine ⟨c, f.calls.mem_iff.mp hc, d, hd, f.survivors_name.mp ⟨e, he, hk⟩, ?_⟩
            rw [← hk]
            exact (Option.some.inj h).symm
          · cases h
    · obtain ⟨_, -, h⟩ := List.mem_flatMap.mp h
      obtain ⟨_, -, rfl⟩ := List.mem_map.mp h
      cases ht
  · rintro ⟨c, hc, d, hd, hcallee, rfl⟩
    have hrows : f.survivors.rows ≠ [] := List.ne_nil_of_mem (findEnclosingFunc_spec.1 d hd).1
    refine ⟨List.mem_append_left _ (List.mem_append_right _ ?_), rfl⟩
    obtain ⟨e, he, hk⟩ := f.survivors_name.mpr hcallee
    split
    case isTrue hnil => exact absurd hnil hrows
    case isFalse =>
      refine List.mem_filterMap.mpr ⟨c, f.calls.mem_iff.mpr hc, ?_⟩
      rw [survivors] at hd he
      rw [hd, ← hk, Keyed.get?_of_mem he]

/-! ### Definitions -/

/-- A class or a function of a file. -/
inductive Def
  | cls (d : ClassDef)
  | func (d : FuncDef)
deriving DecidableEq

def Def.entity (p : FilePath) (lang : String) : Def → Entity
  | cls d => classEntity p lang d
  | func d => funcEntity p lang d

def Def.name : Def → String
  | cls d => d.name
  | func d => d.name

/-- Of one kind. -/
def Def.SameKind : Def → Def → Prop
  | cls _, cls _ => True
  | func _, func _ => True
  | _, _ => False

def Tree.defs (t : Tree) : List Def := t.classes.map Def.cls ++ t.funcs.map Def.func

lemma mem_entities (f : Parsed) (tools : Tools) (p : FilePath) (source lang : String) {d : Def}
    (h : d ∈ f.tree.defs) : d.entity p lang ∈ (graphOf tools p source lang f.captures).1 := by
  rw [graphOf]
  refine List.mem_cons_of_mem _ (List.mem_append.mpr ?_)
  obtain h | h := List.mem_append.mp h
  · obtain ⟨c, hc, rfl⟩ := List.mem_map.mp h
    exact .inl (List.mem_map_of_mem (f.classes.mem_iff.mpr hc))
  · obtain ⟨c, hc, rfl⟩ := List.mem_map.mp h
    exact .inr (List.mem_map_of_mem (f.funcs.mem_iff.mpr hc))

/-- An entity is known by the kind and the simple name of its definition. -/
lemma id_eq_iff (p : FilePath) (lang : String) (d d' : Def) :
    (d.entity p lang).id = (d'.entity p lang).id ↔ d.SameKind d' ∧ d.name = d'.name := by
  cases d <;> cases d'
  case cls.cls => simp [Def.entity, classEntity, Def.SameKind, Def.name]
  case func.func => simp [Def.entity, funcEntity, Def.SameKind, Def.name]
  case cls.func => simp [Def.entity, classEntity, funcEntity, Def.SameKind]
  case func.cls => simp [Def.entity, classEntity, funcEntity, Def.SameKind]

/-- **Extraction.** Every definition has the entity of its kind and name. A call to a function of
the file is attributed to a survivor on its line if there is one, to the function it is written in
if that is the only one, and no other call is. -/
theorem extraction (f : Parsed) (tools : Tools) (p : FilePath) (source lang : String) :
    (∀ d ∈ f.tree.defs, d.entity p lang ∈ (graphOf tools p source lang f.captures).1) ∧
    (∀ d ∈ f.tree.defs, ∀ d' ∈ f.tree.defs,
      (d.entity p lang).id = (d'.entity p lang).id ↔ d.SameKind d' ∧ d.name = d'.name) ∧
    (∀ c ∈ f.tree.calls, (∃ callee ∈ f.tree.funcs, callee.name = c.2) →
      (∃ d ∈ f.survivors, Spans d c.1) →
        ∃ d ∈ f.survivors, Spans d c.1 ∧
          ⟨.func p d.name, .func p c.2, .calls⟩ ∈ (graphOf tools p source lang f.captures).2) ∧
    (∀ r ∈ (graphOf tools p source lang f.captures).2, r.type = .calls →
      ∃ c ∈ f.tree.calls, (∃ callee ∈ f.tree.funcs, callee.name = c.2) ∧
        ∃ d ∈ f.survivors, Spans d c.1 ∧ r = ⟨.func p d.name, .func p c.2, .calls⟩) ∧
    ∀ name signature s e children,
      .node (.func name signature) s e children ∈ f.tree.subtrees →
      ⟨name, s, e, signature⟩ ∈ f.survivors →
      ∀ c ∈ callsIn children, (∃ callee ∈ f.tree.funcs, callee.name = c.2) →
        (∀ d ∈ f.survivors, Spans d c.1 → d = ⟨name, s, e, signature⟩) →
          ⟨.func p name, .func p c.2, .calls⟩ ∈ (graphOf tools p source lang f.captures).2 := by
  have hemit : ∀ c ∈ f.tree.calls, (∃ callee ∈ f.tree.funcs, callee.name = c.2) →
      (∃ d ∈ f.survivors, Spans d c.1) →
        ∃ d ∈ f.survivors, Spans d c.1 ∧
          ⟨.func p d.name, .func p c.2, .calls⟩ ∈
            (graphOf tools p source lang f.captures).2 := by
    rintro c hc hcallee ⟨d, hd, hs⟩
    obtain ⟨e, he⟩ := findEnclosingFunc_spec.2 d hd hs
    obtain ⟨hmem, hspan⟩ := findEnclosingFunc_spec.1 e he
    exact ⟨e, hmem, hspan,
      ((f.mem_calls tools p source lang).mpr ⟨c, hc, e, he, hcallee, rfl⟩).1⟩
  refine ⟨fun d hd => mem_entities f tools p source lang hd,
    fun d _ d' _ => id_eq_iff p lang d d', hemit, fun r hr ht => ?_, ?_⟩
  · obtain ⟨c, hc, d, hd, hcallee, rfl⟩ := (f.mem_calls tools p source lang).mp ⟨hr, ht⟩
    obtain ⟨hmem, hspan⟩ := findEnclosingFunc_spec.1 d hd
    exact ⟨c, hc, hcallee, d, hmem, hspan, rfl⟩
  · intro name signature s e children hu hsurv c hc hcallee honly
    obtain ⟨-, hbody⟩ := f.body hu
    obtain ⟨hcalls, hspan⟩ := hbody c hc
    obtain ⟨d, hd, hs, hr⟩ := hemit c hcalls hcallee ⟨_, hsurv, hspan⟩
    rwa [honly d hd hs] at hr

/-! ### Two methods of one name -/

/-- Two classes, each with a method `run`. -/
def twoMethods : Tree :=
  .node .other 1 6
    [.node (.cls "A" []) 1 3 [.node (.func "run" "def run(self):") 2 3 []],
     .node (.cls "B" []) 4 6 [.node (.func "run" "def run(self):") 5 6 []]]

/-- Definitions of one kind and name are one entity, wherever they stand. -/
theorem methods_conflated :
    ∃ d ∈ twoMethods.defs, ∃ d' ∈ twoMethods.defs, d ≠ d' ∧
      ∀ p lang, (d.entity p lang).id = (d'.entity p lang).id :=
  ⟨.func ⟨"run", 2, 3, "def run(self):"⟩, by decide +kernel,
    .func ⟨"run", 5, 6, "def run(self):"⟩, by decide +kernel, by decide, fun _ _ => rfl⟩

end Treeweft.SyntaxGraph
