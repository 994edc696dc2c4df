import Treeweft.GraphInvariant

/-!
What a delete of one source leaves of another, in both graph stores.

An identifier does not say which source an entity is from, so two sources may own one entity. The
delete of a source asks whether another one owns it; the delete of a file does not.
-/

namespace Treeweft.SharedEntities

open Treeweft.Paths Treeweft.Extract Treeweft.GraphStore Treeweft.GraphTransaction
open Treeweft.GraphInvariant Treeweft.Connection

variable {g g' : Graph}

/-! ### The Deletes of Neo4j -/

/-- `DETACH DELETE`: the nodes with all their edges, those from a source among them. -/
def detachDelete (doomed : EntityId → Bool) (g : Graph) : Graph :=
  { g with
    entities := g.entities.filter fun e => !doomed e.id
    relationships := g.relationships.filter fun r => !(doomed r.sourceId || doomed r.targetId)
    sourceEntities := g.sourceEntities.filter fun se => !doomed se.2 }

/-- `(x)--()` -/
def hasEdge (g : Graph) (i : EntityId) : Bool :=
  (g.relationships.rows.any fun r => r.sourceId = i || r.targetId = i) ||
    g.sourceEntities.rows.any fun se => se.2 = i

/-- `_DELETE_WITH_ORPHANED_EXTERNALS`: the external modules next to the doomed are collected
first. -/
def deleteWithOrphanedExternals (doomed : EntityId → Bool) (g : Graph) : Graph :=
  let ext (x : EntityRow) : Bool :=
    x.type = some .externalModule && externalNeighbours doomed g x.id && !doomed x.id
  let g' := detachDelete doomed g
  { g' with entities := g'.entities.filter fun x => !(ext x && !hasEdge g' x.id) }

inductive Store
  | sqlite | neo4j
  deriving DecidableEq, Repr

def Store.deleteSource (sid : String) (g : Graph) : Store → Graph
  | .sqlite => GraphStore.deleteSource sid g
  | .neo4j =>
    let g' := deleteWithOrphanedExternals (exclusive g sid) g
    { g' with
      sourceEntities := g'.sourceEntities.filter fun se => se.1 ≠ sid
      sources := g'.sources.erase sid }

def Store.deleteEntitiesByFile (sid : String) (p : FilePath) (g : Graph) : Store → Graph
  | .sqlite => GraphStore.deleteEntitiesByFile sid p g
  | .neo4j => deleteWithOrphanedExternals (ofFile g sid p) g

/-! ### What They Are to Do -/

/-- Linked to this source and to no other. -/
def OnlyOf (g : Graph) (a : String) (i : EntityId) : Prop :=
  (a, i) ∈ g.sourceEntities ∧ ∀ se ∈ g.sourceEntities, se.2 = i → se.1 = a

/-- A delete that is to take the entities in `own` keeps to them: what `b` has is as it was, they
are gone, and no external module is left without a relationship and a source. -/
structure Scoped (own : EntityRow → Prop) (b : String) (g g' : Graph) : Prop where
  entities : ∀ e ∈ g.entities, linked g b e.id = true → e ∈ g'.entities
  relationships : ∀ r ∈ g.relationships, linked g b r.sourceId = true →
    linked g b r.targetId = true → r ∈ g'.relationships
  removed : ∀ e ∈ g.entities, own e → ¬Present g' e.id
  externals : ∀ e ∈ g'.entities, e.type = some .externalModule → Stray g' e.id → Stray g e.id

/-! ### What They Do -/

lemma hasEdge_eq_false {i : EntityId} : hasEdge g i = false ↔ Stray g i := by
  rw [hasEdge, Bool.or_eq_false_iff, List.any_eq_false, List.any_eq_false, Stray]
  refine and_congr (forall₂_congr fun r _ => ?_) (forall₂_congr fun se _ => ?_)
  · rw [Bool.or_eq_true, decide_eq_true_eq, decide_eq_true_eq, not_or]
  · rw [decide_eq_true_eq]

lemma mem_deleteWithOrphanedExternals {doomed : EntityId → Bool} {e : EntityRow} :
    e ∈ (deleteWithOrphanedExternals doomed g).entities ↔ (e ∈ g.entities ∧ doomed e.id = false) ∧
      ¬(externalNeighbours doomed g e.id = true ∧ e.type = some .externalModule ∧
        Stray (detachDelete doomed g) e.id) := by
  rw [deleteWithOrphanedExternals]
  refine Keyed.mem_filter.trans ?_
  rw [← hasEdge_eq_false]
  have hmem : e ∈ (detachDelete doomed g).entities ↔ e ∈ g.entities ∧ doomed e.id = false := by
    refine Keyed.mem_filter.trans (and_congr_right fun _ => ?_)
    rw [Bool.not_eq_true']
  rw [hmem]
  refine and_congr_right fun h => ?_
  rw [Bool.not_eq_true', Bool.and_eq_false_iff, Bool.and_eq_false_iff, Bool.and_eq_false_iff,
    h.2, decide_eq_false_iff_not]
  cases externalNeighbours doomed g e.id <;> cases hasEdge (detachDelete doomed g) e.id <;> simp

lemma swept_deleteWithOrphanedExternals (doomed : EntityId → Bool) (g : Graph) :
    Swept doomed g (detachDelete doomed g) (deleteWithOrphanedExternals doomed g) where
  edges := rfl
  links _ hs := hs
  old _ hs := (Keyed.mem_filter.1 hs).1
  relationships _ := mem_deleteRelationships
  entities _ := mem_deleteWithOrphanedExternals
  kept _ hs := (Bool.not_eq_true' _).mp (Keyed.mem_filter.1 hs).2
  owned se hs hd := ⟨se, Keyed.mem_filter.2 ⟨hs, (Bool.not_eq_true' _).mpr hd⟩, rfl⟩

lemma exists_swept_deleteSource (s : Store) (sid : String) (g : Graph) :
    ∃ mid, Swept (exclusive g sid) g mid (s.deleteSource sid g) := by
  cases s with
  | sqlite =>
    have h := swept_deleteSource sid g
    rw [show deleteSourceStatements sid g = statements (.deleteSource sid) g from rfl,
      deleteSource_statements] at h
    exact ⟨_, h⟩
  | neo4j =>
    have h := swept_deleteWithOrphanedExternals (exclusive g sid) g
    exact ⟨detachDelete (exclusive g sid) g, {
      edges := rfl
      links := fun se hs => (Keyed.mem_filter.1 hs).1
      old := h.old
      relationships := h.relationships
      entities := h.entities
      kept := fun se hs => h.kept se (Keyed.mem_filter.1 hs).1
      owned := fun se hs hd => by
        obtain ⟨se', hs', heq, hne⟩ := exists_other_link hs hd
        refine ⟨se', Keyed.mem_filter.2 ⟨Keyed.mem_filter.2 ⟨hs', ?_⟩, decide_eq_true hne⟩, heq⟩
        rw [heq, hd]
        rfl }⟩

lemma exists_swept_deleteEntitiesByFile (s : Store) (sid : String) (p : FilePath) (g : Graph) :
    ∃ mid, Swept (ofFile g sid p) g mid (s.deleteEntitiesByFile sid p g) := by
  cases s with
  | sqlite =>
    obtain ⟨mid, h⟩ := exists_swept_deleteByFile sid p g
    rw [show deleteByFileStatements sid p g = statements (.deleteEntitiesByFile sid p) g from rfl,
      deleteEntitiesByFile_statements] at h
    exact ⟨mid, h⟩
  | neo4j => exact ⟨_, swept_deleteWithOrphanedExternals (ofFile g sid p) g⟩

/-- A delete that dooms nothing `b` has. -/
lemma scoped_of_swept {doomed : EntityId → Bool} {mid : Graph} (hs : Swept doomed g mid g')
    {own : EntityRow → Prop} (hown : ∀ e ∈ g.entities, own e → doomed e.id = true) {b : String}
    (hb : ∀ i, linked g b i = true → doomed i = false) : Scoped own b g g' where
  entities e he hl := by
    refine (hs.entities e).2 ⟨⟨he, hb e.id hl⟩, fun h => ?_⟩
    obtain ⟨se, hse, heq⟩ := hs.owned (b, e.id) (linked_iff.1 hl) (hb e.id hl)
    exact h.2.2.2 se (hs.links se hse) heq
  relationships r hr hsource htarget :=
    (hs.relationships r).2 ⟨hr, hb _ hsource, hb _ htarget⟩
  removed e he ho := by
    rintro ⟨e', he', heq⟩
    have hd := ((hs.entities e').1 he').1.2
    rw [heq, hown e he ho] at hd
    cases hd
  externals e he ht hst := hs.stray he ht hst

lemma ofFile_iff {a : String} {p : FilePath} {i : EntityId} : ofFile g a p i = true ↔
    linked g a i = true ∧ ∃ e ∈ g.entities, e.id = i ∧ e.filePath = some p := by
  rw [ofFile, Bool.and_eq_true, List.any_eq_true]
  simp only [decide_eq_true_eq, Keyed.mem_rows]

/-- **A delete of a source keeps to it**; one of a file does exactly where no entity of the file is
owned by both. -/
theorem scoped_iff_unshared (s : Store) (g : Graph) {a b : String} (hab : a ≠ b) (p : FilePath) :
    (Scoped (fun e => OnlyOf g a e.id) b g (s.deleteSource a g) ∧
      Scoped (fun e => OnlyOf g a e.id ∧ e.filePath = some p) b g
        (s.deleteEntitiesByFile a p g)) ↔
      ∀ e ∈ g.entities, e.filePath = some p →
        ¬(linked g a e.id = true ∧ linked g b e.id = true) := by
  obtain ⟨_, hfile⟩ := exists_swept_deleteEntitiesByFile s a p g
  constructor
  · rintro ⟨-, h⟩ e he hp ⟨ha, hb⟩
    have hd := ((hfile.entities e).1 (h.entities e he hb)).1.2
    rw [ofFile_iff.2 ⟨ha, e, he, rfl, hp⟩] at hd
    cases hd
  · intro h
    obtain ⟨_, hsource⟩ := exists_swept_deleteSource s a g
    refine ⟨scoped_of_swept hsource (fun e _ ho => exclusive_iff.2 ho) fun i hb => ?_,
      scoped_of_swept hfile (fun e he ho => ofFile_iff.2 ⟨linked_iff.2 ho.1.1, e, he, rfl, ho.2⟩)
        fun i hb => ?_⟩
    · by_contra hd
      rw [Bool.not_eq_false, exclusive_iff] at hd
      exact hab (hd.2 (b, i) (linked_iff.1 hb) rfl).symm
    · by_contra hd
      rw [Bool.not_eq_false, ofFile_iff] at hd
      obtain ⟨ha, e, he, rfl, hp⟩ := hd
      exact h e he hp ⟨ha, hb⟩

/-- Two branches of a repository that both have the file. -/
def main : Entity where
  id := .func (.rel ["a.py"]) "main"
  type := .function
  name := "main"
  filePath := .rel ["a.py"]
  startLine := 1
  endLine := 2
  signature := "def main()"
  language := "python"

def branches : Graph := storeGraph [main] [] "dev" (storeGraph [main] [] "prod" GraphStore.empty)

def mainRow : EntityRow :=
  ⟨main.id, some .function, some "main", some (.rel ["a.py"]), some 1, some 2, some "def main()",
    some "python", none⟩

lemma branches_rows : branches.entities.rows = [mainRow] := by decide +kernel

/-- What one branch deletes of a file is gone on the other. -/
theorem shared_entity_deleted :
    (mainRow ∈ branches.entities ∧ linked branches "prod" mainRow.id = true ∧
      mainRow ∉ (Store.deleteEntitiesByFile "dev" (.rel ["a.py"]) branches .sqlite).entities ∧
      mainRow ∉ (Store.deleteEntitiesByFile "dev" (.rel ["a.py"]) branches .neo4j).entities) ∧
    ¬Scoped (fun e => OnlyOf branches "dev" e.id ∧ e.filePath = some (.rel ["a.py"])) "prod"
      branches (Store.deleteEntitiesByFile "dev" (.rel ["a.py"]) branches .sqlite) := by
  have hrow : mainRow ∈ branches.entities.rows := branches_rows ▸ List.mem_cons_self
  have hlinked : linked branches "prod" mainRow.id = true := by decide +kernel
  have hsqlite : mainRow ∉
      (Store.deleteEntitiesByFile "dev" (.rel ["a.py"]) branches .sqlite).entities.rows := by
    decide +kernel
  have hneo4j : mainRow ∉
      (Store.deleteEntitiesByFile "dev" (.rel ["a.py"]) branches .neo4j).entities.rows := by
    decide +kernel
  exact ⟨⟨hrow, hlinked, hsqlite, hneo4j⟩, fun h => hsqlite (h.entities mainRow hrow hlinked)⟩

/-- A file that neither branch has. -/
theorem other_file_scoped :
    "dev" ≠ "prod" ∧
    (Scoped (fun e => OnlyOf branches "dev" e.id) "prod" branches
        (Store.deleteSource "dev" branches .neo4j) ∧
      Scoped (fun e => OnlyOf branches "dev" e.id ∧ e.filePath = some (.rel ["b.py"])) "prod"
        branches (Store.deleteEntitiesByFile "dev" (.rel ["b.py"]) branches .neo4j)) := by
  have hne : "dev" ≠ "prod" := by decide
  refine ⟨hne, (scoped_iff_unshared .neo4j branches hne (.rel ["b.py"])).mpr fun e he hp => ?_⟩
  have hrow : e ∈ branches.entities.rows := he
  rw [branches_rows, List.mem_singleton] at hrow
  subst hrow
  exact absurd hp (by decide)

end Treeweft.SharedEntities
