import Treeweft.Indexer

/-!
The vector store: one table of chunk rows for all sources.

Embeddings and row ids are left out, so two rows are equal when they name the same text at the
same place. Deletion is by exact match on the stored columns.
-/

namespace Treeweft.VectorStore

open Treeweft.Paths Treeweft.Indexer

structure Row where
  chunkText : String
  filePath : FilePath
  language : String
  startLine : ℕ
  endLine : ℕ
  sourceId : String
  deriving DecidableEq, Repr

abbrev Table := List Row

def maxTextLen : ℕ := 50000

/-- The row `insert_chunks` writes for a chunk: its text cut at `maxTextLen` characters. -/
def rowOf (sourceId : String) (c : Chunk) : Row :=
  ⟨String.ofList (c.text.toList.take maxTextLen), c.filePath, c.language, c.startLine,
    c.endLine, sourceId⟩

def insertChunks (sourceId : String) (cs : List Chunk) (t : Table) : Table :=
  t ++ cs.map (rowOf sourceId)

def deleteChunksBySource (sourceId : String) (t : Table) : Table :=
  t.filter fun r => r.sourceId ≠ sourceId

def deleteChunksByFile (sourceId : String) (p : FilePath) (t : Table) : Table :=
  t.filter fun r => ¬(r.sourceId = sourceId ∧ r.filePath = p)

variable {sid : String} {t : Table} {r : Row}

@[simp] lemma mem_insertChunks {cs : List Chunk} :
    r ∈ insertChunks sid cs t ↔ r ∈ t ∨ ∃ c ∈ cs, rowOf sid c = r := by
  simp [insertChunks]

@[simp] lemma mem_deleteChunksBySource :
    r ∈ deleteChunksBySource sid t ↔ r ∈ t ∧ r.sourceId ≠ sid := by
  simp [deleteChunksBySource]

@[simp] lemma mem_deleteChunksByFile {p : FilePath} :
    r ∈ deleteChunksByFile sid p t ↔ r ∈ t ∧ ¬(r.sourceId = sid ∧ r.filePath = p) := by
  rw [deleteChunksByFile, List.mem_filter, decide_eq_true_eq]

end Treeweft.VectorStore
