import Treeweft.IndexCheck
import Treeweft.Indexer

/-!
The gate of the routes that enqueue index jobs.

It goes by the cached status of the index. While that is unverified it runs the full check first,
which may stamp a store that it adopts.
-/

namespace Treeweft.WriteGate

open Treeweft.IndexStamp Treeweft.IndexCheck
open Treeweft.Indexer (rstrip)

/-- The body of a 409. -/
structure Gate where
  detail : String
  reason : Option String
  indexStatus : String
  deriving DecidableEq, Repr

def maxDetail : ℕ := 300

/-- Only the reason is cut, so that what follows it is always read. -/
def truncateForDetail (head reason tail : String) : String :=
  let budget := maxDetail - head.length - tail.length
  let reason :=
    if budget < reason.length then
      String.ofList (rstrip (reason.toList.take (budget - 1))) ++ "…"
    else reason
  head ++ reason ++ tail

def reindexRequiredBody (reason : String) : Gate :=
  ⟨truncateForDetail "Index requires rebuild: " reason
    ". Run POST /index/rebuild?dry_run=true, then POST /index/rebuild (docs/upgrading.md).",
    some reason, "reindex_required"⟩

def unverifiedBody (reason : String) : Gate :=
  ⟨truncateForDetail "Index unverified: " reason
    (". Index jobs are refused until the embedding model is verified; " ++
      "this retries automatically."),
    some reason, "unverified"⟩

def preparingBody : Gate :=
  ⟨"Index rebuild in progress: stores are being recreated. Retry shortly; " ++
    "progress is in GET /health.", none, "rebuilding"⟩

/-- A reason that is empty counts as none. -/
def reasonOr (reason : Option String) (fallback : String) : String :=
  (reason.filter (· ≠ "")).getD fallback

/-- What a status is refused with. -/
def gateOf (s : IndexStatus) : Option Gate :=
  if s.preparing then some preparingBody
  else
    match s.state with
    | .unverified => some (unverifiedBody (reasonOr s.reason "not yet verified"))
    | .reindexRequired => some (reindexRequiredBody (reasonOr s.reason "index mismatch"))
    | _ => none

/-- `_guard_reason`. -/
def guardReason (gate : Gate) : String :=
  "index is " ++ gate.indexStatus ++ ": " ++
    reasonOr (gate.reason.filter (· ≠ "") <|> some gate.detail) "not writable"

/-- What the gate leaves: its answer, unless the check raised, the stores and the cached status. -/
structure Asked where
  answer : Option (Option Gate)
  index : World
  status : IndexStatus
  deriving DecidableEq, Repr

/-- The gate runs the check before it answers. -/
def Checks (s : IndexStatus) : Prop := s.preparing = false ∧ s.state = .unverified

instance (s : IndexStatus) : Decidable (Checks s) := by
  unfold Checks
  infer_instance

def requireWritable (cfg : ConfiguredIndex) (check : CheckEnv) (index : World)
    (status : IndexStatus) : Asked :=
  if Checks status then
    match computeStatus cfg true check index with
    | (index, none) => ⟨none, index, status⟩
    | (index, some status) => ⟨some (gateOf status), index, status⟩
  else ⟨some (gateOf status), index, status⟩

/-! ### Stamping by the Way -/

def lands : WriteFate → Bool
  | .done => true
  | .landed => true
  | _ => false

def goesOn : WriteFate → Bool
  | .done => true
  | .locked => true
  | _ => false

/-- The check puts the configured stamp on a vector store that has another or none. -/
def StampsVector (cfg : ConfiguredIndex) (check : CheckEnv) (w : World) : Prop :=
  ∃ d, decideAll cfg true check w = some d ∧ d.vector.writeStamp = true ∧
    lands check.vectorWrite = true ∧ w.vector.stamp ≠ some (.stamp cfg)

/-- The same of the graph store, which is written after the vector store. -/
def StampsGraph (cfg : ConfiguredIndex) (check : CheckEnv) (w : World) : Prop :=
  ∃ d, decideAll cfg true check w = some d ∧ d.graph.writeStamp = true ∧
    (d.vector.writeStamp = true → goesOn check.vectorWrite = true) ∧
    lands check.graphWrite = true ∧ w.graph.stamp ≠ some (.stamp cfg)

section Gate
variable {cfg : ConfiguredIndex} {check : CheckEnv} {w : World} {s : IndexStatus}

lemma stamped_eq_self {d : StoreData} : d.stamped cfg = d ↔ d.stamp = some (.stamp cfg) := by
  obtain ⟨backend, present, rows, stamp, dim⟩ := d
  simp [StoreData.stamped, eq_comm]

/-- A write is what it leaves and whether the check goes on. -/
lemma writeStampIfNeeded_fst {c : StoreCheck} {fate : WriteFate} {d : StoreData} :
    (writeStampIfNeeded cfg c fate d).1 =
      if c.writeStamp = true ∧ lands fate = true then d.stamped cfg else d := by
  unfold writeStampIfNeeded
  cases c.writeStamp <;> cases fate <;> simp [lands]

lemma writeStampIfNeeded_snd {c : StoreCheck} {fate : WriteFate} {d : StoreData} :
    (writeStampIfNeeded cfg c fate d).2 = true ↔
      (c.writeStamp = true → goesOn fate = true) := by
  unfold writeStampIfNeeded
  cases c.writeStamp <;> cases fate <;> simp [goesOn]

lemma writeStampIfNeeded_eq_self {c : StoreCheck} {fate : WriteFate} {d : StoreData} :
    (writeStampIfNeeded cfg c fate d).1 = d ↔
      ¬ (c.writeStamp = true ∧ lands fate = true ∧ d.stamp ≠ some (.stamp cfg)) := by
  rw [writeStampIfNeeded_fst]
  split
  · rename_i h
    rw [stamped_eq_self]
    simp [h.1, h.2]
  · rename_i h
    simp only [true_iff]
    exact fun hc => h ⟨hc.1, hc.2.1⟩

/-- **A check leaves the stores alone** unless it stamps one. -/
lemma computeStatus_fst_eq_self :
    (computeStatus cfg true check w).1 = w ↔
      ¬ StampsVector cfg check w ∧ ¬ StampsGraph cfg check w := by
  unfold computeStatus StampsVector StampsGraph
  cases hd : decideAll cfg true check w with
  | none => simp
  | some d =>
    have hself : ∀ {v g : StoreData}, (⟨v, g⟩ : World) = w ↔ v = w.vector ∧ g = w.graph := by
      intro v g
      obtain ⟨v', g'⟩ := w
      simp
    dsimp only
    simp only [Option.some.injEq, exists_eq_left']
    by_cases hv : (writeStampIfNeeded cfg d.vector check.vectorWrite w.vector).2 = true
    · have hgo := writeStampIfNeeded_snd.mp hv
      rw [if_pos hv, apply_ite Prod.fst, ite_self, hself, writeStampIfNeeded_eq_self,
        writeStampIfNeeded_eq_self]
      simp only [iff_true_intro hgo, true_and]
    · have hstop : ¬ (d.vector.writeStamp = true → goesOn check.vectorWrite = true) :=
        fun h => hv (writeStampIfNeeded_snd.mpr h)
      rw [if_neg hv, hself, writeStampIfNeeded_eq_self]
      simp only [hstop, false_and, and_false, not_false_eq_true, and_true]

lemma requireWritable_index :
    (requireWritable cfg check w s).index =
      if Checks s then (computeStatus cfg true check w).1 else w := by
  unfold requireWritable
  split
  · split <;> rename_i h <;> rw [h]
  · rfl

lemma requireWritable_answer :
    (requireWritable cfg check w s).answer = none ↔
      Checks s ∧ (computeStatus cfg true check w).2 = none := by
  unfold requireWritable
  split
  · rename_i hs
    split <;> rename_i h <;> simp [h, hs]
  · rename_i hs
    simp [hs]

/-- **Asked again**, the gate answers the same, where its check left the stores alone. -/
lemma requireWritable_again (h : (requireWritable cfg check w s).index = w) :
    requireWritable cfg check w (requireWritable cfg check w s).status =
      requireWritable cfg check w s := by
  by_cases hs : Checks s
  · obtain ⟨⟨w', o⟩, hc⟩ : ∃ x, computeStatus cfg true check w = x := ⟨_, rfl⟩
    rw [requireWritable_index, if_pos hs, hc] at h
    obtain rfl : w' = w := h
    cases o with
    | none =>
      have hask : requireWritable cfg check w' s = ⟨none, w', s⟩ := by
        simp [requireWritable, hs, hc]
      rw [hask]
      exact hask
    | some s' =>
      have hask : requireWritable cfg check w' s = ⟨some (gateOf s'), w', s'⟩ := by
        simp [requireWritable, hs, hc]
      rw [hask]
      by_cases hs' : Checks s' <;> simp [requireWritable, hs', hc]
  · simp [requireWritable, hs]

end Gate

end Treeweft.WriteGate
