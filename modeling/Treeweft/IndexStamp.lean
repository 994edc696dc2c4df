import Mathlib.Data.List.MinMax
import Mathlib.Data.Int.Order.Basic

/-!
The stamp of a store, and what a check decides from what it observes of the stores.

A stamp says which model built a store's data. A store without one is adopted when it is empty, or
when its data has been verified; the verdict of a check is that of the worst store, under the
state of a rebuild.
-/

namespace Treeweft.IndexStamp

inductive Store
  | vector
  | graph
  deriving DecidableEq, Repr

inductive StoreState
  | ok
  | unverified
  | reindexRequired
  deriving DecidableEq, Repr

inductive IndexState
  | ok
  | unverified
  | reindexRequired
  | rebuilding
  deriving DecidableEq, Repr

inductive RebuildKind
  | none
  | preparing
  | rebuilding
  | interrupted
  | complete
  deriving DecidableEq, Repr

structure Stamp where
  schema : ℤ
  embeddingModel : String
  vectorDim : ℤ
  deriving DecidableEq, Repr

/-- A stamp as it is stored: one that can not be parsed is still a stamp. -/
inductive StoredStamp
  | stamp (s : Stamp)
  | unreadable (detail : String)
  deriving DecidableEq, Repr

/-- What this process expects. -/
abbrev ConfiguredIndex := Stamp

structure StoreObservation where
  store : Store
  backend : String
  present : Bool
  hasData : Bool
  stamp : Option StoredStamp
  schemaDim : Option ℤ
  unreachable : Option String
  deriving DecidableEq, Repr

inductive Verification
  | passed
  | failed (check detail : String)
  | unavailable (detail : String)
  | notRun
  deriving DecidableEq, Repr

structure StoreCheck where
  store : Store
  backend : String
  state : StoreState
  reason : Option String
  writeStamp : Bool
  deriving DecidableEq, Repr

structure RebuildState where
  kind : RebuildKind
  done : ℕ
  total : ℕ
  deriving DecidableEq, Repr

structure IndexStatus where
  state : IndexState
  reason : Option String
  rebuildProgress : Option (ℕ × ℕ)
  preparing : Bool
  deriving DecidableEq, Repr

/-! ### One Store -/

def Store.name : Store → String
  | .vector => "vector"
  | .graph => "graph"

def storePrefix (store : Store) (backend : String) : String :=
  store.name ++ " store (" ++ backend ++ "): "

def formatReason (store : Store) (backend field stored configured : String) : String :=
  storePrefix store backend ++ field ++ " is " ++ stored ++ ", configured " ++ configured

/-- One reason for each field that differs. -/
def compare (stamp : Stamp) (configured : ConfiguredIndex) (store : Store) (backend : String) :
    List String :=
  (if stamp.schema ≠ configured.schema then
    [formatReason store backend "schema" (toString stamp.schema) (toString configured.schema)]
  else []) ++
  (if stamp.embeddingModel ≠ configured.embeddingModel then
    [formatReason store backend "embedding_model" stamp.embeddingModel configured.embeddingModel]
  else []) ++
  (if stamp.vectorDim ≠ configured.vectorDim then
    [formatReason store backend "vector_dim" (toString stamp.vectorDim)
      (toString configured.vectorDim)]
  else [])

/-- The observation says that the store could not be reached: a text that is not empty. -/
def StoreObservation.isUnreachable (o : StoreObservation) : Bool := o.unreachable.any (· ≠ "")

/-- The decision table. `verification` is that of the vector store, for the graph store as well;
`vectorHasData` is whether there is data it could have been made on. -/
def decideStore (o : StoreObservation) (configured : ConfiguredIndex)
    (verification : Verification) (vectorHasData : Option Bool) : StoreCheck :=
  if o.isUnreachable then
    ⟨o.store, o.backend, .unverified,
      some (formatReason o.store o.backend "unreachable" (o.unreachable.getD "") "reachable"), false⟩
  else if !o.present then ⟨o.store, o.backend, .ok, none, false⟩
  else if !o.hasData && o.stamp.isNone then ⟨o.store, o.backend, .ok, none, true⟩
  else
    match o.stamp with
    | some (.unreadable detail) =>
      ⟨o.store, o.backend, .reindexRequired,
        some (storePrefix o.store o.backend ++ "unreadable stamp: " ++ detail), false⟩
    | some (.stamp s) =>
      let mismatches := compare s configured o.store o.backend
      if mismatches ≠ [] then
        ⟨o.store, o.backend, .reindexRequired, some (String.intercalate "; " mismatches), false⟩
      else ⟨o.store, o.backend, .ok, none, false⟩
    | none =>
      if o.store = .graph ∧ vectorHasData ≠ some true then
        ⟨o.store, o.backend, .reindexRequired,
          some (storePrefix o.store o.backend ++ "graph cannot be verified without vector data"),
          false⟩
      else
        match verification with
        | .passed => ⟨o.store, o.backend, .ok, none, true⟩
        | .failed check detail =>
          ⟨o.store, o.backend, .reindexRequired,
            some (storePrefix o.store o.backend ++ check ++ ": " ++ detail), false⟩
        | .unavailable detail =>
          ⟨o.store, o.backend, .unverified,
            some (storePrefix o.store o.backend ++ "could not verify: " ++ detail), false⟩
        | .notRun =>
          ⟨o.store, o.backend, .unverified,
            some (storePrefix o.store o.backend ++ "not yet verified"), false⟩

/-! ### All Stores -/

def storePrecedence : StoreState → ℕ
  | .reindexRequired => 0
  | .unverified => 1
  | .ok => 2

def reasonsOf (state : StoreState) (checks : List StoreCheck) : List String :=
  (checks.filter fun c => c.state = state).filterMap StoreCheck.reason

/-- The worst of the stores: preparing, interrupted, reindex required, unverified, rebuilding, ok,
in this order. -/
def aggregate (checks : List StoreCheck) (rebuild : RebuildState) : IndexStatus :=
  if rebuild.kind = .preparing then ⟨.rebuilding, none, some (0, rebuild.total), true⟩
  else if rebuild.kind = .interrupted then
    ⟨.reindexRequired, some "a rebuild was interrupted; run it again", none, false⟩
  else
    match checks.argmin fun c => storePrecedence c.state with
    | some ⟨_, _, .reindexRequired, _, _⟩ =>
      ⟨.reindexRequired, some (String.intercalate "; " (reasonsOf .reindexRequired checks)), none,
        false⟩
    | some ⟨_, _, .unverified, _, _⟩ =>
      let reasons := reasonsOf .unverified checks
      ⟨.unverified, if reasons = [] then none else some (String.intercalate "; " reasons), none,
        false⟩
    | _ =>
      if rebuild.kind = .rebuilding then
        ⟨.rebuilding, none, some (rebuild.done, rebuild.total), false⟩
      else ⟨.ok, none, none, false⟩

/-! ### What a Decision Means -/

/-- No field differs from what is configured. -/
lemma compare_eq_nil {s : Stamp} {configured : ConfiguredIndex} {store : Store}
    {backend : String} : compare s configured store backend = [] ↔ s = configured := by
  obtain ⟨a, b, c⟩ := s
  obtain ⟨a', b', c'⟩ := configured
  simp [compare, List.append_eq_nil_iff]

section Decide
variable {o : StoreObservation} {configured : ConfiguredIndex} {v : Verification}
  {hasData : Option Bool}

/-- **When the table asks for a stamp**: the store was reached, has none, and is empty or was
verified. -/
lemma writeStamp_iff :
    (decideStore o configured v hasData).writeStamp = true ↔
      o.isUnreachable = false ∧ o.present = true ∧ o.stamp = none ∧
        (o.hasData = false ∨
          v = .passed ∧ (o.store = .graph → hasData = some true)) := by
  unfold decideStore
  cases hu : o.isUnreachable
  · cases hp : o.present
    · simp
    · cases hs : o.stamp with
      | some x =>
        cases x with
        | unreadable detail => simp
        | stamp s => by_cases hm : compare s configured o.store o.backend = [] <;> simp [hm]
      | none =>
        cases hd : o.hasData
        · simp
        · by_cases hg : o.store = .graph ∧ hasData ≠ some true
          · simp [hg]
          · have hg' : o.store = .graph → hasData = some true := by
              simpa [not_and, not_not] using hg
            cases v <;> simp [hg]
            exact hg'
  · simp

end Decide

/-- **All must be ok**: the state over any number of stores is ok only where each one's is. -/
lemma aggregate_ok {checks : List StoreCheck} {rebuild : RebuildState}
    (h : (aggregate checks rebuild).state = .ok) : ∀ c ∈ checks, c.state = .ok := by
  unfold aggregate at h
  intro c hc
  split at h
  · cases h
  · split at h
    · cases h
    · obtain ⟨m, hm⟩ : ∃ m, checks.argmin (fun c => storePrecedence c.state) = some m := by
        rw [← Option.isSome_iff_exists, Option.isSome_iff_ne_none, ne_eq, List.argmin_eq_none]
        exact List.ne_nil_of_mem hc
      have hle : storePrecedence m.state ≤ storePrecedence c.state :=
        List.le_of_mem_argmin (f := fun c => storePrecedence c.state) hc hm
      obtain ⟨s, b, st, r, ws⟩ := m
      rw [hm] at h
      cases st with
      | reindexRequired => cases h
      | unverified => cases h
      | ok =>
        cases hs : c.state <;> rw [hs] at hle <;> simp [storePrecedence] at hle ⊢

/-- **One is enough**: outside a rebuild that is being prepared, a store that needs a reindex, or
an interrupted rebuild, decides the state. -/
lemma aggregate_reindex {checks : List StoreCheck} {rebuild : RebuildState}
    (hp : rebuild.kind ≠ .preparing)
    (h : rebuild.kind = .interrupted ∨ ∃ c ∈ checks, c.state = .reindexRequired) :
    (aggregate checks rebuild).state = .reindexRequired := by
  unfold aggregate
  rw [if_neg hp]
  split
  · rfl
  · rename_i hi
    obtain ⟨c, hc, hs⟩ := h.resolve_left hi
    obtain ⟨m, hm⟩ : ∃ m, checks.argmin (fun c => storePrecedence c.state) = some m := by
      rw [← Option.isSome_iff_exists, Option.isSome_iff_ne_none, ne_eq, List.argmin_eq_none]
      exact List.ne_nil_of_mem hc
    have hle : storePrecedence m.state ≤ storePrecedence c.state :=
      List.le_of_mem_argmin (f := fun c => storePrecedence c.state) hc hm
    obtain ⟨s, b, st, r, ws⟩ := m
    rw [hm]
    rw [hs] at hle
    cases st with
    | reindexRequired => rfl
    | unverified => simp [storePrecedence] at hle
    | ok => simp [storePrecedence] at hle

end Treeweft.IndexStamp
