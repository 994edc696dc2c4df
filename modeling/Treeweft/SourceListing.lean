import Treeweft.AccessDecision
import Treeweft.Keyed

/-!
The listing of sources, from the registry or, where the registry gives none, from the graph
store.

The registry knows who owns a source. The graph store does not: what it lists counts as older
than the authorization model, and everybody sees it.
-/

namespace Treeweft.SourceListing

open Treeweft.Access (User Grant)
open Treeweft.AccessDecision (authorizeSource)

structure SourceRecord where
  id : String
  path : String
  url : String
  branch : String
  indexedAt : ℕ
  fileCount : ℕ
  chunkCount : ℕ
  commitSha : String
  createdBy : Option String
  graphIndexed : Bool
  summaryPromptVersion : Option ℕ
  summaryRefreshTarget : Option ℕ
  deriving DecidableEq, Repr

/-- A source of the graph store. -/
structure GraphSource where
  id : String
  path : String
  url : String
  branch : String
  indexedAt : ℕ
  fileCount : ℕ
  chunkCount : ℕ
  commitSha : String
  deriving DecidableEq, Repr

/-- The graph store has no column of that name. -/
def GraphSource.createdBy (_ : GraphSource) : Option String := none

/-- A registry record as the response shows it. -/
structure Row where
  id : String
  path : String
  url : String
  branch : String
  indexedAt : ℕ
  fileCount : ℕ
  chunkCount : ℕ
  commitSha : String
  graphIndexed : Bool
  summaryPromptVersion : Option ℕ
  summaryRefreshTarget : Option ℕ
  summaryStale : Bool
  deriving DecidableEq, Repr

inductive Listed
  | record (r : Row)
  | graph (s : GraphSource)
  deriving DecidableEq, Repr

def Listed.id : Listed → String
  | .record r => r.id
  | .graph s => s.id

/-! ### Prompt Pins -/

structure PinView where
  deployment : String → Option ℕ
  overrides : String → Option ℕ

/-- `none` is an operation without a pin, a `KeyError`. -/
def resolve (view : PinView) (operation : String) (sourceId : Option String) : Option ℕ :=
  if operation = "hyde" then view.deployment "hyde"
  else
    match sourceId.bind view.overrides with
    | some v => some v
    | none => view.deployment operation

def isStale (recorded refreshTarget : Option ℕ) (effective : ℕ) : Bool :=
  if refreshTarget.isSome then true
  else recorded.any (· ≠ effective)

/-! ### The Registry -/

/-- How the call to the registry goes wrong, if it does. -/
inductive RegistryFault
  | none
  | noPool
  | query
  | raised
  deriving DecidableEq, Repr

/-- What a request meets: the registry's rows and row limit, the grants, the pins, and the graph
store's answer, `none` where it raises. -/
structure Env where
  registry : Keyed SourceRecord.id
  cap : ℕ
  fault : RegistryFault
  grants : List Grant
  pins : PinView
  graph : Option (List GraphSource)

/-- Most recently indexed first. Errors of the query are swallowed; `none` is an exception. -/
def listAll (env : Env) : Option (List SourceRecord) :=
  match env.fault with
  | .none =>
    some ((env.registry.rows.insertionSort fun r s => s.indexedAt ≤ r.indexedAt).take env.cap)
  | .noPool => some []
  | .query => some []
  | .raised => none

/-! ### The Endpoint -/

/-- `none` is a request without a user, where authentication is off. -/
def visibleToUser (user : Option User) (createdBy : Option String) : Bool :=
  match user with
  | none => true
  | some u =>
    if u.role = .admin then true
    else
      match createdBy with
      | none => true
      | some o => if o = "" then true else o = u.id

def render (pins : PinView) (r : SourceRecord) : Option Row := do
  let effective ← resolve pins "chunk_summary" (some r.id)
  return ⟨r.id, r.path, r.url, r.branch, r.indexedAt, r.fileCount, r.chunkCount, r.commitSha,
    r.graphIndexed, r.summaryPromptVersion, r.summaryRefreshTarget,
    isStale r.summaryPromptVersion r.summaryRefreshTarget effective⟩

/-- The body of the `try`: `none` falls through to the graph store. -/
def fromRegistry (env : Env) (user : Option User) : Option (List Row) := do
  let records ← listAll env
  guard (records ≠ [])
  (records.filter fun r => visibleToUser user r.createdBy).mapM (render env.pins)

/-- `caller` is what authentication answers. -/
def getSources (env : Env) (caller : Except ℕ (Option User)) : Except ℕ (List Listed) :=
  match caller with
  | .error status => .error status
  | .ok user =>
    match fromRegistry env user with
    | some out => .ok (out.map .record)
    | none =>
      match env.graph with
      | none => .error 500
      | some fallback =>
        .ok ((fallback.filter fun s => visibleToUser user s.createdBy).map .graph)

/-! ### What the Response Discloses -/

/-- The registry's record of the source names another owner, and nothing shares it with the
caller. -/
def Foreign (env : Env) (u : User) (sid : String) : Prop :=
  ∃ r ∈ env.registry, r.id = sid ∧ (∃ o, r.createdBy = some o ∧ o ≠ "" ∧ o ≠ u.id) ∧
    ∀ d, authorizeSource ⟨some env.grants, fun _ => r.createdBy⟩ u sid = some d →
      d.allowed = false

/-- No response holds a foreign source. -/
def Closed (env : Env) (u : User) : Prop :=
  ∀ out, getSources env (.ok (some u)) = .ok out → ∀ s ∈ out, ¬Foreign env u s.id

/-- The registry gives a listing: it can be read, is not empty, and what the caller sees of it
has a pinned prompt version. -/
structure Answered (env : Env) (u : User) : Prop where
  readable : env.fault = .none
  nonempty : env.registry.rows ≠ [] ∧ env.cap ≠ 0
  pinned : ∀ records, listAll env = some records → ∀ r ∈ records,
    visibleToUser (some u) r.createdBy = true →
      (resolve env.pins "chunk_summary" (some r.id)).isSome

section Listing
variable {env : Env} {u : User}

lemma mem_of_listAll {records : List SourceRecord} (h : listAll env = some records)
    {r : SourceRecord} (hr : r ∈ records) : r ∈ env.registry := by
  unfold listAll at h
  cases hf : env.fault <;> rw [hf] at h <;> cases h
  · exact (List.mem_insertionSort _).mp (List.mem_of_mem_take hr)
  · cases hr
  · cases hr

lemma render_id {pins : PinView} {r : SourceRecord} {row : Row} (h : render pins r = some row) :
    row.id = r.id := by
  obtain ⟨v, -, h⟩ := Option.bind_eq_some_iff.mp h
  cases h
  rfl

/-- What a traversal that succeeds returns, it returns for an element. -/
lemma mem_of_mapM {α β : Type} {f : α → Option β} {xs : List α} {ys : List β}
    (h : xs.mapM f = some ys) {y : β} (hy : y ∈ ys) : ∃ x ∈ xs, f x = some y := by
  induction xs generalizing ys with
  | nil =>
    cases h
    cases hy
  | cons x xs ih =>
    simp only [List.mapM_cons, Option.bind_eq_bind, Option.bind_eq_some_iff, Option.pure_def,
      Option.some.injEq] at h
    obtain ⟨z, hz, zs, hzs, rfl⟩ := h
    rcases List.mem_cons.mp hy with rfl | hy
    · exact ⟨x, List.mem_cons_self, hz⟩
    · obtain ⟨x', hx', hf⟩ := ih hzs hy
      exact ⟨x', List.mem_cons_of_mem x hx', hf⟩

/-- A traversal succeeds when every element does. -/
lemma isSome_mapM {α β : Type} {f : α → Option β} {xs : List α} :
    (xs.mapM f).isSome ↔ ∀ x ∈ xs, (f x).isSome := by
  induction xs with
  | nil => simp
  | cons x xs ih =>
    rw [List.mapM_cons, List.forall_mem_cons, ← ih]
    cases f x <;> cases xs.mapM f <;> simp

/-- Every row of the response comes from a visible record. -/
lemma mem_fromRegistry {user : Option User} {out : List Row} (h : fromRegistry env user = some out)
    {row : Row} (hrow : row ∈ out) :
    ∃ r ∈ env.registry, visibleToUser user r.createdBy = true ∧ row.id = r.id := by
  obtain ⟨records, hl, h⟩ := Option.bind_eq_some_iff.mp h
  obtain ⟨-, -, h⟩ := Option.bind_eq_some_iff.mp h
  obtain ⟨r, hr, hrow⟩ := mem_of_mapM h hrow
  obtain ⟨hr, hv⟩ := List.mem_filter.mp hr
  exact ⟨r, mem_of_listAll hl hr, hv, render_id hrow⟩

/-- What a caller is shown of the registry is not foreign. -/
lemma visible_not_foreign {r : SourceRecord} (hr : r ∈ env.registry)
    (hv : visibleToUser (some u) r.createdBy = true) : ¬Foreign env u r.id := by
  rintro ⟨r', hr', hid, ⟨o, ho, hne, hother⟩, hd⟩
  obtain rfl := env.registry.eq_of_key hr' hr hid
  by_cases hu : u.role = .admin
  · have := hd (AccessDecision.permit "admin") (by simp [authorizeSource, hu])
    cases this
  · simp [visibleToUser, hu, ho, hne, hother] at hv

lemma listAll_eq_nil {records : List SourceRecord} (hf : env.fault = .none)
    (h : listAll env = some records) :
    records = [] ↔ ¬(env.registry.rows ≠ [] ∧ env.cap ≠ 0) := by
  simp only [listAll, hf, Option.some.injEq] at h
  rw [← h, List.take_eq_nil_iff]
  have hnil : ∀ (le : SourceRecord → SourceRecord → Prop) [DecidableRel le],
      env.registry.rows.insertionSort le = [] ↔ env.registry.rows = [] := by
    intro le _
    rw [← List.length_eq_zero_iff, List.length_insertionSort, List.length_eq_zero_iff]
  rw [hnil]
  tauto

/-- The registry decides the response when it gives a listing. -/
lemma fromRegistry_isSome : (fromRegistry env (some u)).isSome ↔ Answered env u := by
  have hrender : ∀ r, (render env.pins r).isSome ↔
      (resolve env.pins "chunk_summary" (some r.id)).isSome := by
    intro r
    unfold render
    cases resolve env.pins "chunk_summary" (some r.id) <;> simp
  constructor
  · intro h
    obtain ⟨out, h⟩ := Option.isSome_iff_exists.mp h
    obtain ⟨records, hl, h⟩ := Option.bind_eq_some_iff.mp h
    obtain ⟨_, hg, h⟩ := Option.bind_eq_some_iff.mp h
    have hne : records ≠ [] := by simpa [guard] using hg
    have hf : env.fault = .none := by
      cases hf : env.fault with
      | none => rfl
      | noPool => simp [listAll, hf] at hl; exact absurd hl hne
      | query => simp [listAll, hf] at hl; exact absurd hl hne
      | raised => simp [listAll, hf] at hl
    refine ⟨hf, not_not.mp fun hc => hne ((listAll_eq_nil hf hl).mpr hc), ?_⟩
    intro records' hl' r hr hv
    rw [hl] at hl'
    cases hl'
    have hall := isSome_mapM.mp (Option.isSome_iff_exists.mpr ⟨out, h⟩)
    exact (hrender r).mp (hall r (List.mem_filter.mpr ⟨hr, hv⟩))
  · rintro ⟨hf, hne, hp⟩
    obtain ⟨records, hl⟩ : ∃ records, listAll env = some records := by
      simp only [listAll, hf]
      exact ⟨_, rfl⟩
    have hne' : records ≠ [] := fun h => (listAll_eq_nil hf hl).mp h hne
    have hall : ((records.filter fun r => visibleToUser (some u) r.createdBy).mapM
        (render env.pins)).isSome := by
      refine isSome_mapM.mpr fun r hr => (hrender r).mpr ?_
      obtain ⟨hr, hv⟩ := List.mem_filter.mp hr
      exact hp records hl r hr hv
    simpa [fromRegistry, hl, hne', guard] using hall

end Listing

/-- **What a listing discloses.** A response that the registry decides holds nothing foreign. Where
the registry gives none, the graph store's listing is the response, all of it. -/
theorem closed_iff (env : Env) (u : User) :
    (Closed env u ↔ Answered env u ∨
      ∀ fallback, env.graph = some fallback → ∀ s ∈ fallback, ¬Foreign env u s.id) ∧
    (¬Answered env u → getSources env (.ok (some u)) =
      match env.graph with
      | none => .error 500
      | some fallback => .ok (fallback.map .graph)) := by
  have hfall : ¬Answered env u → getSources env (.ok (some u)) =
      match env.graph with
      | none => .error 500
      | some fallback => .ok (fallback.map .graph) := by
    intro hna
    have hnone : fromRegistry env (some u) = none := by
      rw [← Option.not_isSome_iff_eq_none, fromRegistry_isSome]
      exact hna
    simp only [getSources, hnone]
    cases env.graph with
    | none => rfl
    | some fallback => simp [visibleToUser, GraphSource.createdBy]
  refine ⟨?_, hfall⟩
  by_cases ha : Answered env u
  · simp only [ha, true_or, iff_true]
    obtain ⟨rows, hrows⟩ := Option.isSome_iff_exists.mp (fromRegistry_isSome.mpr ha)
    intro out hout s hs
    simp only [getSources, hrows, Except.ok.injEq] at hout
    subst hout
    obtain ⟨row, hrow, rfl⟩ := List.mem_map.mp hs
    obtain ⟨r, hr, hv, hid⟩ := mem_fromRegistry hrows hrow
    rw [Listed.id, hid]
    exact visible_not_foreign hr hv
  · simp only [ha, false_or, Closed, hfall ha]
    cases env.graph with
    | none => simp
    | some fallback => simp [Listed.id]

/-- A source of one user, in the registry and in the graph store; the registry's query fails. -/
def registryDown : Env where
  registry := ⟨[⟨"s", "/s", "", "", 1, 0, 0, "", some "ann", true, none, none⟩], by decide⟩
  cap := 10000
  fault := .query
  grants := []
  pins := ⟨fun _ => some 1, fun _ => none⟩
  graph := some [⟨"s", "/s", "", "", 1, 0, 0, ""⟩]

/-- The error of the registry shows another user's source. -/
theorem error_widens : ¬ ∀ env u, Closed env u := by
  intro h
  refine h registryDown ⟨"bob", .user, false, []⟩ _ rfl (.graph ⟨"s", "/s", "", "", 1, 0, 0, ""⟩)
    (by decide) ⟨_, List.mem_cons_self, rfl, ⟨"ann", rfl, by decide, by decide⟩, ?_⟩
  intro d hd
  cases hd
  rfl

end Treeweft.SourceListing
