import Treeweft.Access
import Mathlib.Data.List.Sort

/-!
The authorization service: what it asks the grant store and the source registry, and what it
decides from the answers.

A single source and the shared index are decided from two different queries. Both come down to
one relation, `Denied`, between a caller and a source.
-/

namespace Treeweft.AccessDecision

open Treeweft.Access (User PrincipalType Effect Grant principalsFor)

structure ScopeDecision where
  allowed : Bool
  excludedSourceIds : List String
  reason : String
  deriving DecidableEq, Repr

def permit (reason : String) : ScopeDecision := ⟨true, [], reason⟩

def refuse (reason : String) : ScopeDecision := ⟨false, [], reason⟩

/-- An empty owner is no owner. -/
def decideSingleSource (u : User) (effects : List Effect) (ownerId : Option String) :
    ScopeDecision :=
  if u.role = .admin then permit "admin"
  else if .deny ∈ effects then refuse "explicit-deny"
  else if u.allAccess then permit "all_access"
  else if .allow ∈ effects then permit "explicit-allow"
  else if ownerId.any (fun o => o ≠ "" ∧ o = u.id) then permit "owner"
  else refuse "no-grant"

def decideShared (u : User) (deniedSourceIds : List String) : ScopeDecision :=
  if u.role = .admin then permit "admin"
  else if ¬ u.allAccess then refuse "no-all-access"
  else ⟨true, deniedSourceIds.dedup.insertionSort (· ≤ ·), "all_access"⟩

/-! ### The Queries -/

/-- The rows of `source_grants`, `none` where the store can not be read, and the registry's
owner of a source. -/
structure Inputs where
  grants : Option (List Grant)
  ownerOf : String → Option String

/-- A query of the grant store: the projection of the matching rows, without repetition. -/
def select {α : Type} [DecidableEq α] (i : Inputs) (p : Grant → Bool) (f : Grant → α) :
    Option (List α) :=
  i.grants.map fun rows => ((rows.filter p).map f).dedup

local instance lawfulBEqPrincipal : LawfulBEq (PrincipalType × String) := inferInstance

def effectsForSource (i : Inputs) (principals : List (PrincipalType × String)) (sid : String) :
    Option (List Effect) :=
  select i (fun g => (g.principalType, g.principalId) ∈ principals ∧ g.sourceId = sid) Grant.effect

def deniedSources (i : Inputs) (principals : List (PrincipalType × String)) :
    Option (List String) :=
  select i (fun g => (g.principalType, g.principalId) ∈ principals ∧ g.effect = .deny)
    Grant.sourceId

/-! ### The Service -/

/-- The owner is looked up only where nothing else has decided; `none` is a grant lookup that
failed. -/
def authorizeSource (i : Inputs) (u : User) (sid : String) : Option ScopeDecision :=
  if u.role = .admin then some (permit "admin")
  else do
    let effects ← effectsForSource i (principalsFor u) sid
    let ownerId :=
      if .deny ∉ effects ∧ ¬ u.allAccess ∧ .allow ∉ effects then i.ownerOf sid else none
    return decideSingleSource u effects ownerId

def authorizeShared (i : Inputs) (u : User) : Option ScopeDecision :=
  if u.role = .admin then some (permit "admin")
  else if ¬ u.allAccess then some (refuse "no-all-access")
  else do
    let denied ← deniedSources i (principalsFor u)
    return decideShared u denied

/-- `_authorize_scope`, where searches are enforced: what to exclude, `none` for a pinned source,
or the status of the refusal. -/
def authorizeScope (i : Inputs) (u : User) (sourceId : Option String) :
    Except ℕ (Option (List String)) :=
  let pinned := sourceId.filter (· ≠ "")
  match pinned with
  | some sid =>
    match authorizeSource i u sid with
    | none => .error 503
    | some d => if d.allowed then .ok none else .error 403
  | none =>
    match authorizeShared i u with
    | none => .error 503
    | some d => if d.allowed then .ok (some d.excludedSourceIds) else .error 403

/-! ### The Relation behind Both Queries -/

/-- Some principal of the caller holds a deny on the source. -/
def Denied (rows : List Grant) (u : User) (sid : String) : Prop :=
  ∃ p ∈ principalsFor u, (⟨p.1, p.2, sid, .deny⟩ : Grant) ∈ rows

section Queries

variable {rows : List Grant} {ownerOf : String → Option String} {u : User} {sid : String}

lemma mem_select {α : Type} [DecidableEq α] {p : Grant → Bool} {f : Grant → α} {xs : List α}
    (h : select ⟨some rows, ownerOf⟩ p f = some xs) (x : α) :
    x ∈ xs ↔ ∃ g ∈ rows, p g = true ∧ f g = x := by
  simp only [select, Option.map_some, Option.some.injEq] at h
  subst h
  simp [and_assoc]

lemma deny_mem_effects {effects : List Effect}
    (h : effectsForSource ⟨some rows, ownerOf⟩ (principalsFor u) sid = some effects) :
    .deny ∈ effects ↔ Denied rows u sid := by
  rw [mem_select h]
  constructor
  · rintro ⟨g, hg, hp, he⟩
    simp only [decide_eq_true_eq] at hp
    obtain ⟨hp, rfl⟩ := hp
    refine ⟨_, hp, ?_⟩
    rwa [← he]
  · rintro ⟨p, hp, hg⟩
    exact ⟨_, hg, by simpa using hp, rfl⟩

lemma mem_denied {denied : List String}
    (h : deniedSources ⟨some rows, ownerOf⟩ (principalsFor u) = some denied) :
    sid ∈ denied ↔ Denied rows u sid := by
  rw [mem_select h]
  constructor
  · rintro ⟨g, hg, hp, rfl⟩
    simp only [decide_eq_true_eq] at hp
    obtain ⟨hp, he⟩ := hp
    refine ⟨_, hp, ?_⟩
    rwa [← he]
  · rintro ⟨p, hp, hg⟩
    exact ⟨_, hg, by simpa using hp, rfl⟩

end Queries

/-! ### The Decisions -/

section Decisions

variable {u : User} {effects : List Effect}

lemma decideSingleSource_deny (hu : u.role ≠ .admin) (hd : .deny ∈ effects)
    (ownerId : Option String) :
    decideSingleSource u effects ownerId = refuse "explicit-deny" := by
  rw [decideSingleSource, if_neg hu, if_pos hd]

/-- Where something else has decided, the owner is not read. -/
lemma decideSingleSource_owner (h : ¬ (.deny ∉ effects ∧ ¬ u.allAccess ∧ .allow ∉ effects))
    (o o' : Option String) : decideSingleSource u effects o = decideSingleSource u effects o' := by
  unfold decideSingleSource
  by_cases hd : Effect.deny ∈ effects
  · simp only [if_pos hd]
  by_cases ha : u.allAccess = true
  · simp only [if_pos ha]
  by_cases hl : Effect.allow ∈ effects
  · simp only [if_pos hl]
  exact absurd ⟨hd, ha, hl⟩ h

/-- The verdict alone is the one that the scope of a search is decided by. -/
lemma allowed_eq (ownerId : Option String) :
    (decideSingleSource u effects ownerId).allowed =
      Access.decideSingleSource u effects (ownerId.filter (· ≠ "")) := by
  unfold decideSingleSource Access.decideSingleSource
  have howner : ownerId.any (fun o => o ≠ "" ∧ o = u.id) =
      decide (ownerId.filter (· ≠ "") = some u.id) := by
    cases ownerId with
    | none => simp
    | some o => by_cases ho : o = "" <;> simp [Option.filter, ho]
  rw [howner]
  split_ifs <;> simp_all [permit, refuse]

/-- With access to everything, only a deny refuses. -/
lemma allowed_of_allAccess (hu : u.role ≠ .admin) (ha : u.allAccess = true)
    (ownerId : Option String) :
    (decideSingleSource u effects ownerId).allowed = true ↔ .deny ∉ effects := by
  unfold decideSingleSource
  by_cases hd : Effect.deny ∈ effects <;> simp [hu, hd, ha, refuse, permit]

lemma mem_excluded (hu : u.role ≠ .admin) (ha : u.allAccess = true) {denied : List String}
    {sid : String} : sid ∈ (decideShared u denied).excludedSourceIds ↔ sid ∈ denied := by
  simp [decideShared, hu, ha, List.mem_insertionSort]

end Decisions

/-- The grant store answers every query or none. -/
lemma effectsForSource_some (rows : List Grant) (ownerOf : String → Option String) (u : User)
    (sid : String) :
    ∃ effects, effectsForSource ⟨some rows, ownerOf⟩ (principalsFor u) sid = some effects :=
  ⟨_, rfl⟩

/-- **The lazy lookup decides what the whole table decides.** -/
lemma authorizeSource_eq {i : Inputs} {u : User} {sid : String} {effects : List Effect}
    (he : effectsForSource i (principalsFor u) sid = some effects) :
    authorizeSource i u sid = some (decideSingleSource u effects (i.ownerOf sid)) := by
  unfold authorizeSource
  by_cases hu : u.role = .admin
  · rw [if_pos hu, decideSingleSource, if_pos hu]
  rw [if_neg hu, he]
  simp only [Option.bind_eq_bind, Option.bind_some, Option.pure_def]
  split
  · rfl
  · rename_i hskip
    rw [decideSingleSource_owner hskip none (i.ownerOf sid)]

/-- **A deny is final** for everybody but an administrator. -/
lemma denied_refused {rows : List Grant} {ownerOf : String → Option String} {u : User}
    {sid : String} (hu : u.role ≠ .admin) (hd : Denied rows u sid) :
    authorizeSource ⟨some rows, ownerOf⟩ u sid = some (refuse "explicit-deny") := by
  obtain ⟨effects, he⟩ := effectsForSource_some rows ownerOf u sid
  rw [authorizeSource_eq he, decideSingleSource_deny hu ((deny_mem_effects he).mpr hd)]

/-- **The shared index shows what the single decisions allow.** -/
lemma shared_complement {rows : List Grant} {ownerOf : String → Option String} {u : User}
    {d : ScopeDecision} (h : authorizeShared ⟨some rows, ownerOf⟩ u = some d)
    (hd : d.allowed = true) (sid : String) :
    sid ∉ d.excludedSourceIds ↔
      ∃ e, authorizeSource ⟨some rows, ownerOf⟩ u sid = some e ∧ e.allowed = true := by
  obtain ⟨effects, he⟩ := effectsForSource_some rows ownerOf u sid
  rw [authorizeSource_eq he]
  simp only [Option.some.injEq, exists_eq_left']
  unfold authorizeShared at h
  by_cases hu : u.role = .admin
  · rw [if_pos hu] at h
    cases h
    simp [decideSingleSource, hu, permit]
  rw [if_neg hu] at h
  by_cases ha : u.allAccess = true
  · rw [if_neg (by simpa using ha)] at h
    obtain ⟨denied, hq, h⟩ := Option.bind_eq_some_iff.mp h
    cases h
    rw [mem_excluded hu ha, mem_denied hq, allowed_of_allAccess hu ha, deny_mem_effects he]
  · rw [if_pos (by simpa using ha)] at h
    cases h
    exact absurd hd (by simp [refuse])

/-- **The three paths agree**: what the shared index leaves in is what the single decisions
allow, a deny overrides everything a user may have, and the lookup that is skipped would have
changed nothing. -/
theorem decisions_agree (rows : List Grant) (ownerOf : String → Option String) (u : User) :
    (∀ excluded, authorizeScope ⟨some rows, ownerOf⟩ u none = .ok (some excluded) →
      ∀ sid, sid ≠ "" →
        (sid ∉ excluded ↔ authorizeScope ⟨some rows, ownerOf⟩ u (some sid) = .ok none)) ∧
    (∀ d, authorizeShared ⟨some rows, ownerOf⟩ u = some d → d.allowed = true →
      ∀ sid, sid ∉ d.excludedSourceIds ↔
        ∃ e, authorizeSource ⟨some rows, ownerOf⟩ u sid = some e ∧ e.allowed = true) ∧
    (u.role ≠ .admin → ∀ sid, Denied rows u sid →
      authorizeSource ⟨some rows, ownerOf⟩ u sid = some (refuse "explicit-deny")) ∧
    (∀ sid effects, effectsForSource ⟨some rows, ownerOf⟩ (principalsFor u) sid = some effects →
      authorizeSource ⟨some rows, ownerOf⟩ u sid =
        some (decideSingleSource u effects (ownerOf sid))) := by
  refine ⟨?_, fun d h hd => shared_complement h hd, fun hu sid hd => denied_refused hu hd,
    fun sid effects he => authorizeSource_eq he⟩
  intro excluded h sid hsid
  simp only [authorizeScope, Option.filter_none] at h
  cases hs : authorizeShared ⟨some rows, ownerOf⟩ u with
  | none => simp [hs] at h
  | some d =>
    by_cases hd : d.allowed = true
    · simp only [hs, hd, if_true, Except.ok.injEq, Option.some.injEq] at h
      subst h
      rw [shared_complement hs hd]
      cases ha : authorizeSource ⟨some rows, ownerOf⟩ u sid with
      | none => simp [authorizeScope, Option.filter, hsid, ha]
      | some e => by_cases he : e.allowed = true <;>
          simp [authorizeScope, Option.filter, hsid, ha, he]
    · simp [hs, hd] at h

/-- An agent with access to everything, carved out of one source by its group. -/
theorem agent_carved_out :
    let rows : List Grant := [⟨.group, "ci", "secrets", .deny⟩]
    let agent : User := ⟨"agent", .user, true, ["ci"]⟩
    authorizeSource ⟨some rows, fun _ => some "agent"⟩ agent "secrets" =
        some (refuse "explicit-deny") ∧
      ("secrets" ∉ ["secrets"] ↔
        authorizeScope ⟨some rows, fun _ => some "agent"⟩ agent (some "secrets") = .ok none) := by
  intro rows agent
  have h := decisions_agree rows (fun _ => some "agent") agent
  exact ⟨h.2.2.1 (by decide) "secrets" ⟨(.group, "ci"), by decide, by decide⟩,
    h.1 ["secrets"] (by rfl) "secrets" (by decide)⟩

end Treeweft.AccessDecision
