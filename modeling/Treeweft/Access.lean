import Treeweft.Auth
import Treeweft.GraphStore

/-!
Which sources a caller may read, and the scope a search runs in.

A query is refused or let through as a whole. One that names a source is decided for that
source; one that does not needs access to everything and carries the denied sources with it as
an exclusion.
-/

namespace Treeweft.Access

open Treeweft.Auth (Role)
open Treeweft.GraphStore (Scope)

/-- A user as authorization sees it: `allAccess` is its own flag or that of one of its groups. -/
structure User where
  id : String
  role : Role
  allAccess : Bool
  groupIds : List String
  deriving DecidableEq, Repr

inductive PrincipalType
  | user | group
  deriving DecidableEq, Repr

inductive Effect
  | allow | deny
  deriving DecidableEq, Repr

structure Grant where
  principalType : PrincipalType
  principalId : String
  sourceId : String
  effect : Effect
  deriving DecidableEq, Repr

def principalsFor (u : User) : List (PrincipalType × String) :=
  (.user, u.id) :: u.groupIds.map fun g => (.group, g)

def effectsForSource (grants : List Grant) (u : User) (sid : String) : List Effect :=
  (grants.filter fun g =>
    (g.principalType, g.principalId) ∈ principalsFor u ∧ g.sourceId = sid).map Grant.effect

def deniedSources (grants : List Grant) (u : User) : List String :=
  (grants.filter fun g =>
    (g.principalType, g.principalId) ∈ principalsFor u ∧ g.effect = .deny).map Grant.sourceId

/-- Admin, deny, all access, allow, owner, in this order. -/
def decideSingleSource (u : User) (effects : List Effect) (ownerId : Option String) : Bool :=
  if u.role = .admin then true
  else if .deny ∈ effects then false
  else if u.allAccess then true
  else if .allow ∈ effects then true
  else ownerId = some u.id

/-- `none` refuses; else the sources to exclude. -/
def decideShared (u : User) (denied : List String) : Option (List String) :=
  if u.role = .admin then some []
  else if u.allAccess then some denied
  else none

/-- The grants and the owners of sources; `none` where the grant store can not answer. -/
structure Grants where
  grants : Option (List Grant)
  ownerOf : String → Option String

/-- `_authorize_scope_decide`: the scope the search runs in, or the status it is refused with. -/
def authorizeScope (gr : Grants) (u : User) (sourceId : Option String) : Except ℕ Scope :=
  match sourceId with
  | some sid =>
    if u.role = .admin then .ok ⟨some sid, []⟩
    else
      match gr.grants with
      | none => .error 503
      | some grants =>
        if decideSingleSource u (effectsForSource grants u sid) (gr.ownerOf sid) then
          .ok ⟨some sid, []⟩
        else .error 403
  | none =>
    if u.role = .admin then .ok ⟨none, []⟩
    else if u.allAccess then
      match gr.grants with
      | none => .error 503
      | some grants =>
        match decideShared u (deniedSources grants u) with
        | some denied => .ok ⟨none, denied⟩
        | none => .error 403
    else .error 403

/-- The caller may read the source. -/
def mayRead (gr : Grants) (u : User) (sid : String) : Bool :=
  decideSingleSource u (effectsForSource (gr.grants.getD []) u sid) (gr.ownerOf sid)

lemma deny_mem_effects {grants : List Grant} {u : User} {sid : String} :
    .deny ∈ effectsForSource grants u sid ↔ sid ∈ deniedSources grants u := by
  simp only [effectsForSource, deniedSources, List.mem_map, List.mem_filter, decide_eq_true_eq]
  constructor
  · rintro ⟨g, ⟨hg, hp, rfl⟩, he⟩
    exact ⟨g, ⟨hg, hp, he⟩, rfl⟩
  · rintro ⟨g, ⟨hg, hp, he⟩, rfl⟩
    exact ⟨g, ⟨hg, hp, rfl⟩, he⟩

/-- **The scope is right**: a pinned source is readable, and in a shared query a source is
readable exactly when it is not excluded. -/
lemma authorizeScope_spec {gr : Grants} {u : User} {sourceId : Option String} {sc : Scope}
    (h : authorizeScope gr u sourceId = .ok sc) :
    (∃ sid, sc = ⟨some sid, []⟩ ∧ mayRead gr u sid = true) ∨
      (sc.sourceId = none ∧ ∀ sid, mayRead gr u sid = true ↔ sid ∉ sc.exclude) := by
  unfold authorizeScope at h
  cases sourceId with
  | some sid =>
    dsimp only at h
    split at h
    · rename_i hadm
      cases h
      exact .inl ⟨sid, rfl, by simp [mayRead, decideSingleSource, hadm]⟩
    · split at h
      · cases h
      · rename_i grants hg
        split at h
        · rename_i hd
          cases h
          exact .inl ⟨sid, rfl, by simpa [mayRead, hg] using hd⟩
        · cases h
  | none =>
    dsimp only at h
    split at h
    · rename_i hadm
      cases h
      exact .inr ⟨rfl, fun sid => by simp [mayRead, decideSingleSource, hadm]⟩
    · rename_i hadm
      split at h
      · rename_i hall
        split at h
        · cases h
        · rename_i grants hg
          rw [decideShared, if_neg hadm, if_pos hall] at h
          cases h
          refine .inr ⟨rfl, fun sid => ?_⟩
          rw [← deny_mem_effects]
          simp [mayRead, decideSingleSource, hadm, hall, hg]
      · cases h

end Treeweft.Access
