import Treeweft.ScopedRole

/-!
The routes that the middleware skips, and the helper that authenticates their callers instead.

The helper knows the session cookie and a user's own key. The middleware knows personal tokens
and API keys as well, and looks for them first.
-/

namespace Treeweft.SkippedRoutes

open Treeweft.Auth Treeweft.ScopedRole

/-- `_require_authenticated_user`: `attached` is what the middleware left on the request, nothing
on a route it skips. No principal at all where authentication is off. -/
def requireAuthenticatedUser (authEnabled : Bool) (w : World) (now : ℕ)
    (attached : Option Principal) (cookie bearer : Option ℕ) : Except ℕ (Option Principal) :=
  if !authEnabled then .ok none
  else
    match attached with
    | some p => .ok (some p)
    | none =>
      match cookie.bind (sessionCaller w now) with
      | some c => .ok (some c.1)
      | none =>
        match bearer with
        | none => .error 401
        | some token =>
          match legacyCaller w token with
          | none => .error 401
          | some c => .ok (some c.1)

/-- Both accept the request, as the same principal, or both refuse it. -/
def Agree (w : World) (now : ℕ) (cookie bearer : Option ℕ) : Prop :=
  ∀ p, requireAuthenticatedUser true w now none cookie bearer = .ok (some p) ↔
    ∃ scopes, authenticate w now cookie bearer = some (p, scopes)

/-- A row of the token store accepts the token, and its active owner acts with its scopes. -/
def PatFor (w : World) (now token : ℕ) (p : Principal) : Prop :=
  ∃ t, w.tokens.get? token = some t ∧ t.revoked = false ∧ live now t.expiresAt = true ∧
    ∃ u, w.users.get? t.userId = some u ∧ u.active = true ∧ p = ⟨.user u.id, roleOf t.scopes⟩

/-- A row of the key store accepts the token; it has no owner, or an active one. -/
def KeyFor (w : World) (now token : ℕ) (p : Principal) : Prop :=
  ∃ k, w.apiKeys.get? token = some k ∧ k.revoked = false ∧ live now k.expiresAt = true ∧
    (k.createdBy = none ∧ p = ⟨.apikey k.id, roleOf k.scopes⟩ ∨
      ∃ i u, k.createdBy = some i ∧ getById w i = some u ∧ u.active = true ∧
        p = ⟨.user u.id, roleOf k.scopes⟩)

/-- The token is the own key of an active user. -/
def OwnKeyFor (w : World) (token : ℕ) (p : Principal) : Prop :=
  ∃ u, w.users.rows.find? (fun u => u.apiKeyHash = token ∧ u.active) = some u ∧
    p = ⟨.user u.id, u.role⟩

/-- The token is no accepted personal token or API key, unless it is at the same time the own key
of the principal that it stands for. -/
def Plain (w : World) (now token : ℕ) : Prop :=
  (∀ p, PatFor w now token p → OwnKeyFor w token p) ∧
    ∀ p, (∀ q, ¬PatFor w now token q) → KeyFor w now token p → OwnKeyFor w token p

section Paths
variable {w : World} {now : ℕ}

lemma bearerCaller_eq (token : ℕ) :
    bearerCaller w now token =
      (scopedCaller w now token).orElse fun _ => legacyCaller w token := by
  unfold bearerCaller scopedCaller
  cases patCaller w now token <;> rfl

lemma patFor_iff {token : ℕ} {p : Principal} :
    PatFor w now token p ↔ ∃ scopes, patCaller w now token = some (p, scopes) := by
  simp only [PatFor, patCaller, deriveScopedPrincipal, principalOf, Option.bind_eq_bind,
    Option.bind_eq_some_iff, Option.guard_eq_some', Bool.and_eq_true, Bool.not_eq_true',
    Option.some.injEq, Prod.mk.injEq]
  constructor
  · rintro ⟨t, ht, hr, hl, u, hu, ha, rfl⟩
    exact ⟨t.scopes, t, ht, (), ⟨hr, hl⟩, u, hu, (), ha, rfl, rfl⟩
  · rintro ⟨-, t, ht, -, ⟨hr, hl⟩, u, hu, -, ha, rfl, rfl⟩
    exact ⟨t, ht, hr, hl, u, hu, ha, rfl⟩

lemma keyFor_iff {token : ℕ} {p : Principal} :
    KeyFor w now token p ↔ ∃ scopes, apiKeyCaller w now token = some (p, scopes) := by
  simp only [KeyFor, apiKeyCaller, Option.bind_eq_bind, Option.bind_eq_some_iff,
    Option.guard_eq_some', Bool.and_eq_true, Bool.not_eq_true']
  constructor
  · rintro ⟨k, hk, hr, hl, ⟨hc, rfl⟩ | ⟨i, u, hc, hu, ha, rfl⟩⟩
    · exact ⟨k.scopes, k, hk, (), ⟨hr, hl⟩, by rw [hc]⟩
    · refine ⟨k.scopes, k, hk, (), ⟨hr, hl⟩, ?_⟩
      rw [hc]
      simp [hu, ha, deriveScopedPrincipal, principalOf]
  · rintro ⟨scopes, k, hk, -, ⟨hr, hl⟩, h⟩
    refine ⟨k, hk, hr, hl, ?_⟩
    cases hc : k.createdBy with
    | none =>
      simp only [hc, Option.some.injEq, Prod.mk.injEq] at h
      exact .inl ⟨rfl, h.1.symm⟩
    | some i =>
      simp only [hc, Option.bind_eq_some_iff, Option.guard_eq_some', Option.some.injEq,
        Prod.mk.injEq, deriveScopedPrincipal, principalOf] at h
      obtain ⟨u, hu, -, ha, rfl, -⟩ := h
      exact .inr ⟨i, u, rfl, hu, ha, rfl⟩

lemma ownKeyFor_iff {token : ℕ} {p : Principal} :
    OwnKeyFor w token p ↔ ∃ scopes, legacyCaller w token = some (p, scopes) := by
  simp only [OwnKeyFor, legacyCaller, principalOf, Option.bind_eq_bind, Option.bind_eq_some_iff,
    Option.some.injEq, Prod.mk.injEq]
  constructor
  · rintro ⟨u, hu, rfl⟩
    exact ⟨_, u, hu, rfl, rfl⟩
  · rintro ⟨-, u, hu, rfl, -⟩
    exact ⟨u, hu, rfl⟩

/-- Whoever the third or the fourth step accepts is the principal of the own key. -/
lemma plain_iff {token : ℕ} :
    Plain w now token ↔ ∀ p scopes, scopedCaller w now token = some (p, scopes) →
      ∃ scopes', legacyCaller w token = some (p, scopes') := by
  unfold Plain scopedCaller
  simp only [patFor_iff, keyFor_iff, ownKeyFor_iff]
  cases hp : patCaller w now token with
  | some c =>
    simp only [Option.orElse_some]
    constructor
    · rintro ⟨h, -⟩ p scopes hc
      exact h p ⟨scopes, hc⟩
    · intro h
      exact ⟨fun p ⟨scopes, hc⟩ => h p scopes hc, fun p hno => absurd ⟨c.2, rfl⟩ (hno c.1)⟩
  | none => simp

lemma agree_of_cookie {cookie bearer : Option ℕ} {c : Caller}
    (h : cookie.bind (sessionCaller w now) = some c) : Agree w now cookie bearer := by
  obtain ⟨p, scopes⟩ := c
  simp [Agree, requireAuthenticatedUser, authenticate, h]

lemma agree_of_no_bearer {cookie : Option ℕ} : Agree w now cookie none := by
  intro p
  simp only [requireAuthenticatedUser, authenticate, Bool.not_true, Option.bind_none]
  cases cookie.bind (sessionCaller w now) with
  | some c =>
    obtain ⟨q, scopes⟩ := c
    simp
  | none => simp

/-- Without a session the helper reads the user's own key. -/
lemma helper_bearer {cookie : Option ℕ} {token : ℕ}
    (hc : cookie.bind (sessionCaller w now) = none) (p : Principal) :
    requireAuthenticatedUser true w now none cookie (some token) = .ok (some p) ↔
      ∃ scopes, legacyCaller w token = some (p, scopes) := by
  simp only [requireAuthenticatedUser, Bool.not_true, hc]
  cases legacyCaller w token with
  | none => simp
  | some c =>
    obtain ⟨q, scopes⟩ := c
    simp

/-- Without a session the middleware reads the three kinds of tokens. -/
lemma middleware_bearer {cookie : Option ℕ} {token : ℕ}
    (hc : cookie.bind (sessionCaller w now) = none) :
    authenticate w now cookie (some token) =
      (scopedCaller w now token).orElse fun _ => legacyCaller w token := by
  simp [authenticate, hc, bearerCaller_eq]

lemma agree_bearer_iff {cookie : Option ℕ} {token : ℕ}
    (hc : cookie.bind (sessionCaller w now) = none) :
    Agree w now cookie (some token) ↔ Plain w now token := by
  rw [plain_iff]
  unfold Agree
  simp only [helper_bearer hc, middleware_bearer hc]
  cases hs : scopedCaller w now token with
  | none => simp
  | some c =>
    obtain ⟨q, scopes⟩ := c
    simp only [Option.orElse_some, Option.some.injEq, Prod.mk.injEq]
    constructor
    · rintro h p sc ⟨rfl, rfl⟩
      exact (h q).mpr ⟨scopes, rfl, rfl⟩
    · intro h p
      constructor
      · rintro ⟨sc, hl⟩
        obtain ⟨sc', hl'⟩ := h q scopes ⟨rfl, rfl⟩
        rw [hl] at hl'
        cases hl'
        exact ⟨scopes, rfl, rfl⟩
      · rintro ⟨sc, rfl, rfl⟩
        exact h q scopes ⟨rfl, rfl⟩

end Paths

/-- **When the two lookups agree**: the cookie decides, or there is no bearer token, or the token
is one that only the last step of the middleware's lookup knows. -/
theorem agree_iff (w : World) (now : ℕ) (cookie bearer : Option ℕ) :
    Agree w now cookie bearer ↔
      (cookie.bind (sessionCaller w now)).isSome ∨ ∀ token, bearer = some token →
        Plain w now token := by
  cases hc : cookie.bind (sessionCaller w now) with
  | some c => simp [agree_of_cookie hc]
  | none =>
    cases bearer with
    | none => simp [agree_of_no_bearer]
    | some token => simp [agree_bearer_iff hc]

/-- A user with a personal token. -/
def withPat : World where
  users := ⟨[⟨0, "ann", "", 7, .user, true, none⟩], by decide⟩
  tokens := ⟨[⟨1, 0, 5, ["search"], none, false⟩], by decide⟩
  apiKeys := .empty
  sessions := .empty
  next := 2

/-- The middleware accepts the personal token, the helper answers 401. -/
theorem pat_refused : ¬ ∀ w now cookie bearer, Agree w now cookie bearer := by
  intro h
  have hp := (h withPat 0 none (some 5) ⟨.user 0, .user⟩).mpr ⟨["search"], by rfl⟩
  exact absurd hp (by decide)

end Treeweft.SkippedRoutes
