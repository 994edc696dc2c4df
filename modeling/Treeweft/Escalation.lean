import Treeweft.Auth
import Mathlib.Data.Option.Basic

/-!
What a caller can reach who starts from one credential.

The caller holds a growing list of credentials and presents only those. What each of them could
grant is bounded over every row it might resolve to, so that revoking, rotating or deleting one
row can not uncover another; with that bound, a run stays within the scopes it started from as
long as no gate lets a minting request through that asks for more.
-/

namespace Treeweft.Escalation

open Treeweft.Auth

/-! ### Runs of one caller -/

/-- The caller a credential stands for; a password stands for the session it logs in to. -/
def presents (w : World) (now : ℕ) : Credential → Option Caller
  | .bearer s => bearerCaller w now s
  | .cookie s => sessionCaller w now s
  | .password i text => do
    let u ← w.users.get? i
    guard (u.active && u.passwordHash = some text)
    some (principalOf u, scopesForRole u.role)

/-- Whatever the credential grants is in `S`. -/
def GrantsWithin (S : List Scope) (w : World) (c : Credential) : Prop :=
  ∀ now caller, presents w now c = some caller → ∀ s ∈ caller.2, s ∈ S

def secrets (known : List Credential) : List ℕ :=
  known.filterMap fun
    | .bearer s => some s
    | .cookie s => some s
    | .password .. => none

/-- The request presents nothing but what the caller holds. -/
structure Allowed (w : World) (known : List Credential) (r : Request) : Prop where
  cookie : ∀ s, r.cookie = some s → s ∈ secrets known
  bearer : ∀ s, r.bearer = some s → s ∈ secrets known
  login : ∀ throttled ttl username password, r.endpoint = .authLogin throttled ttl username password →
    ∀ u ∈ w.users, u.username = username → u.passwordHash = some password →
      .password u.id password ∈ known
  current : ∀ target password current, r.endpoint = .setPassword target password current →
    ∀ u ∈ w.users, .user u.id = target → u.passwordHash = some current →
      .password u.id current ∈ known

/-- The scopes a request asks a new credential for, once its gate lets it through: those it
names, or those of the role the key or password will stand for. -/
def asked (w : World) (r : Request) : List Scope :=
  match authenticate w r.now r.cookie r.bearer with
  | none => []
  | some caller =>
    let ofTarget (target : PrincipalId) : List Scope :=
      match selfOrAdmin (some caller) target, getById w target with
      | .ok _, some u => scopesForRole u.role
      | _, _ => []
    match r.endpoint with
    | .createToken target scopes _ =>
      match selfOrAdmin (some caller) target with
      | .ok _ => scopes
      | .error _ => []
    | .createApiKey scopes _ =>
      match requireAdmin (some caller) with
      | .ok _ => scopes
      | .error _ => []
    | .createUser _ _ role =>
      match requireAdmin (some caller) with
      | .ok _ => scopesForRole (if role.toLower = "admin" then .admin else .user)
      | .error _ => []
    | .rotateKey target => ofTarget target
    | .setPassword target _ _ => ofTarget target
    | _ => []

/-- Every request of the run presents only what the caller holds by then. -/
def AllowedRun (w : World) (known : List Credential) : List Request → Prop
  | [] => True
  | r :: rs => Allowed w known r ∧
      AllowedRun (handle w r).1 (known ++ (handle w r).2.issued) rs

/-- No minting request that passes its gate asks for a scope outside `S`. -/
def AsksWithin (S : List Scope) (w : World) : List Request → Prop
  | [] => True
  | r :: rs => (∀ s ∈ asked w r, s ∈ S) ∧ AsksWithin S (handle w r).1 rs

/-- In every state of the run the caller's credentials grant only scopes in `S`, and an admin
gate is passed only if `S` has the admin scope. -/
def Confined (S : List Scope) (w : World) (known : List Credential) : List Request → Prop
  | [] => ∀ c ∈ known, GrantsWithin S w c
  | r :: rs => (∀ c ∈ known, GrantsWithin S w c) ∧
      ((handle w r).2.adminGate = true → "admin" ∈ S) ∧
      Confined S (handle w r).1 (known ++ (handle w r).2.issued) rs

/-! ### The bound on a credential -/

/-- What a user's own key, session or password grants is in `S`. -/
def UserWithin (S : List Scope) (u : User) : Prop :=
  u.active = true → ∀ s ∈ scopesForRole u.role, s ∈ S

/-- Every row the secret might resolve to grants only scopes in `S`. -/
structure SecretWithin (S : List Scope) (w : World) (s : ℕ) : Prop where
  pat : ∀ t ∈ w.tokens, t.tokenHash = s → ∀ x ∈ t.scopes, x ∈ S
  key : ∀ k ∈ w.apiKeys, k.tokenHash = s → ∀ x ∈ k.scopes, x ∈ S
  session : ∀ x ∈ w.sessions, x.tokenHash = s → ∀ u ∈ w.users, u.id = x.userId → UserWithin S u
  legacy : ∀ u ∈ w.users, u.apiKeyHash = s → UserWithin S u

def PasswordWithin (S : List Scope) (w : World) (i : ℕ) (text : String) : Prop :=
  ∀ u ∈ w.users, u.id = i → u.passwordHash = some text → UserWithin S u

/-- Every number in the stores was drawn before. -/
structure Drawn (w : World) : Prop where
  user : ∀ u ∈ w.users, u.id < w.next ∧ u.apiKeyHash < w.next
  pat : ∀ t ∈ w.tokens, t.tokenHash < w.next
  key : ∀ k ∈ w.apiKeys, k.tokenHash < w.next
  session : ∀ x ∈ w.sessions, x.tokenHash < w.next ∧ x.userId < w.next

/-- The state of a run that has stayed within `S`. -/
structure Inv (S : List Scope) (w : World) (known : List Credential) : Prop where
  drawn : Drawn w
  below : ∀ s ∈ secrets known, s < w.next
  passwords : ∀ i text, .password i text ∈ known → i < w.next
  secret : ∀ s ∈ secrets known, SecretWithin S w s
  password : ∀ i text, .password i text ∈ known → PasswordWithin S w i text

lemma mem_secrets {known : List Credential} {s : ℕ} :
    s ∈ secrets known ↔ .bearer s ∈ known ∨ .cookie s ∈ known := by
  simp only [secrets, List.mem_filterMap]
  constructor
  · rintro ⟨c, hc, h⟩
    cases c <;> simp at h <;> subst h
    · exact .inl hc
    · exact .inr hc
  · rintro (h | h)
    · exact ⟨_, h, rfl⟩
    · exact ⟨_, h, rfl⟩

section Bound
variable {S : List Scope} {w w' : World} {known : List Credential}

/-- What is bounded stays bounded when every row an old secret or id can reach comes from a row
it could reach before. -/
lemma Inv.mono (h : Inv S w known) (hn : w.next ≤ w'.next) (hd : Drawn w')
    (hpat : ∀ t ∈ w'.tokens, t.tokenHash < w.next →
      ∃ t₀ ∈ w.tokens, t₀.tokenHash = t.tokenHash ∧ t₀.scopes = t.scopes)
    (hkey : ∀ k ∈ w'.apiKeys, k.tokenHash < w.next →
      ∃ k₀ ∈ w.apiKeys, k₀.tokenHash = k.tokenHash ∧ k₀.scopes = k.scopes)
    (hses : ∀ x ∈ w'.sessions, x.tokenHash < w.next → x ∈ w.sessions)
    (huser : ∀ u ∈ w'.users, u.id < w.next →
      ∃ u₀ ∈ w.users, u₀.id = u.id ∧ (UserWithin S u₀ → UserWithin S u))
    (hown : ∀ u ∈ w'.users, u.apiKeyHash < w.next →
      ∃ u₀ ∈ w.users, u₀.apiKeyHash = u.apiKeyHash ∧ (UserWithin S u₀ → UserWithin S u))
    (hpw : ∀ u ∈ w'.users, u.id < w.next → UserWithin S u ∨
      ∃ u₀ ∈ w.users, u₀.id = u.id ∧ u₀.passwordHash = u.passwordHash ∧
        (UserWithin S u₀ → UserWithin S u)) : Inv S w' known := by
  refine ⟨hd, fun s hs => Nat.lt_of_lt_of_le (h.below s hs) hn,
    fun i text hi => Nat.lt_of_lt_of_le (h.passwords i text hi) hn, fun s hs => ?_, fun i text hi => ?_⟩
  · have hlt := h.below s hs
    have hsec := h.secret s hs
    refine ⟨fun t ht hts => ?_, fun k hk hks => ?_, fun x hx hxs u hu hid => ?_,
      fun u hu hus => ?_⟩
    · obtain ⟨t₀, ht₀, heq, hsc⟩ := hpat t ht (hts ▸ hlt)
      exact hsc ▸ hsec.pat t₀ ht₀ (heq.trans hts)
    · obtain ⟨k₀, hk₀, heq, hsc⟩ := hkey k hk (hks ▸ hlt)
      exact hsc ▸ hsec.key k₀ hk₀ (heq.trans hks)
    · have hx₀ := hses x hx (hxs ▸ hlt)
      obtain ⟨u₀, hu₀, heq, himp⟩ := huser u hu (hid ▸ (h.drawn.session x hx₀).2)
      exact himp (hsec.session x hx₀ hxs u₀ hu₀ (heq.trans hid))
    · obtain ⟨u₀, hu₀, heq, himp⟩ := hown u hu (hus ▸ hlt)
      exact himp (hsec.legacy u₀ hu₀ (heq.trans hus))
  · intro u hu hid htext
    rcases hpw u hu (hid ▸ h.passwords i text hi) with hw | ⟨u₀, hu₀, heq, hpwd, himp⟩
    · exact hw
    · exact himp (h.password i text hi u₀ hu₀ (heq.trans hid) (hpwd.trans htext))

/-- A credential that is itself within bounds may be handed out. -/
lemma Inv.issue (h : Inv S w known) {s : ℕ} {c : Credential} (hc : c = .bearer s ∨ c = .cookie s)
    (hlt : s < w.next) (hs : SecretWithin S w s) : Inv S w (known ++ [c]) := by
  have hsec : ∀ t, t ∈ secrets (known ++ [c]) → t ∈ secrets known ∨ t = s := by
    intro t ht
    simp only [mem_secrets, List.mem_append, List.mem_singleton] at ht ⊢
    rcases hc with rfl | rfl <;> simp at ht <;> tauto
  have hpw : ∀ i text, .password i text ∈ known ++ [c] → .password i text ∈ known := by
    intro i text hi
    rcases List.mem_append.1 hi with hi | hi
    · exact hi
    · rcases hc with rfl | rfl <;> simp at hi
  refine ⟨h.drawn, fun t ht => ?_, fun i text hi => h.passwords i text (hpw i text hi),
    fun t ht => ?_, fun i text hi => h.password i text (hpw i text hi)⟩
  · rcases hsec t ht with ht | rfl
    · exact h.below t ht
    · exact hlt
  · rcases hsec t ht with ht | rfl
    · exact h.secret t ht
    · exact hs

lemma Inv.issuePassword (h : Inv S w known) {i : ℕ} {text : String} (hlt : i < w.next)
    (hp : PasswordWithin S w i text) : Inv S w (known ++ [.password i text]) := by
  have hsec : secrets (known ++ [.password i text]) = secrets known := by
    simp [secrets, List.filterMap_append]
  refine ⟨h.drawn, hsec ▸ h.below, fun j t hj => ?_, hsec ▸ h.secret, fun j t hj => ?_⟩
  · rcases List.mem_append.1 hj with hj | hj
    · exact h.passwords j t hj
    · simp only [List.mem_singleton, Credential.password.injEq] at hj
      exact hj.1 ▸ hlt
  · rcases List.mem_append.1 hj with hj | hj
    · exact h.password j t hj
    · simp only [List.mem_singleton, Credential.password.injEq] at hj
      rw [hj.1, hj.2]
      exact hp

/-- Nothing resolves a number that was not drawn yet. -/
lemma Drawn.secretWithin (h : Drawn w) {s : ℕ} (hs : w.next ≤ s) : SecretWithin S w s := by
  refine ⟨fun t ht e => ?_, fun k hk e => ?_, fun x hx e => ?_, fun u hu e => ?_⟩
  · have := h.pat t ht
    omega
  · have := h.key k hk
    omega
  · have := (h.session x hx).1
    omega
  · have := (h.user u hu).2
    omega

lemma Inv.nil (h : Inv S w known) : Inv S w (known ++ []) := by rwa [List.append_nil]

end Bound

/-! ### What a bounded credential presents -/

section Present
variable {S : List Scope} {w : World} {known : List Credential}

lemma patCaller_scopes {now : ℕ} {s : ℕ} {c : Caller} (h : patCaller w now s = some c) :
    ∃ t ∈ w.tokens, t.tokenHash = s ∧ c.2 = t.scopes := by
  simp only [patCaller, Option.bind_eq_bind, Option.bind_eq_some_iff, Option.guard_eq_some',
    Option.some.injEq] at h
  obtain ⟨t, ht, -, -, u, -, -, -, rfl⟩ := h
  obtain ⟨ht, hts⟩ := Keyed.get?_eq_some.1 ht
  exact ⟨t, ht, hts, rfl⟩

lemma apiKeyCaller_scopes {now : ℕ} {s : ℕ} {c : Caller}
    (h : apiKeyCaller w now s = some c) : ∃ k ∈ w.apiKeys, k.tokenHash = s ∧ c.2 = k.scopes := by
  simp only [apiKeyCaller, Option.bind_eq_bind, Option.bind_eq_some_iff,
    Option.guard_eq_some'] at h
  obtain ⟨k, hk, -, -, h⟩ := h
  obtain ⟨hk, hks⟩ := Keyed.get?_eq_some.1 hk
  refine ⟨k, hk, hks, ?_⟩
  split at h
  · simp only [Option.bind_eq_some_iff, Option.guard_eq_some', Option.some.injEq] at h
    obtain ⟨u, -, -, -, rfl⟩ := h
    rfl
  · cases h
    rfl

lemma sessionCaller_scopes {now : ℕ} {s : ℕ} {c : Caller}
    (h : sessionCaller w now s = some c) : ∃ x ∈ w.sessions, x.tokenHash = s ∧
      ∃ u ∈ w.users, u.id = x.userId ∧ u.active = true ∧ c.2 = scopesForRole u.role := by
  simp only [sessionCaller, Option.bind_eq_bind, Option.bind_eq_some_iff, Option.guard_eq_some',
    Option.some.injEq] at h
  obtain ⟨x, hx, -, -, u, hu, -, hact, rfl⟩ := h
  obtain ⟨hx, hxs⟩ := Keyed.get?_eq_some.1 hx
  obtain ⟨hu, hid⟩ := Keyed.get?_eq_some.1 hu
  exact ⟨x, hx, hxs, u, hu, hid, hact, rfl⟩

lemma legacyCaller_scopes {s : ℕ} {c : Caller} (h : legacyCaller w s = some c) :
    ∃ u ∈ w.users, u.apiKeyHash = s ∧ u.active = true ∧ c.2 = scopesForRole u.role := by
  simp only [legacyCaller, Option.bind_eq_bind, Option.bind_eq_some_iff, Option.some.injEq] at h
  obtain ⟨u, hu, rfl⟩ := h
  have hp := List.find?_some hu
  simp only [decide_eq_true_eq] at hp
  exact ⟨u, List.mem_of_find?_eq_some hu, hp.1, hp.2, rfl⟩

lemma bearerCaller_cases {now : ℕ} {s : ℕ} {c : Caller} (h : bearerCaller w now s = some c) :
    patCaller w now s = some c ∨ apiKeyCaller w now s = some c ∨ legacyCaller w s = some c := by
  unfold bearerCaller at h
  cases h1 : patCaller w now s with
  | some d => rw [h1] at h; exact .inl h
  | none =>
    rw [h1] at h
    cases h2 : apiKeyCaller w now s with
    | some d => rw [h2] at h; exact .inr (.inl h)
    | none => rw [h2] at h; exact .inr (.inr h)

lemma SecretWithin.bearer {s : ℕ} (h : SecretWithin S w s) {now : ℕ} {c : Caller}
    (hc : bearerCaller w now s = some c) : ∀ x ∈ c.2, x ∈ S := by
  rcases bearerCaller_cases hc with hc | hc | hc
  · obtain ⟨t, ht, hts, hsc⟩ := patCaller_scopes hc
    exact hsc ▸ h.pat t ht hts
  · obtain ⟨k, hk, hks, hsc⟩ := apiKeyCaller_scopes hc
    exact hsc ▸ h.key k hk hks
  · obtain ⟨u, hu, hus, hact, hsc⟩ := legacyCaller_scopes hc
    exact hsc ▸ h.legacy u hu hus hact

lemma SecretWithin.cookie {s : ℕ} (h : SecretWithin S w s) {now : ℕ} {c : Caller}
    (hc : sessionCaller w now s = some c) : ∀ x ∈ c.2, x ∈ S := by
  obtain ⟨x, hx, hxs, u, hu, hid, hact, hsc⟩ := sessionCaller_scopes hc
  exact hsc ▸ h.session x hx hxs u hu hid hact

/-- Whatever a caller within bounds presents, it acts with scopes in `S`. -/
lemma Inv.caller (h : Inv S w known) {r : Request} (ha : Allowed w known r) {c : Caller}
    (hc : authenticate w r.now r.cookie r.bearer = some c) : ∀ x ∈ c.2, x ∈ S := by
  unfold authenticate at hc
  cases h1 : r.cookie.bind (sessionCaller w r.now) with
  | some d =>
    rw [h1] at hc
    obtain ⟨s, hs, hd⟩ := Option.bind_eq_some_iff.1 h1
    cases Option.some.inj hc
    exact (h.secret s (ha.cookie s hs)).cookie hd
  | none =>
    rw [h1] at hc
    obtain ⟨s, hs, hd⟩ := Option.bind_eq_some_iff.1 hc
    exact (h.secret s (ha.bearer s hs)).bearer hd

lemma Inv.grantsWithin (h : Inv S w known) : ∀ c ∈ known, GrantsWithin S w c := by
  intro c hc now caller hp
  cases c with
  | bearer s => exact (h.secret s (mem_secrets.2 (.inl hc))).bearer hp
  | cookie s => exact (h.secret s (mem_secrets.2 (.inr hc))).cookie hp
  | password i text =>
    simp only [presents, Option.bind_eq_bind, Option.bind_eq_some_iff, Option.guard_eq_some',
      Option.some.injEq, Bool.and_eq_true, decide_eq_true_eq] at hp
    obtain ⟨u, hu, -, ⟨hact, hpw⟩, rfl⟩ := hp
    obtain ⟨hu, hid⟩ := Keyed.get?_eq_some.1 hu
    exact h.password i text hc u hu hid hpw hact

end Present

/-! ### One request -/

section Endpoints
variable {S : List Scope} {w : World} {known : List Credential} {c : Caller}

/-- What a reply leaves: the bound on everything the caller holds by then, and the admin scope if
an admin gate let it through. -/
structure Safe (S : List Scope) (known : List Credential) (x : World × Reply) : Prop where
  inv : Inv S x.1 (known ++ x.2.issued)
  gate : x.2.adminGate = true → "admin" ∈ S

lemma requireAdmin_ok (h : requireAdmin (some c) = .ok ()) : "admin" ∈ c.2 := by
  unfold requireAdmin at h
  dsimp only at h
  split at h
  · cases h
  · split at h
    · cases h
    · rename_i hm
      exact Classical.not_not.1 hm

lemma selfOrAdmin_ok {target : PrincipalId} {gate : Bool}
    (h : selfOrAdmin (some c) target = .ok gate) (hg : gate = true) : "admin" ∈ c.2 := by
  subst hg
  unfold selfOrAdmin at h
  dsimp only at h
  split at h
  · cases h
  · split at h
    · rename_i hact
      simp only [actingAsAdmin, Bool.and_eq_true, decide_eq_true_eq] at hact
      exact hact.2
    · cases h

/-- A reply that issues nothing and leaves the stores alone. -/
lemma Inv.same (h : Inv S w known) {status : ℕ} {gate : Bool} (hg : gate = true → "admin" ∈ S) :
    Safe S known (w, ⟨status, [], gate⟩) := ⟨h.nil, hg⟩

lemma Inv.refuse (h : Inv S w known) (status : ℕ) : Safe S known (refuse w status) :=
  h.same (by simp)

/-- Rewriting one user's row without its key, its password or what they grant. -/
lemma Inv.updateUser (h : Inv S w known) {i : ℕ} {f : User → User}
    (hkey : ∀ u, (f u).apiKeyHash = u.apiKeyHash) (hpw : ∀ u, (f u).passwordHash = u.passwordHash)
    (hw : ∀ u ∈ w.users, u.id = i → UserWithin S u → UserWithin S { f u with id := u.id }) :
    Inv S (updateUser w i f) known := by
  have hfix : (Auth.updateUser w i f).next = w.next ∧ (Auth.updateUser w i f).tokens = w.tokens ∧
      (Auth.updateUser w i f).apiKeys = w.apiKeys ∧
      (Auth.updateUser w i f).sessions = w.sessions := by
    unfold Auth.updateUser
    cases w.users.get? i <;> exact ⟨rfl, rfl, rfl, rfl⟩
  obtain ⟨hnext, htok, hkeys, hses⟩ := hfix
  have hrow : ∀ u ∈ (Auth.updateUser w i f).users, ∃ u₀ ∈ w.users, u₀.id = u.id ∧
      u₀.apiKeyHash = u.apiKeyHash ∧ u₀.passwordHash = u.passwordHash ∧
      (UserWithin S u₀ → UserWithin S u) := by
    intro u hu
    rcases mem_updateUser.1 hu with ⟨hu, -⟩ | ⟨u₀, hu₀, hid, rfl⟩
    · exact ⟨u, hu, rfl, rfl, rfl, id⟩
    · exact ⟨u₀, hu₀, rfl, (hkey u₀).symm, (hpw u₀).symm, hw u₀ hu₀ hid⟩
  refine h.mono (Nat.le_of_eq hnext.symm) ⟨fun u hu => ?_, ?_, ?_, ?_⟩ ?_ ?_ ?_ ?_ ?_ ?_
  · obtain ⟨u₀, hu₀, hid, hk, -⟩ := hrow u hu
    rw [hnext, ← hid, ← hk]
    exact h.drawn.user u₀ hu₀
  · rw [htok, hnext]; exact h.drawn.pat
  · rw [hkeys, hnext]; exact h.drawn.key
  · rw [hses, hnext]; exact h.drawn.session
  · rw [htok]; exact fun t ht _ => ⟨t, ht, rfl, rfl⟩
  · rw [hkeys]; exact fun k hk _ => ⟨k, hk, rfl, rfl⟩
  · rw [hses]; exact fun x hx _ => hx
  · intro u hu _
    obtain ⟨u₀, hu₀, hid, -, -, himp⟩ := hrow u hu
    exact ⟨u₀, hu₀, hid, himp⟩
  · intro u hu _
    obtain ⟨u₀, hu₀, -, hk, -, himp⟩ := hrow u hu
    exact ⟨u₀, hu₀, hk, himp⟩
  · intro u hu _
    obtain ⟨u₀, hu₀, hid, -, hp, himp⟩ := hrow u hu
    exact .inr ⟨u₀, hu₀, hid, hp, himp⟩

lemma safe_deleteUser (h : Inv S w known) (hc : ∀ x ∈ c.2, x ∈ S) (target : PrincipalId) :
    Safe S known (deleteUser w (some c) target) := by
  unfold deleteUser
  split
  · exact h.refuse _
  · rename_i hadm
    have hS := hc _ (requireAdmin_ok hadm)
    split
    · exact h.same fun _ => hS
    · refine ⟨Inv.nil (Inv.updateUser h ?_ ?_ ?_), fun _ => hS⟩
      · exact fun _ => rfl
      · exact fun _ => rfl
      · exact fun u _ _ _ hact => by cases hact

/-- A user whose role changes: only an admin does this, and its scopes are the admin's and those
the user's credentials granted before. -/
lemma safe_setUserRole (h : Inv S w known) (hc : ∀ x ∈ c.2, x ∈ S) (target : PrincipalId)
    (role : Role) : Safe S known (setUserRole w (some c) target role) := by
  unfold setUserRole
  split
  · exact h.refuse _
  · rename_i hadm
    have hS := hc _ (requireAdmin_ok hadm)
    split
    · exact h.same fun _ => hS
    · refine ⟨Inv.nil (Inv.updateUser h ?_ ?_ ?_), fun _ => hS⟩
      · exact fun _ => rfl
      · exact fun _ => rfl
      · intro u _ _ hu hact s hs
        have hu := hu hact
        have hsearch : "search" ∈ S := hu _ (by cases u.role <;> simp [scopesForRole])
        have hindex : "index" ∈ S := hu _ (by cases u.role <;> simp [scopesForRole])
        have hsub : s = "search" ∨ s = "index" ∨ s = "admin" := by
          cases role <;> simp [scopesForRole] at hs <;> tauto
        rcases hsub with rfl | rfl | rfl
        · exact hsearch
        · exact hindex
        · exact hS

lemma inv_addUser (h : Inv S w known) {username email : String} {role : Role} :
    Inv S { w with
      users := w.users.put ⟨w.next, username, email, w.next + 1, role, true, none⟩
      next := w.next + 2 } known := by
  have hd := h.drawn
  have hold : ∀ u ∈ w.users.put ⟨w.next, username, email, w.next + 1, role, true, none⟩,
      u.id < w.next ∨ u.apiKeyHash < w.next → u ∈ w.users := by
    intro u hu hlt
    rcases Keyed.mem_put.1 hu with rfl | ⟨hu, -⟩
    · simp only [Nat.lt_irrefl, false_or] at hlt
      omega
    · exact hu
  refine h.mono (Nat.le_add_right _ 2) ⟨?_, ?_, ?_, ?_⟩
    (fun t ht _ => ⟨t, ht, rfl, rfl⟩) (fun k hk _ => ⟨k, hk, rfl, rfl⟩)
    (fun x hx _ => hx) (fun u hu hlt => ⟨u, hold u hu (.inl hlt), rfl, id⟩)
    (fun u hu hlt => ⟨u, hold u hu (.inr hlt), rfl, id⟩)
    (fun u hu hlt => .inr ⟨u, hold u hu (.inl hlt), rfl, rfl, id⟩)
  · intro u hu
    rcases Keyed.mem_put.1 hu with rfl | ⟨hu, -⟩
    · exact ⟨by simp, by simp⟩
    · have := hd.user u hu
      exact ⟨by simp only; omega, by simp only; omega⟩
  · exact fun t ht => Nat.lt_add_right 2 (hd.pat t ht)
  · exact fun k hk => Nat.lt_add_right 2 (hd.key k hk)
  · exact fun x hx => ⟨Nat.lt_add_right 2 (hd.session x hx).1,
      Nat.lt_add_right 2 (hd.session x hx).2⟩

lemma safe_createUser (h : Inv S w known) (hc : ∀ x ∈ c.2, x ∈ S) {username email role : String}
    (ha : requireAdmin (some c) = .ok () →
      ∀ s ∈ scopesForRole (if role.toLower = "admin" then .admin else .user), s ∈ S) :
    Safe S known (createUser w (some c) username email role) := by
  unfold createUser
  split
  · exact h.refuse _
  · rename_i hadm
    have hS := hc _ (requireAdmin_ok hadm)
    dsimp only
    split
    · exact h.same fun _ => hS
    · split
      · exact h.same fun _ => hS
      · split
        · exact h.same fun _ => hS
        · refine ⟨Inv.issue (inv_addUser h) (.inl rfl) (Nat.lt_succ_self _) ?_, fun _ => hS⟩
          have hfresh : SecretWithin S w (w.next + 1) := h.drawn.secretWithin (Nat.le_succ _)
          refine ⟨hfresh.pat, hfresh.key, fun x hx hs => ?_, fun u hu hs => ?_⟩
          · have := (h.drawn.session x hx).1
            omega
          · rcases Keyed.mem_put.1 hu with rfl | ⟨hu, -⟩
            · exact fun _ => ha hadm
            · exact hfresh.legacy u hu hs

lemma getById_some {target : PrincipalId} {u : User} (h : getById w target = some u) :
    u ∈ w.users ∧ target = .user u.id := by
  cases target with
  | user i =>
    obtain ⟨hu, rfl⟩ := Keyed.get?_eq_some.1 h
    exact ⟨hu, rfl⟩
  | apikey i => cases h

lemma updateUser_of_mem {i : ℕ} {f : User → User} {u : User} (hu : u ∈ w.users) (hi : u.id = i) :
    updateUser w i f = { w with users := w.users.put { f u with id := u.id } } := by
  subst hi
  unfold updateUser
  rw [show w.users.get? u.id = some u from Keyed.get?_of_mem hu]

/-- A user gets a key drawn now. -/
lemma inv_setKey (h : Inv S w known) {u : User} (hu : u ∈ w.users) :
    Inv S { w with
      users := w.users.put { u with apiKeyHash := w.next }
      next := w.next + 1 } known := by
  have hd := h.drawn
  have hold : ∀ v ∈ w.users.put { u with apiKeyHash := w.next }, ∃ v₀ ∈ w.users,
      v₀.id = v.id ∧ v₀.passwordHash = v.passwordHash ∧ (UserWithin S v₀ → UserWithin S v) := by
    intro v hv
    rcases Keyed.mem_put.1 hv with rfl | ⟨hv, -⟩
    · exact ⟨u, hu, rfl, rfl, id⟩
    · exact ⟨v, hv, rfl, rfl, id⟩
  refine h.mono (Nat.le_succ _) ⟨?_, ?_, ?_, ?_⟩
    (fun t ht _ => ⟨t, ht, rfl, rfl⟩) (fun k hk _ => ⟨k, hk, rfl, rfl⟩) (fun x hx _ => hx) ?_ ?_ ?_
  · intro v hv
    rcases Keyed.mem_put.1 hv with rfl | ⟨hv, -⟩
    · exact ⟨Nat.lt_succ_of_lt (hd.user u hu).1, Nat.lt_succ_self _⟩
    · exact ⟨Nat.lt_succ_of_lt (hd.user v hv).1, Nat.lt_succ_of_lt (hd.user v hv).2⟩
  · exact fun t ht => Nat.lt_succ_of_lt (hd.pat t ht)
  · exact fun k hk => Nat.lt_succ_of_lt (hd.key k hk)
  · exact fun x hx => ⟨Nat.lt_succ_of_lt (hd.session x hx).1,
      Nat.lt_succ_of_lt (hd.session x hx).2⟩
  · intro v hv _
    obtain ⟨v₀, hv₀, hid, -, himp⟩ := hold v hv
    exact ⟨v₀, hv₀, hid, himp⟩
  · intro v hv hlt
    rcases Keyed.mem_put.1 hv with rfl | ⟨hv, -⟩
    · exact absurd hlt (Nat.lt_irrefl _)
    · exact ⟨v, hv, rfl, id⟩
  · intro v hv _
    obtain ⟨v₀, hv₀, hid, hp, himp⟩ := hold v hv
    exact .inr ⟨v₀, hv₀, hid, hp, himp⟩

lemma safe_rotateKey (h : Inv S w known) (hc : ∀ x ∈ c.2, x ∈ S) {target : PrincipalId}
    (ha : ∀ gate u, selfOrAdmin (some c) target = .ok gate → getById w target = some u →
      ∀ s ∈ scopesForRole u.role, s ∈ S) :
    Safe S known (rotateKey w (some c) target) := by
  unfold rotateKey
  split
  · exact h.refuse _
  · rename_i gate hgate
    have hS : gate = true → "admin" ∈ S := fun hg => hc _ (selfOrAdmin_ok hgate hg)
    split
    · exact h.same hS
    · rename_i u hget
      obtain ⟨hu, -⟩ := getById_some hget
      rw [updateUser_of_mem hu rfl]
      refine ⟨(inv_setKey h hu).issue (.inl rfl) (Nat.lt_succ_self _) ?_, hS⟩
      have hfresh : SecretWithin S w w.next := h.drawn.secretWithin (Nat.le_refl _)
      refine ⟨hfresh.pat, hfresh.key, fun x hx hs => ?_, fun v hv hs => ?_⟩
      · have := (h.drawn.session x hx).1
        omega
      · rcases Keyed.mem_put.1 hv with rfl | ⟨hv, -⟩
        · exact fun _ => ha gate u hgate hget
        · exact hfresh.legacy v hv hs

/-- A user whose role is within bounds gets a new password, and loses the sessions. -/
lemma inv_setPassword (h : Inv S w known) {u : User} (hu : u ∈ w.users) {text : String}
    (hrole : UserWithin S u) :
    Inv S { w with
      users := w.users.put { u with passwordHash := some text }
      sessions := w.sessions.filter fun s => s.userId ≠ u.id } known := by
  have hd := h.drawn
  have hold : ∀ v ∈ w.users.put { u with passwordHash := some text }, ∃ v₀ ∈ w.users,
      v₀.id = v.id ∧ v₀.apiKeyHash = v.apiKeyHash ∧ (UserWithin S v₀ → UserWithin S v) := by
    intro v hv
    rcases Keyed.mem_put.1 hv with rfl | ⟨hv, -⟩
    · exact ⟨u, hu, rfl, rfl, id⟩
    · exact ⟨v, hv, rfl, rfl, id⟩
  refine h.mono (Nat.le_refl _) ⟨?_, hd.pat, hd.key, ?_⟩
    (fun t ht _ => ⟨t, ht, rfl, rfl⟩) (fun k hk _ => ⟨k, hk, rfl, rfl⟩) ?_ ?_ ?_ ?_
  · intro v hv
    obtain ⟨v₀, hv₀, hid, hk, -⟩ := hold v hv
    rw [← hid, ← hk]
    exact hd.user v₀ hv₀
  · exact fun x hx => hd.session x (Keyed.mem_filter.1 hx).1
  · exact fun x hx _ => (Keyed.mem_filter.1 hx).1
  · intro v hv _
    obtain ⟨v₀, hv₀, hid, -, himp⟩ := hold v hv
    exact ⟨v₀, hv₀, hid, himp⟩
  · intro v hv _
    obtain ⟨v₀, hv₀, -, hk, himp⟩ := hold v hv
    exact ⟨v₀, hv₀, hk, himp⟩
  · intro v hv _
    rcases Keyed.mem_put.1 hv with rfl | ⟨hv, -⟩
    · exact .inl hrole
    · exact .inr ⟨v, hv, rfl, rfl, id⟩

lemma safe_setPassword (h : Inv S w known) (hc : ∀ x ∈ c.2, x ∈ S) {target : PrincipalId}
    {password current : String}
    (ha : ∀ gate u, selfOrAdmin (some c) target = .ok gate → getById w target = some u →
      ∀ s ∈ scopesForRole u.role, s ∈ S) :
    Safe S known (setPassword w (some c) target password current) := by
  unfold setPassword
  split
  · exact h.refuse _
  · rename_i gate hgate
    have hS : gate = true → "admin" ∈ S := fun hg => hc _ (selfOrAdmin_ok hgate hg)
    split
    · exact h.same hS
    · split
      · exact h.same hS
      · split
        · exact h.same hS
        · rename_i u hget
          obtain ⟨hu, -⟩ := getById_some hget
          have hrole : UserWithin S u := fun _ => ha _ _ hgate hget
          rw [updateUser_of_mem hu rfl]
          refine ⟨(inv_setPassword h hu hrole).issuePassword (h.drawn.user u hu).1 ?_, hS⟩
          intro v hv hid _
          rcases Keyed.mem_put.1 hv with rfl | ⟨hv, hne⟩
          · exact hrole
          · exact absurd hid hne

/-- A token row: a new one, or an old one with fewer rights. -/
lemma inv_putToken (h : Inv S w known) {t : Pat} {n : ℕ} (hn : w.next ≤ n) (ht : t.tokenHash < n)
    (hold : t.tokenHash < w.next → ∃ t₀ ∈ w.tokens, t₀.tokenHash = t.tokenHash ∧
      t₀.scopes = t.scopes) :
    Inv S { w with tokens := w.tokens.put t, next := n } known := by
  have hd := h.drawn
  refine h.mono hn ⟨?_, ?_, ?_, ?_⟩ ?_ (fun k hk _ => ⟨k, hk, rfl, rfl⟩) (fun x hx _ => hx)
    (fun u hu _ => ⟨u, hu, rfl, id⟩) (fun u hu _ => ⟨u, hu, rfl, id⟩)
    (fun u hu _ => .inr ⟨u, hu, rfl, rfl, id⟩)
  · exact fun u hu => ⟨Nat.lt_of_lt_of_le (hd.user u hu).1 hn, Nat.lt_of_lt_of_le (hd.user u hu).2 hn⟩
  · intro t' ht'
    rcases Keyed.mem_put.1 ht' with rfl | ⟨ht', -⟩
    · exact ht
    · exact Nat.lt_of_lt_of_le (hd.pat t' ht') hn
  · exact fun k hk => Nat.lt_of_lt_of_le (hd.key k hk) hn
  · exact fun x hx => ⟨Nat.lt_of_lt_of_le (hd.session x hx).1 hn,
      Nat.lt_of_lt_of_le (hd.session x hx).2 hn⟩
  · intro t' ht' hlt
    rcases Keyed.mem_put.1 ht' with rfl | ⟨ht', -⟩
    · exact hold hlt
    · exact ⟨t', ht', rfl, rfl⟩

lemma safe_createToken (h : Inv S w known) (hc : ∀ x ∈ c.2, x ∈ S) {target : PrincipalId}
    {scopes : List Scope} {expiresAt : Option ℕ}
    (ha : ∀ gate, selfOrAdmin (some c) target = .ok gate → ∀ s ∈ scopes, s ∈ S) :
    Safe S known (createToken w (some c) target scopes expiresAt) := by
  unfold createToken
  split
  · exact h.refuse _
  · rename_i gate hgate
    have hS : gate = true → "admin" ∈ S := fun hg => hc _ (selfOrAdmin_ok hgate hg)
    split
    · exact h.same hS
    · split
      · exact h.same hS
      · refine ⟨(inv_putToken h (Nat.le_add_right _ 2) (Nat.lt_succ_self _) ?_).issue (.inl rfl)
          (Nat.lt_succ_self _) ?_, hS⟩
        · exact fun hlt => absurd hlt (by simp only; omega)
        · have hfresh : SecretWithin S w (w.next + 1) := h.drawn.secretWithin (Nat.le_succ _)
          refine ⟨fun t ht hs => ?_, hfresh.key, hfresh.session, hfresh.legacy⟩
          rcases Keyed.mem_put.1 ht with rfl | ⟨ht, -⟩
          · exact ha _ hgate
          · exact hfresh.pat t ht hs

lemma safe_revokeToken (h : Inv S w known) (hc : ∀ x ∈ c.2, x ∈ S) (target : PrincipalId)
    (tokenId : ℕ) : Safe S known (revokeToken w (some c) target tokenId) := by
  unfold revokeToken
  split
  · exact h.refuse _
  · rename_i gate hgate
    have hS : gate = true → "admin" ∈ S := fun hg => hc _ (selfOrAdmin_ok hgate hg)
    split
    · exact h.same hS
    · rename_i t hfind
      have ht : t ∈ w.tokens := List.mem_of_find?_eq_some hfind
      refine ⟨Inv.nil (inv_putToken h (Nat.le_refl _) ?_ ?_), hS⟩
      · exact h.drawn.pat t ht
      · exact fun _ => ⟨t, ht, rfl, rfl⟩

lemma inv_putApiKey (h : Inv S w known) {k : ApiKey} {n : ℕ} (hn : w.next ≤ n)
    (hk : k.tokenHash < n)
    (hold : k.tokenHash < w.next → ∃ k₀ ∈ w.apiKeys, k₀.tokenHash = k.tokenHash ∧
      k₀.scopes = k.scopes) :
    Inv S { w with apiKeys := w.apiKeys.put k, next := n } known := by
  have hd := h.drawn
  refine h.mono hn ⟨?_, ?_, ?_, ?_⟩ (fun t ht _ => ⟨t, ht, rfl, rfl⟩) ?_ (fun x hx _ => hx)
    (fun u hu _ => ⟨u, hu, rfl, id⟩) (fun u hu _ => ⟨u, hu, rfl, id⟩)
    (fun u hu _ => .inr ⟨u, hu, rfl, rfl, id⟩)
  · exact fun u hu => ⟨Nat.lt_of_lt_of_le (hd.user u hu).1 hn, Nat.lt_of_lt_of_le (hd.user u hu).2 hn⟩
  · exact fun t ht => Nat.lt_of_lt_of_le (hd.pat t ht) hn
  · intro k' hk'
    rcases Keyed.mem_put.1 hk' with rfl | ⟨hk', -⟩
    · exact hk
    · exact Nat.lt_of_lt_of_le (hd.key k' hk') hn
  · exact fun x hx => ⟨Nat.lt_of_lt_of_le (hd.session x hx).1 hn,
      Nat.lt_of_lt_of_le (hd.session x hx).2 hn⟩
  · intro k' hk' hlt
    rcases Keyed.mem_put.1 hk' with rfl | ⟨hk', -⟩
    · exact hold hlt
    · exact ⟨k', hk', rfl, rfl⟩

lemma safe_createApiKey (h : Inv S w known) (hc : ∀ x ∈ c.2, x ∈ S) {scopes : List Scope}
    {expiresAt : Option ℕ} (ha : requireAdmin (some c) = .ok () → ∀ s ∈ scopes, s ∈ S) :
    Safe S known (createApiKey w (some c) scopes expiresAt) := by
  unfold createApiKey
  split
  · exact h.refuse _
  · rename_i hadm
    refine ⟨(inv_putApiKey h (Nat.le_add_right _ 2) (Nat.lt_succ_self _) ?_).issue (.inl rfl)
      (Nat.lt_succ_self _) ?_, fun _ => hc _ (requireAdmin_ok hadm)⟩
    · exact fun hlt => absurd hlt (by simp only; omega)
    · have hfresh : SecretWithin S w (w.next + 1) := h.drawn.secretWithin (Nat.le_succ _)
      refine ⟨hfresh.pat, fun k hk hs => ?_, hfresh.session, hfresh.legacy⟩
      rcases Keyed.mem_put.1 hk with rfl | ⟨hk, -⟩
      · exact ha hadm
      · exact hfresh.key k hk hs

lemma safe_revokeApiKey (h : Inv S w known) (hc : ∀ x ∈ c.2, x ∈ S) (keyId : ℕ) :
    Safe S known (revokeApiKey w (some c) keyId) := by
  unfold revokeApiKey
  split
  · exact h.refuse _
  · rename_i hadm
    have hS := hc _ (requireAdmin_ok hadm)
    split
    · exact h.same fun _ => hS
    · rename_i k hfind
      have hk : k ∈ w.apiKeys := List.mem_of_find?_eq_some hfind
      refine ⟨Inv.nil (inv_putApiKey h (Nat.le_refl _) ?_ ?_), fun _ => hS⟩
      · exact h.drawn.key k hk
      · exact fun _ => ⟨k, hk, rfl, rfl⟩

/-- A session for a user whose password the caller holds. -/
lemma safe_authLogin (h : Inv S w known) {now ttl : ℕ} {throttled : Bool}
    {username password : String}
    (hknown : ∀ u ∈ w.users, u.username = username → u.passwordHash = some password →
      .password u.id password ∈ known) :
    Safe S known (authLogin w now ttl throttled username password) := by
  have hd := h.drawn
  unfold authLogin
  split
  · exact h.refuse _
  · split
    · exact h.refuse _
    · rename_i u hfind
      have hu : u ∈ w.users := List.mem_of_find?_eq_some hfind
      have hname : u.username = username := by simpa using List.find?_some hfind
      split
      · exact h.refuse _
      · rename_i hpw
        have hpw := Classical.not_not.1 hpw
        have hrole : UserWithin S u :=
          h.password _ _ (hknown u hu hname hpw) u hu rfl hpw
        refine ⟨Inv.issue ?_ (.inr rfl) (Nat.lt_succ_self _) ?_, by simp⟩
        · refine h.mono (Nat.le_succ _) ⟨?_, ?_, ?_, ?_⟩ (fun t ht _ => ⟨t, ht, rfl, rfl⟩)
            (fun k hk _ => ⟨k, hk, rfl, rfl⟩) ?_ (fun u hu _ => ⟨u, hu, rfl, id⟩)
            (fun u hu _ => ⟨u, hu, rfl, id⟩) (fun u hu _ => .inr ⟨u, hu, rfl, rfl, id⟩)
          · exact fun u hu => ⟨Nat.lt_succ_of_lt (hd.user u hu).1,
              Nat.lt_succ_of_lt (hd.user u hu).2⟩
          · exact fun t ht => Nat.lt_succ_of_lt (hd.pat t ht)
          · exact fun k hk => Nat.lt_succ_of_lt (hd.key k hk)
          · intro x hx
            rcases Keyed.mem_put.1 hx with rfl | ⟨hx, -⟩
            · exact ⟨Nat.lt_succ_self _, Nat.lt_succ_of_lt (hd.user u hu).1⟩
            · exact ⟨Nat.lt_succ_of_lt (hd.session x hx).1, Nat.lt_succ_of_lt (hd.session x hx).2⟩
          · intro x hx hlt
            rcases Keyed.mem_put.1 hx with rfl | ⟨hx, -⟩
            · exact absurd hlt (Nat.lt_irrefl _)
            · exact hx
        · have hfresh : SecretWithin S w w.next := hd.secretWithin (Nat.le_refl _)
          refine ⟨hfresh.pat, hfresh.key, fun x hx hs v hv hid => ?_, hfresh.legacy⟩
          rcases Keyed.mem_put.1 hx with rfl | ⟨hx, -⟩
          · rw [Keyed.eq_of_key hv hu hid]
            exact hrole
          · exact hfresh.session x hx hs v hv hid

lemma safe_authLogout (h : Inv S w known) (cookie : Option ℕ) :
    Safe S known (authLogout w cookie) := by
  have hd := h.drawn
  unfold authLogout
  split
  · exact h.same (by simp)
  · refine ⟨Inv.nil ?_, by simp⟩
    exact h.mono (Nat.le_refl _) ⟨hd.user, hd.pat, hd.key,
        fun x hx => hd.session x (Keyed.mem_erase.1 hx).1⟩ (fun t ht _ => ⟨t, ht, rfl, rfl⟩)
      (fun k hk _ => ⟨k, hk, rfl, rfl⟩) (fun x hx _ => (Keyed.mem_erase.1 hx).1)
      (fun u hu _ => ⟨u, hu, rfl, id⟩) (fun u hu _ => ⟨u, hu, rfl, id⟩)
      (fun u hu _ => .inr ⟨u, hu, rfl, rfl, id⟩)

end Endpoints

/-! ### A run -/

section Run
variable {S : List Scope} {w : World} {known : List Credential}

/-- **One request** keeps the caller within `S`, if it asks for nothing outside. -/
lemma safe_handle (h : Inv S w known) {r : Request} (hal : Allowed w known r)
    (has : ∀ s ∈ asked w r, s ∈ S) : Safe S known (handle w r) := by
  obtain ⟨now, ck, br, e⟩ := r
  unfold handle
  split
  · rename_i hpub
    cases e with
    | authLogin throttled ttl username password =>
      exact safe_authLogin h (hal.login throttled ttl username password rfl)
    | authLogout => exact safe_authLogout h _
    | _ => cases hpub
  · split
    · exact h.refuse _
    · rename_i hpub _ c hc
      have hcs := h.caller hal hc
      simp only at hc
      cases e with
      | createUser username email role =>
        refine safe_createUser h hcs fun hadm s hs => has s ?_
        simpa [asked, hc, hadm] using hs
      | deleteUser target => exact safe_deleteUser h hcs target
      | rotateKey target =>
        refine safe_rotateKey h hcs fun gate u hgate hget s hs => has s ?_
        simpa [asked, hc, hgate, hget] using hs
      | setPassword target password current =>
        refine safe_setPassword h hcs fun gate u hgate hget s hs => has s ?_
        simpa [asked, hc, hgate, hget] using hs
      | setUserRole target role => exact safe_setUserRole h hcs target role
      | createToken target scopes expiresAt =>
        refine safe_createToken h hcs fun gate hgate s hs => has s ?_
        simpa [asked, hc, hgate] using hs
      | listTokens target =>
        unfold dispatch listTokens
        dsimp only
        split
        · exact h.refuse _
        · rename_i gate hgate
          exact h.same fun hg => hcs _ (selfOrAdmin_ok hgate hg)
      | revokeToken target tokenId => exact safe_revokeToken h hcs target tokenId
      | createApiKey scopes expiresAt =>
        refine safe_createApiKey h hcs fun hadm s hs => has s ?_
        simpa [asked, hc, hadm] using hs
      | revokeApiKey keyId => exact safe_revokeApiKey h hcs keyId
      | adminOnly =>
        unfold dispatch adminOnly
        dsimp only
        split
        · exact h.refuse _
        · rename_i hadm
          exact h.same fun _ => hcs _ (requireAdmin_ok hadm)
      | authLogin throttled ttl username password => exact absurd rfl hpub
      | authLogout => exact absurd rfl hpub

lemma confined_of_inv (rs : List Request) (h : Inv S w known) (hal : AllowedRun w known rs)
    (has : AsksWithin S w rs) : Confined S w known rs := by
  induction rs generalizing w known with
  | nil => exact h.grantsWithin
  | cons r rs ih =>
    have hs := safe_handle h hal.1 has.1
    exact ⟨h.grantsWithin, hs.gate, ih hs.inv hal.2 has.2⟩

end Run

/-! ### The first credential -/

/-- The rows a number resolves to. -/
def holders (w : World) (s : ℕ) : ℕ :=
  w.tokens.rows.countP (·.tokenHash = s) + w.apiKeys.rows.countP (·.tokenHash = s) +
    w.sessions.rows.countP (·.tokenHash = s) + w.users.rows.countP (·.apiKeyHash = s)

lemma eq_of_countP_le_one {α : Type} {p : α → Bool} {l : List α} (h : l.countP p ≤ 1) {a b : α}
    (ha : a ∈ l) (hb : b ∈ l) (hpa : p a = true) (hpb : p b = true) : a = b := by
  rw [List.countP_eq_length_filter] at h
  have ha' : a ∈ l.filter p := List.mem_filter.2 ⟨ha, hpa⟩
  have hb' : b ∈ l.filter p := List.mem_filter.2 ⟨hb, hpb⟩
  match hl : l.filter p, h with
  | [], _ => rw [hl] at ha'; cases ha'
  | [x], _ =>
    rw [hl, List.mem_singleton] at ha' hb'
    rw [ha', hb']

/-- The numbers of the initial stores were drawn, and the one the caller starts from resolves to
one row. -/
structure Start (w : World) (c : Credential) : Prop where
  drawn : Drawn w
  sole : ∀ s ∈ secrets [c], holders w s ≤ 1

section Init
variable {w : World} {s : ℕ}

lemma pat_pos {t : Pat} (ht : t ∈ w.tokens) (hs : t.tokenHash = s) :
    0 < w.tokens.rows.countP (·.tokenHash = s) :=
  List.countP_pos_iff.2 ⟨t, ht, by simpa using hs⟩

lemma key_pos {k : ApiKey} (hk : k ∈ w.apiKeys) (hs : k.tokenHash = s) :
    0 < w.apiKeys.rows.countP (·.tokenHash = s) :=
  List.countP_pos_iff.2 ⟨k, hk, by simpa using hs⟩

lemma session_pos {x : Session} (hx : x ∈ w.sessions) (hs : x.tokenHash = s) :
    0 < w.sessions.rows.countP (·.tokenHash = s) :=
  List.countP_pos_iff.2 ⟨x, hx, by simpa using hs⟩

lemma user_pos {u : User} (hu : u ∈ w.users) (hs : u.apiKeyHash = s) :
    0 < w.users.rows.countP (·.apiKeyHash = s) :=
  List.countP_pos_iff.2 ⟨u, hu, by simpa using hs⟩

/-- A number that resolves to one row is bounded by the scopes it grants there. -/
lemma secretWithin_bearer (h : holders w s ≤ 1) {now : ℕ} {c : Caller}
    (hc : bearerCaller w now s = some c) : SecretWithin c.2 w s := by
  unfold holders at h
  rcases bearerCaller_cases hc with hc | hc | hc
  · obtain ⟨t, ht, hts, hsc⟩ := patCaller_scopes hc
    have hpos := pat_pos ht hts
    refine ⟨fun t' ht' hs => ?_, fun k hk hs => ?_, fun x hx hs => ?_, fun u hu hs => ?_⟩
    · rw [Keyed.eq_of_key ht' ht (hs.trans hts.symm), hsc]
      exact fun _ => id
    · have := key_pos hk hs
      omega
    · have := session_pos hx hs
      omega
    · have := user_pos hu hs
      omega
  · obtain ⟨k, hk, hks, hsc⟩ := apiKeyCaller_scopes hc
    have hpos := key_pos hk hks
    refine ⟨fun t ht hs => ?_, fun k' hk' hs => ?_, fun x hx hs => ?_, fun u hu hs => ?_⟩
    · have := pat_pos ht hs
      omega
    · rw [Keyed.eq_of_key hk' hk (hs.trans hks.symm), hsc]
      exact fun _ => id
    · have := session_pos hx hs
      omega
    · have := user_pos hu hs
      omega
  · obtain ⟨u, hu, hus, -, hsc⟩ := legacyCaller_scopes hc
    have hpos := user_pos hu hus
    refine ⟨fun t ht hs => ?_, fun k hk hs => ?_, fun x hx hs => ?_, fun v hv hs => ?_⟩
    · have := pat_pos ht hs
      omega
    · have := key_pos hk hs
      omega
    · have := session_pos hx hs
      omega
    · have hone : w.users.rows.countP (·.apiKeyHash = s) ≤ 1 := by omega
      have huv : v = u := eq_of_countP_le_one hone hv hu (by simpa using hs) (by simpa using hus)
      rw [huv, hsc]
      exact fun _ _ => id

lemma secretWithin_cookie (h : holders w s ≤ 1) {now : ℕ} {c : Caller}
    (hc : sessionCaller w now s = some c) : SecretWithin c.2 w s := by
  unfold holders at h
  obtain ⟨x, hx, hxs, u, hu, hid, -, hsc⟩ := sessionCaller_scopes hc
  have hpos := session_pos hx hxs
  refine ⟨fun t ht hs => ?_, fun k hk hs => ?_, fun x' hx' hs v hv hvid => ?_, fun u hu hs => ?_⟩
  · have := pat_pos ht hs
    omega
  · have := key_pos hk hs
    omega
  · rw [Keyed.eq_of_key hx' hx (hs.trans hxs.symm)] at hvid
    rw [Keyed.eq_of_key hv hu (hvid.trans hid.symm), hsc]
    exact fun _ _ => id
  · have := user_pos hu hs
    omega

lemma lt_next_of_caller (hd : Drawn w) {now : ℕ} {c : Caller}
    (hc : bearerCaller w now s = some c ∨ sessionCaller w now s = some c) : s < w.next := by
  rcases hc with hc | hc
  · rcases bearerCaller_cases hc with hc | hc | hc
    · obtain ⟨t, ht, rfl, -⟩ := patCaller_scopes hc
      exact hd.pat t ht
    · obtain ⟨k, hk, rfl, -⟩ := apiKeyCaller_scopes hc
      exact hd.key k hk
    · obtain ⟨u, hu, rfl, -, -⟩ := legacyCaller_scopes hc
      exact (hd.user u hu).2
  · obtain ⟨x, hx, rfl, -⟩ := sessionCaller_scopes hc
    exact (hd.session x hx).1

lemma inv_start {now : ℕ} {c : Credential} {p : Principal} {S : List Scope} (h : Start w c)
    (hc : presents w now c = some (p, S)) : Inv S w [c] := by
  cases c with
  | bearer s =>
    have hlt := lt_next_of_caller h.drawn (.inl hc)
    have hmem : ∀ t, t ∈ secrets [Credential.bearer s] → t = s := by simp [secrets]
    refine ⟨h.drawn, fun t ht => hmem t ht ▸ hlt, by simp, fun t ht => ?_, by simp⟩
    rw [hmem t ht]
    exact secretWithin_bearer (h.sole s (by simp [secrets])) hc
  | cookie s =>
    have hlt := lt_next_of_caller h.drawn (.inr hc)
    have hmem : ∀ t, t ∈ secrets [Credential.cookie s] → t = s := by simp [secrets]
    refine ⟨h.drawn, fun t ht => hmem t ht ▸ hlt, by simp, fun t ht => ?_, by simp⟩
    rw [hmem t ht]
    exact secretWithin_cookie (h.sole s (by simp [secrets])) hc
  | password i text =>
    simp only [presents, Option.bind_eq_bind, Option.bind_eq_some_iff, Option.guard_eq_some',
      Option.some.injEq, Prod.mk.injEq] at hc
    obtain ⟨u, hu, -, -, -, rfl⟩ := hc
    obtain ⟨hu, hid⟩ := Keyed.get?_eq_some.1 hu
    refine ⟨h.drawn, by simp [secrets], fun j t hj => ?_, by simp [secrets], fun j t hj v hv hvid _ => ?_⟩
    · simp only [List.mem_singleton, Credential.password.injEq] at hj
      rw [hj.1, ← hid]
      exact (h.drawn.user u hu).1
    · simp only [List.mem_singleton, Credential.password.injEq] at hj
      rw [Keyed.eq_of_key hv hu (hvid.trans (hj.1.trans hid.symm))]
      exact fun _ _ => id

end Init

/-- **No escalation without asking for it.** From one credential of scope set `S`, a run in which
every minting request that passes its gate asks only for scopes in `S` never holds a credential
that grants more, and passes an admin gate only if `S` has the admin scope. -/
theorem confined_of_asksWithin (w : World) (c : Credential) (hw : Start w c) (now : ℕ)
    (p : Principal) (S : List Scope) (hc : presents w now c = some (p, S)) (rs : List Request)
    (hrun : AllowedRun w [c] rs) (hask : AsksWithin S w rs) : Confined S w [c] rs :=
  confined_of_inv rs (inv_start hw hc) hrun hask

/-! ### A search-only token of an admin -/

/-- One admin with a key of its own, and a token of it that may only search. -/
def adminWithSearchToken : World where
  users := ⟨[⟨0, "root", "", 1, .admin, true, none⟩], by decide⟩
  tokens := ⟨[⟨2, 0, 3, ["search"], none, false⟩], by decide⟩
  apiKeys := .empty
  sessions := .empty
  next := 4

lemma start_search : Start adminWithSearchToken (.bearer 3) := by
  refine ⟨⟨?_, ?_, ?_, ?_⟩, ?_⟩
  · intro u hu
    rw [List.mem_singleton.1 hu]
    decide
  · intro t ht
    rw [List.mem_singleton.1 ht]
    decide
  · exact fun k hk => absurd hk Keyed.not_mem_empty
  · exact fun x hx => absurd hx Keyed.not_mem_empty
  · decide

/-- Minting a token for search and using it stays within search. -/
theorem confined_search : Confined ["search"] adminWithSearchToken [.bearer 3]
    [⟨0, none, some 3, .createToken (.user 0) ["search"] none⟩,
      ⟨1, none, some 5, .adminOnly⟩] := by
  refine confined_of_asksWithin adminWithSearchToken (.bearer 3) start_search 0
    ⟨.user 0, .user⟩ ["search"] (by decide) _ ⟨⟨by simp, ?_, by simp, by simp⟩,
      ⟨⟨by simp, ?_, by simp, by simp⟩, trivial⟩⟩ ⟨by decide, by decide, trivial⟩
  · rintro s ⟨⟩
    decide
  · rintro s ⟨⟩
    decide

/-- The self branch of `create_token` asks for the owner's role alone: the search-only token
mints one with every scope. -/
theorem search_token_mints_admin :
    presents adminWithSearchToken 0 (.bearer 3) = some (⟨.user 0, .user⟩, ["search"]) ∧
      AllowedRun adminWithSearchToken [.bearer 3]
        [⟨0, none, some 3, .createToken (.user 0) ["search", "index", "admin"] none⟩,
          ⟨1, none, some 5, .adminOnly⟩] ∧
      ¬Confined ["search"] adminWithSearchToken [.bearer 3]
        [⟨0, none, some 3, .createToken (.user 0) ["search", "index", "admin"] none⟩,
          ⟨1, none, some 5, .adminOnly⟩] := by
  refine ⟨by decide, ⟨⟨by simp, ?_, by simp, by simp⟩, ⟨⟨by simp, ?_, by simp, by simp⟩,
    trivial⟩⟩, ?_⟩
  · rintro s ⟨⟩
    decide
  · rintro s ⟨⟩
    decide
  · intro h
    have hadm := h.2.2.2.1 (by decide)
    revert hadm
    decide

end Treeweft.Escalation
