import Treeweft.Escalation

/-!
Whether a personal token or an API key can carry more than its owner's role.

The role such a credential carries is read off its scopes, and the scopes are compared with the
owner's role once, when it is minted. What must hold of the stores for that to be enough is
`Capped`; of all requests only taking the admin role from an owner can break it.
-/

namespace Treeweft.ScopedRole

open Treeweft.Auth Treeweft.Escalation

/-- The caller of a request whose bearer token is a personal token or an API key. -/
def scopedCaller (w : World) (now s : ℕ) : Option Caller :=
  (patCaller w now s).orElse fun _ => apiKeyCaller w now s

def Role.rank : Role → ℕ
  | .user => 0
  | .admin => 1

/-- No request with a personal token or an API key is granted more than its owner's role. A key
without an owner stands for nobody. -/
def RoleWithinOwner (w : World) (r : Request) : Prop :=
  ∀ s c owner, r.bearer = some s → r.cookie.bind (sessionCaller w r.now) = none →
    scopedCaller w r.now s = some c → getById w c.1.id = some owner →
      Role.rank c.1.role ≤ Role.rank owner.role

/-- Every request of the sequence is granted no more than the owner's role at that time. -/
def Respected (w : World) : List Request → Prop
  | [] => True
  | r :: rs => RoleWithinOwner w r ∧ Respected (handle w r).1 rs

/-- Time does not run backwards. -/
def Timed (now : ℕ) : List Request → Prop
  | [] => True
  | r :: rs => now ≤ r.now ∧ Timed r.now rs

/-- An accepted token or key of the user has the admin scope. -/
def HoldsAdminScope (w : World) (now : ℕ) (u : User) : Prop :=
  (∃ t ∈ w.tokens, t.userId = u.id ∧ t.revoked = false ∧ live now t.expiresAt = true ∧
    "admin" ∈ t.scopes) ∨
  ∃ k ∈ w.apiKeys, k.createdBy = some (.user u.id) ∧ k.revoked = false ∧
    live now k.expiresAt = true ∧ "admin" ∈ k.scopes

/-- The request takes the admin role from a user who keeps a credential with the admin scope. -/
def Demotes (w : World) (r : Request) : Prop :=
  ∃ target u, r.endpoint = .setUserRole target .user ∧
    requireAdmin (authenticate w r.now r.cookie r.bearer) = .ok () ∧
    getById w target = some u ∧ u.active = true ∧ HoldsAdminScope w r.now u

def NeverDemotes (w : World) : List Request → Prop
  | [] => True
  | r :: rs => ¬Demotes w r ∧ NeverDemotes (handle w r).1 rs

/-- Whoever holds the admin scope is an admin. -/
def Capped (w : World) (now : ℕ) : Prop :=
  ∀ u ∈ w.users, u.active = true → HoldsAdminScope w now u → u.role = .admin

/-- Every id was drawn before, the owners of tokens and keys included. -/
structure Owned (w : World) : Prop where
  user : ∀ u ∈ w.users, u.id < w.next
  pat : ∀ t ∈ w.tokens, t.userId < w.next
  key : ∀ k ∈ w.apiKeys, ∀ i, k.createdBy = some (.user i) → i < w.next

/-! ### What a capped store grants -/

section Capped
variable {w w' : World} {now : ℕ}

lemma live_mono {now later : ℕ} (h : now ≤ later) {e : Option ℕ} (hl : live later e = true) :
    live now e = true := by
  cases e with
  | none => rfl
  | some t =>
    simp only [live, Option.all_some, decide_eq_true_eq] at hl ⊢
    omega

lemma HoldsAdminScope.mono {later : ℕ} (h : now ≤ later) {u : User}
    (hu : HoldsAdminScope w later u) : HoldsAdminScope w now u := by
  rcases hu with ⟨t, ht, hid, hr, hl, hs⟩ | ⟨k, hk, hid, hr, hl, hs⟩
  · exact .inl ⟨t, ht, hid, hr, live_mono h hl, hs⟩
  · exact .inr ⟨k, hk, hid, hr, live_mono h hl, hs⟩

lemma Capped.mono {later : ℕ} (hc : Capped w now) (h : now ≤ later) : Capped w later :=
  fun u hu hact hs => hc u hu hact (hs.mono h)

lemma roleOf_eq_admin {scopes : List Scope} : roleOf scopes = .admin ↔ "admin" ∈ scopes := by
  unfold roleOf
  split <;> simp_all

/-- A token or a key that is accepted as an admin one is held by an active user, or by nobody. -/
lemma holds_of_scopedCaller {s : ℕ} {c : Caller} (h : scopedCaller w now s = some c)
    (hrole : c.1.role = .admin) {owner : User} (ho : getById w c.1.id = some owner) :
    owner.active = true ∧ HoldsAdminScope w now owner := by
  unfold scopedCaller at h
  cases hp : patCaller w now s with
  | some d =>
    rw [hp] at h
    cases h
    simp only [patCaller, Option.bind_eq_bind, Option.bind_eq_some_iff, Option.guard_eq_some',
      Option.some.injEq, Bool.and_eq_true, Bool.not_eq_true'] at hp
    obtain ⟨t, ht, -, ⟨hr, hl⟩, u, hu, -, hact, rfl⟩ := hp
    have hid : u.id = t.userId := Keyed.key_of_get? hu
    have : owner = u := by
      have ho : w.users.get? u.id = some owner := ho
      rw [hid, hu] at ho
      exact (Option.some.inj ho).symm
    subst this
    exact ⟨hact, .inl ⟨t, Keyed.mem_of_get? ht, hid.symm, hr, hl, roleOf_eq_admin.1 hrole⟩⟩
  | none =>
    rw [hp] at h
    change apiKeyCaller w now s = some c at h
    simp only [apiKeyCaller, Option.bind_eq_bind, Option.bind_eq_some_iff, Option.guard_eq_some',
      Bool.and_eq_true, Bool.not_eq_true'] at h
    obtain ⟨k, hk, -, ⟨hr, hl⟩, h⟩ := h
    split at h
    · rename_i pid hpid
      simp only [Option.bind_eq_some_iff, Option.guard_eq_some', Option.some.injEq] at h
      obtain ⟨u, hu, -, hact, rfl⟩ := h
      cases pid with
      | apikey i => cases hu
      | user i =>
        have hid : u.id = i := Keyed.key_of_get? hu
        have : owner = u := by
          have ho : w.users.get? u.id = some owner := ho
          rw [hid] at ho
          exact Option.some.inj (ho.symm.trans hu)
        subst this
        exact ⟨hact, .inr ⟨k, Keyed.mem_of_get? hk, hid ▸ hpid, hr, hl, roleOf_eq_admin.1 hrole⟩⟩
    · cases h
      cases ho

lemma Capped.within (h : Capped w now) {r : Request} (hr : now ≤ r.now) : RoleWithinOwner w r := by
  intro s c owner _ _ hc ho
  cases hrole : c.1.role with
  | user => exact Nat.zero_le _
  | admin =>
    obtain ⟨hact, hs⟩ := holds_of_scopedCaller hc hrole ho
    have hmem : owner ∈ w.users := by
      cases hid : c.1.id with
      | user i => rw [hid] at ho; exact Keyed.mem_of_get? ho
      | apikey i => rw [hid] at ho; cases ho
    exact Nat.le_of_eq (congrArg Role.rank (h.mono hr owner hmem hact hs).symm)

/-- A session or a user's own key stands for the user as it is; anything else is a token or key. -/
lemma authenticate_cases {cookie bearer : Option ℕ} {c : Caller}
    (hc : authenticate w now cookie bearer = some c) :
    (∃ v ∈ w.users, c.1 = principalOf v) ∨ ∃ s, scopedCaller w now s = some c := by
  unfold authenticate at hc
  cases hs : cookie.bind (sessionCaller w now) with
  | some d =>
    rw [hs] at hc
    cases hc
    obtain ⟨s, -, hs⟩ := Option.bind_eq_some_iff.1 hs
    simp only [sessionCaller, Option.bind_eq_bind, Option.bind_eq_some_iff, Option.guard_eq_some',
      Option.some.injEq] at hs
    obtain ⟨x, -, -, -, v, hv, -, -, rfl⟩ := hs
    exact .inl ⟨v, Keyed.mem_of_get? hv, rfl⟩
  | none =>
    rw [hs] at hc
    obtain ⟨s, -, hb⟩ := Option.bind_eq_some_iff.1 hc
    unfold bearerCaller at hb
    cases hp : patCaller w now s with
    | some d =>
      rw [hp] at hb
      exact .inr ⟨s, by rw [scopedCaller, hp]; exact hb⟩
    | none =>
      rw [hp] at hb
      change ((apiKeyCaller w now s).orElse fun _ => legacyCaller w s) = some c at hb
      cases hk : apiKeyCaller w now s with
      | some d =>
        rw [hk] at hb
        exact .inr ⟨s, by rw [scopedCaller, hp]; exact hk.trans hb⟩
      | none =>
        rw [hk] at hb
        change legacyCaller w s = some c at hb
        simp only [legacyCaller, Option.bind_eq_bind, Option.bind_eq_some_iff,
          Option.some.injEq] at hb
        obtain ⟨v, hv, rfl⟩ := hb
        exact .inl ⟨v, List.mem_of_find?_eq_some hv, rfl⟩

/-- An admin gate lets nobody through who is a user without the admin role. -/
lemma Capped.admin_of_gate (h : Capped w now) {cookie bearer : Option ℕ}
    (hg : requireAdmin (authenticate w now cookie bearer) = .ok ()) {c : Caller}
    (hc : authenticate w now cookie bearer = some c) {u : User} (hu : getById w c.1.id = some u) :
    u ∈ w.users ∧ u.role = .admin := by
  have hrole : c.1.role = .admin := by
    rw [hc] at hg
    simp only [requireAdmin] at hg
    split at hg
    · cases hg
    · rename_i h
      exact of_not_not h
  have hmem : u ∈ w.users := by
    cases hid : c.1.id with
    | user i => rw [hid] at hu; exact Keyed.mem_of_get? hu
    | apikey i => rw [hid] at hu; cases hu
  rcases authenticate_cases hc with ⟨v, hv, hcv⟩ | ⟨s, hs⟩
  · rw [hcv] at hrole hu
    have : u = v := Keyed.eq_of_key hmem hv (Keyed.key_of_get? hu)
    exact ⟨hmem, this ▸ hrole⟩
  · obtain ⟨hact, hs⟩ := holds_of_scopedCaller hs hrole hu
    exact ⟨hmem, h u hmem hact hs⟩

/-- A caller that is a user is one of the table. -/
lemma user_of_authenticate {cookie bearer : Option ℕ} {c : Caller}
    (hc : authenticate w now cookie bearer = some c) {i : ℕ} (hi : c.1.id = .user i) :
    ∃ u ∈ w.users, u.id = i := by
  rcases authenticate_cases hc with ⟨v, hv, hcv⟩ | ⟨s, hs⟩
  · rw [hcv] at hi
    cases hi
    exact ⟨v, hv, rfl⟩
  · unfold scopedCaller at hs
    cases hp : patCaller w now s with
    | some d =>
      rw [hp] at hs
      cases hs
      simp only [patCaller, Option.bind_eq_bind, Option.bind_eq_some_iff, Option.guard_eq_some',
        Option.some.injEq] at hp
      obtain ⟨t, -, -, -, u, hu, -, -, rfl⟩ := hp
      cases hi
      exact ⟨u, Keyed.mem_of_get? hu, rfl⟩
    | none =>
      rw [hp] at hs
      change apiKeyCaller w now s = some c at hs
      simp only [apiKeyCaller, Option.bind_eq_bind, Option.bind_eq_some_iff,
        Option.guard_eq_some'] at hs
      obtain ⟨k, -, -, -, hs⟩ := hs
      split at hs
      · rename_i pid hpid
        simp only [Option.bind_eq_some_iff, Option.guard_eq_some', Option.some.injEq] at hs
        obtain ⟨u, hu, -, -, rfl⟩ := hs
        cases pid with
        | apikey i => cases hu
        | user i =>
          cases hi
          exact ⟨u, Keyed.mem_of_get? hu, rfl⟩
      · cases hs
        cases hi

end Capped

/-! ### One request -/

structure Sound (w : World) (now : ℕ) : Prop where
  capped : Capped w now
  owned : Owned w

section Step
variable {w w' : World} {now : ℕ}

/-- No new user and no new credential, and whoever loses the admin role holds no admin scope. -/
lemma Sound.shrink (h : Sound w now) (hn : w.next ≤ w'.next)
    (hu : ∀ u ∈ w'.users, ∃ u₀ ∈ w.users, u₀.id = u.id ∧ (u.active = true →
      u₀.active = true ∧ (HoldsAdminScope w now u₀ → u₀.role = .admin → u.role = .admin)))
    (ht : ∀ t ∈ w'.tokens, ∃ t₀ ∈ w.tokens, t₀.userId = t.userId ∧ (t.revoked = false → t = t₀))
    (hk : ∀ k ∈ w'.apiKeys, ∃ k₀ ∈ w.apiKeys, k₀.createdBy = k.createdBy ∧
      (k.revoked = false → k = k₀)) : Sound w' now := by
  refine ⟨fun u hmem hact hs => ?_, fun u hmem => ?_, fun t hmem => ?_, fun k hmem i hi => ?_⟩
  · obtain ⟨u₀, hu₀, hid, hkeep⟩ := hu u hmem
    obtain ⟨hact₀, hrole⟩ := hkeep hact
    have hs₀ : HoldsAdminScope w now u₀ := by
      rcases hs with ⟨t, ht', hti, hr, hl, hsc⟩ | ⟨k, hk', hki, hr, hl, hsc⟩
      · obtain ⟨t₀, ht₀, -, heq⟩ := ht t ht'
        obtain rfl := heq hr
        exact .inl ⟨t, ht₀, hti.trans hid.symm, hr, hl, hsc⟩
      · obtain ⟨k₀, hk₀, -, heq⟩ := hk k hk'
        obtain rfl := heq hr
        exact .inr ⟨k, hk₀, hid ▸ hki, hr, hl, hsc⟩
    exact hrole hs₀ (h.capped u₀ hu₀ hact₀ hs₀)
  · obtain ⟨u₀, hu₀, hid, -⟩ := hu u hmem
    exact Nat.lt_of_lt_of_le (hid ▸ h.owned.user u₀ hu₀) hn
  · obtain ⟨t₀, ht₀, hid, -⟩ := ht t hmem
    exact Nat.lt_of_lt_of_le (hid ▸ h.owned.pat t₀ ht₀) hn
  · obtain ⟨k₀, hk₀, hid, -⟩ := hk k hmem
    exact Nat.lt_of_lt_of_le (h.owned.key k₀ hk₀ i (hid.trans hi)) hn

lemma Sound.next (h : Sound w now) (n : ℕ) (hn : w.next ≤ n) (sessions : Keyed Session.tokenHash) :
    Sound { w with next := n, sessions := sessions } now :=
  h.shrink hn (fun u hu => ⟨u, hu, rfl, fun ha => ⟨ha, fun _ h => h⟩⟩)
    (fun t ht => ⟨t, ht, rfl, fun _ => rfl⟩) fun k hk => ⟨k, hk, rfl, fun _ => rfl⟩

/-- One user's row is rewritten. -/
lemma Sound.updateUser (h : Sound w now) {i : ℕ} {f : User → User}
    (hf : ∀ u ∈ w.users, u.id = i → (f u).active = true → u.active = true ∧
      (HoldsAdminScope w now u → u.role = .admin → (f u).role = .admin)) :
    Sound (updateUser w i f) now := by
  have hfix : (Auth.updateUser w i f).next = w.next ∧ (Auth.updateUser w i f).tokens = w.tokens ∧
      (Auth.updateUser w i f).apiKeys = w.apiKeys := by
    unfold Auth.updateUser
    cases w.users.get? i <;> exact ⟨rfl, rfl, rfl⟩
  obtain ⟨hnext, htok, hkeys⟩ := hfix
  refine h.shrink (Nat.le_of_eq hnext.symm) (fun u hu => ?_) ?_ ?_
  · rcases mem_updateUser.1 hu with ⟨hu, -⟩ | ⟨u₀, hu₀, hid, rfl⟩
    · exact ⟨u, hu, rfl, fun ha => ⟨ha, fun _ h => h⟩⟩
    · exact ⟨u₀, hu₀, rfl, hf u₀ hu₀ hid⟩
  · rw [htok]
    exact fun t ht => ⟨t, ht, rfl, fun _ => rfl⟩
  · rw [hkeys]
    exact fun k hk => ⟨k, hk, rfl, fun _ => rfl⟩

lemma Sound.createUser (h : Sound w now) (caller : Option Caller) (username email role : String) :
    Sound (createUser w caller username email role).1 now := by
  unfold Auth.createUser
  split
  · exact h
  · split
    · exact h
    · split
      · exact h
      · split
        · exact h
        · refine ⟨fun u hu hact hs => ?_, fun u hu => ?_, fun t ht => ?_, fun k hk i hi => ?_⟩
          · rcases Keyed.mem_put.1 hu with rfl | ⟨hu, -⟩
            · -- the id of a new user is nobody's
              rcases hs with ⟨t, ht, hti, -⟩ | ⟨k, hk, hki, -⟩
              · have := h.owned.pat t ht
                simp only at hti
                omega
              · have := h.owned.key k hk _ hki
                simp only at this
                omega
            · exact h.capped u hu hact hs
          · rcases Keyed.mem_put.1 hu with rfl | ⟨hu, -⟩
            · simp
            · have := h.owned.user u hu
              simp only
              omega
          · have := h.owned.pat t ht
            simp only
            omega
          · have := h.owned.key k hk i hi
            simp only
            omega

/-- A token is minted with no more than the owner's role gives. -/
lemma Sound.createToken (h : Sound w now) (caller : Option Caller) (target : PrincipalId)
    (scopes : List Scope) (expiresAt : Option ℕ) :
    Sound (createToken w caller target scopes expiresAt).1 now := by
  unfold Auth.createToken
  split
  · exact h
  · split
    · exact h
    · rename_i owner howner
      split
      · exact h
      · rename_i hex
        have hmem : owner ∈ w.users := by
          cases target with
          | user i => exact Keyed.mem_of_get? howner
          | apikey i => cases howner
        refine ⟨fun u hu hact hs => ?_, fun u hu => ?_, fun t ht => ?_, fun k hk i hi => ?_⟩
        · rcases hs with ⟨t, ht, hti, hr, hl, hsc⟩ | hs
          · rcases Keyed.mem_put.1 ht with rfl | ⟨ht, -⟩
            · obtain rfl : owner = u := Keyed.eq_of_key hmem hu hti
              cases hrole : owner.role with
              | admin => rfl
              | user =>
                refine absurd ⟨"admin", hsc, ?_⟩ hex
                rw [hrole]
                decide
            · exact h.capped u hu hact (.inl ⟨t, ht, hti, hr, hl, hsc⟩)
          · exact h.capped u hu hact (.inr hs)
        · have := h.owned.user u hu
          simp only
          omega
        · rcases Keyed.mem_put.1 ht with rfl | ⟨ht, -⟩
          · have := h.owned.user owner hmem
            simp only
            omega
          · have := h.owned.pat t ht
            simp only
            omega
        · have := h.owned.key k hk i hi
          simp only
          omega

/-- Only admins mint keys, and the key is the caller's. -/
lemma Sound.createApiKey (h : Sound w now) {cookie bearer : Option ℕ} (scopes : List Scope)
    (expiresAt : Option ℕ) :
    Sound (createApiKey w (authenticate w now cookie bearer) scopes expiresAt).1 now := by
  unfold Auth.createApiKey
  split
  · exact h
  · rename_i hg
    refine ⟨fun u hu hact hs => ?_, fun u hu => ?_, fun t ht => ?_, fun k hk i hi => ?_⟩
    · rcases hs with hs | ⟨k, hk, hki, hr, hl, hsc⟩
      · exact h.capped u hu hact (.inl hs)
      · rcases Keyed.mem_put.1 hk with rfl | ⟨hk, -⟩
        · obtain ⟨c, hc, hci⟩ := Option.map_eq_some_iff.1 hki
          exact (h.capped.admin_of_gate hg hc (hci ▸ Keyed.get?_of_mem hu)).2
        · exact h.capped u hu hact (.inr ⟨k, hk, hki, hr, hl, hsc⟩)
    · have := h.owned.user u hu
      simp only
      omega
    · have := h.owned.pat t ht
      simp only
      omega
    · have hlt : i < w.next := by
        rcases Keyed.mem_put.1 hk with rfl | ⟨hk, -⟩
        · obtain ⟨c, hc, hci⟩ := Option.map_eq_some_iff.1 hi
          obtain ⟨u, hu, rfl⟩ := user_of_authenticate hc hci
          exact h.owned.user u hu
        · exact h.owned.key k hk i hi
      simp only
      omega

/-- Every request keeps the stores capped that takes no admin role from a holder of its scope. -/
lemma Sound.handle (h : Sound w now) {r : Request} (hr : now ≤ r.now) (hd : ¬Demotes w r) :
    Sound (handle w r).1 r.now := by
  have h : Sound w r.now := ⟨h.capped.mono hr, h.owned⟩
  have hkeep : ∀ {i : ℕ} {f : User → User}, (∀ u, (f u).role = u.role) →
      (∀ u, (f u).active = true → u.active = true) → Sound (Auth.updateUser w i f) r.now :=
    fun hrole hact => h.updateUser fun u _ _ ha => ⟨hact u ha, fun _ h => (hrole u).trans h⟩
  unfold Auth.handle
  split
  · rename_i hpub
    cases hep : r.endpoint <;> rw [hep] at hpub <;> (try cases hpub) <;> simp only [dispatch, hep]
    · unfold authLogin
      split
      · exact h
      · split
        · exact h
        · split
          · exact h
          · exact h.next _ (Nat.le_succ _) _
    · unfold authLogout
      split
      · exact h
      · exact h.next _ (Nat.le_refl _) _
  · split
    · exact h
    · rename_i hpub _ c hc
      unfold dispatch
      split
      · exact h.createUser ..
      · unfold deleteUser
        split
        · exact h
        · split
          · exact h
          · refine h.updateUser fun u _ _ ha => ?_
            cases ha
      · unfold rotateKey
        split
        · exact h
        · split
          · exact h
          · refine Sound.next ?_ _ ?_ _
            · exact hkeep (fun _ => rfl) fun _ ha => ha
            · unfold Auth.updateUser
              split <;> exact Nat.le_succ _
      · unfold setPassword
        split
        · exact h
        · split
          · exact h
          · split
            · exact h
            · split
              · exact h
              · refine Sound.next ?_ _ (Nat.le_refl _) _
                exact hkeep (fun _ => rfl) fun _ ha => ha
      · rename_i target role hep
        unfold setUserRole
        split
        · exact h
        · rename_i hg
          split
          · exact h
          · rename_i u hu
            refine h.updateUser fun v hv hid ha => ⟨ha, fun hs _ => ?_⟩
            cases role with
            | admin => rfl
            | user =>
              have hvu : v = u := by
                cases target with
                | user i => exact Keyed.eq_of_key hv (Keyed.mem_of_get? hu) hid
                | apikey i => cases hu
              exact absurd ⟨target, u, hep, hc ▸ hg, hu, hvu ▸ ha, hvu ▸ hs⟩ hd
      · exact h.createToken ..
      · unfold listTokens
        split <;> exact h
      · unfold revokeToken
        split
        · exact h
        · split
          · exact h
          · rename_i t ht
            refine h.shrink (Nat.le_refl _) (fun u hu => ⟨u, hu, rfl, fun ha => ⟨ha, fun _ h => h⟩⟩)
              (fun t' ht' => ?_) fun k hk => ⟨k, hk, rfl, fun _ => rfl⟩
            rcases Keyed.mem_put.1 ht' with rfl | ⟨ht', -⟩
            · exact ⟨t, List.mem_of_find?_eq_some ht, rfl, fun hr => by cases hr⟩
            · exact ⟨t', ht', rfl, fun _ => rfl⟩
      · rw [← hc]
        exact h.createApiKey ..
      · unfold revokeApiKey
        split
        · exact h
        · split
          · exact h
          · rename_i k hk
            refine h.shrink (Nat.le_refl _) (fun u hu => ⟨u, hu, rfl, fun ha => ⟨ha, fun _ h => h⟩⟩)
              (fun t ht => ⟨t, ht, rfl, fun _ => rfl⟩) fun k' hk' => ?_
            rcases Keyed.mem_put.1 hk' with rfl | ⟨hk', -⟩
            · exact ⟨k, List.mem_of_find?_eq_some hk, rfl, fun hr => by cases hr⟩
            · exact ⟨k', hk', rfl, fun _ => rfl⟩
      · unfold adminOnly
        split <;> exact h
      · rename_i hep
        exact absurd (by rw [hep]; rfl) hpub
      · rename_i hep
        exact absurd (by rw [hep]; rfl) hpub

end Step

/-- **A scoped credential never exceeds its owner**, in every sequence of requests, as long as no
request takes the admin role from a user who keeps a credential with the admin scope. -/
theorem scoped_role_le_owner (w : World) (now : ℕ) (hw : Capped w now) (ho : Owned w)
    (rs : List Request) (ht : Timed now rs) (hd : NeverDemotes w rs) : Respected w rs := by
  induction rs generalizing w now with
  | nil => trivial
  | cons r rs ih =>
    obtain ⟨hr, ht⟩ := ht
    obtain ⟨hd, hds⟩ := hd
    have h : Sound (handle w r).1 r.now := Sound.handle ⟨hw, ho⟩ hr hd
    exact ⟨hw.within hr, ih _ r.now h.capped h.owned ht hds⟩

/-- One admin with a key of its own. -/
def oneAdmin : World where
  users := ⟨[⟨0, "root", "", 1, .admin, true, none⟩], List.nodup_singleton _⟩
  tokens := .empty
  apiKeys := .empty
  sessions := .empty
  next := 2

lemma capped_oneAdmin : Capped oneAdmin 0 := by
  rintro u - - (⟨t, ht, -⟩ | ⟨k, hk, -⟩)
  · exact absurd ht Keyed.not_mem_empty
  · exact absurd hk Keyed.not_mem_empty

lemma owned_oneAdmin : Owned oneAdmin := by
  refine ⟨fun u hu => ?_, fun t ht => absurd ht Keyed.not_mem_empty,
    fun k hk => absurd hk Keyed.not_mem_empty⟩
  rw [List.mem_singleton.1 hu]
  decide

/-- The admin mints a token with the admin scope, and uses it. -/
theorem respected_admin_token : Respected oneAdmin
    [⟨0, none, some 1, .createToken (.user 0) ["admin"] none⟩, ⟨1, none, some 3, .adminOnly⟩] := by
  refine scoped_role_le_owner oneAdmin 0 capped_oneAdmin owned_oneAdmin _
    ⟨by decide, by decide, trivial⟩ ⟨?_, ?_, trivial⟩
  · rintro ⟨target, u, hep, -⟩
    cases hep
  · rintro ⟨target, u, hep, -⟩
    cases hep

/-- The admin mints such a token and then gives up the role; the token keeps it. -/
theorem token_outlives_role : ¬∀ (w : World) (now : ℕ), Capped w now → Owned w →
    ∀ rs : List Request, Timed now rs → Respected w rs := by
  intro hclaim
  have h := hclaim oneAdmin 0 capped_oneAdmin owned_oneAdmin
    [⟨0, none, some 1, .createToken (.user 0) ["admin"] none⟩,
      ⟨1, none, some 1, .setUserRole (.user 0) .user⟩, ⟨2, none, some 3, .adminOnly⟩]
    ⟨by decide, by decide, by decide, trivial⟩
  have hrole := h.2.2.1 3 (⟨.user 0, .admin⟩, ["admin"]) ⟨0, "root", "", 1, .user, true, none⟩
    (by decide) (by decide) (by decide) (by decide)
  revert hrole
  decide

end Treeweft.ScopedRole
