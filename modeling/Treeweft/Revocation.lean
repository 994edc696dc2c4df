import Treeweft.Escalation

/-!
Credentials that have ended.

A token is revoked, a session is closed, a user is deleted. Every row of a later state is new,
under a number drawn since, or comes from a row of before that was worth at least as much: so
no request, whoever makes it, brings an ended credential back.
-/

namespace Treeweft.Revocation

open Auth Escalation

/-- The stores after some requests. -/
def run (w : World) (rs : List Request) : World := rs.foldl (fun w r => (handle w r).1) w

@[simp] lemma run_nil (w : World) : run w [] = w := rfl

@[simp] lemma run_cons (w : World) (r : Request) (rs : List Request) :
    run w (r :: rs) = run (handle w r).1 rs := rfl

/-! ### Numbers -/

section Rows
variable {α : Type} {key : α → ℕ}

/-- The ids of a table are a key of it too. -/
def IdsKey (id : α → ℕ) (t : Keyed key) : Prop := ∀ a ∈ t, ∀ b ∈ t, id a = id b → a = b

lemma IdsKey.put {id : α → ℕ} {t : Keyed key} (h : IdsKey id t) {x : α}
    (hx : ∀ a ∈ t, key a ≠ key x → id a ≠ id x) : IdsKey id (t.put x) := by
  intro a ha b hb hab
  rcases Keyed.mem_put.mp ha with rfl | ⟨ha', hne⟩
  · rcases Keyed.mem_put.mp hb with rfl | ⟨hb', hne⟩
    · rfl
    · exact absurd hab.symm (hx b hb' hne)
  · rcases Keyed.mem_put.mp hb with rfl | ⟨hb', -⟩
    · exact absurd hab (hx a ha' hne)
    · exact h a ha' b hb' hab

lemma forall_put {P : α → Prop} {t : Keyed key} (h : ∀ a ∈ t, P a) {x : α} (hx : P x) :
    ∀ a ∈ t.put x, P a := by
  intro a ha
  rcases Keyed.mem_put.mp ha with rfl | ⟨ha, -⟩
  · exact hx
  · exact h a ha

end Rows

/-- The numbers of a row are below `n`. -/
def UserBelow (n : ℕ) (u : User) : Prop := u.id < n ∧ u.apiKeyHash < n

def PatBelow (n : ℕ) (t : Pat) : Prop := t.id < n ∧ t.tokenHash < n ∧ t.userId < n

def KeyBelow (n : ℕ) (k : ApiKey) : Prop :=
  k.id < n ∧ k.tokenHash < n ∧ ∀ i, k.createdBy = some (.user i) → i < n

def SessionBelow (n : ℕ) (x : Session) : Prop := x.tokenHash < n ∧ x.userId < n

/-- Every number in the stores was drawn, and the ids are primary keys. -/
structure Owned (w : World) : Prop where
  user : ∀ u ∈ w.users, UserBelow w.next u
  pat : ∀ t ∈ w.tokens, PatBelow w.next t
  patId : IdsKey Pat.id w.tokens
  key : ∀ k ∈ w.apiKeys, KeyBelow w.next k
  keyId : IdsKey ApiKey.id w.apiKeys
  session : ∀ x ∈ w.sessions, SessionBelow w.next x

/-- More numbers are drawn, and nothing else happens. -/
lemma Owned.mono {w : World} (hw : Owned w) {n : ℕ} (hn : w.next ≤ n) :
    Owned { w with next := n } where
  user u hu := by
    obtain ⟨hid, hkey⟩ := hw.user u hu
    exact ⟨Nat.lt_of_lt_of_le hid hn, Nat.lt_of_lt_of_le hkey hn⟩
  pat t ht := by
    obtain ⟨hid, htok, huser⟩ := hw.pat t ht
    exact ⟨Nat.lt_of_lt_of_le hid hn, Nat.lt_of_lt_of_le htok hn, Nat.lt_of_lt_of_le huser hn⟩
  patId := hw.patId
  key k hk := by
    obtain ⟨hid, htok, hby⟩ := hw.key k hk
    exact ⟨Nat.lt_of_lt_of_le hid hn, Nat.lt_of_lt_of_le htok hn,
      fun i hi => Nat.lt_of_lt_of_le (hby i hi) hn⟩
  keyId := hw.keyId
  session x hx := by
    obtain ⟨htok, huser⟩ := hw.session x hx
    exact ⟨Nat.lt_of_lt_of_le htok hn, Nat.lt_of_lt_of_le huser hn⟩

/-! ### Rows and the rows they come from -/

/-- A user of the later state: new since `n`, or an earlier one that was active if it is. -/
def UserFrom (w : World) (u : User) : Prop :=
  (w.next ≤ u.id ∧ w.next ≤ u.apiKeyHash) ∨
    ∃ v ∈ w.users, v.id = u.id ∧ (u.active → v.active) ∧
      (v.apiKeyHash = u.apiKeyHash ∨ w.next ≤ u.apiKeyHash)

def PatFrom (w : World) (t : Pat) : Prop :=
  w.next ≤ t.tokenHash ∨ ∃ s ∈ w.tokens, s.tokenHash = t.tokenHash ∧ s.userId = t.userId ∧
    s.expiresAt = t.expiresAt ∧ (s.revoked → t.revoked)

def KeyFrom (w : World) (k : ApiKey) : Prop :=
  w.next ≤ k.tokenHash ∨ ∃ s ∈ w.apiKeys, s.tokenHash = k.tokenHash ∧
    s.createdBy = k.createdBy ∧ s.expiresAt = k.expiresAt ∧ (s.revoked → k.revoked)

/-- Each row of the second state is new, or comes from one of the first that granted as much. -/
structure Descends (w w' : World) : Prop where
  next_le : w.next ≤ w'.next
  user : ∀ u ∈ w'.users, UserFrom w u
  pat : ∀ t ∈ w'.tokens, PatFrom w t
  key : ∀ k ∈ w'.apiKeys, KeyFrom w k
  session : ∀ x ∈ w'.sessions, w.next ≤ x.tokenHash ∨ x ∈ w.sessions

lemma Descends.refl (w : World) : Descends w w where
  next_le := Nat.le_refl _
  user u hu := .inr ⟨u, hu, rfl, id, .inl rfl⟩
  pat t ht := .inr ⟨t, ht, rfl, rfl, rfl, id⟩
  key k hk := .inr ⟨k, hk, rfl, rfl, rfl, id⟩
  session _ hx := .inr hx

lemma Descends.trans {a b c : World} (h : Descends a b) (h' : Descends b c) : Descends a c where
  next_le := Nat.le_trans h.next_le h'.next_le
  user := by
    intro u hu
    have hab := h.next_le
    rcases h'.user u hu with ⟨hid, hkey⟩ | ⟨v, hv, hid, hact, hkey⟩
    · exact .inl ⟨Nat.le_trans hab hid, Nat.le_trans hab hkey⟩
    have hnew : a.next ≤ v.apiKeyHash → a.next ≤ u.apiKeyHash := by omega
    rcases h.user v hv with ⟨hid', hkey'⟩ | ⟨v', hv', hid', hact', hkey'⟩
    · exact .inl ⟨hid ▸ hid', hnew hkey'⟩
    refine .inr ⟨v', hv', hid'.trans hid, fun hu => hact' (hact hu), ?_⟩
    rcases hkey' with heq | hle
    · rcases hkey with heq' | hle'
      · exact .inl (heq.trans heq')
      · exact .inr (Nat.le_trans hab hle')
    · exact .inr (hnew hle)
  pat := by
    intro t ht
    rcases h'.pat t ht with hle | ⟨s, hs, htok, huser, hexp, hrev⟩
    · exact .inl (Nat.le_trans h.next_le hle)
    rcases h.pat s hs with hle | ⟨s', hs', htok', huser', hexp', hrev'⟩
    · exact .inl (htok ▸ hle)
    · exact .inr ⟨s', hs', htok'.trans htok, huser'.trans huser, hexp'.trans hexp,
        fun hr => hrev (hrev' hr)⟩
  key := by
    intro k hk
    rcases h'.key k hk with hle | ⟨s, hs, htok, hby, hexp, hrev⟩
    · exact .inl (Nat.le_trans h.next_le hle)
    rcases h.key s hs with hle | ⟨s', hs', htok', hby', hexp', hrev'⟩
    · exact .inl (htok ▸ hle)
    · exact .inr ⟨s', hs', htok'.trans htok, hby'.trans hby, hexp'.trans hexp,
        fun hr => hrev (hrev' hr)⟩
  session := by
    intro x hx
    rcases h'.session x hx with hle | hx
    · exact .inl (Nat.le_trans h.next_le hle)
    · exact h.session x hx

/-! ### One request -/

/-- What one request leaves. -/
structure Step (w w' : World) : Prop where
  owned : Owned w'
  descends : Descends w w'

section Endpoints
variable {w : World}

lemma step_same (hw : Owned w) : Step w w := ⟨hw, .refl w⟩

lemma Step.trans {a b c : World} (h : Step a b) (h' : Step b c) : Step a c :=
  ⟨h'.owned, h.descends.trans h'.descends⟩

lemma updateUser_eq (w : World) (i : ℕ) (f : User → User) :
    updateUser w i f = { w with users := (updateUser w i f).users } := by
  unfold updateUser
  split <;> rfl

/-- One user's row is rewritten: it is not made active again, and its key is kept or new. -/
lemma step_updateUser (hw : Owned w) (i : ℕ) (f : User → User) {n : ℕ} (hn : w.next ≤ n)
    (hact : ∀ u, (f u).active → u.active)
    (hkey : ∀ u, (f u).apiKeyHash = u.apiKeyHash ∨
      w.next ≤ (f u).apiKeyHash ∧ (f u).apiKeyHash < n) :
    Step w { updateUser w i f with next := n } := by
  rw [updateUser_eq]
  constructor
  · refine { hw.mono hn with user := ?_ }
    intro u hu
    rcases mem_updateUser.mp hu with ⟨hu, -⟩ | ⟨v, hv, -, rfl⟩
    · exact (hw.mono hn).user u hu
    · obtain ⟨hid, hlt⟩ := (hw.mono hn).user v hv
      refine ⟨hid, ?_⟩
      have h := hkey v
      dsimp only at hlt ⊢
      omega
  · refine { Descends.refl w with next_le := hn, user := ?_ }
    intro u hu
    rcases mem_updateUser.mp hu with ⟨hu, -⟩ | ⟨v, hv, -, rfl⟩
    · exact .inr ⟨u, hu, rfl, id, .inl rfl⟩
    · exact .inr ⟨v, hv, rfl, hact v, (hkey v).imp Eq.symm And.left⟩

lemma step_keepKey (hw : Owned w) (i : ℕ) (f : User → User) (hact : ∀ u, (f u).active → u.active)
    (hkey : ∀ u, (f u).apiKeyHash = u.apiKeyHash) : Step w (updateUser w i f) := by
  have hstep := step_updateUser hw i f (Nat.le_refl _) hact fun u => .inl (hkey u)
  rw [updateUser_eq] at hstep ⊢
  exact hstep

/-- A new user's id and key are the next two numbers. -/
lemma step_addUser (hw : Owned w) {u : User} (hid : u.id = w.next)
    (hkey : u.apiKeyHash = w.next + 1) :
    Step w { w with users := w.users.put u, next := w.next + 2 } := by
  have hn : w.next ≤ w.next + 2 := by omega
  refine ⟨{ hw.mono hn with user := ?_ }, { Descends.refl w with next_le := hn, user := ?_ }⟩
  · refine forall_put (hw.mono hn).user ⟨?_, ?_⟩ <;> dsimp only <;> omega
  · refine forall_put (Descends.refl w).user (.inl ⟨?_, ?_⟩) <;> omega

/-- A token row is written: a new one under the next two numbers, or an old one, revoked. -/
lemma step_putToken (hw : Owned w) {t : Pat} {n : ℕ}
    (h : (t.id = w.next ∧ t.tokenHash = w.next + 1 ∧ t.userId < w.next ∧ n = w.next + 2) ∨
      ∃ s ∈ w.tokens, t = { s with revoked := true } ∧ n = w.next) :
    Step w { w with tokens := w.tokens.put t, next := n } := by
  rcases h with ⟨hid, hhash, howner, rfl⟩ | ⟨s, hs, rfl, rfl⟩
  · have hn : w.next ≤ w.next + 2 := by omega
    refine ⟨{ hw.mono hn with pat := ?_, patId := ?_ },
      { Descends.refl w with next_le := hn, pat := ?_ }⟩
    · refine forall_put (hw.mono hn).pat ⟨?_, ?_, ?_⟩ <;> dsimp only <;> omega
    · refine hw.patId.put fun a ha _ heq => ?_
      have hlt := (hw.pat a ha).1
      omega
    · exact forall_put (Descends.refl w).pat (.inl (by omega))
  · refine ⟨{ hw with pat := forall_put hw.pat (hw.pat s hs), patId := ?_ },
      { Descends.refl w with pat := forall_put (Descends.refl w).pat ?_ }⟩
    · exact hw.patId.put fun a ha hne heq => hne (congrArg Pat.tokenHash (hw.patId a ha s hs heq) :)
    · exact .inr ⟨s, hs, rfl, rfl, rfl, fun _ => rfl⟩

/-- The same for a key. -/
lemma step_putKey (hw : Owned w) {k : ApiKey} {n : ℕ}
    (h : (k.id = w.next ∧ k.tokenHash = w.next + 1 ∧
        (∀ i, k.createdBy = some (.user i) → i < w.next) ∧ n = w.next + 2) ∨
      ∃ s ∈ w.apiKeys, k = { s with revoked := true } ∧ n = w.next) :
    Step w { w with apiKeys := w.apiKeys.put k, next := n } := by
  rcases h with ⟨hid, hhash, hby, rfl⟩ | ⟨s, hs, rfl, rfl⟩
  · have hn : w.next ≤ w.next + 2 := by omega
    refine ⟨{ hw.mono hn with key := ?_, keyId := ?_ },
      { Descends.refl w with next_le := hn, key := ?_ }⟩
    · refine forall_put (hw.mono hn).key ⟨?_, ?_, fun i hi => ?_⟩
      · dsimp only
        omega
      · dsimp only
        omega
      · exact Nat.lt_of_lt_of_le (hby i hi) hn
    · refine hw.keyId.put fun a ha _ heq => ?_
      have hlt := (hw.key a ha).1
      omega
    · exact forall_put (Descends.refl w).key (.inl (by omega))
  · refine ⟨{ hw with key := forall_put hw.key (hw.key s hs), keyId := ?_ },
      { Descends.refl w with key := forall_put (Descends.refl w).key ?_ }⟩
    · exact hw.keyId.put fun a ha hne heq =>
        hne (congrArg ApiKey.tokenHash (hw.keyId a ha s hs heq) :)
    · exact .inr ⟨s, hs, rfl, rfl, rfl, fun _ => rfl⟩

/-- A session is opened under the next number. -/
lemma step_openSession (hw : Owned w) {i e : ℕ} (hi : i < w.next) :
    Step w { w with sessions := w.sessions.put ⟨i, w.next, e⟩, next := w.next + 1 } := by
  have hn : w.next ≤ w.next + 1 := by omega
  refine ⟨{ hw.mono hn with session := ?_ },
    { Descends.refl w with next_le := hn, session := ?_ }⟩
  · refine forall_put (hw.mono hn).session ⟨?_, ?_⟩ <;> dsimp only <;> omega
  · exact forall_put (fun _ hx => .inr hx) (.inl (Nat.le_refl _))

lemma step_closeSessions (hw : Owned w) (p : Session → Bool) :
    Step w { w with sessions := w.sessions.filter p } := by
  refine ⟨{ hw with session := fun x hx => ?_ },
    { Descends.refl w with session := fun x hx => ?_ }⟩
  · exact hw.session x (Keyed.mem_filter.mp hx).1
  · exact .inr (Keyed.mem_filter.mp hx).1

end Endpoints

/-! ### Live credentials -/

section Alive
variable {w w' : World} {now later s : ℕ} {c : Caller}

/-- The session is open and its user active. -/
def SessionAlive (w : World) (now s : ℕ) : Prop :=
  ∃ x ∈ w.sessions, x.tokenHash = s ∧ now < x.expiresAt ∧
    ∃ u ∈ w.users, u.id = x.userId ∧ u.active = true

def PatAlive (w : World) (now s : ℕ) : Prop :=
  ∃ t ∈ w.tokens, t.tokenHash = s ∧ t.revoked = false ∧ live now t.expiresAt ∧
    ∃ u ∈ w.users, u.id = t.userId ∧ u.active = true

/-- A key that nobody owns lives without an owner. -/
def KeyAlive (w : World) (now s : ℕ) : Prop :=
  ∃ k ∈ w.apiKeys, k.tokenHash = s ∧ k.revoked = false ∧ live now k.expiresAt ∧
    ∀ p, k.createdBy = some p → ∃ u ∈ w.users, p = .user u.id ∧ u.active = true

def OwnKeyAlive (w : World) (s : ℕ) : Prop := ∃ u ∈ w.users, u.apiKeyHash = s ∧ u.active = true

lemma sessionCaller_isSome : (sessionCaller w now s).isSome ↔ SessionAlive w now s := by
  simp only [Option.isSome_iff_exists, sessionCaller, Option.bind_eq_bind, Option.bind_eq_some_iff,
    Option.guard_eq_some', Option.some.injEq]
  constructor
  · rintro ⟨c, x, hx, -, hnow, u, hu, -, hact, -⟩
    obtain ⟨hx, hxs⟩ := Keyed.get?_eq_some.mp hx
    obtain ⟨hu, hid⟩ := Keyed.get?_eq_some.mp hu
    exact ⟨x, hx, hxs, hnow, u, hu, hid, hact⟩
  · rintro ⟨x, hx, hxs, hnow, u, hu, hid, hact⟩
    exact ⟨_, x, Keyed.get?_eq_some.mpr ⟨hx, hxs⟩, (), hnow, u,
      Keyed.get?_eq_some.mpr ⟨hu, hid⟩, (), hact, rfl⟩

lemma patCaller_isSome : (patCaller w now s).isSome ↔ PatAlive w now s := by
  simp only [Option.isSome_iff_exists, patCaller, Option.bind_eq_bind, Option.bind_eq_some_iff,
    Option.guard_eq_some', Option.some.injEq, Bool.and_eq_true, Bool.not_eq_true']
  constructor
  · rintro ⟨c, t, ht, -, ⟨hrev, hlive⟩, u, hu, -, hact, -⟩
    obtain ⟨ht, hts⟩ := Keyed.get?_eq_some.mp ht
    obtain ⟨hu, hid⟩ := Keyed.get?_eq_some.mp hu
    exact ⟨t, ht, hts, hrev, hlive, u, hu, hid, hact⟩
  · rintro ⟨t, ht, hts, hrev, hlive, u, hu, hid, hact⟩
    exact ⟨_, t, Keyed.get?_eq_some.mpr ⟨ht, hts⟩, (), ⟨hrev, hlive⟩, u,
      Keyed.get?_eq_some.mpr ⟨hu, hid⟩, (), hact, rfl⟩

lemma getById_eq_some {p : PrincipalId} {u : User} :
    getById w p = some u ↔ u ∈ w.users ∧ p = .user u.id := by
  cases p with
  | user i => rw [getById, Keyed.get?_eq_some, PrincipalId.user.injEq, eq_comm (a := i)]
  | apikey i => simp [getById]

lemma apiKeyCaller_isSome : (apiKeyCaller w now s).isSome ↔ KeyAlive w now s := by
  simp only [Option.isSome_iff_exists, apiKeyCaller, Option.bind_eq_bind, Option.bind_eq_some_iff,
    Option.guard_eq_some', Bool.and_eq_true, Bool.not_eq_true']
  constructor
  · rintro ⟨c, k, hk, -, ⟨hrev, hlive⟩, hc⟩
    obtain ⟨hk, hks⟩ := Keyed.get?_eq_some.mp hk
    refine ⟨k, hk, hks, hrev, hlive, fun p hp => ?_⟩
    rw [hp] at hc
    simp only [Option.bind_eq_some_iff, Option.guard_eq_some'] at hc
    obtain ⟨u, hu, -, hact, -⟩ := hc
    obtain ⟨hu, hid⟩ := getById_eq_some.mp hu
    exact ⟨u, hu, hid, hact⟩
  · rintro ⟨k, hk, hks, hrev, hlive, howner⟩
    have hget := Keyed.get?_eq_some.mpr ⟨hk, hks⟩
    cases hby : k.createdBy with
    | none =>
      refine ⟨(⟨.apikey k.id, roleOf k.scopes⟩, k.scopes), k, hget, (), ⟨hrev, hlive⟩, ?_⟩
      rw [hby]
    | some p =>
      obtain ⟨u, hu, hid, hact⟩ := howner p hby
      refine ⟨(deriveScopedPrincipal u k.scopes, k.scopes), k, hget, (), ⟨hrev, hlive⟩, ?_⟩
      simp [hby, getById_eq_some.mpr ⟨hu, hid⟩, hact]

lemma legacyCaller_isSome : (legacyCaller w s).isSome ↔ OwnKeyAlive w s := by
  have h : (legacyCaller w s).isSome =
      (w.users.rows.find? fun u => u.apiKeyHash = s ∧ u.active).isSome := by
    rw [legacyCaller]
    cases List.find? _ _ <;> rfl
  rw [h, List.find?_isSome]
  simp [OwnKeyAlive]

lemma live_of_le (hle : now ≤ later) {e : Option ℕ} (h : live later e) : live now e := by
  cases e with
  | none => rfl
  | some t =>
    simp only [live, Option.all_some, decide_eq_true_eq] at h ⊢
    omega

/-- An active user of the later state was active before. -/
lemma active_before (hd : Descends w w') {i : ℕ} (hi : i < w.next)
    (h : ∃ u ∈ w'.users, u.id = i ∧ u.active = true) :
    ∃ u ∈ w.users, u.id = i ∧ u.active = true := by
  obtain ⟨u, hu, rfl, hact⟩ := h
  rcases hd.user u hu with ⟨hid, -⟩ | ⟨v, hv, hid, hv', -⟩
  · omega
  · exact ⟨v, hv, hid, hv' hact⟩

lemma SessionAlive.before (hw : Owned w) (hd : Descends w w') (hle : now ≤ later)
    (hs : s < w.next) (h : SessionAlive w' later s) : SessionAlive w now s := by
  obtain ⟨x, hx, rfl, hnow, hu⟩ := h
  rcases hd.session x hx with hnew | hx
  · omega
  · exact ⟨x, hx, rfl, Nat.lt_of_le_of_lt hle hnow, active_before hd (hw.session x hx).2 hu⟩

lemma PatAlive.before (hw : Owned w) (hd : Descends w w') (hle : now ≤ later)
    (hs : s < w.next) (h : PatAlive w' later s) : PatAlive w now s := by
  obtain ⟨t, ht, rfl, hrev, hlive, hu⟩ := h
  rcases hd.pat t ht with hnew | ⟨t', ht', htok, huser, hexp, hrev'⟩
  · omega
  · refine ⟨t', ht', htok, ?_, live_of_le hle (hexp ▸ hlive), ?_⟩
    · rw [← Bool.not_eq_true]
      exact fun hr => by simp [hrev' hr] at hrev
    · exact active_before hd (hw.pat t' ht').2.2 (huser ▸ hu)

lemma KeyAlive.before (hw : Owned w) (hd : Descends w w') (hle : now ≤ later)
    (hs : s < w.next) (h : KeyAlive w' later s) : KeyAlive w now s := by
  obtain ⟨k, hk, rfl, hrev, hlive, hu⟩ := h
  rcases hd.key k hk with hnew | ⟨k', hk', htok, hby, hexp, hrev'⟩
  · omega
  · refine ⟨k', hk', htok, ?_, live_of_le hle (hexp ▸ hlive), fun p hp => ?_⟩
    · rw [← Bool.not_eq_true]
      exact fun hr => by simp [hrev' hr] at hrev
    · obtain ⟨u, hu, rfl, hact⟩ := hu p (hby ▸ hp)
      obtain ⟨v, hv, hid, hact⟩ :=
        active_before hd ((hw.key k' hk').2.2 u.id hp) ⟨u, hu, rfl, hact⟩
      exact ⟨v, hv, congrArg PrincipalId.user hid.symm, hact⟩

lemma OwnKeyAlive.before (hd : Descends w w') (hs : s < w.next) (h : OwnKeyAlive w' s) :
    OwnKeyAlive w s := by
  obtain ⟨u, hu, rfl, hact⟩ := h
  rcases hd.user u hu with ⟨-, hnew⟩ | ⟨v, hv, -, hv', heq | hnew⟩
  · omega
  · exact ⟨v, hv, heq, hv' hact⟩
  · omega

end Alive

/-! ### Runs -/

section Run
variable {w : World}

/-- Whoever is let in is a user of the stores, or a key that nobody owns. -/
lemma caller_active {now : ℕ} {cookie bearer : Option ℕ} {c : Caller}
    (h : authenticate w now cookie bearer = some c) {i : ℕ} (hi : c.1.id = .user i) :
    ∃ u ∈ w.users, u.id = i ∧ u.active = true := by
  have hcases : (∃ s, sessionCaller w now s = some c) ∨ ∃ s, bearerCaller w now s = some c := by
    rw [authenticate] at h
    cases hc : cookie.bind (sessionCaller w now) with
    | some d =>
      rw [hc] at h
      obtain ⟨s, -, hs⟩ := Option.bind_eq_some_iff.mp hc
      exact .inl ⟨s, hs.trans h⟩
    | none =>
      rw [hc] at h
      obtain ⟨s, -, hs⟩ := Option.bind_eq_some_iff.mp h
      exact .inr ⟨s, hs⟩
  rcases hcases with ⟨s, h⟩ | ⟨s, h⟩
  · simp only [sessionCaller, Option.bind_eq_bind, Option.bind_eq_some_iff, Option.guard_eq_some',
      Option.some.injEq] at h
    obtain ⟨x, -, -, -, u, hu, -, hact, rfl⟩ := h
    exact ⟨u, Keyed.mem_of_get? hu, PrincipalId.user.inj hi, hact⟩
  rcases bearerCaller_cases h with h | h | h
  · simp only [patCaller, Option.bind_eq_bind, Option.bind_eq_some_iff, Option.guard_eq_some',
      Option.some.injEq] at h
    obtain ⟨t, -, -, -, u, hu, -, hact, rfl⟩ := h
    exact ⟨u, Keyed.mem_of_get? hu, PrincipalId.user.inj hi, hact⟩
  · simp only [apiKeyCaller, Option.bind_eq_bind, Option.bind_eq_some_iff,
      Option.guard_eq_some'] at h
    obtain ⟨k, -, -, -, h⟩ := h
    split at h
    · simp only [Option.bind_eq_some_iff, Option.guard_eq_some', Option.some.injEq] at h
      obtain ⟨u, hu, -, hact, rfl⟩ := h
      exact ⟨u, (getById_eq_some.mp hu).1, PrincipalId.user.inj hi, hact⟩
    · cases h
      cases hi
  · simp only [legacyCaller, Option.bind_eq_bind, Option.bind_eq_some_iff,
      Option.some.injEq] at h
    obtain ⟨u, hu, rfl⟩ := h
    have hp := List.find?_some hu
    simp only [decide_eq_true_eq] at hp
    exact ⟨u, List.mem_of_find?_eq_some hu, PrincipalId.user.inj hi, hp.2⟩

/-- A handler lets nobody in whose id was not drawn. -/
lemma step_dispatch (hw : Owned w) (r : Request) (caller : Option Caller)
    (hc : ∀ c ∈ caller, ∀ i, c.1.id = .user i → i < w.next) : Step w (dispatch w r caller).1 := by
  have hsame := step_same hw
  obtain ⟨now, cookie, bearer, e⟩ := r
  cases e with
  | createUser username email role =>
    dsimp only [dispatch, createUser]
    repeat' split
    all_goals first
      | exact hsame
      | exact step_addUser hw rfl rfl
  | deleteUser target =>
    dsimp only [dispatch, deleteUser]
    repeat' split
    all_goals first
      | exact hsame
      | exact step_keepKey hw _ _ (fun _ h => by cases h) fun _ => rfl
  | rotateKey target =>
    dsimp only [dispatch, rotateKey]
    repeat' split
    all_goals first
      | exact hsame
      | exact step_updateUser hw _ _ (Nat.le_succ _) (fun _ h => h)
          fun _ => .inr ⟨Nat.le_refl _, Nat.lt_succ_self _⟩
  | setPassword target password current =>
    dsimp only [dispatch, setPassword]
    repeat' split
    all_goals first
      | exact hsame
      | skip
    rename_i u _
    have hstep := step_keepKey hw u.id (fun u => { u with passwordHash := some password })
      (fun _ h => h) fun _ => rfl
    have hclose := step_closeSessions hstep.owned fun s => s.userId ≠ u.id
    rw [updateUser_eq] at hstep hclose ⊢
    exact hstep.trans hclose
  | setUserRole target role =>
    dsimp only [dispatch, setUserRole]
    repeat' split
    all_goals first
      | exact hsame
      | exact step_keepKey hw _ _ (fun _ h => h) fun _ => rfl
  | createToken target scopes expiresAt =>
    dsimp only [dispatch, createToken]
    repeat' split
    all_goals first
      | exact hsame
      | skip
    rename_i owner howner _
    obtain ⟨hmem, -⟩ := getById_eq_some.mp howner
    exact step_putToken hw (.inl ⟨rfl, rfl, (hw.user owner hmem).1, rfl⟩)
  | listTokens target =>
    dsimp only [dispatch, listTokens]
    split <;> exact hsame
  | revokeToken target tokenId =>
    dsimp only [dispatch, revokeToken]
    repeat' split
    all_goals first
      | exact hsame
      | skip
    rename_i t ht
    exact step_putToken hw (.inr ⟨t, List.mem_of_find?_eq_some ht, rfl, rfl⟩)
  | createApiKey scopes expiresAt =>
    dsimp only [dispatch, createApiKey]
    split
    · exact hsame
    · refine step_putKey hw (.inl ⟨rfl, rfl, fun i hi => ?_, rfl⟩)
      obtain ⟨c, hcaller, hid⟩ := Option.map_eq_some_iff.mp hi
      exact hc c hcaller i hid
  | revokeApiKey keyId =>
    dsimp only [dispatch, revokeApiKey]
    repeat' split
    all_goals first
      | exact hsame
      | skip
    rename_i k hk
    exact step_putKey hw (.inr ⟨k, List.mem_of_find?_eq_some hk, rfl, rfl⟩)
  | adminOnly =>
    dsimp only [dispatch, adminOnly]
    split <;> exact hsame
  | authLogin throttled ttl username password =>
    dsimp only [dispatch, authLogin]
    repeat' split
    all_goals first
      | exact hsame
      | skip
    rename_i u hu _
    exact step_openSession hw (hw.user u (List.mem_of_find?_eq_some hu)).1
  | authLogout =>
    dsimp only [dispatch, authLogout]
    split
    · exact hsame
    · exact step_closeSessions hw _

/-- **One request** draws its numbers and gives no row more than it had. -/
lemma step_handle (hw : Owned w) (r : Request) : Step w (handle w r).1 := by
  rw [handle]
  split
  · exact step_dispatch hw r none fun c hc => by cases hc
  · split
    · exact step_same hw
    · rename_i c hcaller
      refine step_dispatch hw r (some c) fun d hd i hi => ?_
      obtain rfl := Option.some.inj hd
      obtain ⟨u, hu, rfl, -⟩ := caller_active hcaller hi
      exact (hw.user u hu).1

lemma step_run (hw : Owned w) (rs : List Request) : Step w (run w rs) := by
  induction rs generalizing w with
  | nil => exact step_same hw
  | cons r rs ih =>
    have hstep := step_handle hw r
    exact hstep.trans (ih hstep.owned)

end Run

/-! ### What ends a credential -/

/-- The store a number is looked up in. -/
inductive Store
  | session | pat | apiKey | ownKey

def callerIn (w : World) (now : ℕ) : Store → ℕ → Option Caller
  | .session => sessionCaller w now
  | .pat => patCaller w now
  | .apiKey => apiKeyCaller w now
  | .ownKey => legacyCaller w

/-- What an endpoint that answers 204 ends: the token or key that it names, the session whose
cookie it gets, all the sessions of a user whose password it sets. -/
def Ends (w : World) (r : Request) : Store → ℕ → Prop
  | .session, s => ∃ x ∈ w.sessions, x.tokenHash = s ∧
      (r.endpoint = .authLogout ∧ r.cookie = some s ∨
        ∃ password current, r.endpoint = .setPassword (.user x.userId) password current)
  | .pat, s => ∃ target tokenId, r.endpoint = .revokeToken target tokenId ∧
      ∃ t ∈ w.tokens, t.tokenHash = s ∧ t.id = tokenId
  | .apiKey, s => ∃ keyId, r.endpoint = .revokeApiKey keyId ∧
      ∃ k ∈ w.apiKeys, k.tokenHash = s ∧ k.id = keyId
  | .ownKey, _ => False

section Ended
variable {w : World} {now later s : ℕ}

/-- Where a credential is rejected, it stays rejected. -/
lemma callerIn_later (hw : Owned w) (rs : List Request) (hle : now ≤ later) (hs : s < w.next)
    (st : Store) (h : callerIn w now st s = none) : callerIn (run w rs) later st s = none := by
  have hd := (step_run hw rs).descends
  by_contra hne
  rw [← ne_eq, Option.ne_none_iff_isSome] at hne
  refine absurd h (Option.ne_none_iff_isSome.mpr ?_)
  cases st with
  | session => exact sessionCaller_isSome.mpr ((sessionCaller_isSome.mp hne).before hw hd hle hs)
  | pat => exact patCaller_isSome.mpr ((patCaller_isSome.mp hne).before hw hd hle hs)
  | apiKey => exact apiKeyCaller_isSome.mpr ((apiKeyCaller_isSome.mp hne).before hw hd hle hs)
  | ownKey => exact legacyCaller_isSome.mpr ((legacyCaller_isSome.mp hne).before hd hs)

/-- No gate answers 204. -/
lemma requireAdmin_ne {c : Option Caller} {e : ℕ} (h : requireAdmin c = .error e) : e ≠ 204 := by
  cases c with
  | none => cases h; decide
  | some c =>
    simp only [requireAdmin] at h
    split_ifs at h <;> cases h <;> decide

lemma selfOrAdmin_ne {c : Option Caller} {p : PrincipalId} {e : ℕ}
    (h : selfOrAdmin c p = .error e) : e ≠ 204 := by
  cases c with
  | none => cases h; decide
  | some c =>
    simp only [selfOrAdmin] at h
    split_ifs at h
    cases h
    decide

lemma checkCurrent_ne {p : PrincipalId} {text : String} {e : ℕ}
    (h : checkCurrent w p text = .error e) : e ≠ 204 := by
  simp only [checkCurrent] at h
  split at h
  · cases h
    decide
  · split_ifs at h
    cases h
    decide

/-- A request that is answered 204 reached its handler. -/
lemma handle_eq_dispatch {r : Request} (hok : (handle w r).2.status = 204) :
    ∃ caller, handle w r = dispatch w r caller := by
  simp only [handle] at hok ⊢
  split_ifs at hok ⊢
  · exact ⟨none, rfl⟩
  · split at hok
    · cases hok
    · exact ⟨_, rfl⟩

lemma revokeToken_ok {c : Option Caller} {target : PrincipalId} {tokenId : ℕ}
    (hok : (revokeToken w c target tokenId).2.status = 204) : ∃ t ∈ w.tokens, t.id = tokenId ∧
      (revokeToken w c target tokenId).1.tokens = w.tokens.put { t with revoked := true } := by
  simp only [revokeToken] at hok ⊢
  split at hok
  · rename_i hgate
    exact absurd hok (selfOrAdmin_ne hgate)
  split at hok
  · cases hok
  · rename_i t ht
    have hp := List.find?_some ht
    simp only [decide_eq_true_eq] at hp
    exact ⟨t, List.mem_of_find?_eq_some ht, hp.1, rfl⟩

lemma revokeApiKey_ok {c : Option Caller} {keyId : ℕ}
    (hok : (revokeApiKey w c keyId).2.status = 204) : ∃ k ∈ w.apiKeys, k.id = keyId ∧
      (revokeApiKey w c keyId).1.apiKeys = w.apiKeys.put { k with revoked := true } := by
  simp only [revokeApiKey] at hok ⊢
  split at hok
  · rename_i hgate
    exact absurd hok (requireAdmin_ne hgate)
  split at hok
  · cases hok
  · rename_i k hk
    have hp := List.find?_some hk
    exact ⟨k, List.mem_of_find?_eq_some hk, by simpa using hp, rfl⟩

lemma setPassword_ok {c : Option Caller} {target : PrincipalId} {password current : String}
    (hok : (setPassword w c target password current).2.status = 204) :
    ∃ i, target = .user i ∧ (setPassword w c target password current).1.sessions =
      w.sessions.filter fun s => s.userId ≠ i := by
  simp only [setPassword] at hok ⊢
  split at hok
  · rename_i hgate
    exact absurd hok (selfOrAdmin_ne hgate)
  rename_i gate _
  split at hok
  · rename_i hcheck
    cases gate with
    | true => cases hcheck
    | false => exact absurd hok (checkCurrent_ne hcheck)
  split at hok
  · cases hok
  split at hok
  · cases hok
  · rename_i hpass _ u hu
    obtain ⟨-, hid⟩ := getById_eq_some.mp hu
    exact ⟨u.id, hid, by simp_all⟩

lemma deleteUser_ok {c : Option Caller} {target : PrincipalId}
    (hok : (deleteUser w c target).2.status = 204) : ∃ u ∈ w.users, target = .user u.id ∧
      (deleteUser w c target).1 = updateUser w u.id fun u => { u with active := false } := by
  simp only [deleteUser] at hok ⊢
  split at hok
  · rename_i hgate
    exact absurd hok (requireAdmin_ne hgate)
  split at hok
  · cases hok
  · rename_i u hu
    obtain ⟨hmem, hid⟩ := getById_eq_some.mp hu
    exact ⟨u, hmem, hid, rfl⟩

/-- What a request ends is rejected in the state that it leaves. -/
lemma ends_now (now : ℕ) (hw : Owned w) {r : Request} (hok : (handle w r).2.status = 204)
    {st : Store} (h : Ends w r st s) : s < w.next ∧ callerIn (handle w r).1 now st s = none := by
  obtain ⟨caller, hr⟩ := handle_eq_dispatch hok
  rw [hr] at hok ⊢
  cases st with
  | session =>
    obtain ⟨x, hx, rfl, h⟩ := h
    refine ⟨(hw.session x hx).1, ?_⟩
    rw [callerIn, ← Option.not_isSome_iff_eq_none, sessionCaller_isSome]
    rintro ⟨x', hx', hhash, -⟩
    rcases h with ⟨he, hcookie⟩ | ⟨password, current, he⟩
    · simp only [dispatch, he, authLogout, hcookie, Keyed.mem_erase] at hx'
      exact hx'.2 hhash
    · simp only [dispatch, he] at hok hx'
      obtain ⟨i, huser, hsessions⟩ := setPassword_ok hok
      rw [hsessions, Keyed.mem_filter] at hx'
      obtain rfl := Keyed.eq_of_key hx'.1 hx hhash
      exact absurd (PrincipalId.user.inj huser) (by simpa using hx'.2)
  | pat =>
    obtain ⟨target, tokenId, he, t, ht, rfl, hid⟩ := h
    refine ⟨(hw.pat t ht).2.1, ?_⟩
    simp only [dispatch, he] at hok ⊢
    obtain ⟨t', ht', hid', htokens⟩ := revokeToken_ok hok
    obtain rfl := hw.patId t' ht' t ht (hid'.trans hid.symm)
    rw [callerIn, ← Option.not_isSome_iff_eq_none, patCaller_isSome]
    rintro ⟨a, ha, hhash, hrev, -⟩
    rw [htokens] at ha
    rcases Keyed.mem_put.mp ha with rfl | ⟨-, hne⟩
    · cases hrev
    · exact hne hhash
  | apiKey =>
    obtain ⟨keyId, he, k, hk, rfl, hid⟩ := h
    refine ⟨(hw.key k hk).2.1, ?_⟩
    simp only [dispatch, he] at hok ⊢
    obtain ⟨k', hk', hid', hkeys⟩ := revokeApiKey_ok hok
    obtain rfl := hw.keyId k' hk' k hk (hid'.trans hid.symm)
    rw [callerIn, ← Option.not_isSome_iff_eq_none, apiKeyCaller_isSome]
    rintro ⟨a, ha, hhash, hrev, -⟩
    rw [hkeys] at ha
    rcases Keyed.mem_put.mp ha with rfl | ⟨-, hne⟩
    · cases hrev
    · exact hne hhash
  | ownKey => exact h.elim

lemma bearerCaller_eq_none : bearerCaller w now s = none ↔
    patCaller w now s = none ∧ apiKeyCaller w now s = none ∧ legacyCaller w s = none := by
  unfold bearerCaller
  cases patCaller w now s <;> cases apiKeyCaller w now s <;> simp

lemma authenticate_eq_none {cookie bearer : Option ℕ} : authenticate w now cookie bearer = none ↔
    (∀ s ∈ cookie, sessionCaller w now s = none) ∧
      ∀ s ∈ bearer, bearerCaller w now s = none := by
  unfold authenticate
  cases cookie <;> cases bearer <;> simp

/-- **Rejected once, rejected for good**: no request by anybody makes a credential that is not
accepted now acceptable later. -/
theorem stays_rejected (w : World) (hw : Owned w) (cookie bearer : Option ℕ) (now : ℕ)
    (hcookie : ∀ s ∈ cookie, s < w.next) (hbearer : ∀ s ∈ bearer, s < w.next)
    (h : authenticate w now cookie bearer = none) (rs : List Request) (later : ℕ)
    (hle : now ≤ later) : authenticate (run w rs) later cookie bearer = none := by
  rw [authenticate_eq_none] at h ⊢
  refine ⟨fun s hs => ?_, fun s hs => ?_⟩
  · exact callerIn_later hw rs hle (hcookie s hs) .session (h.1 s hs)
  · obtain ⟨hpat, hkey, hown⟩ := bearerCaller_eq_none.mp (h.2 s hs)
    exact bearerCaller_eq_none.mpr ⟨callerIn_later hw rs hle (hbearer s hs) .pat hpat,
      callerIn_later hw rs hle (hbearer s hs) .apiKey hkey,
      callerIn_later hw rs hle (hbearer s hs) .ownKey hown⟩

/-- **A deleted user stays out**: whatever is asked next, no cookie and no token lets anybody in
as the user again. -/
theorem deleted_stays_out (w : World) (hw : Owned w) (rs : List Request) (r : Request)
    (i : ℕ) (he : r.endpoint = .deleteUser (.user i)) (hok : (handle (run w rs) r).2.status = 204)
    (rs' : List Request) (now : ℕ) (cookie bearer : Option ℕ) (c : Caller)
    (hc : authenticate (run (handle (run w rs) r).1 rs') now cookie bearer = some c) :
    c.1.id ≠ .user i := by
  intro hid
  have hrun := step_run hw rs
  have hstep := step_handle hrun.owned r
  obtain ⟨caller, hr⟩ := handle_eq_dispatch hok
  simp only [hr, dispatch, he] at hok
  obtain ⟨u, hu, hui, hout⟩ := deleteUser_ok hok
  obtain rfl := PrincipalId.user.inj hui
  have hlt : u.id < (handle (run w rs) r).1.next :=
    Nat.lt_of_lt_of_le (hrun.owned.user u hu).1 hstep.descends.next_le
  -- an active row of the user would come from one in the state that the deletion left
  obtain ⟨v, hv, hvid, hact⟩ :=
    active_before (step_run hstep.owned rs').descends hlt (caller_active hc hid)
  simp only [hr, dispatch, he, hout] at hv
  rcases mem_updateUser.mp hv with ⟨-, hne⟩ | ⟨v', -, -, rfl⟩
  · exact hne hvid
  · cases hact

end Ended

/-! ### An admin with a token -/

lemma owned_admin : Owned adminWithSearchToken := by
  refine ⟨fun u hu => ?_, fun t ht => ?_, fun s hs t ht _ => ?_, fun k hk => ?_, fun k hk => ?_,
    fun x hx => ?_⟩
  · rw [List.mem_singleton.mp hu]
    exact ⟨by decide, by decide⟩
  · rw [List.mem_singleton.mp ht]
    exact ⟨by decide, by decide, by decide⟩
  · exact (List.mem_singleton.mp hs).trans (List.mem_singleton.mp ht).symm
  · exact absurd hk Keyed.not_mem_empty
  · exact absurd hk Keyed.not_mem_empty
  · exact absurd hx Keyed.not_mem_empty

/-- The admin, with its own key, revokes its token. -/
def revokeSearch : Request := ⟨5, none, some 1, .revokeToken (.user 0) 2⟩

theorem cookie_stays_rejected :
    authenticate (run adminWithSearchToken [revokeSearch]) 9 (some 3) none = none :=
  stays_rejected adminWithSearchToken owned_admin (some 3) none 0 (by simp [adminWithSearchToken])
    (by simp) (by decide) [revokeSearch] 9 (by decide)

/-- An admin and a user, each with a key of its own. -/
def adminAndUser : World where
  users := ⟨[⟨0, "root", "", 1, .admin, true, none⟩, ⟨2, "ann", "", 3, .user, true, none⟩],
    by decide⟩
  tokens := .empty
  apiKeys := .empty
  sessions := .empty
  next := 4

lemma owned_adminAndUser : Owned adminAndUser := by
  refine ⟨fun u hu => ?_, fun t ht => ?_, fun s hs => ?_, fun k hk => ?_, fun k hk => ?_,
    fun x hx => ?_⟩
  · rcases List.mem_pair.mp hu with rfl | rfl
    · exact ⟨by decide, by decide⟩
    · exact ⟨by decide, by decide⟩
  · exact absurd ht Keyed.not_mem_empty
  · exact absurd hs Keyed.not_mem_empty
  · exact absurd hk Keyed.not_mem_empty
  · exact absurd hk Keyed.not_mem_empty
  · exact absurd hx Keyed.not_mem_empty

def deleteAnn : Request := ⟨5, none, some 1, .deleteUser (.user 2)⟩

/-- The admin is let in after it deleted the user, and not as the user. -/
theorem admin_after_deletion :
    authenticate (run (handle adminAndUser deleteAnn).1 [deleteAnn]) 9 none (some 1) =
        some (⟨.user 0, .admin⟩, ["search", "index", "admin"]) ∧
      PrincipalId.user 0 ≠ .user 2 :=
  ⟨by decide, deleted_stays_out adminAndUser owned_adminAndUser [] deleteAnn 2 rfl (by decide)
    [deleteAnn] 9 none (some 1) (⟨.user 0, .admin⟩, ["search", "index", "admin"]) (by decide)⟩

end Treeweft.Revocation
