import Treeweft.Keyed

/-!
Identities, credentials and the endpoints that mint them.

A raw token is a number drawn fresh, and its digest identifies it, so the stores are keyed by
the token itself. A caller is what the middleware attaches to a request: a principal and the
scopes of the credential it came with. Only the fields that some check reads are kept.
-/

namespace Treeweft.Auth

inductive Role
  | admin | user
  deriving DecidableEq, Repr

abbrev Scope := String

def scopesForRole : Role → List Scope
  | .admin => ["search", "index", "admin"]
  | .user => ["search", "index"]

/-- A user's id, or the synthetic id of a key that has no owner. -/
inductive PrincipalId
  | user (id : ℕ)
  | apikey (id : ℕ)
  deriving DecidableEq, Repr

structure User where
  id : ℕ
  username : String
  email : String
  apiKeyHash : ℕ
  role : Role
  active : Bool
  passwordHash : Option String
  deriving DecidableEq, Repr

structure Pat where
  id : ℕ
  userId : ℕ
  tokenHash : ℕ
  scopes : List Scope
  expiresAt : Option ℕ
  revoked : Bool
  deriving DecidableEq, Repr

structure ApiKey where
  id : ℕ
  tokenHash : ℕ
  scopes : List Scope
  createdBy : Option PrincipalId
  expiresAt : Option ℕ
  revoked : Bool
  deriving DecidableEq, Repr

structure Session where
  userId : ℕ
  tokenHash : ℕ
  expiresAt : ℕ
  deriving DecidableEq, Repr

structure World where
  users : Keyed User.id
  tokens : Keyed Pat.tokenHash
  apiKeys : Keyed ApiKey.tokenHash
  sessions : Keyed Session.tokenHash
  next : ℕ

structure Principal where
  id : PrincipalId
  role : Role
  deriving DecidableEq, Repr

abbrev Caller := Principal × List Scope

/-! ### The middleware -/

def getById (w : World) : PrincipalId → Option User
  | .user i => w.users.get? i
  | .apikey _ => none

def principalOf (u : User) : Principal := ⟨.user u.id, u.role⟩

def roleOf (scopes : List Scope) : Role := if "admin" ∈ scopes then .admin else .user

/-- A copy of the owner whose role follows the token's scopes. -/
def deriveScopedPrincipal (owner : User) (scopes : List Scope) : Principal :=
  { principalOf owner with role := roleOf scopes }

def live (now : ℕ) (expiresAt : Option ℕ) : Bool := expiresAt.all fun t => now < t

def sessionCaller (w : World) (now : ℕ) (s : ℕ) : Option Caller := do
  let session ← w.sessions.get? s
  guard (now < session.expiresAt)
  let u ← w.users.get? session.userId
  guard u.active
  some (principalOf u, scopesForRole u.role)

def patCaller (w : World) (now : ℕ) (s : ℕ) : Option Caller := do
  let pat ← w.tokens.get? s
  guard (!pat.revoked && live now pat.expiresAt)
  let u ← w.users.get? pat.userId
  guard u.active
  some (deriveScopedPrincipal u pat.scopes, pat.scopes)

def apiKeyCaller (w : World) (now : ℕ) (s : ℕ) : Option Caller := do
  let key ← w.apiKeys.get? s
  guard (!key.revoked && live now key.expiresAt)
  match key.createdBy with
  | some pid =>
    let owner ← getById w pid
    guard owner.active
    some (deriveScopedPrincipal owner key.scopes, key.scopes)
  | none => some (⟨.apikey key.id, roleOf key.scopes⟩, key.scopes)

def legacyCaller (w : World) (s : ℕ) : Option Caller := do
  let u ← w.users.rows.find? fun u => u.apiKeyHash = s ∧ u.active
  some (principalOf u, scopesForRole u.role)

/-- A bearer token is a personal token, an API key, or a user's own key, in this order. -/
def bearerCaller (w : World) (now : ℕ) (s : ℕ) : Option Caller :=
  (patCaller w now s).orElse fun _ => (apiKeyCaller w now s).orElse fun _ => legacyCaller w s

/-- The session cookie first, then the bearer token. -/
def authenticate (w : World) (now : ℕ) (cookie bearer : Option ℕ) : Option Caller :=
  (cookie.bind (sessionCaller w now)).orElse fun _ => bearer.bind (bearerCaller w now)

/-! ### Gates -/

def requireAdmin : Option Caller → Except ℕ Unit
  | none => .error 401
  | some (p, scopes) =>
    if p.role ≠ .admin then .error 403
    else if "admin" ∉ scopes then .error 403
    else .ok ()

def actingAsAdmin : Caller → Bool
  | (p, scopes) => p.role = .admin && "admin" ∈ scopes

/-- The gate of the self-or-admin endpoints. It returns whether the admin branch let the caller
through. -/
def selfOrAdmin (caller : Option Caller) (target : PrincipalId) : Except ℕ Bool :=
  match caller with
  | none => .error 401
  | some c =>
    if c.1.id = target then .ok false
    else if actingAsAdmin c then .ok true
    else .error 403

/-! ### The endpoints -/

/-- Something that can be presented later: a token, a session cookie, a user's password. -/
inductive Credential
  | bearer (s : ℕ)
  | cookie (s : ℕ)
  | password (userId : ℕ) (text : String)
  deriving DecidableEq, Repr

/-- The status, the credentials the caller now holds, and whether an admin gate was passed. -/
structure Reply where
  status : ℕ
  issued : List Credential
  adminGate : Bool
  deriving DecidableEq, Repr

def refuse (w : World) (status : ℕ) : World × Reply := (w, ⟨status, [], false⟩)

def createUser (w : World) (caller : Option Caller) (username email role : String) :
    World × Reply :=
  match requireAdmin caller with
  | .error e => refuse w e
  | .ok _ =>
    if email ≠ "" ∧ '@' ∉ email.toList then (w, ⟨400, [], true⟩)
    else if role.toLower ≠ "admin" ∧ role.toLower ≠ "user" then (w, ⟨400, [], true⟩)
    else if ∃ u ∈ w.users.rows, u.username = username then (w, ⟨503, [], true⟩)
    else
      let r := if role.toLower = "admin" then Role.admin else Role.user
      ({ w with
          users := w.users.put ⟨w.next, username, email, w.next + 1, r, true, none⟩
          next := w.next + 2 },
        ⟨201, [.bearer (w.next + 1)], true⟩)

/-- Replace one user's row. -/
def updateUser (w : World) (i : ℕ) (f : User → User) : World :=
  match w.users.get? i with
  | none => w
  | some u => { w with users := w.users.put { f u with id := u.id } }

lemma mem_updateUser {w : World} {i : ℕ} {f : User → User} {v : User} :
    v ∈ (updateUser w i f).users ↔
      (v ∈ w.users ∧ v.id ≠ i) ∨ ∃ u ∈ w.users, u.id = i ∧ v = { f u with id := u.id } := by
  unfold updateUser
  cases h : w.users.get? i with
  | none =>
    rw [Keyed.get?_eq_none] at h
    constructor
    · exact fun hv => .inl ⟨hv, h v hv⟩
    · rintro (⟨hv, -⟩ | ⟨u, hu, rfl, -⟩)
      · exact hv
      · exact absurd rfl (h u hu)
  | some u =>
    obtain ⟨hu, rfl⟩ := Keyed.get?_eq_some.1 h
    rw [Keyed.mem_put]
    constructor
    · rintro (rfl | ⟨hv, hne⟩)
      · exact .inr ⟨u, hu, rfl, rfl⟩
      · exact .inl ⟨hv, hne⟩
    · rintro (⟨hv, hne⟩ | ⟨u', hu', hid, rfl⟩)
      · exact .inr ⟨hv, hne⟩
      · rw [Keyed.eq_of_key hu' hu hid]
        exact .inl rfl

def deleteUser (w : World) (caller : Option Caller) (target : PrincipalId) : World × Reply :=
  match requireAdmin caller with
  | .error e => refuse w e
  | .ok _ =>
    match getById w target with
    | none => (w, ⟨404, [], true⟩)
    | some u => (updateUser w u.id fun u => { u with active := false }, ⟨204, [], true⟩)

def rotateKey (w : World) (caller : Option Caller) (target : PrincipalId) : World × Reply :=
  match selfOrAdmin caller target with
  | .error e => refuse w e
  | .ok gate =>
    match getById w target with
    | none => (w, ⟨404, [], gate⟩)
    | some u =>
      ({ updateUser w u.id (fun u => { u with apiKeyHash := w.next }) with next := w.next + 1 },
        ⟨200, [.bearer w.next], gate⟩)

/-- `hash_password` refuses what bcrypt would cut. -/
def passwordTooLong (password : String) : Bool := password.utf8ByteSize > 72

/-- A change of one's own password that is already set asks for the old one. -/
def checkCurrent (w : World) (target : PrincipalId) (currentPassword : String) :
    Except ℕ Unit :=
  match getById w target with
  | none => .error 404
  | some u => if u.passwordHash.any (· ≠ currentPassword) then .error 403 else .ok ()

def setPassword (w : World) (caller : Option Caller) (target : PrincipalId)
    (password currentPassword : String) : World × Reply :=
  match selfOrAdmin caller target with
  | .error e => refuse w e
  | .ok gate =>
    match if gate then .ok () else checkCurrent w target currentPassword with
    | .error e => (w, ⟨e, [], gate⟩)
    | .ok _ =>
      if passwordTooLong password then (w, ⟨400, [], gate⟩)
      else
        match getById w target with
        | none => (w, ⟨404, [], gate⟩)
        | some u =>
          ({ updateUser w u.id (fun u => { u with passwordHash := some password }) with
              sessions := w.sessions.filter fun s => s.userId ≠ u.id },
            ⟨204, [.password u.id password], gate⟩)

def setUserRole (w : World) (caller : Option Caller) (target : PrincipalId) (role : Role) :
    World × Reply :=
  match requireAdmin caller with
  | .error e => refuse w e
  | .ok _ =>
    match getById w target with
    | none => (w, ⟨404, [], true⟩)
    | some u => (updateUser w u.id fun u => { u with role := role }, ⟨200, [], true⟩)

def createToken (w : World) (caller : Option Caller) (target : PrincipalId)
    (scopes : List Scope) (expiresAt : Option ℕ) : World × Reply :=
  match selfOrAdmin caller target with
  | .error e => refuse w e
  | .ok gate =>
    match getById w target with
    | none => (w, ⟨404, [], gate⟩)
    | some owner =>
      if ∃ s ∈ scopes, s ∉ scopesForRole owner.role then (w, ⟨403, [], gate⟩)
      else
        ({ w with
            tokens := w.tokens.put ⟨w.next, owner.id, w.next + 1, scopes, expiresAt, false⟩
            next := w.next + 2 },
          ⟨201, [.bearer (w.next + 1)], gate⟩)

def listTokens (w : World) (caller : Option Caller) (target : PrincipalId) : World × Reply :=
  match selfOrAdmin caller target with
  | .error e => refuse w e
  | .ok gate => (w, ⟨200, [], gate⟩)

def revokeToken (w : World) (caller : Option Caller) (target : PrincipalId) (tokenId : ℕ) :
    World × Reply :=
  match selfOrAdmin caller target with
  | .error e => refuse w e
  | .ok gate =>
    match w.tokens.rows.find? fun t => t.id = tokenId ∧ .user t.userId = target with
    | none => (w, ⟨404, [], gate⟩)
    | some t => ({ w with tokens := w.tokens.put { t with revoked := true } }, ⟨204, [], gate⟩)

def createApiKey (w : World) (caller : Option Caller) (scopes : List Scope)
    (expiresAt : Option ℕ) : World × Reply :=
  match requireAdmin caller with
  | .error e => refuse w e
  | .ok _ =>
    ({ w with
        apiKeys := w.apiKeys.put
          ⟨w.next, w.next + 1, scopes, caller.map fun c => c.1.id, expiresAt, false⟩
        next := w.next + 2 },
      ⟨201, [.bearer (w.next + 1)], true⟩)

def revokeApiKey (w : World) (caller : Option Caller) (keyId : ℕ) : World × Reply :=
  match requireAdmin caller with
  | .error e => refuse w e
  | .ok _ =>
    match w.apiKeys.rows.find? fun k => k.id = keyId with
    | none => (w, ⟨404, [], true⟩)
    | some k => ({ w with apiKeys := w.apiKeys.put { k with revoked := true } }, ⟨204, [], true⟩)

/-- The admin endpoints that touch none of these stores: listings, groups, grants, access flags
and the rest of the service. -/
def adminOnly (w : World) (caller : Option Caller) : World × Reply :=
  match requireAdmin caller with
  | .error e => refuse w e
  | .ok _ => (w, ⟨200, [], true⟩)

/-- `auth_login`; `throttled` is the verdict of the login throttle, `ttl` the session's life. -/
def authLogin (w : World) (now ttl : ℕ) (throttled : Bool) (username password : String) :
    World × Reply :=
  if throttled then refuse w 429
  else
    match w.users.rows.find? fun u => u.username = username with
    | none => refuse w 401
    | some u =>
      if u.passwordHash ≠ some password then refuse w 401
      else
        ({ w with
            sessions := w.sessions.put ⟨u.id, w.next, now + ttl⟩
            next := w.next + 1 },
          ⟨200, [.cookie w.next], false⟩)

def authLogout (w : World) (cookie : Option ℕ) : World × Reply :=
  match cookie with
  | none => (w, ⟨204, [], false⟩)
  | some s => ({ w with sessions := w.sessions.erase s }, ⟨204, [], false⟩)

inductive Endpoint
  | createUser (username email role : String)
  | deleteUser (target : PrincipalId)
  | rotateKey (target : PrincipalId)
  | setPassword (target : PrincipalId) (password currentPassword : String)
  | setUserRole (target : PrincipalId) (role : Role)
  | createToken (target : PrincipalId) (scopes : List Scope) (expiresAt : Option ℕ)
  | listTokens (target : PrincipalId)
  | revokeToken (target : PrincipalId) (tokenId : ℕ)
  | createApiKey (scopes : List Scope) (expiresAt : Option ℕ)
  | revokeApiKey (keyId : ℕ)
  | adminOnly
  | authLogin (throttled : Bool) (ttl : ℕ) (username password : String)
  | authLogout
  deriving DecidableEq, Repr

structure Request where
  now : ℕ
  cookie : Option ℕ
  bearer : Option ℕ
  endpoint : Endpoint
  deriving DecidableEq, Repr

def publicPath : Endpoint → Bool
  | .authLogin .. => true
  | .authLogout => true
  | _ => false

/-- What a handler does for a caller the middleware let through. -/
def dispatch (w : World) (r : Request) (caller : Option Caller) : World × Reply :=
  match r.endpoint with
  | .createUser username email role => createUser w caller username email role
  | .deleteUser target => deleteUser w caller target
  | .rotateKey target => rotateKey w caller target
  | .setPassword target password current => setPassword w caller target password current
  | .setUserRole target role => setUserRole w caller target role
  | .createToken target scopes expiresAt => createToken w caller target scopes expiresAt
  | .listTokens target => listTokens w caller target
  | .revokeToken target tokenId => revokeToken w caller target tokenId
  | .createApiKey scopes expiresAt => createApiKey w caller scopes expiresAt
  | .revokeApiKey keyId => revokeApiKey w caller keyId
  | .adminOnly => adminOnly w caller
  | .authLogin throttled ttl username password =>
    authLogin w r.now ttl throttled username password
  | .authLogout => authLogout w r.cookie

/-- One request, through the middleware. -/
def handle (w : World) (r : Request) : World × Reply :=
  if publicPath r.endpoint then dispatch w r none
  else
    match authenticate w r.now r.cookie r.bearer with
    | none => refuse w 401
    | some caller => dispatch w r (some caller)

end Treeweft.Auth
