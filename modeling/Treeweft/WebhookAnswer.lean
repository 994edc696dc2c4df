import Treeweft.JsonText
import Treeweft.Webhook

/-!
What the webhook route answers a delivery.

An adapter returns a payload, raises, or returns none: of a signature that does not match, of an
event that is no merge, and of a file list that it did not get. The route tells these three apart
by whether a signature came with the delivery.

The digest, the reader of JSON and the providers' endpoints are not part of the program.
-/

namespace Treeweft.WebhookAnswer

open Treeweft.JsonText (Value Text)
open Treeweft.FileIndex (Action)
open Treeweft.Webhook (Provider Adapter validateHmac header startsWith githubAdapter giteaAdapter
  mapGithubStatus mapGiteaStatus)

inductive Exc
  | typeError
  | attributeError
  deriving DecidableEq

/-! ### JSON values as the program handles them -/

def null : Value := .word .null

def text (s : String) : Value := .str s.toList

def truthy : Value → Bool
  | .word .null | .word .false => false
  | .word _ => true
  | .num n => n.value ≠ 0
  | .str s => s ≠ []
  | .arr l => !l.isEmpty
  | .obj fields => !fields.isEmpty

def isNull : Value → Bool
  | .word .null => true
  | _ => false

def isText (v : Value) (s : String) : Bool :=
  match v with
  | .str t => t = s.toList
  | _ => false

/-- `v.get(key, d)`, which only an object has. -/
def get (v : Value) (key : String) (d : Value) : Except Exc Value :=
  match v with
  | .obj fields => .ok ((fields.lookup key.toList).getD d)
  | _ => .error .attributeError

/-- What a loop runs through: the elements of a list, the keys of an object, the characters of a
string. -/
def iter : Value → Except Exc (List Value)
  | .arr l => .ok l
  | .obj fields => .ok (fields.map fun f => .str f.1)
  | .str s => .ok (s.map fun c => .str [c])
  | _ => .error .typeError

/-! ### The event -/

structure Merge where
  repoUrl : Value
  branch : Value
  number : Value

def readMergeEvent (body : Value) : Except Exc (Option Merge) := do
  let action ← get body "action" null
  let pullRequest ← get body "pull_request" (.obj [])
  if isText action "closed" then
    let merged ← get pullRequest "merged" null
    if truthy merged then
      let base ← get pullRequest "base" (.obj [])
      let repo ← get base "repo" (.obj [])
      let repoUrl ← get repo "clone_url" (text "")
      let branch ← get base "ref" (text "")
      let number ← get pullRequest "number" null
      if truthy repoUrl && truthy branch && !isNull number then
        pure (some ⟨repoUrl, branch, number⟩)
      else pure none
    else pure none
  else pure none

/-- A body of another shape is no merge event. -/
def parseMergeEvent (body : Value) : Option Merge :=
  match readMergeEvent body with
  | .ok event => event
  | .error _ => none

/-! ### The file list -/

structure Change where
  path : Value
  action : Action

/-- A list or an object is not hashable, and so no key to look up. -/
def githubAction : Value → Except Exc Action
  | .str s => .ok (mapGithubStatus (String.ofList s))
  | .arr _ | .obj _ => .error .typeError
  | _ => .ok .modified

def giteaAction : Value → Except Exc Action
  | .str s => .ok (mapGiteaStatus (String.ofList s))
  | _ => .error .attributeError

def normalizeFile : Provider → Value → Except Exc Change
  | .github, f => do
    let action ← githubAction (← get f "status" (text "modified"))
    pure ⟨← get f "filename" (text ""), action⟩
  | .gitea, f => do
    let action ← giteaAction (← get f "Status" (← get f "status" (text "changed")))
    pure ⟨← get f "Filename" (← get f "filename" (text "")), action⟩

def normalizeChangedFiles (provider : Provider) (rawFiles : Value) :
    Except Exc (List Change) := do
  (← iter rawFiles).mapM (normalizeFile provider)

/-! ### The adapters -/

def isAscii (s : String) : Bool := s.toList.all fun c => c.toNat < 128

/-- The HMAC-SHA256 of a body under a secret, in hexadecimal. -/
structure Hmac where
  hexdigest : String → List UInt8 → String
  ascii : ∀ secret payload, isAscii (hexdigest secret payload)

/-- Texts are compared only where they are ASCII. -/
def compareDigest (a b : String) : Except Exc Bool :=
  if isAscii a && isAscii b then .ok (a = b) else .error .typeError

/-- The answer to `GET /repos/{slug}/pulls/{number}/files`; `none` where it fails. -/
abbrev Endpoint := Provider → String → Value → Option Value

structure Payload where
  provider : Provider
  repoUrl : Value
  branch : Value
  changedFiles : List Change

inductive Answer
  | refused (status : ℕ) (detail : String)
  /-- An exception that nothing catches. -/
  | crashed
  /-- A job that is done and was never queued. -/
  | acknowledged
  /-- The jobs of the payload's source are what the request goes on with. -/
  | dispatched (p : Payload)

/-- Why a body could not be read. -/
inductive Unreadable
  | syntaxError
  | encoding

/-- The webhook's settings; an empty one is not set. -/
structure Environment where
  githubSecret : String
  giteaSecret : String
  giteaBaseUrl : String
  trustInlineFiles : String

abbrev Headers := List (String × String)

section Route
variable (hmac : Hmac) (load : List UInt8 → Except Unreadable Value) (request : Endpoint)

def validate (secret : String) (payload : List UInt8) (signature : String) : Except Exc Bool :=
  if secret = "" ∧ signature = "" then .ok true
  else if secret = "" ∨ signature = "" then .ok false
  else if startsWith "sha1=" signature.toLower then .ok false
  else
    let value := if startsWith "sha256=" signature.toLower then
      String.ofList (signature.toList.drop 7) else signature
    compareDigest (hmac.hexdigest secret payload) value

/-- A clone URL that is no string has no slug. -/
def fetchChangedFiles (a : Adapter) (m : Merge) : Option Value :=
  match m.repoUrl with
  | .str url => request a.provider (a.repoSlug (String.ofList url)) m.number
  | _ => none

def resolveFiles (a : Adapter) (body : Value) (m : Merge) : Except Exc (Option Value) :=
  if a.trustInlineFiles then do
    let files ← get (← get body "pull_request" (.obj [])) "files" (.arr [])
    pure (some (if truthy files then files else .arr []))
  else .ok (fetchChangedFiles request a m)

/-- The adapters' `handle_webhook`. -/
def handle (a : Adapter) (headers : Headers) (body : Value) (raw : List UInt8) :
    Except Exc (Option Payload) := do
  if ← validate hmac a.secret raw (header headers a.signatureHeader) then
    match parseMergeEvent body with
    | none => pure none
    | some m =>
      match ← resolveFiles request a body m with
      | none => pure none
      | some rawFiles =>
        let changedFiles ← normalizeChangedFiles a.provider rawFiles
        pure (some ⟨a.provider, m.repoUrl, m.branch, changedFiles⟩)
  else pure none

/-! ### The route -/

def detectProvider (headers : Headers) : Option Provider :=
  if headers.any fun h => h.1.toLower = "x-github-event" then some .github
  else if headers.any fun h => h.1.toLower = "x-gitea-event" then some .gitea
  else none

def adapterFor (env : Environment) (headers : Headers) : Except Answer Adapter :=
  match detectProvider headers with
  | none => .error (.refused 400 "Unknown webhook provider")
  | some .github =>
    if env.githubSecret = "" then .error (.refused 503 "WEBHOOK_GITHUB_SECRET not configured")
    else .ok (githubAdapter env.githubSecret (env.trustInlineFiles = "1"))
  | some .gitea =>
    if env.giteaSecret = "" ∨ env.giteaBaseUrl = "" then
      .error (.refused 503 "WEBHOOK_GITEA_SECRET or WEBHOOK_GITEA_BASE_URL not configured")
    else .ok (giteaAdapter env.giteaSecret)

def hasSignature (headers : Headers) : Bool :=
  header headers "x-hub-signature-256" ≠ "" || header headers "x-gitea-signature" ≠ ""

/-- What becomes of an adapter's result. -/
def answer (headers : Headers) : Except Exc (Option Payload) → Answer
  | .error _ => .refused 401 "Webhook validation failed"
  | .ok none =>
    if hasSignature headers then .refused 401 "Invalid webhook signature" else .acknowledged
  | .ok (some p) => .dispatched p

def handleWebhook (env : Environment) (headers : Headers) (raw : List UInt8) : Answer :=
  match load raw with
  | .error .syntaxError => .refused 400 "Invalid JSON body"
  | .error .encoding => .crashed
  | .ok body =>
    match adapterFor env headers with
    | .error e => e
    | .ok a => answer headers (handle hmac request a headers body raw)

end Route

/-! ### Deliveries of the providers' shape -/

section Shape
open Treeweft.Webhook (RawFile PullRequest Body WebhookPayload FilesEndpoint pathOfString)

def fileValue (f : RawFile) : Value := .obj (f.fields.map fun p => (p.1.toList, text p.2))

def numberValue : Option ℕ → Value
  | some n => .num (.ofInt n)
  | none => null

def pullRequestValue (pr : PullRequest) : Value :=
  .obj [("merged".toList, .word (if pr.merged then .true else .false)),
    ("base".toList, .obj [("repo".toList, .obj [("clone_url".toList, text pr.cloneUrl)]),
      ("ref".toList, text pr.ref)]),
    ("number".toList, numberValue pr.number),
    ("files".toList, .arr (pr.files.map fileValue))]

def bodyValue (b : Body) : Value :=
  .obj (("action".toList, text b.action) ::
    (b.pullRequest.map fun pr => ("pull_request".toList, pullRequestValue pr)).toList)

def textOf : Value → String
  | .str s => String.ofList s
  | _ => ""

def Change.typed (c : Change) : FileIndex.Change := ⟨pathOfString (textOf c.path), c.action⟩

def Payload.typed (p : Payload) : WebhookPayload :=
  ⟨p.provider, textOf p.repoUrl, textOf p.branch, p.changedFiles.map Change.typed⟩

/-- The endpoint behind the client, which decodes its answers. -/
def client (request : FilesEndpoint) : Endpoint := fun _ slug number =>
  match number with
  | .num n => (request slug n.value.num.toNat none).map fun files => .arr (files.map fileValue)
  | _ => none

@[simp] lemma textOf_text (s : String) : textOf (text s) = s := String.ofList_toList

lemma lookup_fields (l : List (String × String)) (key : String) :
    (l.map fun p => (p.1.toList, text p.2)).lookup key.toList = (l.lookup key).map text := by
  induction l with
  | nil => rfl
  | cons p l ih =>
    have hkey : (key.toList == p.1.toList) = (key == p.1) := by
      rw [Bool.eq_iff_iff, beq_iff_eq, beq_iff_eq, String.toList_inj]
    rw [List.map_cons, List.lookup_cons, List.lookup_cons, hkey, ih]
    cases key == p.1 <;> rfl

lemma get_fileValue (f : RawFile) (key d : String) :
    get (fileValue f) key (text d) = .ok (text ((f.get? key).getD d)) := by
  change Except.ok (((f.fields.map fun p => (p.1.toList, text p.2)).lookup key.toList).getD
    (text d)) = .ok (text ((f.fields.lookup key).getD d))
  rw [lookup_fields]
  cases f.fields.lookup key <;> rfl

lemma normalizeFile_fileValue (provider : Provider) (f : RawFile) :
    normalizeFile provider (fileValue f) =
      .ok ⟨text (f.path provider), f.action provider⟩ := by
  cases provider with
  | github =>
    have ha : githubAction (text ((f.get? "status").getD "modified")) =
        .ok (f.action .github) := by
      exact congrArg (fun s => Except.ok (mapGithubStatus s)) String.ofList_toList
    simp only [normalizeFile, get_fileValue, bind, Except.bind, ha]
    rfl
  | gitea =>
    have ha : giteaAction (text ((f.get? "Status").getD ((f.get? "status").getD "changed"))) =
        .ok (f.action .gitea) := by
      exact congrArg (fun s => Except.ok (mapGiteaStatus s)) String.ofList_toList
    simp only [normalizeFile, get_fileValue, bind, Except.bind, ha]
    rfl

lemma normalize_fileValues (provider : Provider) (files : List RawFile) :
    normalizeChangedFiles provider (.arr (files.map fileValue)) =
      .ok (files.map fun f => ⟨text (f.path provider), f.action provider⟩) := by
  change (files.map fileValue).mapM (normalizeFile provider) = _
  induction files with
  | nil => rfl
  | cons f files ih =>
    rw [List.map_cons, List.mapM_cons, normalizeFile_fileValue, ih]
    rfl

lemma truthy_text (s : String) : truthy (text s) = true ↔ s ≠ "" := by
  unfold truthy text
  rw [decide_eq_true_iff, Ne, Ne, String.toList_eq_nil_iff]

lemma isText_text (s t : String) : isText (text s) t = true ↔ s = t := by
  unfold isText text
  rw [decide_eq_true_iff, String.toList_inj]

lemma readMergeEvent_of_pullRequest {b : Body} {pr : PullRequest} (h : b.pullRequest = some pr) :
    readMergeEvent (bodyValue b) =
      if isText (text b.action) "closed" then
        if truthy (.word (if pr.merged then .true else .false)) then
          if truthy (text pr.cloneUrl) && truthy (text pr.ref) && !isNull (numberValue pr.number)
          then .ok (some ⟨text pr.cloneUrl, text pr.ref, numberValue pr.number⟩)
          else .ok none
        else .ok none
      else .ok none := by
  unfold readMergeEvent bodyValue
  rw [h]
  rfl

lemma parseMergeEvent_bodyValue (b : Body) :
    parseMergeEvent (bodyValue b) = (Webhook.parseMergeEvent b).map fun m =>
      ⟨text m.1, text m.2.1, numberValue (some m.2.2)⟩ := by
  unfold parseMergeEvent Webhook.parseMergeEvent
  cases hpr : b.pullRequest with
  | none =>
    have hread : readMergeEvent (bodyValue b) =
        if isText (text b.action) "closed" then .ok none else .ok none := by
      unfold readMergeEvent bodyValue
      rw [hpr]
      rfl
    rw [hread, ite_self]
    rfl
  | some pr =>
    rw [readMergeEvent_of_pullRequest hpr]
    simp only [isText_text, truthy_text, Bool.and_eq_true, guard, Option.bind_eq_bind,
      Option.bind_some]
    have hmerged : truthy (.word (if pr.merged then .true else .false)) = pr.merged := by
      cases pr.merged <;> rfl
    rw [hmerged]
    by_cases ha : b.action = "closed"
    · cases hm : pr.merged with
      | false => simp [ha]
      | true =>
        by_cases hf : pr.cloneUrl ≠ "" ∧ pr.ref ≠ ""
        · cases hn : pr.number with
          | none => simp [ha, hf, numberValue, isNull, null]
          | some n => simp [ha, hf, numberValue, isNull]
        · simp [ha, hf]
    · simp [ha]

end Shape

/-! ### What an answer should tell -/

def Answer.Unauthorized : Answer → Prop
  | .refused status _ => status = 401
  | _ => False

def Answer.Failure : Answer → Prop
  | .refused _ _ | .crashed => True
  | .acknowledged | .dispatched _ => False

def Signed (hmac : Hmac) (a : Adapter) (headers : Headers) (raw : List UInt8) : Prop :=
  validateHmac hmac.hexdigest a.secret raw (header headers a.signatureHeader) = true

def IsMerge (body : Value) : Prop := (parseMergeEvent body).isSome

/-- The file list of a merge was asked for and not got. -/
def Unavailable (request : Endpoint) (a : Adapter) (body : Value) : Prop :=
  ∃ m, parseMergeEvent body = some m ∧ resolveFiles request a body m = .ok none

/-- A merge whose file list was got, and is one. -/
def Usable (request : Endpoint) (a : Adapter) (body : Value) : Prop :=
  ∃ m files changes, parseMergeEvent body = some m ∧
    resolveFiles request a body m = .ok (some files) ∧
    normalizeChangedFiles a.provider files = .ok changes

/-- The answer tells a rejected secret, an event of no interest and an outage apart. -/
structure Tells (hmac : Hmac) (load : List UInt8 → Except Unreadable Value) (request : Endpoint)
    (a : Adapter) (headers : Headers) (raw : List UInt8) (r : Answer) : Prop where
  rejected : r.Unauthorized ↔ ¬Signed hmac a headers raw
  acknowledged : Signed hmac a headers raw → ∀ body, load raw = .ok body → ¬IsMerge body →
    r = .acknowledged
  outage : Signed hmac a headers raw → ∀ body, load raw = .ok body →
    Unavailable request a body → r.Failure ∧ ¬r.Unauthorized

section Signature
variable {hmac : Hmac} {secret : String} {payload : List UInt8} {signature : String}

lemma compareDigest_eq_true_iff {a b : String} (ha : isAscii a) :
    compareDigest a b = .ok true ↔ a = b := by
  unfold compareDigest
  split_ifs with hb
  · simp
  · have hne : a ≠ b := by
      rintro rfl
      exact hb (by rw [ha, Bool.true_and])
    simp [hne]

lemma validate_eq_true_iff :
    validate hmac secret payload signature = .ok true ↔
      validateHmac hmac.hexdigest secret payload signature = true := by
  have hd := hmac.ascii secret payload
  unfold validate validateHmac
  split_ifs
  · simp
  · simp
  · simp
  · exact (compareDigest_eq_true_iff hd).trans decide_eq_true_iff.symm
  · exact (compareDigest_eq_true_iff hd).trans decide_eq_true_iff.symm

/-- With a secret, only a signature is compared. -/
lemma validate_of_no_signature (hs : secret ≠ "") :
    validate hmac secret payload "" = .ok false := by
  unfold validate
  rw [if_neg (fun h => hs h.1), if_pos (Or.inr rfl)]

end Signature

section Adapter
variable {hmac : Hmac} {load : List UInt8 → Except Unreadable Value} {request : Endpoint}
variable {env : Environment} {headers : Headers} {raw : List UInt8} {a : Adapter} {body : Value}

lemma secret_of_adapterFor (h : adapterFor env headers = .ok a) : a.secret ≠ "" := by
  unfold adapterFor at h
  split at h
  · cases h
  · split_ifs at h with hs
    cases h
    exact hs
  · split_ifs at h with hs
    cases h
    exact fun he => hs (.inl he)

lemma hasSignature_of_header (h : adapterFor env headers = .ok a)
    (hne : header headers a.signatureHeader ≠ "") : hasSignature headers = true := by
  unfold hasSignature
  rw [Bool.or_eq_true, decide_eq_true_iff, decide_eq_true_iff]
  unfold adapterFor at h
  split at h
  · cases h
  · split_ifs at h with hs
    cases h
    exact .inl hne
  · split_ifs at h with hs
    cases h
    exact .inr hne

lemma header_of_signed (h : adapterFor env headers = .ok a) (hs : Signed hmac a headers raw) :
    header headers a.signatureHeader ≠ "" := by
  intro he
  have hv := validate_eq_true_iff.2 hs
  rw [he, validate_of_no_signature (secret_of_adapterFor h)] at hv
  cases hv

/-- Of a signature that does not match an adapter makes nothing, or it raises. -/
lemma handle_of_not_signed (h : adapterFor env headers = .ok a)
    (hs : ¬Signed hmac a headers raw) :
    handle hmac request a headers body raw = .ok none ∨
      header headers a.signatureHeader ≠ "" ∧
        ∃ e, handle hmac request a headers body raw = .error e := by
  unfold handle
  cases hv : validate hmac a.secret raw (header headers a.signatureHeader) with
  | error e =>
    refine .inr ⟨fun he => ?_, e, rfl⟩
    rw [he, validate_of_no_signature (secret_of_adapterFor h)] at hv
    cases hv
  | ok b =>
    cases b with
    | false => exact .inl rfl
    | true => exact absurd (validate_eq_true_iff.1 hv) hs

lemma handle_of_signed (hs : Signed hmac a headers raw) :
    handle hmac request a headers body raw =
      match parseMergeEvent body with
      | none => .ok none
      | some m =>
        match resolveFiles request a body m with
        | .error e => .error e
        | .ok none => .ok none
        | .ok (some files) =>
          match normalizeChangedFiles a.provider files with
          | .error e => .error e
          | .ok changes => .ok (some ⟨a.provider, m.repoUrl, m.branch, changes⟩) := by
  unfold handle
  rw [validate_eq_true_iff.2 hs]
  cases hm : parseMergeEvent body with
  | none => rfl
  | some m =>
    cases hf : resolveFiles request a body m with
    | error e => simp [hf, bind, Except.bind]
    | ok files =>
      cases files with
      | none => simp [hf, bind, Except.bind]; rfl
      | some files =>
        cases hn : normalizeChangedFiles a.provider files with
        | error e => simp [hf, hn, bind, Except.bind]
        | ok changes => simp [hf, hn, bind, Except.bind]; rfl

/-- An adapter makes a payload of the merges whose file list was got, and of no others. -/
lemma handle_eq_some_iff (hs : Signed hmac a headers raw) :
    (∃ p, handle hmac request a headers body raw = .ok (some p)) ↔ Usable request a body := by
  rw [handle_of_signed hs]
  constructor
  · rintro ⟨p, hp⟩
    split at hp
    · cases hp
    · rename_i m hm
      split at hp
      · cases hp
      · cases hp
      · rename_i files hf
        split at hp
        · cases hp
        · rename_i changes hn
          exact ⟨m, files, changes, hm, hf, hn⟩
  · rintro ⟨m, files, changes, hm, hf, hn⟩
    exact ⟨_, by simp only [hm, hf, hn]; rfl⟩

section Shape
open Treeweft.Webhook (Body WebhookPayload FilesEndpoint)

lemma resolveFiles_bodyValue (files : FilesEndpoint) (a : Adapter) {b : Body}
    {repoUrl branch : String} {number : ℕ}
    (hm : Webhook.parseMergeEvent b = some (repoUrl, branch, number)) :
    resolveFiles (client files) a (bodyValue b)
        ⟨text repoUrl, text branch, numberValue (some number)⟩ =
      .ok ((Webhook.resolveFiles files a b repoUrl number).map fun l =>
        .arr (l.map fileValue)) := by
  unfold resolveFiles Webhook.resolveFiles
  split_ifs
  · have hpr : ∃ pr, b.pullRequest = some pr := by
      unfold Webhook.parseMergeEvent at hm
      obtain ⟨pr, hpr, -⟩ := Option.bind_eq_some_iff.1 hm
      exact ⟨pr, hpr⟩
    obtain ⟨pr, hpr⟩ := hpr
    unfold bodyValue
    rw [hpr]
    change Except.ok (some (if truthy (.arr (pr.files.map fileValue)) then
      Value.arr (pr.files.map fileValue) else .arr [])) =
        .ok (some (.arr (pr.files.map fileValue)))
    cases pr.files <;> rfl
  · unfold fetchChangedFiles client numberValue
    simp only [text, String.ofList_toList, JsonText.value_ofInt]
    rfl

lemma typed_changes (provider : Provider) (l : List Webhook.RawFile) :
    (l.map fun f => (⟨text (f.path provider), f.action provider⟩ : Change)).map Change.typed =
      Webhook.normalizeChangedFiles provider l := by
  rw [List.map_map]
  refine List.map_congr_left fun f _ => ?_
  exact congrArg (fun s => (⟨Webhook.pathOfString s, f.action provider⟩ : FileIndex.Change))
    (textOf_text _)

/-- On a delivery of the providers' shape, the adapter makes the payload of the typed model. -/
theorem handle_bodyValue (files : FilesEndpoint) (b : Body) (hs : Signed hmac a headers raw) :
    (handle hmac (client files) a headers (bodyValue b) raw).map (Option.map Payload.typed) =
      .ok (Webhook.handleWebhook hmac.hexdigest files a headers b raw) := by
  have hguard : guard (validateHmac hmac.hexdigest a.secret raw
      (header headers a.signatureHeader) = true) = some () := if_pos hs
  rw [handle_of_signed hs, parseMergeEvent_bodyValue]
  unfold Webhook.handleWebhook
  rw [hguard]
  cases hm : Webhook.parseMergeEvent b with
  | none => rfl
  | some m =>
    obtain ⟨repoUrl, branch, number⟩ := m
    simp only [Option.map_some, resolveFiles_bodyValue files a hm]
    cases hf : Webhook.resolveFiles files a b repoUrl number with
    | none => simp [hf]; rfl
    | some l =>
      simp only [Option.map_some, normalize_fileValues, Except.map, Payload.typed, textOf_text,
        typed_changes]
      simp [hf]

end Shape

/-- All that keeps a signed delivery from being dispatched is answered as a rejected secret. -/
lemma unauthorized_of_signed (h : adapterFor env headers = .ok a)
    (hs : Signed hmac a headers raw) (hu : ¬Usable request a body) :
    (answer headers (handle hmac request a headers body raw)).Unauthorized := by
  cases hr : handle hmac request a headers body raw with
  | error e => exact rfl
  | ok p =>
    cases p with
    | none =>
      unfold answer
      rw [if_pos (hasSignature_of_header h (header_of_signed h hs))]
      exact rfl
    | some p => exact absurd ((handle_eq_some_iff hs).1 ⟨p, hr⟩) hu

lemma unauthorized_iff_hasSignature (h : adapterFor env headers = .ok a)
    (hs : ¬Signed hmac a headers raw) :
    (answer headers (handle hmac request a headers body raw)).Unauthorized ↔
      hasSignature headers = true := by
  have hcases : handle hmac request a headers body raw = .ok none ∨ _ :=
    handle_of_not_signed h hs
  rcases hcases with hr | ⟨hne, e, hr⟩
  · rw [hr]
    unfold answer
    split_ifs with hsig
    · exact iff_of_true rfl hsig
    · exact iff_of_false id hsig
  · rw [hr]
    exact iff_of_true rfl (hasSignature_of_header h hne)

lemma handleWebhook_of_body (h : adapterFor env headers = .ok a) (hb : load raw = .ok body) :
    handleWebhook hmac load request env headers raw =
      answer headers (handle hmac request a headers body raw) := by
  unfold handleWebhook
  rw [hb]
  simp only [h]

lemma not_unauthorized_of_unreadable {e : Unreadable} (he : load raw = .error e) :
    ¬(handleWebhook hmac load request env headers raw).Unauthorized := by
  unfold handleWebhook
  rw [he]
  cases e with
  | syntaxError => exact (by decide : ¬400 = 401)
  | encoding => exact id

end Adapter

/-- **The answers tell their causes apart** exactly for the signed deliveries that are dispatched
or hold no JSON, and for the others that hold JSON and come with some signature. -/
theorem tells_iff (hmac : Hmac) (load : List UInt8 → Except Unreadable Value)
    (request : Endpoint) (env : Environment) (headers : Headers) (raw : List UInt8) (a : Adapter)
    (h : adapterFor env headers = .ok a) :
    Tells hmac load request a headers raw (handleWebhook hmac load request env headers raw) ↔
      Signed hmac a headers raw ∧ (∀ body, load raw = .ok body → Usable request a body) ∨
      ¬Signed hmac a headers raw ∧ (∃ body, load raw = .ok body) ∧
        hasSignature headers = true := by
  cases hb : load raw with
  | error e =>
    have hr : ¬(handleWebhook hmac load request env headers raw).Unauthorized :=
      not_unauthorized_of_unreadable hb
    constructor
    · intro ht
      have hs : Signed hmac a headers raw := by
        by_contra hs
        exact hr (ht.rejected.2 hs)
      exact .inl ⟨hs, nofun⟩
    · rintro (⟨hs, -⟩ | ⟨-, ⟨body, hbody⟩, -⟩)
      · refine ⟨iff_of_false hr (not_not_intro hs), ?_, ?_⟩
        · intro _ body hbody
          rw [hb] at hbody
          cases hbody
        · intro _ body hbody
          rw [hb] at hbody
          cases hbody
      · cases hbody
  | ok body =>
    rw [handleWebhook_of_body h hb]
    by_cases hs : Signed hmac a headers raw
    · constructor
      · intro ht
        refine .inl ⟨hs, fun body' hbody => ?_⟩
        cases hbody
        by_contra hu
        exact ht.rejected.1 (unauthorized_of_signed h hs hu) hs
      · rintro (⟨-, hu⟩ | ⟨hns, -⟩)
        · have hu := hu body rfl
          obtain ⟨p, hp⟩ := (handle_eq_some_iff hs).2 hu
          rw [hp]
          obtain ⟨m, files, changes, hm, hf, -⟩ := hu
          refine ⟨iff_of_false id (not_not_intro hs), ?_, ?_⟩
          · intro _ body' hbody hno
            rw [hb] at hbody
            cases hbody
            exact absurd (Option.isSome_iff_exists.2 ⟨m, hm⟩) hno
          · rintro _ body' hbody ⟨m', hm', hf'⟩
            rw [hb] at hbody
            cases hbody
            rw [hm] at hm'
            cases hm'
            rw [hf] at hf'
            cases hf'
        · exact absurd hs hns
    · constructor
      · intro ht
        exact .inr ⟨hs, ⟨body, rfl⟩, (unauthorized_iff_hasSignature h hs).1 (ht.rejected.2 hs)⟩
      · rintro (⟨hs', -⟩ | ⟨-, -, hsig⟩)
        · exact absurd hs' hs
        · exact ⟨iff_of_true ((unauthorized_iff_hasSignature h hs).2 hsig) hs,
            fun hs' => absurd hs' hs, fun hs' => absurd hs' hs⟩

/-! ### A pull request is opened -/

/-- The body, `{"action":"opened"}`. -/
def opened : List UInt8 :=
  "\x7b\"action\":\"opened\"\x7d".toList.map fun c => UInt8.ofNat c.toNat

/-- The digest of that body under the secret `k`. -/
def openedHmac : Hmac where
  hexdigest _ _ := "245afc473d63caa6e2e6312147fec0a7011317029f604a4acbaec62b17889ac8"
  ascii _ _ := by decide +kernel

/-- A reader of bodies in ASCII. -/
def loadAscii (raw : List UInt8) : Except Unreadable Value :=
  match JsonText.loads (raw.map fun b => Char.ofNat b.toNat) with
  | some v => .ok v
  | none => .error .syntaxError

def githubOnly : Environment := ⟨"k", "", "", ""⟩

def openedHeaders (signature : String) : Headers :=
  [("X-GitHub-Event", "pull_request"), ("X-Hub-Signature-256", signature)]

lemma adapterFor_opened (signature : String)
    (h : detectProvider (openedHeaders signature) = some .github) :
    adapterFor githubOnly (openedHeaders signature) = .ok (githubAdapter "k" false) := by
  unfold adapterFor
  rw [h]
  exact if_neg (by decide)

lemma loadAscii_opened : ∃ body, loadAscii opened = .ok body ∧ parseMergeEvent body = none := by
  have h : (match loadAscii opened with
    | .ok body => (parseMergeEvent body).isNone
    | .error _ => false) = true := by
    decide +kernel
  split at h
  · rename_i body hb
    exact ⟨body, hb, Option.isNone_iff_eq_none.1 h⟩
  · cases h

/-- A wrong signature is answered as one. -/
theorem wrong_signature_told : Tells openedHmac loadAscii (fun _ _ _ => none)
    (githubAdapter "k" false) (openedHeaders "sha256=0") opened
    (handleWebhook openedHmac loadAscii (fun _ _ _ => none) githubOnly
      (openedHeaders "sha256=0") opened) := by
  obtain ⟨body, hb, -⟩ := loadAscii_opened
  refine (tells_iff openedHmac loadAscii _ githubOnly _ opened _
    (adapterFor_opened _ (by decide +kernel))).2 (.inr ⟨?_, ⟨body, hb⟩, by decide +kernel⟩)
  unfold Signed
  decide +kernel

/-- A signed event that is no merge is answered as a wrong signature is. -/
theorem signed_event_rejected : ¬∀ (hmac : Hmac) (load : List UInt8 → Except Unreadable Value)
    (request : Endpoint) (env : Environment) (headers : Headers) (raw : List UInt8) (a : Adapter),
    adapterFor env headers = .ok a →
      Tells hmac load request a headers raw
        (handleWebhook hmac load request env headers raw) := by
  intro hclaim
  obtain ⟨body, hb, hm⟩ := loadAscii_opened
  have ha := adapterFor_opened
    "sha256=245afc473d63caa6e2e6312147fec0a7011317029f604a4acbaec62b17889ac8"
    (by decide +kernel)
  have hs : Signed openedHmac (githubAdapter "k" false) (openedHeaders
      "sha256=245afc473d63caa6e2e6312147fec0a7011317029f604a4acbaec62b17889ac8") opened := by
    unfold Signed
    decide +kernel
  have hu : ¬Usable (fun _ _ _ => none) (githubAdapter "k" false) body := by
    rintro ⟨m, _, _, hm', -⟩
    rw [hm] at hm'
    cases hm'
  have ht := hclaim openedHmac loadAscii (fun _ _ _ => none) githubOnly _ opened _ ha
  rw [handleWebhook_of_body ha hb] at ht
  exact ht.rejected.1 (unauthorized_of_signed ha hs hu) hs

end Treeweft.WebhookAnswer
