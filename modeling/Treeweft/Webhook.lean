import Treeweft.FileIndex
import Mathlib.Data.List.Nodup
import Mathlib.Data.List.DropRight

/-!
Webhook deliveries: the signature, the merge event, the provider's file list and the normalised
change list.

The digest and the provider's files endpoint are not part of the program. The endpoint answers a
request with one page, the first one where the request names none.
-/

namespace Treeweft.Webhook

open Treeweft.Paths Treeweft.FileIndex

inductive Provider
  | github | gitea
  deriving DecidableEq, Repr

/-- An entry of a provider's file list: the string fields of the JSON object. -/
structure RawFile where
  fields : List (String × String)
  deriving DecidableEq, Repr

def RawFile.get? (f : RawFile) (key : String) : Option String := f.fields.lookup key

/-! ### Normalising a file list -/

/-- A path string, split at its slashes. -/
def pathOfString (s : String) : FilePath :=
  match s.toList with
  | [] => .rel []
  | '/' :: cs => .abs ((cs.splitOn '/').map String.ofList)
  | cs => .rel ((cs.splitOn '/').map String.ofList)

def mapGithubStatus (status : String) : Action :=
  if status = "modified" then .modified
  else if status = "changed" then .modified
  else if status = "added" then .added
  else if status = "removed" then .removed
  else if status = "renamed" then .renamed
  else .modified

def mapGiteaStatus (status : String) : Action :=
  let status := status.toLower
  if status = "changed" then .modified
  else if status = "modified" then .modified
  else if status = "added" then .added
  else if status = "removed" then .removed
  else if status = "renamed" then .renamed
  else if status = "deleted" then .removed
  else .modified

def RawFile.path : Provider → RawFile → String
  | .github, f => (f.get? "filename").getD ""
  | .gitea, f => (f.get? "Filename").getD ((f.get? "filename").getD "")

def RawFile.action : Provider → RawFile → Action
  | .github, f => mapGithubStatus ((f.get? "status").getD "modified")
  | .gitea, f => mapGiteaStatus ((f.get? "Status").getD ((f.get? "status").getD "changed"))

/-- The previous name a provider gives for a renamed file is not read. -/
def RawFile.change (provider : Provider) (f : RawFile) : Change :=
  ⟨pathOfString (f.path provider), f.action provider⟩

def normalizeChangedFiles (provider : Provider) (rawFiles : List RawFile) : List Change :=
  rawFiles.map (RawFile.change provider)

/-! ### The signature -/

def startsWith (pre s : String) : Bool := pre.toList.isPrefixOf s.toList

/-- `digest` is the hexadecimal HMAC-SHA256 of a body under a secret. -/
def validateHmac (digest : String → List UInt8 → String) (secret : String) (payload : List UInt8)
    (signature : String) : Bool :=
  if secret = "" ∧ signature = "" then true
  else if secret = "" ∨ signature = "" then false
  else if startsWith "sha1=" signature.toLower then false
  else
    let value := if startsWith "sha256=" signature.toLower then
      String.ofList (signature.toList.drop 7) else signature
    digest secret payload = value

/-- A header by its lower-case name; the last of several wins. -/
def header (headers : List (String × String)) (name : String) : String :=
  ((headers.reverse.find? fun h => h.1.toLower = name).map Prod.snd).getD ""

/-! ### The event -/

/-- The `pull_request` object of a delivery, with the fields that are read. -/
structure PullRequest where
  merged : Bool
  cloneUrl : String
  ref : String
  number : Option ℕ
  files : List RawFile
  deriving DecidableEq, Repr

structure Body where
  action : String
  pullRequest : Option PullRequest
  deriving DecidableEq, Repr

def parseMergeEvent (body : Body) : Option (String × String × ℕ) := do
  let pr ← body.pullRequest
  guard (body.action = "closed" ∧ pr.merged = true)
  guard (pr.cloneUrl ≠ "" ∧ pr.ref ≠ "")
  let number ← pr.number
  some (pr.cloneUrl, pr.ref, number)

/-- What follows the first occurrence of `pre`. -/
def afterFirst (pre : List Char) : List Char → Option (List Char)
  | [] => if pre = [] then some [] else none
  | c :: cs => if pre.isPrefixOf (c :: cs) then some ((c :: cs).drop pre.length)
    else afterFirst pre cs

def stripGit (url : List Char) : String :=
  let url := if ".git".toList.isSuffixOf url then url.dropLast.dropLast.dropLast.dropLast else url
  String.ofList (url.rdropWhile fun c => c = '/')

def githubSlug (repoUrl : String) : String :=
  stripGit ((["https://github.com/", "http://github.com/", "git@github.com:"].findSome? fun pre =>
    afterFirst pre.toList repoUrl.toList).getD repoUrl.toList)

def giteaSlug (repoUrl : String) : String :=
  let url := (afterFirst "://".toList repoUrl.toList).getD repoUrl.toList
  stripGit ((afterFirst ['/'] url).getD url)

/-! ### The adapters -/

structure WebhookPayload where
  provider : Provider
  repoUrl : String
  branch : String
  changedFiles : List Change
  deriving DecidableEq, Repr

structure Adapter where
  provider : Provider
  signatureHeader : String
  repoSlug : String → String
  secret : String
  trustInlineFiles : Bool

def githubAdapter (secret : String) (trustInlineFiles : Bool) : Adapter :=
  ⟨.github, "x-hub-signature-256", githubSlug, secret, trustInlineFiles⟩

def giteaAdapter (secret : String) : Adapter := ⟨.gitea, "x-gitea-signature", giteaSlug, secret, false⟩

/-- The answer to `GET /repos/{slug}/pulls/{number}/files?page={page}`; `none` where it fails. -/
abbrev FilesEndpoint := String → ℕ → Option ℕ → Option (List RawFile)

variable (digest : String → List UInt8 → String) (request : FilesEndpoint)

/-- One request, without a page. -/
def fetchChangedFiles (a : Adapter) (repoUrl : String) (number : ℕ) : Option (List RawFile) :=
  request (a.repoSlug repoUrl) number none

def resolveFiles (a : Adapter) (body : Body) (repoUrl : String) (number : ℕ) :
    Option (List RawFile) :=
  if a.trustInlineFiles then some (body.pullRequest.elim [] PullRequest.files)
  else fetchChangedFiles request a repoUrl number

def handleWebhook (a : Adapter) (headers : List (String × String)) (body : Body)
    (raw : List UInt8) : Option WebhookPayload := do
  guard (validateHmac digest a.secret raw (header headers a.signatureHeader))
  let (repoUrl, branch, number) ← parseMergeEvent body
  let files ← resolveFiles request a body repoUrl number
  some ⟨a.provider, repoUrl, branch, normalizeChangedFiles a.provider files⟩

/-! ### Whether the change list is that of the pull request -/

/-- The endpoint as the providers document it: a pull request lists each file once, an answer is
one page of that list, and the first page where the request names none. -/
structure Paginated (provider : Provider) (files : String → ℕ → List RawFile) (size : ℕ) :
    Prop where
  pages : ∀ slug number page answer, request slug number page = some answer →
    answer = ((files slug number).drop ((page.getD 1 - 1) * size)).take size
  distinct : ∀ slug number, ((files slug number).map fun f =>
    pathOfString (f.path provider)).Nodup

/-- Every file of the merged pull request has its entry in the payload. -/
def Complete (files : String → ℕ → List RawFile) (a : Adapter) (body : Body)
    (payload : WebhookPayload) : Prop :=
  ∀ repoUrl branch number, parseMergeEvent body = some (repoUrl, branch, number) →
    ∀ f ∈ files (a.repoSlug repoUrl) number, f.change a.provider ∈ payload.changedFiles

/-- The delivery is authentic, and its files could be had. -/
def Answered (a : Adapter) (headers : List (String × String)) (raw : List UInt8)
    (repoUrl : String) (number : ℕ) : Prop :=
  validateHmac digest a.secret raw (header headers a.signatureHeader) = true ∧
    (a.trustInlineFiles = false → (request (a.repoSlug repoUrl) number none).isSome = true)

/-- One page holds the files; or, in the load-test mode, the delivery itself does. -/
def OnePage (files : List RawFile) (size : ℕ) (a : Adapter) (body : Body) : Prop :=
  if a.trustInlineFiles then
    ∀ f ∈ files, f.change a.provider ∈
      (body.pullRequest.elim [] PullRequest.files).map (RawFile.change a.provider)
  else files.length ≤ size

variable {digest request}

lemma handleWebhook_eq_some {a : Adapter} {headers : List (String × String)} {body : Body}
    {raw : List UInt8} {payload : WebhookPayload} :
    handleWebhook digest request a headers body raw = some payload ↔
      validateHmac digest a.secret raw (header headers a.signatureHeader) = true ∧
        ∃ repoUrl branch number files, parseMergeEvent body = some (repoUrl, branch, number) ∧
          resolveFiles request a body repoUrl number = some files ∧
          payload = ⟨a.provider, repoUrl, branch, normalizeChangedFiles a.provider files⟩ := by
  simp only [handleWebhook, Option.bind_eq_bind, Option.bind_eq_some_iff, Option.guard_eq_some',
    Option.some.injEq]
  constructor
  · rintro ⟨-, hv, ⟨repoUrl, branch, number⟩, hp, files, hf, rfl⟩
    exact ⟨hv, repoUrl, branch, number, files, hp, hf, rfl⟩
  · rintro ⟨hv, repoUrl, branch, number, files, hp, hf, rfl⟩
    exact ⟨(), hv, (repoUrl, branch, number), hp, files, hf, rfl⟩

/-- Of files that are listed once each, a first page has all only if there is no second. -/
lemma all_on_first_page {provider : Provider} {files : List RawFile} {size : ℕ}
    (hd : (files.map fun f => pathOfString (f.path provider)).Nodup) :
    (∀ f ∈ files, f.change provider ∈ (files.take size).map (RawFile.change provider)) ↔
      files.length ≤ size := by
  constructor
  · intro h
    by_contra hlt
    have hlt : size < files.length := by omega
    -- the first file of the second page
    obtain ⟨f, hf, hfc⟩ := List.mem_map.1 (h files[size] (List.getElem_mem hlt))
    obtain ⟨i, hi, rfl⟩ := List.getElem_of_mem hf
    rw [List.length_take] at hi
    rw [List.getElem_take] at hfc
    have hi' : i < (files.map fun f => pathOfString (f.path provider)).length := by
      rw [List.length_map]
      omega
    have hsize : size < (files.map fun f => pathOfString (f.path provider)).length := by
      rwa [List.length_map]
    have hpath : (files.map fun f => pathOfString (f.path provider))[i] =
        (files.map fun f => pathOfString (f.path provider))[size] := by
      rw [List.getElem_map, List.getElem_map]
      exact congrArg Change.path hfc
    have := hd.getElem_inj_iff.1 hpath
    omega
  · intro h f hf
    rw [List.take_of_length_le h]
    exact List.mem_map_of_mem hf

/-- **The change list covers the merge** exactly when, for an authentic merge event whose files
could be had, one page holds them. -/
theorem complete_iff_one_page (digest : String → List UInt8 → String) (request : FilesEndpoint)
    (files : String → ℕ → List RawFile) (size : ℕ) (a : Adapter)
    (hp : Paginated request a.provider files size) (headers : List (String × String))
    (body : Body) (raw : List UInt8) :
    (∀ payload, handleWebhook digest request a headers body raw = some payload →
      Complete files a body payload) ↔
    ∀ repoUrl branch number, parseMergeEvent body = some (repoUrl, branch, number) →
      Answered digest request a headers raw repoUrl number →
        OnePage (files (a.repoSlug repoUrl) number) size a body := by
  have key : ∀ repoUrl branch number fs, parseMergeEvent body = some (repoUrl, branch, number) →
      resolveFiles request a body repoUrl number = some fs →
      (Complete files a body ⟨a.provider, repoUrl, branch, normalizeChangedFiles a.provider fs⟩ ↔
        OnePage (files (a.repoSlug repoUrl) number) size a body) := by
    intro repoUrl branch number fs hparse hfs
    have hcomplete : Complete files a body
        ⟨a.provider, repoUrl, branch, normalizeChangedFiles a.provider fs⟩ ↔
        ∀ f ∈ files (a.repoSlug repoUrl) number,
          f.change a.provider ∈ fs.map (RawFile.change a.provider) := by
      refine ⟨fun h => h repoUrl branch number hparse, fun h url br n hp => ?_⟩
      rw [hparse] at hp
      cases hp
      exact h
    rw [hcomplete]
    unfold resolveFiles at hfs
    unfold OnePage
    split at hfs
    · rename_i htrust
      cases hfs
      rw [if_pos htrust]
    · rename_i htrust
      rw [if_neg htrust, hp.pages _ _ _ _ hfs]
      simp only [Option.getD_none, Nat.sub_self, Nat.zero_mul, List.drop_zero]
      exact all_on_first_page (hp.distinct _ _)
  constructor
  · rintro h repoUrl branch number hparse ⟨hv, hans⟩
    have hres : ∃ fs, resolveFiles request a body repoUrl number = some fs := by
      unfold resolveFiles
      split
      · exact ⟨_, rfl⟩
      · rename_i htrust
        exact Option.isSome_iff_exists.1 (hans (by simpa using htrust))
    obtain ⟨fs, hfs⟩ := hres
    exact (key repoUrl branch number fs hparse hfs).1
      (h _ (handleWebhook_eq_some.2 ⟨hv, repoUrl, branch, number, fs, hparse, hfs, rfl⟩))
  · intro h payload hpay
    obtain ⟨hv, repoUrl, branch, number, fs, hparse, hfs, rfl⟩ := handleWebhook_eq_some.1 hpay
    refine (key repoUrl branch number fs hparse hfs).2 (h repoUrl branch number hparse ⟨hv, ?_⟩)
    intro htrust
    rw [resolveFiles, htrust] at hfs
    exact Option.isSome_iff_exists.2 ⟨fs, hfs⟩

/-! ### Pull requests around a page of thirty -/

/-- An endpoint that serves the files of every pull request, thirty a page. -/
def serve (files : List RawFile) : FilesEndpoint := fun _ _ page =>
  some ((files.drop ((page.getD 1 - 1) * 30)).take 30)

def addedFile (name : String) : RawFile := ⟨[("filename", name), ("status", "added")]⟩

/-- The files `A`, `B`, `C`, .. -/
def addedFiles (n : ℕ) : List RawFile :=
  (List.range n).map fun i => addedFile (String.singleton (Char.ofNat (65 + i)))

def mergedRequest : Body :=
  ⟨"closed", some ⟨true, "https://github.com/o/r.git", "main", some 1, []⟩⟩

def delivery (n : ℕ) : Option WebhookPayload :=
  handleWebhook (fun _ _ => "d") (serve (addedFiles n)) (githubAdapter "k" false)
    [("X-Hub-Signature-256", "sha256=d")] mergedRequest []

lemma paginated_serve {files : List RawFile}
    (hd : (files.map fun f => pathOfString (f.path .github)).Nodup) :
    Paginated (serve files) .github (fun _ _ => files) 30 where
  pages _ _ _ _ h := (Option.some.inj h).symm
  distinct _ _ := hd

/-- A pull request of two files comes whole. -/
theorem complete_two_files : ∃ payload, delivery 2 = some payload ∧
    Complete (fun _ _ => addedFiles 2) (githubAdapter "k" false) mergedRequest payload := by
  have hsome : (delivery 2).isSome = true := by decide +kernel
  obtain ⟨payload, h⟩ := Option.isSome_iff_exists.1 hsome
  refine ⟨payload, h, (complete_iff_one_page _ _ _ 30 (githubAdapter "k" false)
    (paginated_serve (by decide +kernel)) _ _ _).2 (fun _ _ _ _ _ => ?_) payload h⟩
  exact (by decide : (addedFiles 2).length ≤ 30)

/-- Of one of thirty-one files the last is not in the payload. -/
theorem second_page_is_dropped : ¬∀ (digest : String → List UInt8 → String)
    (request : FilesEndpoint) (files : String → ℕ → List RawFile) (size : ℕ) (a : Adapter),
    Paginated request a.provider files size → a.trustInlineFiles = false →
    ∀ headers body raw payload, handleWebhook digest request a headers body raw = some payload →
      Complete files a body payload := by
  intro hclaim
  have hsome : ((delivery 31).map fun p =>
      decide ((addedFile "_").change .github ∈ p.changedFiles)) = some false := by
    decide +kernel
  obtain ⟨payload, h, hmissing⟩ := Option.map_eq_some_iff.1 hsome
  have hparse : parseMergeEvent mergedRequest = some ("https://github.com/o/r.git", "main", 1) := by
    decide
  have hlast : addedFile "_" ∈ addedFiles 31 := List.mem_map.2 ⟨30, by decide, rfl⟩
  exact of_decide_eq_false hmissing (hclaim _ _ _ 30 (githubAdapter "k" false)
    (paginated_serve (by decide +kernel)) rfl _ _ _ payload h _ _ _ hparse _ hlast)

end Treeweft.Webhook
