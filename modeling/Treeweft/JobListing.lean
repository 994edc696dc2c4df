import Treeweft.AccessDecision
import Treeweft.Keyed

/-!
Which jobs a caller sees.

The filter of a request is nothing at all, a plain function, or a coroutine function, and every
endpoint awaits what it returns. A decision is kept for the rest of the request.
-/

namespace Treeweft.JobListing

open Treeweft.Access (User)
open Treeweft.AccessDecision (Inputs ScopeDecision authorizeSource)

inductive Value
  | null
  | flag (b : Bool)
  | number (n : ℕ)
  | text (s : String)
  deriving DecidableEq, Repr

/-- A job as the process holds it: a record under its id, with what it says of its source. -/
structure Job where
  id : String
  sourceId : Option String
  fields : List (String × Value)
  deriving DecidableEq, Repr

/-- What a request gets to see of a job. -/
structure View where
  id : String
  sourceId : Option String
  fields : List (String × Value)
  redacted : Bool
  deriving DecidableEq, Repr

structure FileError where
  filePath : Option String
  errorKind : String
  errorMessage : Option String
  deriving DecidableEq, Repr

/-- How a request fails: with 404, or with an exception that nobody catches. -/
inductive Failure
  | notFound | typeError
  deriving DecidableEq, Repr

/-- The switches, the answers of the authorization stores, the jobs in memory, what the job store
says of the source of a job (nothing where it does not know the job or can not be read), and the
errors of a job's files. -/
structure Service where
  authEnabled : Bool
  searchOpen : Bool
  inputs : Inputs
  jobs : Keyed Job.id
  storedSource : String → Option String
  fileErrors : String → List FileError

def searchAuthEnforced (s : Service) : Bool := s.authEnabled && !s.searchOpen

/-! ### Redaction -/

def jobSensitiveFields : List String :=
  ["source", "source_url", "source_branch", "current_file", "error", "message"]

def publicJob (redact : Bool) (j : Job) : View :=
  let out := j.fields.filter fun f => f.1 ≠ "last_log_time"
  ⟨j.id, j.sourceId,
    if redact then out.map fun f => if f.1 ∈ jobSensitiveFields then (f.1, .null) else f else out,
    redact⟩

/-- The caller is who the request authenticates as, `none` where it is refused with 401. -/
def jobViewIsRedacted (s : Service) (caller : Option User) : Bool :=
  s.authEnabled && caller.isNone

def redactError (e : FileError) : FileError := { e with filePath := none, errorMessage := none }

/-! ### The Filter -/

abbrev Cache := List (String × Bool)

/-- What `_visible_job_filter` hands out: `lambda`, or `async def`. -/
inductive Predicate
  | plain (f : Option String → Bool)
  | coroutine (f : Cache → Option String → Bool × Cache)

/-- `_allowed`. A lookup that fails is a denial. -/
def allowed (i : Inputs) (u : User) (cache : Cache) (sourceId : Option String) : Bool × Cache :=
  match sourceId.filter (· ≠ "") with
  | none => (false, cache)
  | some sid =>
    match cache.lookup sid with
    | some b => (b, cache)
    | none =>
      let b := (authorizeSource i u sid).any ScopeDecision.allowed
      (b, (sid, b) :: cache)

/-- `none` filters nothing. -/
def visibleJobFilter (s : Service) (caller : Option User) : Option Predicate :=
  if !searchAuthEnforced s then none
  else
    match caller with
    | none => some (.plain fun _ => false)
    | some u => if u.role = .admin then none else some (.coroutine (allowed s.inputs u))

/-- `await p(source_id)`: what a plain function returns can not be awaited. -/
def await (p : Predicate) (cache : Cache) (sourceId : Option String) :
    Except Failure (Bool × Cache) :=
  match p with
  | .plain _ => .error .typeError
  | .coroutine f => .ok (f cache sourceId)

/-! ### The Endpoints -/

/-- `[j for j in jobs if await allowed(j.get("source_id"))]`. -/
def keep (p : Predicate) : Cache → List Job → Except Failure (List Job)
  | _, [] => .ok []
  | cache, j :: js => do
    let (b, cache) ← await p cache j.sourceId
    let rest ← keep p cache js
    return if b then j :: rest else rest

def listJobs (s : Service) (caller : Option User) : Except Failure (List View) := do
  let jobs ← match visibleJobFilter s caller with
    | none => .ok s.jobs.rows
    | some p => keep p [] s.jobs.rows
  return jobs.map (publicJob (jobViewIsRedacted s caller))

/-- A single decision of the filter. -/
def permitted (filter : Option Predicate) (sourceId : Option String) : Except Failure Bool :=
  match filter with
  | none => .ok true
  | some p => do
    let (b, _) ← await p [] sourceId
    return b

def getJob (s : Service) (caller : Option User) (i : String) : Except Failure View :=
  match s.jobs.get? i with
  | none => .error .notFound
  | some j => do
    if ← permitted (visibleJobFilter s caller) j.sourceId then
      return publicJob (jobViewIsRedacted s caller) j
    else .error .notFound

/-- A job that is not in memory any more is looked up in the store. -/
def sourceIdForJob (s : Service) (i : String) : Option String :=
  match s.jobs.get? i with
  | some j => j.sourceId
  | none => s.storedSource i

/-- The rows from `offset` on, one to 5000 of them. -/
def listForJob (s : Service) (i : String) (limit offset : ℤ) : List FileError :=
  ((s.fileErrors i).drop (max 0 offset).toNat).take (max 1 (min limit 5000)).toNat

def getJobErrors (s : Service) (caller : Option User) (i : String) (limit offset : ℤ) :
    Except Failure (List FileError) := do
  if ← permitted (visibleJobFilter s caller) (sourceIdForJob s i) then
    let rows := listForJob s i limit offset
    return if jobViewIsRedacted s caller then rows.map redactError else rows
  else .error .notFound

/-! ### Who May Read What -/

/-- The caller may read the source of a job. -/
def mayRead (s : Service) (caller : Option User) (sourceId : Option String) : Bool :=
  if !searchAuthEnforced s then true
  else
    match caller with
    | none => false
    | some u => u.role = .admin || (sourceId.filter (· ≠ "")).any fun sid =>
        (authorizeSource s.inputs u sid).any ScopeDecision.allowed

/-- The listing is of the jobs whose source the caller may read. -/
def ListsReadable (s : Service) (caller : Option User) : Prop :=
  listJobs s caller = .ok ((s.jobs.rows.filter fun j => mayRead s caller j.sourceId).map
    (publicJob (jobViewIsRedacted s caller)))

/-- A job is shown to who may read its source, and to others as if it was not there. -/
def ShowsReadable (s : Service) (caller : Option User) (i : String) : Prop :=
  getJob s caller i =
    match s.jobs.get? i with
    | none => .error .notFound
    | some j =>
      if mayRead s caller j.sourceId then .ok (publicJob (jobViewIsRedacted s caller) j)
      else .error .notFound

/-- So are the errors of its files. -/
def ErrorsReadable (s : Service) (caller : Option User) (i : String) (limit offset : ℤ) : Prop :=
  getJobErrors s caller i limit offset =
    if mayRead s caller (sourceIdForJob s i) then
      .ok (if jobViewIsRedacted s caller then (listForJob s i limit offset).map redactError
        else listForJob s i limit offset)
    else .error .notFound

/-- Without a credential, where reading asks for one. -/
def Anonymous (s : Service) (caller : Option User) : Prop :=
  searchAuthEnforced s = true ∧ caller = none

section Filter
variable {s : Service} {caller : Option User} {i : Inputs} {u : User}

/-- Every kept decision is the one that would be taken now. -/
def Sound (i : Inputs) (u : User) (cache : Cache) : Prop :=
  ∀ sid b, cache.lookup sid = some b → b = (authorizeSource i u sid).any ScopeDecision.allowed

/-- The decision without the cache. -/
def decides (i : Inputs) (u : User) (sourceId : Option String) : Bool :=
  (sourceId.filter (· ≠ "")).any fun sid => (authorizeSource i u sid).any ScopeDecision.allowed

lemma sound_nil : Sound i u [] := nofun

lemma allowed_spec {cache : Cache} (h : Sound i u cache) (sourceId : Option String) :
    (allowed i u cache sourceId).1 = decides i u sourceId ∧
      Sound i u (allowed i u cache sourceId).2 := by
  unfold allowed decides
  cases sourceId.filter (· ≠ "") with
  | none => exact ⟨rfl, h⟩
  | some sid =>
    cases hc : cache.lookup sid with
    | some b => exact ⟨by simpa only [hc, Option.any_some] using h sid b hc, by simpa only [hc] using h⟩
    | none =>
      refine ⟨by simp only [hc, Option.any_some], ?_⟩
      simp only [hc]
      intro sid' b hb
      rw [List.lookup_cons] at hb
      split at hb
      · rename_i he
        obtain rfl : sid' = sid := by simpa using he
        exact (Option.some.inj hb).symm
      · exact h sid' b hb

/-- The listing asks for every job in turn, and what is kept changes no answer. -/
lemma keep_coroutine (jobs : List Job) : ∀ {cache : Cache}, Sound i u cache →
    keep (.coroutine (allowed i u)) cache jobs =
      .ok (jobs.filter fun j => decides i u j.sourceId) := by
  induction jobs with
  | nil => exact fun _ => rfl
  | cons j jobs ih =>
    intro cache h
    obtain ⟨hb, hs⟩ := allowed_spec h j.sourceId
    have hrest := ih hs
    rw [keep, await]
    change (do
      let rest ← keep (.coroutine (allowed i u)) (allowed i u cache j.sourceId).2 jobs
      return if (allowed i u cache j.sourceId).1 then j :: rest else rest) = _
    rw [hrest, hb, List.filter_cons]
    rfl

lemma keep_plain (f : Option String → Bool) (j : Job) (jobs : List Job) (cache : Cache) :
    keep (.plain f) cache (j :: jobs) = .error .typeError := rfl

lemma permitted_coroutine (sourceId : Option String) :
    permitted (some (.coroutine (allowed i u))) sourceId = .ok (decides i u sourceId) := by
  change Except.ok (allowed i u [] sourceId).1 = _
  rw [(allowed_spec sound_nil sourceId).1]

/-- The filter of each kind of caller, beside what the caller may read. -/
lemma visibleJobFilter_cases (s : Service) (caller : Option User) :
    (visibleJobFilter s caller = none ∧ ¬ Anonymous s caller ∧
        ∀ sid, mayRead s caller sid = true) ∨
      (visibleJobFilter s caller = some (.plain fun _ => false) ∧ Anonymous s caller ∧
        ∀ sid, mayRead s caller sid = false) ∨
      ∃ u, visibleJobFilter s caller = some (.coroutine (allowed s.inputs u)) ∧
        ¬ Anonymous s caller ∧ ∀ sid, mayRead s caller sid = decides s.inputs u sid := by
  unfold visibleJobFilter mayRead Anonymous
  cases hs : searchAuthEnforced s with
  | false => exact .inl ⟨rfl, by simp, fun _ => rfl⟩
  | true =>
    cases caller with
    | none => exact .inr (.inl ⟨rfl, ⟨rfl, rfl⟩, fun _ => rfl⟩)
    | some u =>
      by_cases hu : u.role = .admin
      · exact .inl ⟨by simp [hu], by simp, fun _ => by simp [hu]⟩
      · exact .inr (.inr ⟨u, by simp [hu], by simp, fun _ => by simp [hu, decides]⟩)

/-- One decision is the right one for all but an anonymous caller, for whom there is none. -/
lemma permitted_cases (s : Service) (caller : Option User) (sid : Option String) :
    (¬ Anonymous s caller ∧
        permitted (visibleJobFilter s caller) sid = .ok (mayRead s caller sid)) ∨
      (Anonymous s caller ∧ permitted (visibleJobFilter s caller) sid = .error .typeError ∧
        mayRead s caller sid = false) := by
  rcases visibleJobFilter_cases s caller with ⟨hf, ha, hm⟩ | ⟨hf, ha, hm⟩ | ⟨u, hf, ha, hm⟩
  · exact .inl ⟨ha, by rw [hf, hm]; rfl⟩
  · exact .inr ⟨ha, by rw [hf]; rfl, hm sid⟩
  · exact .inl ⟨ha, by rw [hf, hm, permitted_coroutine]⟩

lemma listsReadable_iff :
    ListsReadable s caller ↔ (Anonymous s caller → s.jobs.rows = []) := by
  unfold ListsReadable listJobs
  rcases visibleJobFilter_cases s caller with ⟨hf, ha, hm⟩ | ⟨hf, ha, hm⟩ | ⟨u, hf, ha, hm⟩
  · simp only [hf, hm, List.filter_true]
    exact iff_of_true rfl fun h => absurd h ha
  · simp only [hf, hm, List.filter_false, List.map_nil]
    cases hj : s.jobs.rows with
    | nil => exact iff_of_true rfl fun _ => rfl
    | cons j jobs => exact iff_of_false nofun fun h => nomatch h ha
  · simp only [hf, hm, keep_coroutine _ sound_nil]
    exact iff_of_true rfl fun h => absurd h ha

lemma showsReadable_iff (i : String) :
    ShowsReadable s caller i ↔ (Anonymous s caller → s.jobs.get? i = none) := by
  unfold ShowsReadable getJob
  cases hj : s.jobs.get? i with
  | none => exact iff_of_true rfl fun _ => rfl
  | some j =>
    rcases permitted_cases s caller j.sourceId with ⟨ha, hp⟩ | ⟨ha, hp, hm⟩
    · exact iff_of_true (by simp only [hp]; rfl) fun h => absurd h ha
    · exact iff_of_false (by simp only [hp, hm]; nofun) fun h => nomatch h ha

lemma errorsReadable_iff (i : String) (limit offset : ℤ) :
    ErrorsReadable s caller i limit offset ↔ ¬ Anonymous s caller := by
  unfold ErrorsReadable getJobErrors
  rcases permitted_cases s caller (sourceIdForJob s i) with ⟨ha, hp⟩ | ⟨ha, hp, hm⟩
  · exact iff_of_true (by simp only [hp]; rfl) ha
  · exact iff_of_false (by simp only [hp, hm]; nofun) (not_not_intro ha)

end Filter

/-- **Exactly the readable jobs**, for everybody but an anonymous caller, for whom every decision
raises: a listing of any job, a job that there is, and the errors of any. -/
theorem readable_iff (s : Service) (caller : Option User) :
    (ListsReadable s caller ↔ (Anonymous s caller → s.jobs.rows = [])) ∧
      (∀ i, ShowsReadable s caller i ↔ (Anonymous s caller → s.jobs.get? i = none)) ∧
      ∀ i limit offset, ErrorsReadable s caller i limit offset ↔ ¬ Anonymous s caller :=
  ⟨listsReadable_iff, showsReadable_iff, errorsReadable_iff⟩

/-- Reading asks for a credential, and there is one job. -/
def oneJob : Service where
  authEnabled := true
  searchOpen := false
  inputs := ⟨some [], fun _ => none⟩
  jobs := ⟨[⟨"a", some "s1", []⟩], by decide⟩
  storedSource _ := none
  fileErrors _ := []

/-- Who comes without a credential gets an error where the list is empty for them. -/
theorem anonymous_listing_fails : ¬ ∀ s caller, ListsReadable s caller := by
  intro h
  have : (.error .typeError : Except Failure (List View)) = .ok [] := h oneJob none
  cases this

end Treeweft.JobListing
