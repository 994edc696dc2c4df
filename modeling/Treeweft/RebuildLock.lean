import Treeweft.Prog
import Mathlib.Data.List.Basic

/-!
The maintenance lock of a rebuild, each step of which may raise or be cancelled.

The lock belongs to a session of its own. It is gone once the server has unlocked it or the session
is closed, whatever the rebuild hears of either.
-/

namespace Treeweft.RebuildLock

/-! ### Steps and their Outcomes -/

/-- A cancellation is no `Exception`. -/
inductive Exc
  | error
  | cancelled
  | refused
  | failed
  | runtime
  deriving DecidableEq, Repr

/-- Steps that only return, or raise. -/
inductive Call
  | connect
  | createGroup
  | deleteGroup
  | dropIndex
  | initCollection
  | clearIndexData
  | configured
  | writeStamp
  | setStatus
  | invalidateGraphCaches
  | buildJob (source : String)
  | persistJob (source : String)
  | enqueue (source : String)
  | refresh
  deriving DecidableEq, Repr

/-- Is there a pool, is the lock held, are there queued or running jobs. Jobs are asked for twice. -/
inductive Query
  | getPool
  | probe
  | queued (again : Bool)
  | running (again : Bool)
  deriving DecidableEq, Repr

/-- What the server makes of a lock query, and what the caller hears instead of its answer. -/
structure Attempt where
  granted : Bool
  raised : Option Exc
  deriving DecidableEq, Repr

/-- A query that returns was carried out, and one that raises may have been. -/
inductive Reply
  | ok
  | lost (done : Bool) (e : Exc)
  deriving DecidableEq, Repr

namespace Reply

def done : Reply → Bool
  | ok => true
  | lost done _ => done

def raised : Reply → Option Exc
  | ok => none
  | lost _ e => some e

end Reply

inductive Op
  | call (c : Call)
  | query (q : Query)
  | allSourceDicts
  | tryLock
  | unlock
  | close

@[reducible] def Op.Answer : Op → Type
  | .call _ => Except Exc Unit
  | .query _ => Except Exc Bool
  | .allSourceDicts => Except Exc (List String)
  | .tryLock => Attempt
  | .unlock => Reply
  | .close => Reply

@[reducible] def sig : Signature := ⟨Op, Op.Answer⟩

abbrev Act := Prog sig Exc

/-- The outcome of every step. -/
abbrev Env := (o : Op) → o.Answer

/-- Whether the session of the rebuild holds the lock, after a step. -/
def effect : (o : Op) → o.Answer → Bool → Bool
  | .tryLock, a, held => held || a.granted
  | .unlock, r, held => held && !r.done
  | .close, r, held => held && !r.done
  | _, _, held => held

section Run
variable {α β : Type} (env : Env)

/-- How a program ends, and whether the lock is held then. -/
def run : Act α → Bool → Except Exc α × Bool
  | .ret a, held => (.ok a, held)
  | .raise e, held => (.error e, held)
  | .op o k, held => run (k (env o)) (effect o (env o) held)

variable {env} {held : Bool}

lemma run_bind {p : Act α} {f : α → Act β} : run env (p.bind f) held =
    match run env p held with
    | (.ok a, held) => run env (f a) held
    | (.error e, held) => (.error e, held) := by
  induction p generalizing held with
  | ret a => rfl
  | raise e => rfl
  | op o k ih => exact ih _

lemma run_seq {p : Act α} {f : α → Act β} : run env (p >>= f) held =
    match run env p held with
    | (.ok a, held) => run env (f a) held
    | (.error e, held) => (.error e, held) := run_bind

lemma run_catching {p : Act α} {h : Exc → Act α} : run env (p.catching h) held =
    match run env p held with
    | (.ok a, held) => (.ok a, held)
    | (.error e, held) => run env (h e) held := by
  induction p generalizing held with
  | ret a => rfl
  | raise e => rfl
  | op o k ih => exact ih _

end Run

/-! ### The Rebuild -/

def ofExcept {α : Type} : Except Exc α → Act α
  | .ok a => .ret a
  | .error e => .raise e

def ofReply : Reply → Act Unit
  | .ok => .ret ()
  | .lost _ e => .raise e

def call (c : Call) : Act Unit := .op (Op.call c) ofExcept
def query (q : Query) : Act Bool := .op (Op.query q) ofExcept
def allSourceDicts : Act (List String) := .op Op.allSourceDicts ofExcept
def unlock : Act Unit := .op Op.unlock ofReply
def close : Act Unit := .op Op.close ofReply

def tryLock : Act Bool :=
  .op Op.tryLock fun (a : Attempt) => match a.raised with
    | none => .ret a.granted
    | some e => .raise e

/-- `try: p` with `except Exception as e: h e`. -/
def exceptException {α : Type} (p : Act α) (h : Exc → Act α) : Act α :=
  p.catching fun e => if e = .cancelled then .raise e else h e

/-- A handle is whether there is a session. -/
def acquire : Act (Option Bool) := do
  if ← query .getPool then
    call .connect
    let granted ← exceptException tryLock fun e => do
      close
      .raise e
    if granted then pure (some true)
    else
      close
      pure none
  else pure (some false)

/-- `try: unlock` with `finally: close`. -/
def release (handle : Bool) : Act Unit :=
  if handle then Prog.transact close close unlock else pure ()

def jobBlockers (again : Bool) : Act Bool := do
  let queued ← query (.queued again)
  let running ← query (.running again)
  pure (queued || running)

def preRebuildBlockers : Act Bool := do
  let blocked ← jobBlockers false
  let locked ← query .probe
  pure (blocked || locked)

def recreateStores : List Call :=
  [.dropIndex, .initCollection, .clearIndexData, .configured, .writeStamp]

def reindexJob (source : String) : List Call :=
  [.buildJob source, .persistJob source, .enqueue source]

structure Request where
  jobDatabase : Bool
  dryRun : Bool
  deriving DecidableEq, Repr

/-- Steps 2 to 6, with the handle. -/
def rebuildHolding (sources : List String) (handle : Bool) : Act Unit := do
  call .createGroup
  if ← jobBlockers true then
    call .deleteGroup
    release handle
    .raise .refused
  else
    exceptException (Prog.forEach recreateStores call) fun _ => do
      call .setStatus
      release handle
      .raise .failed
    call .invalidateGraphCaches
    Prog.forEach sources fun s => Prog.forEach (reindexJob s) call
    release handle
    call .refresh

def rebuild (req : Request) : Act Unit := do
  if req.jobDatabase then
    let sources ← allSourceDicts
    if req.dryRun then
      let _ ← preRebuildBlockers
      pure ()
    else if ← preRebuildBlockers then .raise .refused
    else
      match ← acquire with
      | none => .raise .refused
      | some handle => rebuildHolding sources handle
  else .raise .runtime

/-! ### When the Lock is Released -/

section Condition
variable (env : Env)

/-- What a step raises. -/
def error (c : Call) : Option Exc :=
  match env (.call c) with
  | .ok _ => none
  | .error e => some e

/-- What the first of the steps that raises raises. -/
def firstError (cs : List Call) : Option Exc := cs.findSome? (error env)

/-- Whether jobs are found, or what looking for them raises. -/
def foundJobs (again : Bool) : Except Exc Bool := do
  let queued ← env (.query (.queued again))
  let running ← env (.query (.running again))
  pure (queued || running)

/-- The rebuild gets as far as asking for the lock, and the server grants it. -/
structure Acquires (req : Request) (sources : List String) : Prop where
  jobDatabase : req.jobDatabase = true
  dryRun : req.dryRun = false
  sources : env .allSourceDicts = .ok sources
  blockers : foundJobs env false = .ok false
  probe : env (.query .probe) = .ok false
  pool : env (.query .getPool) = .ok true
  connect : error env .connect = none
  granted : (env .tryLock).granted = true

/-- The server carries out what releases the lock. -/
def LetsGo : Prop := (env .unlock).done = true ∨ (env .close).done = true

/-- No step between the lock and its release raises, but for an `Exception` of the lock query
itself or of the stores' recreation, after which the release is reached all the same. -/
def Unbroken (sources : List String) : Prop :=
  match (env .tryLock).raised with
  | some e => e ≠ .cancelled ∧ (env .close).done = true
  | none => LetsGo env ∧ error env .createGroup = none ∧
    match foundJobs env true with
    | .error _ => False
    | .ok true => error env .deleteGroup = none
    | .ok false =>
      match firstError env recreateStores with
      | some e => e ≠ .cancelled ∧ error env .setStatus = none
      | none => firstError env (.invalidateGraphCaches :: sources.flatMap reindexJob) = none

end Condition

/-! ### What a Run does to It -/

def endOf (x : Option Exc) : Except Exc Unit :=
  match x with
  | none => .ok ()
  | some e => .error e

/-- Steps that have nothing to do with the lock. -/
def Plain : Op → Prop
  | .tryLock => False
  | .unlock => False
  | .close => False
  | _ => True

section Held
variable {env : Env} {held : Bool} {sources : List String}

lemma held_of_plain {α : Type} {p : Act α} (h : Uses Plain p) : (run env p held).2 = held := by
  induction p generalizing held with
  | ret a => rfl
  | raise e => rfl
  | op o k ih =>
    have heffect : effect o (env o) held = held := by
      cases o <;> first
        | rfl
        | exact h.1.elim
    change (run env (k (env o)) (effect o (env o) held)).2 = held
    rw [heffect]
    exact ih _ (h.2 _)

/-- What comes after the release does not take the lock again. -/
lemma held_bind {α β : Type} {p : Act α} {f : α → Act β} (h : ∀ a, Uses Plain (f a)) :
    (run env (p >>= f) held).2 = (run env p held).2 := by
  change (run env (p.bind f) held).2 = _
  rw [run_bind]
  cases hp : run env p held with
  | mk out held =>
    cases out with
    | ok a => exact held_of_plain (h a)
    | error e => rfl

lemma run_call (c : Call) : run env (call c) held = (endOf (error env c), held) := by
  change run env (ofExcept (env (.call c))) held = _
  unfold error
  cases env (.call c) <;> rfl

lemma run_calls (cs : List Call) :
    run env (Prog.forEach cs call) held = (endOf (firstError env cs), held) := by
  induction cs with
  | nil => rfl
  | cons c cs ih =>
    rw [Prog.forEach, run_bind, run_call, firstError, List.findSome?_cons]
    cases error env c with
    | none => exact ih
    | some e => rfl

lemma firstError_append (cs cs' : List Call) :
    firstError env (cs ++ cs') = (firstError env cs).or (firstError env cs') :=
  List.findSome?_append

lemma run_reindex : run env (Prog.forEach sources fun s => Prog.forEach (reindexJob s) call) held =
    (endOf (firstError env (sources.flatMap reindexJob)), held) := by
  induction sources with
  | nil => rfl
  | cons s sources ih =>
    rw [Prog.forEach, run_bind, run_calls, List.flatMap_cons, firstError_append]
    cases firstError env (reindexJob s) with
    | none => exact ih
    | some e => rfl

lemma run_query (q : Query) : run env (query q) held = (env (.query q), held) := by
  change run env (ofExcept (env (.query q))) held = _
  cases env (.query q) <;> rfl

lemma run_jobBlockers (again : Bool) :
    run env (jobBlockers again) held = (foundJobs env again, held) := by
  change run env ((query (.queued again)).bind fun queued => (query (.running again)).bind
    fun running => .ret (queued || running)) held = _
  rw [run_bind, run_query, foundJobs]
  cases env (.query (.queued again)) with
  | error e => rfl
  | ok queued =>
    dsimp only
    rw [run_bind, run_query]
    cases env (.query (.running again)) <;> rfl

lemma run_unlock : run env unlock held = (endOf (env .unlock).raised, held && !(env .unlock).done) := by
  change run env (ofReply (env .unlock)) (held && !(env .unlock).done) = _
  cases env .unlock <;> rfl

lemma run_close : run env close held = (endOf (env .close).raised, held && !(env .close).done) := by
  change run env (ofReply (env .close)) (held && !(env .close).done) = _
  cases env .close <;> rfl

/-- The session is closed whatever unlocking raises. -/
lemma held_release : (run env (release true) true).2 = false ↔ LetsGo env := by
  have hclose : ∀ (f : Unit → Act Unit) (held : Bool), (∀ a, Uses Plain (f a)) →
      (run env (close.bind f) held).2 = (held && !(env .close).done) := fun f held hf =>
    (held_bind hf).trans (congrArg Prod.snd run_close)
  have hrun : (run env (release true) true).2 = (!(env .unlock).done && !(env .close).done) := by
    change (run env (Prog.transact close close unlock) true).2 = _
    rw [Prog.transact, run_bind, run_catching, run_bind, run_unlock, Bool.true_and]
    cases (env .unlock).raised with
    | none => exact hclose _ _ fun _ => trivial
    | some e => exact hclose _ _ fun _ => trivial
  rw [hrun, LetsGo]
  cases (env .unlock).done <;> cases (env .close).done <;> simp

lemma uses_call (c : Call) : Uses Plain (call c) := by
  refine ⟨trivial, fun (r : Except Exc Unit) => ?_⟩
  cases r <;> trivial

lemma held_release_bind (f : Unit → Act Unit) (hf : ∀ a, Uses Plain (f a)) :
    (run env ((release true).bind f) true).2 = false ↔ LetsGo env := by
  rw [show (run env ((release true).bind f) true).2 = _ from held_bind hf]
  exact held_release

/-- From the lock on. -/
lemma held_rebuildHolding : (run env (rebuildHolding sources true) true).2 = false ↔
    LetsGo env ∧ error env .createGroup = none ∧
      match foundJobs env true with
      | .error _ => False
      | .ok true => error env .deleteGroup = none
      | .ok false =>
        match firstError env recreateStores with
        | some e => e ≠ .cancelled ∧ error env .setStatus = none
        | none => firstError env (.invalidateGraphCaches :: sources.flatMap reindexJob) = none := by
  unfold rebuildHolding
  rw [run_seq, run_call]
  cases error env .createGroup with
  | some e => simp [endOf]
  | none =>
    dsimp only [endOf]
    rw [run_seq, run_jobBlockers]
    cases foundJobs env true with
    | error e => simp
    | ok found =>
      cases found with
      | true =>
        change (run env ((call .deleteGroup).bind fun _ => release true >>= fun _ => _) _).2 = _ ↔ _
        rw [run_bind, run_call]
        cases error env .deleteGroup with
        | some e => simp [endOf]
        | none =>
          exact (held_release_bind (fun _ => .raise .refused) fun _ => trivial).trans (by simp)
      | false =>
        change (run env ((exceptException (Prog.forEach recreateStores call) fun _ =>
          (call .setStatus).bind fun _ => (release true).bind fun _ => .raise .failed).bind
            fun _ => (call .invalidateGraphCaches).bind fun _ =>
              (Prog.forEach sources fun s => Prog.forEach (reindexJob s) call).bind fun _ =>
                (release true).bind fun _ => call .refresh) _).2 = _ ↔ _
        rw [run_bind, exceptException, run_catching, run_calls]
        cases firstError env recreateStores with
        | some e =>
          by_cases he : e = .cancelled
          · subst he
            simp [endOf, run]
          · -- the handler raises, so nothing comes after it
            have hraise : ∀ f : Unit → Act Unit, (((call .setStatus).bind fun _ =>
                (release true).bind fun _ => (.raise .failed : Act Unit)).bind f) =
                  (call .setStatus).bind fun _ => (release true).bind fun _ => .raise .failed :=
              fun f => (Prog.bind_assoc _ _ _).trans
                (congrArg (call .setStatus).bind (funext fun _ => Prog.bind_assoc _ _ _))
            dsimp only [endOf]
            rw [if_neg he, ← run_bind, hraise, run_bind, run_call]
            cases error env .setStatus with
            | some e' => simp [endOf]
            | none =>
              exact (held_release_bind (fun _ => .raise .failed) fun _ => trivial).trans
                (by simp [he])
        | none =>
          dsimp only [endOf]
          rw [run_bind, run_call, firstError, List.findSome?_cons]
          cases error env .invalidateGraphCaches with
          | some e => simp [endOf]
          | none =>
            dsimp only [endOf]
            rw [run_bind, run_reindex]
            change _ ↔ LetsGo env ∧ _ ∧ firstError env (sources.flatMap reindexJob) = none
            cases firstError env (sources.flatMap reindexJob) with
            | some e => simp [endOf]
            | none =>
              exact (held_release_bind (fun _ => call .refresh) fun _ => uses_call _).trans
                (by simp)

lemma uses_query (q : Query) : Uses Plain (query q) := by
  refine ⟨trivial, fun (r : Except Exc Bool) => ?_⟩
  cases r <;> trivial

lemma uses_jobBlockers (again : Bool) : Uses Plain (jobBlockers again) :=
  (uses_query _).bind fun _ => (uses_query _).bind fun _ => trivial

/-- Without a session the rebuild does nothing about the lock. -/
lemma uses_rebuildHolding : Uses Plain (rebuildHolding sources false) := by
  unfold rebuildHolding exceptException release
  refine (uses_call _).bind fun _ => (uses_jobBlockers _).bind fun found => ?_
  split
  · exact (uses_call _).bind fun _ => trivial
  · refine Uses.bind (Uses.catching (Uses.forEach fun c _ => uses_call c) fun e => ?_) fun _ => ?_
    · split
      · trivial
      · exact (uses_call _).bind fun _ => trivial
    · exact (uses_call _).bind fun _ => Uses.bind
        (Uses.forEach fun s _ => Uses.forEach fun c _ => uses_call c) fun _ => uses_call _

lemma run_tryLock : run env tryLock held =
    (match (env .tryLock).raised with
      | none => .ok (env .tryLock).granted
      | some e => .error e, held || (env .tryLock).granted) := by
  change run env (match (env .tryLock).raised with
    | none => .ret (env .tryLock).granted
    | some e => .raise e) (held || (env .tryLock).granted) = _
  cases (env .tryLock).raised <;> rfl

/-- What becomes of the lock query, and of the session where it is not granted. -/
lemma run_acquire : run env acquire false =
    match env (.query .getPool), error env .connect, (env .tryLock).raised with
    | .error e, _, _ => (.error e, false)
    | .ok false, _, _ => (.ok (some false), false)
    | .ok true, some e, _ => (.error e, false)
    | .ok true, none, none =>
      if (env .tryLock).granted then (.ok (some true), true)
      else ((endOf (env .close).raised).map fun _ => none, false)
    | .ok true, none, some e =>
      if e = .cancelled then (.error e, (env .tryLock).granted)
      else (.error ((env .close).raised.getD e), (env .tryLock).granted && !(env .close).done) := by
  unfold acquire
  rw [run_seq, run_query]
  cases env (.query .getPool) with
  | error e => rfl
  | ok pool =>
    cases pool with
    | false => rfl
    | true =>
      dsimp only
      rw [if_pos rfl, run_seq, run_call]
      cases error env .connect with
      | some e => rfl
      | none =>
        dsimp only [endOf]
        rw [run_seq, exceptException, run_catching, run_tryLock, Bool.false_or]
        cases (env .tryLock).raised with
        | none =>
          cases (env .tryLock).granted with
          | true => rfl
          | false =>
            dsimp only
            rw [if_neg Bool.false_ne_true, run_seq, run_close]
            cases (env .close).raised <;> rfl
        | some e =>
          dsimp only
          by_cases he : e = .cancelled
          · rw [if_pos he, if_pos he]
            rfl
          · rw [if_neg he, if_neg he, run_seq, run_close]
            cases (env .close).raised <;> rfl

/-- Steps 1 to 6. -/
lemma held_acquire : (run env (acquire >>= fun handle => match handle with
      | none => .raise .refused
      | some handle => rebuildHolding sources handle) false).2 = false ↔
    (env (.query .getPool) = .ok true → error env .connect = none →
      (env .tryLock).granted = true → Unbroken env sources) := by
  rw [run_seq, run_acquire, Unbroken]
  cases env (.query .getPool) with
  | error e => simp
  | ok pool =>
    cases pool with
    | false => simpa using held_of_plain uses_rebuildHolding
    | true =>
      cases error env .connect with
      | some e => simp
      | none =>
        cases (env .tryLock).raised with
        | none =>
          cases (env .tryLock).granted with
          | true => simpa using held_rebuildHolding
          | false => cases (env .close).raised <;> simp [endOf, Except.map, run]
        | some e =>
          cases (env .tryLock).granted with
          | true =>
            by_cases he : e = .cancelled
            · simp [he]
            · simp [he]
          | false => by_cases he : e = .cancelled <;> simp [he]

lemma run_allSourceDicts : run env allSourceDicts held = (env .allSourceDicts, held) := by
  change run env (ofExcept (env .allSourceDicts)) held = _
  cases env .allSourceDicts <;> rfl

lemma uses_preRebuildBlockers : Uses Plain preRebuildBlockers :=
  (uses_jobBlockers _).bind fun _ => (uses_query _).bind fun _ => trivial

lemma run_preRebuildBlockers : run env preRebuildBlockers held =
    (do pure ((← foundJobs env false) || (← env (.query .probe))), held) := by
  unfold preRebuildBlockers
  rw [run_seq, run_jobBlockers]
  cases foundJobs env false with
  | error e => rfl
  | ok found =>
    dsimp only
    rw [run_seq, run_query]
    cases env (.query .probe) <;> rfl

end Held

/-- **When a rebuild gives its lock back**: whatever each of its steps does, the lock is not held at
its end, by return or by exception, exactly when it was not granted or no step broke off between
that and the release. -/
theorem released_iff_unbroken (env : Env) (req : Request) :
    (run env (rebuild req) false).2 = false ↔
      ∀ sources, Acquires env req sources → Unbroken env sources := by
  obtain ⟨jobDatabase, dryRun⟩ := req
  cases jobDatabase with
  | false => exact iff_of_true rfl fun _ h => absurd h.jobDatabase Bool.false_ne_true
  | true =>
    unfold rebuild
    rw [if_pos rfl, run_seq, run_allSourceDicts]
    cases hsources : env .allSourceDicts with
    | error e =>
      refine iff_of_true rfl fun sources h => ?_
      rw [h.sources] at hsources
      cases hsources
    | ok found =>
      cases dryRun with
      | true =>
        exact iff_of_true (held_of_plain (uses_preRebuildBlockers.bind fun _ => trivial))
          fun _ h => absurd h.dryRun.symm Bool.false_ne_true
      | false =>
        dsimp only
        rw [if_neg Bool.false_ne_true, run_seq, run_preRebuildBlockers]
        cases hjobs : foundJobs env false with
        | error e =>
          refine iff_of_true rfl fun _ h => ?_
          rw [h.blockers] at hjobs
          cases hjobs
        | ok jobs =>
          cases hprobe : env (.query .probe) with
          | error e =>
            refine iff_of_true rfl fun _ h => ?_
            rw [h.probe] at hprobe
            cases hprobe
          | ok locked =>
            by_cases hblocked : jobs = false ∧ locked = false
            · obtain ⟨rfl, rfl⟩ := hblocked
              refine held_acquire.trans ⟨fun h sources ha => ?_, fun h hpool hconnect hgranted => ?_⟩
              · obtain rfl := Except.ok.inj (hsources.symm.trans ha.sources)
                exact h ha.pool ha.connect ha.granted
              · exact h found ⟨rfl, rfl, hsources, hjobs, hprobe, hpool, hconnect, hgranted⟩
            · refine iff_of_true ?_ fun _ h => absurd ⟨?_, ?_⟩ hblocked
              · cases jobs <;> cases locked <;> first
                  | exact absurd ⟨rfl, rfl⟩ hblocked
                  | rfl
              · exact Except.ok.inj (hjobs.symm.trans h.blockers)
              · exact Except.ok.inj (hprobe.symm.trans h.probe)

/-- One source, and nothing goes wrong. -/
def smooth : Env
  | .call _ => .ok ()
  | .query q => .ok (decide (q = .getPool))
  | .allSourceDicts => .ok ["s"]
  | .tryLock => ⟨true, none⟩
  | .unlock => .ok
  | .close => .ok

/-- The job group cannot be stored. -/
def groupRaises : Env
  | .call .createGroup => .error .error
  | o => smooth o

example : (run smooth (rebuild ⟨true, false⟩) false).2 = false := rfl

/-- The rebuild raises, and its session holds the lock. -/
theorem group_error_keeps_lock : ¬∀ (env : Env) (req : Request),
    (run env (rebuild req) false).2 = false := by
  intro hclaim
  have hheld : run groupRaises (rebuild ⟨true, false⟩) false = (.error .error, true) := rfl
  have hreleased := hclaim groupRaises ⟨true, false⟩
  rw [hheld] at hreleased
  cases hreleased

end Treeweft.RebuildLock
