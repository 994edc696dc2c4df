import Treeweft.Service

/-!
Whether one job can be run by two workers at once.

Claiming a job takes it out of the queue, so as long as nobody puts it back while a worker has
it, it has one worker. Startup recovery, the retry endpoint and the failure retry put jobs back
by what they read earlier, and the request that created a job does so without reading anything.
-/

namespace Treeweft.SingleExecution

open Treeweft.Jobs Treeweft.JobStore Treeweft.Runners Treeweft.PromptRefresh Treeweft.Queue
open Treeweft.Service Treeweft.IndexGuard
open Machine (State Label Run Kept initial)

/-- The job a task has claimed and may still run, and the job it is running. -/
structure Holding where
  held : Option ℕ
  executing : Option ℕ
  deriving DecidableEq, Repr

/-- A claimed job that has a terminal status will not be run. -/
def Holding.drop (l : Holding) (i : ℕ) (st : JobStatus) : Holding :=
  if l.executing = none ∧ l.held = some i ∧ st.terminal then { l with held := none } else l

def after (l : Holding) : (o : Op) → o.Answer → Holding
  | .claim, r => { l with held := r }
  | .get i, r => match (r : Option Job) with
    | none => l
    | some j => l.drop i j.status
  | .upsert j, _ => l.drop j.id j.status
  | .begin j, _ => { l with executing := some j.id }
  | .finish _, _ => ⟨none, none⟩
  | _, _ => l

example : after ⟨some 1, none⟩ (.get 1) none = ⟨some 1, none⟩ := by rw [after]

/-- A worker claims one job at a time, and runs what it has claimed. -/
def may (l : Holding) : Op → Prop
  | .claim => l = ⟨none, none⟩
  | .begin j => l.held = some j.id
  | _ => True

def admits : (o : Op) → o.Answer → Prop
  | .get i, r => ∀ j, (r : Option Job) = some j → j.id = i
  | _, _ => True

def discipline : Discipline sig := ⟨Holding, ⟨none, none⟩, may, fun _ => admits, after⟩

abbrev Sys := State machine discipline

/-- The worker has claimed the job and has not come to the end of its run. -/
def Holds (s : Sys) (t : Tid) (i : ℕ) : Prop := ∃ l, s.records t = some l ∧ l.held = some i

def Executes (s : Sys) (t : Tid) (i : ℕ) : Prop :=
  ∃ l, s.records t = some l ∧ l.executing = some i

/-- No job is put into the queue while a worker holds it. -/
def InsertsFree (s : Sys) : Label machine → Prop
  | .run t _ => ∀ o i, s.nextOp t = some o → inserts o = some i → ∀ u, ¬Holds s u i
  | _ => True

/-! ### A worker keeps to the discipline -/

def idle : Holding := ⟨none, none⟩

lemma after_idle {o : Op} (h : Quiet o) (r : o.Answer) : after idle o r = idle := by
  cases o <;> first
    | rfl
    | exact h.elim
    | simp [after, Holding.drop, idle]
  split <;> rfl

/-- What only a worker does apart, a task without a job stays without one. -/
lemma wp_of_quiet {α : Type} {p : Act α} (h : Uses Quiet p) :
    discipline.wp p (fun _ l => l = idle) (fun _ l => l = idle) idle := by
  refine h.wp (D := discipline) (I := fun l => l = idle) (fun o ho l hl => ?_) rfl
  subst hl
  refine ⟨?_, fun r _ => after_idle ho r⟩
  cases o <;> trivial

lemma after_holding {o : Op} {i : ℕ} {j : Job} (h : RunnerOp j o) (r : o.Answer) :
    after ⟨some i, some i⟩ o r = ⟨some i, some i⟩ := by
  cases o <;> first
    | rfl
    | exact h.elim

lemma wp_runner {i : ℕ} {j : Job} {p : Act Unit} (h : IsRunner j p) :
    discipline.wp p (fun _ l => l = Holding.mk (some i) (some i))
      (fun _ l => l = Holding.mk (some i) (some i)) (Holding.mk (some i) (some i)) := by
  refine h.uses.wp (D := discipline) (I := fun l => l = Holding.mk (some i) (some i))
    (fun o ho l hl => ?_) rfl
  subst hl
  refine ⟨?_, fun r _ => after_holding ho r⟩
  cases o <;> trivial

lemma wp_runCoroutine {j : Job} {p : Act Unit} (h : IsRunner j p) :
    discipline.wp (runCoroutine j p) (fun _ _ => True) (fun _ _ => True)
      (Holding.mk (some j.id) none) := by
  have hend : ∀ q : Act Unit, Uses Quiet q →
      discipline.wp q (fun _ _ => True) (fun _ _ => True) idle := fun q hq =>
    Discipline.wp_mono (fun _ _ _ => trivial) (fun _ _ _ => trivial) (wp_of_quiet hq)
  unfold runCoroutine
  simp only [Discipline.wp_bind, Discipline.wp_attempt, Discipline.wp_op, Discipline.wp_ret]
  refine ⟨rfl, fun _ _ => Discipline.wp_mono ?_ ?_ (wp_runner (i := j.id) h)⟩
  · rintro _ l rfl
    exact ⟨trivial, fun _ _ => hend _ (quiet_maybeEnqueueRefresh j)⟩
  · rintro e l rfl
    exact ⟨trivial, fun _ _ => hend _ (quiet_afterRaise j e)⟩

/-- A claimed job keeps its worker through what neither runs it nor ends it. -/
lemma wp_persist_running {j : Job} {Q : Unit → Holding → Prop} {X : Exc → Holding → Prop}
    {l : Holding} (hQ : Q () l) (hX : X .uniqueViolation l) :
    discipline.wp (persistJob { j with status := .running }) Q X l := by
  have hl : after l (.upsert { j with status := .running }) = fun _ => l := by
    funext r
    simp [after, Holding.drop, JobStatus.terminal]
  refine ⟨trivial, fun r _ => ?_⟩
  change discipline.wp (if r = true then pure () else .raise .uniqueViolation) Q X _
  rw [show discipline.after l (.upsert { j with status := .running }) r = l from congrFun hl r]
  split
  · exact hQ
  · exact hX

lemma wp_persist_failed {j : Job} {error : String}
    {Q : Unit → Holding → Prop} {X : Exc → Holding → Prop} (hQ : Q () idle)
    (hX : X .uniqueViolation idle) :
    discipline.wp (persistJob (j.failed error)) Q X (Holding.mk (some j.id) none) := by
  refine ⟨trivial, fun r _ => ?_⟩
  change discipline.wp (if r = true then pure () else .raise .uniqueViolation) Q X
    (after (Holding.mk (some j.id) none) (.upsert (j.failed error)) r)
  rw [show after (Holding.mk (some j.id) none) (.upsert (j.failed error)) r = idle by
    simp [after, Holding.drop, Job.failed, JobStatus.terminal, idle]]
  split
  · exact hQ
  · exact hX

lemma wp_runClaimed (j : Job) :
    discipline.wp (runClaimed j) (fun _ _ => True) (fun _ _ => True)
      (Holding.mk (some j.id) none) := by
  have hend : ∀ error, discipline.wp (persistJob (j.failed error) >>= fun _ =>
      maybeEnqueueRefresh j) (fun _ _ => True) (fun _ _ => True) (Holding.mk (some j.id) none) := by
    intro error
    rw [Discipline.wp_bind]
    refine wp_persist_failed ?_ trivial
    exact Discipline.wp_mono (fun _ _ _ => trivial) (fun _ _ _ => trivial)
      (wp_of_quiet (quiet_maybeEnqueueRefresh j))
  unfold runClaimed
  rw [Discipline.wp_bind]
  refine wp_persist_running ?_ trivial
  rw [Discipline.wp_bind]
  refine wp_dispatchAllowed (fun o ho => ?_) fun b => ?_
  · cases o <;> first | exact ho.elim | exact ⟨trivial, fun _ _ => rfl⟩
  · split
    · rw [Discipline.wp_bind]
      exact wp_dispatchJob (fun q => ⟨trivial, fun _ => rfl⟩) (hend _) fun p hp =>
        wp_runCoroutine hp
    · exact hend _

lemma wp_runOne (i : ℕ) :
    discipline.wp (runOne i) (fun _ _ => True) (fun _ _ => True) (Holding.mk (some i) none) := by
  refine ⟨trivial, fun (r : Option Job) hr => ?_⟩
  cases r with
  | none => trivial
  | some j =>
    obtain rfl : j.id = i := hr j rfl
    change discipline.wp (if j.status.terminal = true then pure () else runClaimed j) _ _
      (after (Holding.mk (some j.id) none) (.get j.id) (some j))
    split
    · trivial
    · rename_i hst
      rw [show after (Holding.mk (some j.id) none) (.get j.id) (some j) =
        Holding.mk (some j.id) none by simp [after, Holding.drop, hst]]
      exact wp_runClaimed j

lemma wp_worker : discipline.wp worker (fun _ _ => True) (fun _ _ => True) idle := by
  refine ⟨rfl, fun (r : Option ℕ) _ => ?_⟩
  cases r with
  | none => trivial
  | some i => exact wp_runOne i

lemma wp_main (e : Entry) : discipline.wp e.main (fun _ _ => True) (fun _ _ => True) idle := by
  have hq : ∀ p : Act Unit, Uses Quiet p →
      discipline.wp p (fun _ _ => True) (fun _ _ => True) idle := fun p hp =>
    Discipline.wp_mono (fun _ _ _ => trivial) (fun _ _ _ => trivial) (wp_of_quiet hp)
  cases e with
  | worker => exact wp_worker
  | startup => exact hq _ quiet_startup
  | webhook ev => exact hq _ (quiet_handleWebhook ev)
  | submit r => exact hq _ (quiet_submit r)
  | retry i => exact hq _ (quiet_retryJob i)
  | refresh sid => exact hq _ (quiet_enqueueIfStale sid)
  | rebuild => exact hq _ quiet_rebuild

/-! ### The invariant -/

/-- A held job is not in the queue and has one holder; what is executed is held. -/
structure Inv (db : Db) (L : Tid → Option Holding) : Prop where
  unqueued : ∀ t l i, L t = some l → l.held = some i → i ∉ db.queue
  unique : ∀ t u l k i, L t = some l → L u = some k → l.held = some i → k.held = some i → t = u
  executing : ∀ t l i, L t = some l → l.executing = some i → l.held = some i

section Inv
variable {db db' : Db} {L L' : Tid → Option Holding} {t : Tid} {l l' : Holding}

/-- Records that hold no more than before, over a queue that gains nothing held. -/
lemma Inv.sub (h : Inv db L)
    (hL : ∀ u k, L' u = some k → (∀ i, k.executing = some i → k.held = some i) ∧
      ∀ i, k.held = some i → ∃ k', L u = some k' ∧ k'.held = some i)
    (hq : ∀ i, i ∈ db'.queue → i ∈ db.queue ∨ ∀ u k, L u = some k → k.held ≠ some i) :
    Inv db' L' := by
  refine ⟨fun u k i hu hk hi => ?_, fun u v k m i hu hv hk hm => ?_, fun u k i hu hk => ?_⟩
  · obtain ⟨k', hu', hk'⟩ := (hL u k hu).2 i hk
    rcases hq i hi with hi | hi
    · exact h.unqueued u k' i hu' hk' hi
    · exact hi u k' hu' hk'
  · obtain ⟨k', hu', hk'⟩ := (hL u k hu).2 i hk
    obtain ⟨m', hv', hm'⟩ := (hL v m hv).2 i hm
    exact h.unique u v k' m' i hu' hv' hk' hm'
  · exact (hL u k hu).1 i hk

/-- A step of one task. -/
lemma Inv.update (h : Inv db L) (hl : L t = some l)
    (hheld : ∀ i, l'.held = some i → l.held = some i)
    (hexec : ∀ i, l'.executing = some i → l'.held = some i)
    (hq : ∀ i, i ∈ db'.queue → i ∈ db.queue ∨ ∀ u k, L u = some k → k.held ≠ some i) :
    Inv db' (Function.update L t (some l')) := by
  refine h.sub (fun u k hu => ?_) hq
  by_cases hut : u = t
  · subst hut
    rw [Function.update_self] at hu
    cases hu
    exact ⟨hexec, fun i hi => ⟨l, hl, hheld i hi⟩⟩
  · rw [Function.update_of_ne hut] at hu
    exact ⟨fun i => h.executing u k i hu, fun i hi => ⟨k, hu, hi⟩⟩

/-- Claiming, from a queue that holds nothing held. -/
lemma Inv.claim (h : Inv db L) (hl : L t = some idle) {i : ℕ} (hi : i ∈ db.queue) :
    Inv { db with queue := db.queue.erase i } (Function.update L t (some ⟨some i, none⟩)) := by
  have hfree : ∀ u k, L u = some k → k.held ≠ some i := fun u k hu hk => h.unqueued u k i hu hk hi
  refine ⟨fun u k m hu hk hm => ?_, fun u v k m n hu hv hk hm => ?_, fun u k m hu hk => ?_⟩
  · obtain ⟨hm, hmi⟩ := Keyed.mem_erase.1 hm
    by_cases hut : u = t
    · subst hut
      rw [Function.update_self] at hu
      cases hu
      exact hmi (Option.some.inj hk).symm
    · rw [Function.update_of_ne hut] at hu
      exact h.unqueued u k m hu hk hm
  · by_cases hut : u = t <;> by_cases hvt : v = t
    · exact hut.trans hvt.symm
    · subst hut
      rw [Function.update_self] at hu
      rw [Function.update_of_ne hvt] at hv
      cases hu
      cases hk
      exact absurd hm (hfree v m hv)
    · subst hvt
      rw [Function.update_self] at hv
      rw [Function.update_of_ne hut] at hu
      cases hv
      cases hm
      exact absurd hk (hfree u k hu)
    · rw [Function.update_of_ne hut] at hu
      rw [Function.update_of_ne hvt] at hv
      exact h.unique u v k m n hu hv hk hm
  · by_cases hut : u = t
    · subst hut
      rw [Function.update_self] at hu
      cases hu
      cases hk
    · rw [Function.update_of_ne hut] at hu
      exact h.executing u k m hu hk

lemma held_drop {l : Holding} {i : ℕ} {st : JobStatus} :
    (∀ k, (l.drop i st).held = some k → l.held = some k) ∧
      ((∀ k, l.executing = some k → l.held = some k) →
        ∀ k, (l.drop i st).executing = some k → (l.drop i st).held = some k) := by
  unfold Holding.drop
  split
  · rename_i hd
    refine ⟨fun k hk => (by cases hk), fun h k hk => ?_⟩
    rw [hd.1] at hk
    cases hk
  · exact ⟨fun _ h => h, fun h => h⟩

/-- What an operation does to the record, claiming and beginning apart. -/
lemma held_after {l : Holding} {o : Op} (r : o.Answer) (hc : o ≠ .claim) (hm : may l o)
    (hl : ∀ k, l.executing = some k → l.held = some k) :
    (∀ k, (after l o r).held = some k → l.held = some k) ∧
      ∀ k, (after l o r).executing = some k → (after l o r).held = some k := by
  cases o <;> first
    | exact absurd rfl hc
    | exact ⟨fun _ h => h, hl⟩
    | skip
  case upsert j => exact ⟨held_drop.1, held_drop.2 hl⟩
  case get i =>
    cases r with
    | none => exact ⟨fun _ h => h, hl⟩
    | some j => exact ⟨held_drop.1, held_drop.2 hl⟩
  case begin j =>
    refine ⟨fun _ h => h, fun k hk => ?_⟩
    cases hk
    exact hm
  case finish j => exact ⟨fun k hk => (by cases hk), fun k hk => (by cases hk)⟩

end Inv

lemma own_queue {db db' : Db} {x : Own} (h : own db x = some db') : db'.queue = db.queue := by
  cases x with
  | land n => obtain ⟨-, -, -, -, ⟨-, rfl⟩ | ⟨-, rfl⟩⟩ := own_land h <;> rfl
  | flush n =>
    obtain ⟨-, w, -, rfl⟩ := own_flush h
    exact write_queue w
  | deleteSource sid =>
    cases h
    rfl

/-- Steps that put no held job into the queue keep the invariant. -/
lemma kept : Kept (M := machine) (D := discipline) InsertsFree (fun _ => True) Inv where
  main _ _ e _ := wp_main e
  start s t e _ h ht := by
    refine h.sub (fun u k hu => ?_) fun i hi => .inl hi
    by_cases hut : u = t
    · subst hut
      rw [Function.update_self] at hu
      cases hu
      exact ⟨fun i hi => (by cases hi), fun i hi => (by cases hi)⟩
    · rw [Function.update_of_ne hut] at hu
      exact ⟨fun i => h.executing u k i hu, fun i hi => ⟨k, hu, hi⟩⟩
  op s t env o l r st hc ho hl hm h he := by
    refine ⟨?_, ?_⟩
    · cases o <;> first | trivial | skip
      case get i =>
        cases he
        exact fun j hj => Keyed.key_of_get? hj
    · have hq : ∀ i, i ∈ st.queue → i ∈ s.store.queue ∨
          ∀ u k, s.records u = some k → k.held ≠ some i := by
        intro i hi
        rcases mem_queue_of_exec he hi with hi | hi
        · exact .inl hi
        · exact .inr fun u k hu hk => hc o i ho hi u ⟨k, hu, hk⟩
      by_cases hclaim : o = .claim
      · subst hclaim
        obtain rfl : l = idle := hm
        have he : exec s.store t env .claim = some (r, st) := he
        rcases exec_claim he with ⟨rfl, rfl⟩ | ⟨i, hi, rfl, rfl⟩
        · exact h.update hl (fun _ hk => by cases hk) (fun _ hk => by cases hk) fun _ hi => .inl hi
        · exact h.claim hl hi
      · obtain ⟨hheld, hexec⟩ := held_after r hclaim hm fun k => h.executing t l k hl
        exact h.update hl hheld hexec hq
  stop s t env l _ ht _ h := by
    refine h.sub (fun u k hu => ?_) fun i hi => .inl hi
    by_cases hut : u = t
    · subst hut
      rw [Function.update_self] at hu
      cases hu
    · rw [Function.update_of_ne hut] at hu
      exact ⟨fun i => h.executing u k i hu, fun i hi => ⟨k, hu, hi⟩⟩
  kill s p _ h := by
    refine h.sub (fun u k hu => ?_) fun i hi => .inl hi
    split at hu
    · cases hu
    · exact ⟨fun i => h.executing u k i hu, fun i hi => ⟨k, hu, hi⟩⟩
  own s x st _ h hs := by
    refine h.sub (fun u k hu => ?_) fun i hi => .inl (own_queue hs ▸ hi)
    exact ⟨fun i => h.executing u k i hu, fun i hi => ⟨k, hu, hi⟩⟩

/-- **One job, one worker**: in a run in which no job is put into the queue while a worker holds
it, no job is ever executed by two workers at the same time. -/
theorem single_execution (db : Db) (s : Sys) (hr : Run InsertsFree (initial db) s) (t u : Tid)
    (i : ℕ) (ht : Executes s t i) (hu : Executes s u i) : t = u := by
  obtain ⟨l, hl, hle⟩ := ht
  obtain ⟨k, hk, hke⟩ := hu
  have h := (kept.run_initial hr
    ⟨fun _ _ _ h => (by cases h), fun _ _ _ _ _ h => (by cases h), fun _ _ _ h => (by cases h)⟩).1
  exact h.unique t u l k i hl hk (h.executing t l i hl hle) (h.executing u k i hk hke)

/-! ### Runs -/

def repoRequest : Submission := ⟨.repo, "s", "", "https://git/s", "main"⟩

/-- A repository is submitted and a worker begins to index it. -/
def oneWorker : List (Label machine) :=
  .start ⟨0, 0⟩ (.submit repoRequest) :: steps ⟨0, 0⟩ 6 ++
    .start ⟨0, 1⟩ .worker :: steps ⟨0, 1⟩ 7

/-- Another process starts up meanwhile, and its worker is quick. -/
def secondProcess : List (Label machine) :=
  oneWorker ++ .start ⟨1, 0⟩ .startup :: steps ⟨1, 0⟩ 6 ++
    .start ⟨1, 1⟩ .worker :: steps ⟨1, 1⟩ 7

def insertsFree (s : Sys) : Label machine → Bool
  | .run t _ => ((s.nextOp t).bind inserts).all fun i =>
    s.tasks.rows.all fun k => k.record.held ≠ some i
  | _ => true

lemma insertsFree_iff (s : Sys) (l : Label machine) (h : insertsFree s l = true) :
    InsertsFree s l := by
  cases l <;> first | trivial | skip
  case run t n =>
    rintro o i ho hi u ⟨k, hk, hki⟩
    obtain ⟨task, htask, rfl⟩ := Option.map_eq_some_iff.1 hk
    have hall : s.tasks.rows.all fun k => k.record.held ≠ some i := by
      simpa only [insertsFree, ho, Option.bind_some, hi, Option.all_some] using h
    have := of_decide_eq_true (List.all_eq_true.1 hall task (Keyed.mem_of_get? htask))
    exact this hki

def executing (s : Sys) (t : Tid) : Option ℕ := (s.records t).bind Holding.executing

lemma executes_iff {s : Sys} {t : Tid} {i : ℕ} : Executes s t i ↔ executing s t = some i :=
  Option.bind_eq_some_iff.symm

theorem single_execution_one_worker :
    ∃ s : Sys, Run InsertsFree (initial empty) s ∧ Executes s ⟨0, 1⟩ 0 ∧
      ∀ u, Executes s u 0 → ⟨0, 1⟩ = u := by
  have h : (((initial empty : Sys).runChecked insertsFree oneWorker).map fun s =>
      executing s ⟨0, 1⟩) = some (some 0) := by decide
  obtain ⟨s, hs, hx⟩ := Option.map_eq_some_iff.1 h
  have hr := Machine.run_of_runChecked insertsFree_iff hs
  have hx := executes_iff.2 hx
  exact ⟨s, hr, hx, fun u hu => single_execution empty s hr ⟨0, 1⟩ u 0 hx hu⟩

/-- The recovery of the second process finds the job running, and does not ask where. -/
theorem startup_requeues_live_job :
    ¬∀ s : Sys, Run (fun _ _ => True) (initial empty) s →
      ∀ t u i, Executes s t i → Executes s u i → t = u := by
  intro hclaim
  have h : (((initial empty : Sys).runChecked (fun _ _ => true) secondProcess).map fun s =>
      (executing s ⟨0, 1⟩, executing s ⟨1, 1⟩)) = some (some 0, some 0) := by decide
  obtain ⟨s, hs, hx⟩ := Option.map_eq_some_iff.1 h
  simp only [Prod.mk.injEq] at hx
  have := hclaim s (Machine.run_of_runChecked (fun _ _ _ => trivial) hs) ⟨0, 1⟩ ⟨1, 1⟩ 0
    (executes_iff.2 hx.1) (executes_iff.2 hx.2)
  cases this

end Treeweft.SingleExecution
