import Treeweft.Guarded
import Treeweft.Jobs
import Mathlib.Data.List.MinMax

/-!
Whether an index request may be answered by a job that is done.

A request without `force` is answered with the newest job of its source that the process holds as
done, whatever kind of job that is and whatever has become of the source since. The processes share
the `jobs` table, the queue and the registry; what each one holds in memory is its own. The last
operation that changed what is stored of a source is kept as history.
-/

namespace Treeweft.DoneDedup

open Treeweft.Jobs (JobStatus JobKind)

/-- What of a job never changes. -/
structure JobId where
  uuid : ℕ
  kind : JobKind
  sourceId : String
  deriving DecidableEq, Repr

structure Job where
  id : JobId
  status : JobStatus
  finishedAt : ℕ
  deriving DecidableEq, Repr

/-- A job that keeps requests for its source from being looked up among those that are done. -/
def Job.Blocks (sourceId : String) (j : Job) : Prop :=
  j.id.sourceId = sourceId ∧ j.status.active = true ∧ j.id.kind ≠ .resummarize

instance (sourceId : String) (j : Job) : Decidable (j.Blocks sourceId) :=
  inferInstanceAs (Decidable (_ ∧ _ ∧ _))

/-! ### The `jobs` Table -/

/-- The table with its partial unique index. -/
structure JobTable where
  rows : Keyed Job.id
  single : ∀ a ∈ rows, ∀ b ∈ rows, a.status.active = true → b.status.active = true →
    a.id.sourceId = b.id.sourceId → a.id.sourceId ≠ "" → a = b

namespace JobTable
variable {t t' : JobTable} {a b j : Job} {i : JobId} {sid : String}

def Admits (t : JobTable) (j : Job) : Prop :=
  j.status.active = true → j.id.sourceId ≠ "" → ∀ r ∈ t.rows.rows, r.status.active = true →
    r.id.sourceId = j.id.sourceId → r.id = j.id

instance (t : JobTable) (j : Job) : Decidable (t.Admits j) :=
  inferInstanceAs (Decidable (_ → _ → _))

/-- `none` is the violation of the unique index. -/
def upsert (t : JobTable) (j : Job) : Option JobTable :=
  if h : t.Admits j then
    some ⟨t.rows.put j, by
      intro a ha b hb haa hba hs hne
      rcases Keyed.mem_put.mp ha with haj | ⟨hat, hak⟩ <;>
        rcases Keyed.mem_put.mp hb with hbj | ⟨hbt, hbk⟩
      · rw [haj, hbj]
      · subst haj
        exact absurd (h haa hne b hbt hba hs.symm) hbk
      · subst hbj
        exact absurd (h hba (hs ▸ hne) a hat haa hs) hak
      · exact t.single a hat b hbt haa hba hs hne⟩
  else none

lemma mem_upsert (h : t.upsert j = some t') : a ∈ t'.rows ↔ a = j ∨ a ∈ t.rows ∧ a.id ≠ j.id := by
  unfold upsert at h
  split at h
  · obtain rfl := Option.some.inj h
    exact Keyed.mem_put
  · cases h

/-- A job that is not active is always admitted. -/
lemma exists_upsert (h : j.status.active = false) : ∃ t', t.upsert j = some t' :=
  ⟨_, dif_pos fun ha => absurd ha (by rw [h]; exact Bool.false_ne_true)⟩

def findActiveForSource (t : JobTable) (sourceId : String) : Option Job :=
  if sourceId = "" then none
  else t.rows.rows.find? fun r => r.id.sourceId = sourceId ∧ r.status.active = true

/-- Whether some index job of the source is active. -/
def Blocked (t : JobTable) (sourceId : String) : Prop := ∃ r ∈ t.rows.rows, r.Blocks sourceId

instance (t : JobTable) (sourceId : String) : Decidable (t.Blocked sourceId) :=
  inferInstanceAs (Decidable (∃ r ∈ t.rows.rows, _))

/-- Every job that was superseded is closed. -/
def close (t : JobTable) (p : Job → Bool) (now : ℕ) : JobTable where
  rows := t.rows.map (fun r => if p r then { r with status := .done, finishedAt := now } else r)
    fun r => by split <;> rfl
  single := by
    intro a ha b hb haa hba hs hne
    obtain ⟨x, hx, rfl⟩ := Keyed.mem_map.mp ha
    obtain ⟨y, hy, rfl⟩ := Keyed.mem_map.mp hb
    by_cases hpx : p x = true
    · rw [if_pos hpx] at haa
      cases haa
    · by_cases hpy : p y = true
      · rw [if_pos hpy] at hba
        cases hba
      · rw [if_neg hpx] at haa hs hne ⊢
        rw [if_neg hpy] at hba hs ⊢
        exact t.single x hx y hy haa hba hs hne

lemma blocked_upsert (h : t.upsert j = some t') :
    t'.Blocked sid ↔ j.Blocks sid ∨ ∃ r ∈ t.rows, r.id ≠ j.id ∧ r.Blocks sid := by
  constructor
  · rintro ⟨r, hr, hb⟩
    rcases (mem_upsert h).mp hr with rfl | ⟨hr, hne⟩
    · exact .inl hb
    · exact .inr ⟨r, hr, hne, hb⟩
  · rintro (hb | ⟨r, hr, hne, hb⟩)
    · exact ⟨j, (mem_upsert h).mpr (.inl rfl), hb⟩
    · exact ⟨r, (mem_upsert h).mpr (.inr ⟨hr, hne⟩), hb⟩

/-- A job that is active takes no block away. -/
lemma blocked_of_active (hj : j.status.active = true) (h : t.Blocked sid) :
    ((t.upsert j).getD t).Blocked sid := by
  cases hu : t.upsert j with
  | none => exact h
  | some t' =>
    obtain ⟨r, hr, hb⟩ := h
    refine (blocked_upsert hu).mpr ?_
    by_cases hid : r.id = j.id
    · exact .inl ⟨hid ▸ hb.1, hj, hid ▸ hb.2.2⟩
    · exact .inr ⟨r, hr, hid, hb⟩

/-- A job that is not active blocks nothing, and the others as before. -/
lemma blocked_of_inactive (hj : j.status.active = false) :
    ((t.upsert j).getD t).Blocked sid ↔ ∃ r ∈ t.rows, r.id ≠ j.id ∧ r.Blocks sid := by
  obtain ⟨t', hu⟩ := exists_upsert (t := t) hj
  rw [hu, Option.getD_some, blocked_upsert hu]
  exact or_iff_right fun hb => by simp [hb.2.1] at hj

lemma mem_close {p : Job → Bool} {now : ℕ} : a ∈ (t.close p now).rows ↔
    ∃ r ∈ t.rows, a = if p r then { r with status := .done, finishedAt := now } else r := by
  simp only [close, Keyed.mem_map, eq_comm]

end JobTable

/-! ### What the Processes Do -/

/-- The runs that index a source as a whole. -/
def isFull : JobKind → Bool
  | .file => true
  | .directory => true
  | .repo => true
  | _ => false

/-- What last changed the content of a source. -/
inductive Change
  /-- A full index that has not come to its end. -/
  | begun
  | fullIndex
  | job (kind : JobKind)
  | deleted
  | dropped
  deriving DecidableEq, Repr

structure World where
  /-- The jobs each process holds. -/
  memory : ℕ → Keyed Job.id
  jobs : JobTable
  queue : List JobId
  registered : String → Bool
  /-- The requests that no active job has answered, and that have still to look in memory. -/
  looked : List (ℕ × String)
  /-- The jobs in progress, by process. -/
  runs : List (ℕ × JobId)
  /-- The upserts that were started in the background. -/
  flying : List (ℕ × Job)
  /-- History: no operation reads it. -/
  last : String → Option Change

def empty : World :=
  ⟨fun _ => .empty, ⟨.empty, fun _ ha => absurd ha Keyed.not_mem_empty⟩, [], fun _ => false,
    [], [], [], fun _ => none⟩

/-- The newest of the jobs of the source that are done. -/
def findDoneJobForSource (jobs : Keyed Job.id) (sourceId : String) : Option Job :=
  if sourceId = "" then none
  else (jobs.rows.filter fun j => j.id.sourceId = sourceId ∧ j.status = .done).argmax Job.finishedAt

namespace World
variable (w : World)

def hold (p : ℕ) (j : Job) : World :=
  { w with memory := Function.update w.memory p ((w.memory p).put j) }

def persist (j : Job) : Option World := (w.jobs.upsert j).map fun t => { w with jobs := t }

def store (j : Job) : World := (w.persist j).getD w

/-- Where the row is refused, the request ends before it has queued the job. -/
def enqueue (j : Job) : World :=
  match w.persist j with
  | some w' => { w' with queue := w'.queue ++ [j.id] }
  | none => w

/-- The first half of an index request without `force`: an active job answers it, unless that
refreshes summaries only. -/
def look (p : ℕ) (sourceId : String) : World :=
  if (w.jobs.findActiveForSource sourceId).any fun r => decide (r.id.kind ≠ .resummarize) then w
  else { w with looked := (p, sourceId) :: w.looked }

/-- A route has decided to run a job. -/
def submit (p : ℕ) (i : JobId) : World :=
  (w.hold p ⟨i, .queued, 0⟩).enqueue ⟨i, .queued, 0⟩

def cancelIfQueued (r : Job) (now : ℕ) : World :=
  let w' := { w with queue := w.queue.erase r.id }
  if r.status = .queued then w'.store { r with status := .done, finishedAt := now } else w'

/-- A refresh that no worker has claimed is cancelled, after any other the job is made to wait. -/
def preemptActiveRefresh (p : ℕ) (i : JobId) (now : ℕ) : World :=
  match w.jobs.findActiveForSource i.sourceId with
  | none => w.submit p i
  | some r =>
    if r.id.kind ≠ .resummarize then w.submit p i
    else if r.id ∈ w.queue then (w.cancelIfQueued r now).submit p i
    else (w.hold p ⟨i, .waiting, 0⟩).store ⟨i, .waiting, 0⟩

/-- A worker claims the job and, unless that has ended already, starts to run it. -/
def start (p : ℕ) (i : JobId) : World :=
  if i ∈ w.queue then
    let w' := { w with queue := w.queue.erase i }
    match w'.jobs.rows.get? i with
    | none => w'
    | some r =>
      if r.status.terminal then w'
      else match w'.persist { r with status := .running } with
        | some w'' =>
          { (w''.hold p { r with status := .running }) with runs := (p, i) :: w''.runs }
        | none => w'
  else w

/-- The status of a job that the process is running. -/
def running (p : ℕ) (i : JobId) : Option JobStatus :=
  if (p, i) ∈ w.runs then ((w.memory p).get? i).map Job.status else none

/-- What a process holds when it has started: the jobs that are done, with them those that give
way to a job that is done, and the jobs it has queued again. -/
def restart (p now : ℕ) : World :=
  let superseded (r : Job) : Bool := r.status.active && decide (r.id.kind ≠ .resummarize) &&
    decide (r.id.sourceId ≠ "") &&
    w.jobs.rows.rows.any fun d => decide (d.status = .done ∧ d.id.sourceId = r.id.sourceId)
  let t := w.jobs.close superseded now
  { w with
    memory := Function.update w.memory p
      (t.rows.filter fun r => decide (r.status = .done) || r.status.active)
    jobs := t
    queue := w.queue ++ (t.rows.rows.filter fun r =>
      r.status.active && decide (r.id ∉ w.queue)).map Job.id
    looked := w.looked.filter fun l => l.1 ≠ p
    runs := w.runs.filter fun l => l.1 ≠ p
    flying := w.flying.filter fun l => l.1 ≠ p }

end World

inductive Event
  | look (p : ℕ) (sourceId : String)
  /-- The second half of the request. -/
  | answer (p : ℕ) (sourceId : String)
  | submit (p : ℕ) (i : JobId)
  | preempt (p : ℕ) (i : JobId) (now : ℕ)
  | promote (i : JobId)
  | start (p : ℕ) (i : JobId)
  /-- A job is given up before it runs. -/
  | refuse (i : JobId) (now : ℕ)
  | progress (p : ℕ) (i : JobId)
  | write (p : ℕ) (i : JobId)
  /-- The run marks its job as done, in memory. -/
  | finish (p : ℕ) (i : JobId) (now : ℕ)
  | land (p : ℕ) (j : Job)
  | record (p : ℕ) (i : JobId) (saved : Bool)
  | close (p : ℕ) (i : JobId)
  | fail (p : ℕ) (i : JobId) (now : ℕ)
  | retry (i : JobId)
  | removeSource (sourceId : String) (graphDeleted recordDeleted : Bool)
  | dropStores
  | restart (p now : ℕ)
  deriving DecidableEq, Repr

section Step
variable (changes : JobKind → Bool)

/-- Which jobs change the content of their source: every full index, and those of the kinds that
count as changing it. -/
def changesContent (kind : JobKind) : Bool := isFull kind || changes kind

def changed (w : World) (sourceId : String) (c : Change) : World :=
  { w with last := Function.update w.last sourceId (some c) }

def recorded (w : World) (sourceId : String) (b : Bool) : World :=
  { w with registered := Function.update w.registered sourceId b }

def step (w : World) : Event → World
  | .look p sid => w.look p sid
  | .answer p sid => { w with looked := w.looked.erase (p, sid) }
  | .submit p i => if w.jobs.rows.get? i = none then w.submit p i else w
  | .preempt p i now =>
    if w.jobs.rows.get? i = none then w.preemptActiveRefresh p i now else w
  | .promote i =>
    match w.jobs.rows.get? i with
    | some r => if r.status = .waiting then w.enqueue { r with status := .queued } else w
    | none => w
  | .start p i => w.start p i
  | .refuse i now =>
    match w.jobs.rows.get? i with
    | some r =>
      if r.status.active then w.store { r with status := .failed, finishedAt := now } else w
    | none => w
  | .progress p i =>
    if w.running p i = some .running then
      { w with flying := (p, ⟨i, .running, 0⟩) :: w.flying }
    else w
  | .write p i =>
    if w.running p i = some .running ∧ changesContent changes i.kind = true then
      changed w i.sourceId (if isFull i.kind then .begun else .job i.kind)
    else w
  | .finish p i now =>
    if w.running p i = some .running then
      let w' := w.hold p ⟨i, .done, now⟩
      let w' := if isFull i.kind then changed w' i.sourceId .fullIndex else w'
      if isFull i.kind || decide (i.kind = .graph) then
        { w' with flying := (p, ⟨i, .done, now⟩) :: w'.flying }
      else w'
    else w
  | .land p j =>
    if (p, j) ∈ w.flying then { w.store j with flying := w.flying.erase (p, j) } else w
  | .record p i saved =>
    if w.running p i = some .done ∧ (isFull i.kind || decide (i.kind = .graph)) = true then
      recorded w i.sourceId (w.registered i.sourceId || saved)
    else w
  | .close p i =>
    if w.running p i = some .done then
      match (w.memory p).get? i with
      | some j => { w.store j with runs := w.runs.erase (p, i) }
      | none => w
    else w
  | .fail p i now =>
    if (p, i) ∈ w.runs then
      let w' := if isFull i.kind = true ∧ w.running p i = some .done then
        changed w i.sourceId .begun else w
      let w' := (w'.hold p ⟨i, .failed, now⟩).store ⟨i, .failed, now⟩
      { w' with runs := w'.runs.erase (p, i) }
    else w
  | .retry i =>
    match w.jobs.rows.get? i with
    | some r =>
      if r.status.terminal then w.enqueue { r with status := .queued, finishedAt := 0 } else w
    | none => w
  | .removeSource sid graphDeleted recordDeleted =>
    recorded (changed w sid .deleted) sid
      (w.registered sid && !(graphDeleted && recordDeleted))
  | .dropStores => { w with last := fun _ => some .dropped }
  | .restart p now => w.restart p now

def run (es : List Event) : World := es.foldl (step changes) empty

end Step

/-- The source is registered, and a full index that completed was the last to change it. -/
def Intact (w : World) (sourceId : String) : Prop :=
  w.registered sourceId = true ∧ w.last sourceId = some .fullIndex

/-- Whatever process a request goes to, whether it looks now or has looked before: if it is answered
with a job that is done, the source is intact. -/
def SkipsSoundly (w : World) : Prop :=
  ∀ p sid j, (p, sid) ∈ (w.look p sid).looked → findDoneJobForSource (w.memory p) sid = some j →
    Intact w sid

/-! ### Which Steps Keep Requests from Being Skipped Wrongly -/

section Careful
variable (w : World)

/-- The process holds a job of the source that is done. -/
def Held (p : ℕ) (sourceId : String) : Prop :=
  ∃ j ∈ w.memory p, j.id.sourceId = sourceId ∧ j.status = .done

/-- A request to the process is answered from memory. -/
def Asked (p : ℕ) (sourceId : String) : Prop :=
  w.jobs.Blocked sourceId → (p, sourceId) ∈ w.looked

/-- So it is when the job `i` is active no more. -/
def AskedWithout (i : JobId) (p : ℕ) : Prop :=
  (∃ r ∈ w.jobs.rows, r.id ≠ i ∧ r.Blocks i.sourceId) → (p, i.sourceId) ∈ w.looked

/-- The content of the source changes while no process would answer with a job that is done. -/
def Unseen (sourceId : String) : Prop :=
  sourceId ≠ "" → ∀ p, Asked w p sourceId → ¬Held w p sourceId

/-- A job may end its being active: a source with a job that is done is intact. -/
def Leaves (i : JobId) : Prop :=
  i.sourceId ≠ "" → ∀ p, AskedWithout w i p → Held w p i.sourceId → Intact w i.sourceId

/-- The steps that let no request be answered with a job that is done for nothing. -/
def Careful (changes : JobKind → Bool) : Event → Prop
  | .write p i =>
    w.running p i = some .running → changesContent changes i.kind = true → Unseen w i.sourceId
  | .finish p i _ =>
    w.running p i = some .running → i.sourceId ≠ "" → Asked w p i.sourceId →
      w.registered i.sourceId = true ∧
        (isFull i.kind = true ∨ w.last i.sourceId = some .fullIndex)
  | .land p j => (p, j) ∈ w.flying → j.status.active = false → Leaves w j.id
  | .close p i => w.running p i = some .done → Leaves w i
  | .refuse i _ => (∃ r ∈ w.jobs.rows, r.id = i ∧ r.status.active = true) → Leaves w i
  | .fail p i _ =>
    (p, i) ∈ w.runs → i.sourceId ≠ "" → ∀ q, AskedWithout w i q →
      (∃ j ∈ w.memory q, j.id.sourceId = i.sourceId ∧ j.status = .done ∧ ¬(q = p ∧ j.id = i)) →
      Intact w i.sourceId ∧ ¬(isFull i.kind = true ∧ w.running p i = some .done)
  | .removeSource sid _ _ => Unseen w sid
  | .dropStores => ∀ sid, Unseen w sid
  | .restart _ _ =>
    ∀ sid, sid ≠ "" → (∃ r ∈ w.jobs.rows, r.id.sourceId = sid ∧ r.status = .done) → Intact w sid
  | _ => True

end Careful

section Answers
variable {w w' : World} {p : ℕ} {sid : String} {i : JobId} {j : Job}

lemma findDone_isSome {m : Keyed Job.id} :
    (∃ j, findDoneJobForSource m sid = some j) ↔
      sid ≠ "" ∧ ∃ j ∈ m, j.id.sourceId = sid ∧ j.status = .done := by
  unfold findDoneJobForSource
  by_cases hs : sid = ""
  · simp [hs]
  · rw [if_neg hs, ← Option.isSome_iff_exists, ← Option.ne_none_iff_isSome, ne_eq,
      List.argmax_eq_none, List.filter_eq_nil_iff]
    simp [hs]

lemma any_findActive (hs : sid ≠ "") :
    ((w.jobs.findActiveForSource sid).any fun r => decide (r.id.kind ≠ .resummarize)) = true ↔
      w.jobs.Blocked sid := by
  unfold JobTable.findActiveForSource
  rw [if_neg hs]
  constructor
  · intro h
    obtain ⟨r, hr, hk⟩ := (Option.any_eq_true _ _).mp h
    have hp := List.find?_some hr
    simp only [decide_eq_true_eq] at hp hk
    exact ⟨r, List.mem_of_find?_eq_some hr, hp.1, hp.2, hk⟩
  · rintro ⟨r, hr, hrs, hra, hrk⟩
    cases hf : w.jobs.rows.rows.find? fun r =>
        decide (r.id.sourceId = sid ∧ r.status.active = true) with
    | none => simpa [hrs, hra] using List.find?_eq_none.mp hf r hr
    | some a =>
      have hp := List.find?_some hf
      simp only [decide_eq_true_eq] at hp
      obtain rfl : a = r := w.jobs.single a (List.mem_of_find?_eq_some hf) r hr hp.2 hra
        (hp.1.trans hrs.symm) (hp.1 ▸ hs)
      simpa using hrk

lemma mem_look (hs : sid ≠ "") : (p, sid) ∈ (w.look p sid).looked ↔ Asked w p sid := by
  unfold World.look Asked
  by_cases hb : w.jobs.Blocked sid
  · rw [if_pos ((any_findActive hs).mpr hb)]
    exact ⟨fun h _ => h, fun h => h hb⟩
  · rw [if_neg (mt (any_findActive hs).mp hb)]
    exact ⟨fun _ h => absurd h hb, fun _ => List.mem_cons_self⟩

lemma skipsSoundly_iff :
    SkipsSoundly w ↔ ∀ p sid, sid ≠ "" → Asked w p sid → Held w p sid → Intact w sid := by
  constructor
  · intro h p sid hs ha hh
    obtain ⟨j, hj⟩ := findDone_isSome.mpr ⟨hs, hh⟩
    exact h p sid j ((mem_look hs).mpr ha) hj
  · intro h p sid j hl hj
    obtain ⟨hs, hh⟩ := findDone_isSome.mp ⟨j, hj⟩
    exact h p sid hs ((mem_look hs).mp hl) hh

/-- A step after which fewer requests are answered with a job that is done is no harm. -/
lemma SkipsSoundly.mono (h : SkipsSoundly w) (hm : ∀ p sid, Held w' p sid → Held w p sid)
    (ha : ∀ p sid, sid ≠ "" → Asked w' p sid → Asked w p sid)
    (hi : ∀ sid, Intact w sid → Intact w' sid) : SkipsSoundly w' :=
  skipsSoundly_iff.mpr fun p sid hs ha' hh' =>
    hi sid (skipsSoundly_iff.mp h p sid hs (ha p sid hs ha') (hm p sid hh'))

/-- A step that is no harm to the other sources is judged by what it does to its own. -/
lemma SkipsSoundly.iff_of_source (w' : World) (h : SkipsSoundly w)
    (hm : ∀ p s, s ≠ sid → Held w' p s → Held w p s)
    (ha : ∀ p s, s ≠ sid → Asked w' p s → Asked w p s)
    (hi : ∀ s, s ≠ sid → Intact w s → Intact w' s) :
    SkipsSoundly w' ↔
      (sid ≠ "" → ∀ p, Asked w' p sid → Held w' p sid → Intact w' sid) := by
  rw [skipsSoundly_iff]
  refine ⟨fun hw' hs p => hw' p sid hs, fun hown p s hs hask hheld => ?_⟩
  by_cases hsid : s = sid
  · subst hsid
    exact hown hs p hask hheld
  · exact hi s hsid (skipsSoundly_iff.mp h p s hs (ha p s hsid hask) (hm p s hsid hheld))

/-- The queue, the runs and what is in flight do not matter to a request. -/
lemma skipsSoundly_with {q : List JobId} {r : List (ℕ × JobId)} {f : List (ℕ × Job)} :
    SkipsSoundly { w with queue := q, runs := r, flying := f } ↔ SkipsSoundly w := by
  simp only [skipsSoundly_iff]
  exact Iff.rfl

end Answers

section Effects
variable {w : World} {p q : ℕ} {sid : String} {i : JobId} {j : Job}

lemma store_eq : w.store j = { w with jobs := (w.jobs.upsert j).getD w.jobs } := by
  unfold World.store World.persist
  cases w.jobs.upsert j <;> rfl

lemma enqueue_eq :
    ∃ q, w.enqueue j = { w with jobs := (w.jobs.upsert j).getD w.jobs, queue := q } := by
  unfold World.enqueue World.persist
  cases w.jobs.upsert j with
  | none => exact ⟨_, rfl⟩
  | some t => exact ⟨_, rfl⟩

lemma mem_hold {e : Job} :
    e ∈ (w.hold p j).memory q ↔
      q = p ∧ e = j ∨ e ∈ w.memory q ∧ ¬(q = p ∧ e.id = j.id) := by
  unfold World.hold
  by_cases hq : q = p
  · subst hq
    simp [Function.update_self, Keyed.mem_put]
  · simp [hq]

/-- A process that comes to hold a job which is not done holds none more that is. -/
lemma held_of_hold (hj : j.status ≠ .done) (h : Held (w.hold p j) q sid) : Held w q sid := by
  obtain ⟨e, he, hs, hd⟩ := h
  rcases mem_hold.mp he with ⟨-, rfl⟩ | ⟨he, -⟩
  · exact absurd hd hj
  · exact ⟨e, he, hs, hd⟩

lemma SkipsSoundly.hold (h : SkipsSoundly w) (hj : j.status ≠ .done) : SkipsSoundly (w.hold p j) :=
  h.mono (fun _ _ => held_of_hold hj) (fun _ _ _ ha => ha) fun _ hi => hi

lemma SkipsSoundly.enqueue (h : SkipsSoundly w) (hj : j.status.active = true) :
    SkipsSoundly (w.enqueue j) := by
  obtain ⟨q, hq⟩ := enqueue_eq (w := w) (j := j)
  rw [hq]
  exact h.mono (fun _ _ hh => hh) (fun _ _ _ ha hb => ha (JobTable.blocked_of_active hj hb))
    fun _ hi => hi

lemma SkipsSoundly.store_active (h : SkipsSoundly w) (hj : j.status.active = true) :
    SkipsSoundly (w.store j) := by
  rw [store_eq]
  exact h.mono (fun _ _ hh => hh) (fun _ _ _ ha hb => ha (JobTable.blocked_of_active hj hb))
    fun _ hi => hi

/-- Where a job is stored that is not active, its own source is asked for without it. -/
lemma asked_store (hj : j.status.active = false) :
    Asked (w.store j) p j.id.sourceId ↔ AskedWithout w j.id p := by
  simp only [store_eq, Asked, AskedWithout, JobTable.blocked_of_inactive hj]

lemma asked_of_store (hj : j.status.active = false) {s : String} (hs : s ≠ j.id.sourceId)
    (h : Asked (w.store j) p s) : Asked w p s := by
  rintro ⟨r, hr, hb⟩
  rw [store_eq] at h
  refine h ((JobTable.blocked_of_inactive hj).mpr ⟨r, hr, fun hid => hs ?_, hb⟩)
  rw [← hid, hb.1]

lemma held_store {s : String} : Held (w.store j) p s ↔ Held w p s := by rw [store_eq]; rfl

lemma intact_store {s : String} : Intact (w.store j) s ↔ Intact w s := by rw [store_eq]; rfl

/-- **A job that is active no more** is no harm exactly if its source is intact wherever a process
holds one that is done. -/
lemma SkipsSoundly.store_iff (h : SkipsSoundly w) (hj : j.status.active = false) :
    SkipsSoundly (w.store j) ↔ Leaves w j.id := by
  rw [h.iff_of_source (w.store j) (fun _ _ _ hh => held_store.mp hh)
    (fun _ _ hs => asked_of_store hj hs) (fun _ _ hi => intact_store.mpr hi)]
  simp only [Leaves, asked_store hj, held_store, intact_store]

lemma SkipsSoundly.store_harmless (h : SkipsSoundly w)
    (hn : ∀ r ∈ w.jobs.rows, r.id = j.id → ∀ s, ¬r.Blocks s) : SkipsSoundly (w.store j) := by
  rw [store_eq]
  refine h.mono (fun _ _ hh => hh) (fun p s _ ha hb => ha ?_) fun _ hi => hi
  obtain ⟨r, hr, hbr⟩ := hb
  cases hu : w.jobs.upsert j with
  | none => exact ⟨r, hr, hbr⟩
  | some t =>
    exact (JobTable.blocked_upsert hu).mpr (.inr ⟨r, hr, fun hid => hn r hr hid s hbr, hbr⟩)

lemma SkipsSoundly.submit (h : SkipsSoundly w) : SkipsSoundly (w.submit p i) :=
  (h.hold (fun hd => by cases hd)).enqueue rfl

lemma SkipsSoundly.cancel {r : Job} {now : ℕ} (h : SkipsSoundly w)
    (hr : r.id.kind = .resummarize) : SkipsSoundly (w.cancelIfQueued r now) := by
  unfold World.cancelIfQueued
  have hq : SkipsSoundly { w with queue := w.queue.erase r.id } :=
    skipsSoundly_with.mpr h
  dsimp only
  split
  · exact hq.store_harmless fun x _ hid s hb => hb.2.2 (by rw [hid, ← hr])
  · exact hq

lemma SkipsSoundly.preempt {now : ℕ} (h : SkipsSoundly w) (hf : w.jobs.rows.get? i = none) :
    SkipsSoundly (w.preemptActiveRefresh p i now) := by
  unfold World.preemptActiveRefresh
  split
  · exact h.submit
  · rename_i r hr
    split
    · exact h.submit
    · rename_i hk
      split
      · exact (h.cancel (not_not.mp hk)).submit
      · exact (h.hold fun hd => by cases hd).store_harmless
          fun x hx hid => absurd hid (Keyed.get?_eq_none.mp hf x hx)

lemma SkipsSoundly.start (h : SkipsSoundly w) : SkipsSoundly (w.start p i) := by
  unfold World.start
  split
  · have hq : SkipsSoundly { w with queue := w.queue.erase i } :=
      skipsSoundly_with.mpr h
    dsimp only
    split
    · exact hq
    · rename_i r hr
      split
      · exact hq
      · split
        · rename_i w'' hp
          have hs : SkipsSoundly w'' := by
            have := hq.store_active (j := { r with status := .running }) rfl
            rwa [World.store, hp] at this
          have hhold : SkipsSoundly (w''.hold p { r with status := .running }) :=
            hs.hold fun hd => by cases hd
          exact skipsSoundly_with.mpr hhold
        · exact hq
  · exact h

/-- The source is not intact after the step, the others are if they were. -/
lemma SkipsSoundly.spoiled_iff (w' : World) (h : SkipsSoundly w) (hm : w'.memory = w.memory)
    (hj : w'.jobs = w.jobs) (hl : w'.looked = w.looked) (hn : ¬Intact w' sid)
    (hi : ∀ s, s ≠ sid → Intact w s → Intact w' s) : SkipsSoundly w' ↔ Unseen w sid := by
  have hheld : ∀ p s, Held w' p s ↔ Held w p s := fun p s => by simp only [Held, hm]
  have hask : ∀ p s, Asked w' p s ↔ Asked w p s := fun p s => by simp only [Asked, hj, hl]
  rw [h.iff_of_source w' (fun p s _ => (hheld p s).mp) (fun p s _ => (hask p s).mp) hi]
  simp only [Unseen, hheld, hask]
  exact ⟨fun hw hs p ha hh => hn (hw hs p ha hh), fun hw hs p ha hh => absurd hh (hw hs p ha)⟩

lemma last_changed {c : Change} (hc : c ≠ .fullIndex) :
    (changed w sid c).last sid ≠ some .fullIndex := by
  change Function.update w.last sid (some c) sid ≠ _
  rwa [Function.update_self, ne_eq, Option.some.injEq]

lemma intact_changed {c : Change} {s : String} (hs : s ≠ sid) (hi : Intact w s) :
    Intact (changed w sid c) s :=
  ⟨hi.1, (Function.update_of_ne hs _ _).trans hi.2⟩

lemma SkipsSoundly.changed_iff {c : Change} (h : SkipsSoundly w) (hc : c ≠ .fullIndex) :
    SkipsSoundly (changed w sid c) ↔ Unseen w sid :=
  h.spoiled_iff _ rfl rfl rfl (fun hi => last_changed hc hi.2) fun _ hs => intact_changed hs

lemma SkipsSoundly.removed_iff {b : Bool} (h : SkipsSoundly w) :
    SkipsSoundly (Treeweft.DoneDedup.recorded (changed w sid .deleted) sid b) ↔ Unseen w sid := by
  refine h.spoiled_iff _ rfl rfl rfl (fun hi => ?_) fun s hs hi => ⟨?_, ?_⟩
  · exact last_changed (c := .deleted) (by decide) hi.2
  · exact (Function.update_of_ne hs _ _).trans hi.1
  · exact (intact_changed hs hi).2

/-- All sources at once. -/
lemma SkipsSoundly.dropped_iff :
    SkipsSoundly { w with last := fun _ => some .dropped } ↔ ∀ sid, Unseen w sid := by
  rw [skipsSoundly_iff]
  have hn : ∀ s, ¬Intact { w with last := fun _ => some .dropped } s := fun s hi => by
    cases hi.2
  exact ⟨fun h s hs p ha hh => hn s (h p s hs ha hh), fun h p s hs ha hh => absurd hh (h s hs p ha)⟩

lemma SkipsSoundly.recorded (h : SkipsSoundly w) {b : Bool}
    (hb : w.registered sid = true → b = true) : SkipsSoundly (recorded w sid b) := by
  refine h.mono (fun _ _ hh => hh) (fun _ _ _ ha => ha) fun s hi => ⟨?_, hi.2⟩
  change Function.update w.registered sid b s = true
  by_cases hs : s = sid
  · subst hs
    rw [Function.update_self]
    exact hb hi.1
  · rw [Function.update_of_ne hs]
    exact hi.1

/-- **A job that is marked as done** answers for its source from then on. -/
lemma SkipsSoundly.finish_iff {now : ℕ} (h : SkipsSoundly w) :
    SkipsSoundly
        (if isFull i.kind then changed (w.hold p ⟨i, .done, now⟩) i.sourceId .fullIndex
          else w.hold p ⟨i, .done, now⟩) ↔
      (i.sourceId ≠ "" → Asked w p i.sourceId → w.registered i.sourceId = true ∧
        (isFull i.kind = true ∨ w.last i.sourceId = some .fullIndex)) := by
  set w' := if isFull i.kind then changed (w.hold p ⟨i, .done, now⟩) i.sourceId .fullIndex
    else w.hold p ⟨i, .done, now⟩ with hw'
  have hm : w'.memory = (w.hold p ⟨i, .done, now⟩).memory := by rw [hw']; split <;> rfl
  have hj : w'.jobs = w.jobs := by rw [hw']; split <;> rfl
  have hl : w'.looked = w.looked := by rw [hw']; split <;> rfl
  have hr : w'.registered = w.registered := by rw [hw']; split <;> rfl
  have ha : ∀ q s, Asked w' q s ↔ Asked w q s := fun q s => by simp only [Asked, hj, hl]
  have hlast : ∀ s, w'.last s =
      if s = i.sourceId ∧ isFull i.kind = true then some .fullIndex else w.last s := by
    intro s
    rw [hw']
    split
    · rename_i hf
      change Function.update w.last i.sourceId (some .fullIndex) s = _
      by_cases hs : s = i.sourceId <;> simp [hs, hf]
    · rename_i hf
      simp [hf, World.hold]
  have hi : ∀ s, Intact w' s ↔ w.registered s = true ∧
      (s = i.sourceId ∧ isFull i.kind = true ∨ w.last s = some .fullIndex) := by
    intro s
    rw [Intact, hr, hlast]
    split <;> simp_all
  have hheld : ∀ q s, Held w' q s ↔ q = p ∧ s = i.sourceId ∨ Held w q s := by
    intro q s
    simp only [Held, hm, mem_hold]
    constructor
    · rintro ⟨e, ⟨hq, rfl⟩ | ⟨he, -⟩, hs, hd⟩
      · exact .inl ⟨hq, hs.symm⟩
      · exact .inr ⟨e, he, hs, hd⟩
    · rintro (⟨rfl, rfl⟩ | ⟨e, he, hs, hd⟩)
      · exact ⟨⟨i, .done, now⟩, .inl ⟨rfl, rfl⟩, rfl, rfl⟩
      · by_cases hep : q = p ∧ e.id = i
        · exact ⟨⟨i, .done, now⟩, .inl ⟨hep.1, rfl⟩, hep.2 ▸ hs, rfl⟩
        · exact ⟨e, .inr ⟨he, hep⟩, hs, hd⟩
  rw [skipsSoundly_iff]
  simp only [ha, hi, hheld]
  constructor
  · intro hsound hs hask
    obtain ⟨hreg, hfull⟩ := hsound p i.sourceId hs hask (.inl ⟨rfl, rfl⟩)
    exact ⟨hreg, hfull.imp_left And.right⟩
  · rintro hown q s hs hask (⟨rfl, rfl⟩ | hh)
    · obtain ⟨hreg, hfull⟩ := hown hs hask
      exact ⟨hreg, hfull.imp_left fun hf => ⟨rfl, hf⟩⟩
    · obtain ⟨hreg, hlast⟩ := skipsSoundly_iff.mp h q s hs hask hh
      exact ⟨hreg, .inr hlast⟩

/-- The status and the row of a job that fails; a full index that had been marked as done did not
complete after all. -/
lemma SkipsSoundly.fail_iff {now : ℕ} (h : SkipsSoundly w) {undone : Prop} [Decidable undone] :
    SkipsSoundly (((if undone then changed w i.sourceId .begun else w).hold p
        ⟨i, .failed, now⟩).store ⟨i, .failed, now⟩) ↔
      (i.sourceId ≠ "" → ∀ q, AskedWithout w i q →
        (∃ j ∈ w.memory q, j.id.sourceId = i.sourceId ∧ j.status = .done ∧ ¬(q = p ∧ j.id = i)) →
        Intact w i.sourceId ∧ ¬undone) := by
  set w₀ := if undone then changed w i.sourceId .begun else w with hw₀
  have hm : w₀.memory = w.memory := by rw [hw₀]; split <;> rfl
  have hj : w₀.jobs = w.jobs := by rw [hw₀]; split <;> rfl
  have hl : w₀.looked = w.looked := by rw [hw₀]; split <;> rfl
  have hr : w₀.registered = w.registered := by rw [hw₀]; split <;> rfl
  have hlast : ∀ s, w₀.last s =
      if s = i.sourceId ∧ undone then some .begun else w.last s := by
    intro s
    rw [hw₀]
    split
    · rename_i hu
      change Function.update w.last i.sourceId (some .begun) s = _
      by_cases hs : s = i.sourceId <;> simp [hs, hu]
    · rename_i hu
      simp [hu]
  have hi : ∀ s, Intact w₀ s ↔ Intact w s ∧ ¬(s = i.sourceId ∧ undone) := by
    intro s
    rw [Intact, Intact, hr, hlast]
    split <;> simp_all
  have hheld : ∀ q s, Held (w₀.hold p ⟨i, .failed, now⟩) q s ↔
      ∃ j ∈ w.memory q, j.id.sourceId = s ∧ j.status = .done ∧ ¬(q = p ∧ j.id = i) := by
    intro q s
    simp only [Held, mem_hold, hm]
    constructor
    · rintro ⟨e, ⟨-, rfl⟩ | ⟨he, hne⟩, hs, hd⟩
      · cases hd
      · exact ⟨e, he, hs, hd, hne⟩
    · rintro ⟨e, he, hs, hd, hne⟩
      exact ⟨e, .inr ⟨he, hne⟩, hs, hd⟩
  have hwithout : ∀ q, AskedWithout (w₀.hold p ⟨i, .failed, now⟩) i q ↔ AskedWithout w i q := by
    intro q
    change (_ → (q, i.sourceId) ∈ w₀.looked) ↔ _
    rw [hl]
    change ((∃ r ∈ w₀.jobs.rows, _) → _) ↔ _
    rw [hj]
    exact Iff.rfl
  refine (h.iff_of_source ((w₀.hold p ⟨i, .failed, now⟩).store ⟨i, .failed, now⟩)
    (fun q s _ hh => ?_) (fun q s hs ha => ?_)
    (fun s hs hint => intact_store.mpr ((hi s).mpr ⟨hint, fun hu => hs hu.1⟩))).trans ?_
  · obtain ⟨e, he, hes, hd, -⟩ := (hheld q s).mp (held_store.mp hh)
    exact ⟨e, he, hes, hd⟩
  · have hask : Asked (w₀.hold p ⟨i, .failed, now⟩) q s := asked_of_store rfl hs ha
    change (w₀.jobs.Blocked s → (q, s) ∈ w₀.looked) at hask
    rwa [hj, hl] at hask
  · simp only [asked_store (j := ⟨i, .failed, now⟩) rfl, hwithout, held_store, hheld,
      intact_store]
    have hint : Intact (w₀.hold p ⟨i, .failed, now⟩) i.sourceId ↔
        Intact w i.sourceId ∧ ¬undone := by
      change Intact w₀ i.sourceId ↔ _
      rw [hi, and_congr_right_iff]
      simp
    rw [hint]

/-- **A process that starts** holds every job that is done, and closes the index jobs of the
sources that have one. -/
lemma SkipsSoundly.restart_iff {now : ℕ} (h : SkipsSoundly w) :
    SkipsSoundly (w.restart p now) ↔
      ∀ sid, sid ≠ "" → (∃ r ∈ w.jobs.rows, r.id.sourceId = sid ∧ r.status = .done) →
        Intact w sid := by
  set superseded : Job → Bool := fun r => r.status.active && decide (r.id.kind ≠ .resummarize) &&
    decide (r.id.sourceId ≠ "") &&
    w.jobs.rows.rows.any fun d => decide (d.status = .done ∧ d.id.sourceId = r.id.sourceId)
    with hsup
  have hsup_iff : ∀ r, superseded r = true ↔ r.Blocks r.id.sourceId ∧ r.id.sourceId ≠ "" ∧
      ∃ d ∈ w.jobs.rows, d.id.sourceId = r.id.sourceId ∧ d.status = .done := by
    intro r
    simp only [hsup, Bool.and_eq_true, decide_eq_true_eq, List.any_eq_true, Job.Blocks, true_and]
    constructor
    · rintro ⟨⟨⟨ha, hk⟩, hs⟩, d, hd, hdd, hds⟩
      exact ⟨⟨ha, hk⟩, hs, d, hd, hds, hdd⟩
    · rintro ⟨⟨ha, hk⟩, hs, d, hd, hds, hdd⟩
      exact ⟨⟨⟨ha, hk⟩, hs⟩, d, hd, hdd, hds⟩
  have hblocked : ∀ s, s ≠ "" → ((w.restart p now).jobs.Blocked s ↔ w.jobs.Blocked s ∧
      ¬∃ d ∈ w.jobs.rows, d.id.sourceId = s ∧ d.status = .done) := by
    intro s hs
    constructor
    · rintro ⟨a, ha, hb⟩
      obtain ⟨r, hr, hra⟩ := JobTable.mem_close.mp ha
      split at hra
      · rw [hra] at hb
        exact absurd hb.2.1 (by simp [JobStatus.active])
      · rename_i hnot
        subst hra
        refine ⟨⟨a, hr, hb⟩, fun hd => hnot ((hsup_iff a).mpr ?_)⟩
        rw [hb.1]
        exact ⟨hb, hs, hd⟩
    · rintro ⟨⟨r, hr, hb⟩, hnd⟩
      refine ⟨r, JobTable.mem_close.mpr ⟨r, hr, (if_neg fun hsr => hnd ?_).symm⟩, hb⟩
      rw [← hb.1]
      exact ((hsup_iff r).mp hsr).2.2
  have hheld : ∀ s, s ≠ "" → (Held (w.restart p now) p s ↔
      ∃ d ∈ w.jobs.rows, d.id.sourceId = s ∧ d.status = .done) := by
    intro s hs
    have hmem : (w.restart p now).memory p = (w.jobs.close superseded now).rows.filter fun r =>
        decide (r.status = .done) || r.status.active := Function.update_self _ _ _
    rw [Held, hmem]
    constructor
    · rintro ⟨a, ha, has, hd⟩
      obtain ⟨r, hr, hra⟩ := JobTable.mem_close.mp (Keyed.mem_filter.mp ha).1
      split at hra
      · rename_i hsr
        obtain ⟨-, -, hdone⟩ := (hsup_iff r).mp hsr
        rwa [show r.id.sourceId = s by rw [← has, hra]] at hdone
      · exact ⟨r, hr, hra ▸ has, hra ▸ hd⟩
    · rintro ⟨r, hr, hrs, hd⟩
      have hnot : ¬superseded r = true := fun hsr => by
        have := ((hsup_iff r).mp hsr).1.2.1
        rw [hd] at this
        cases this
      exact ⟨r, Keyed.mem_filter.mpr ⟨JobTable.mem_close.mpr ⟨r, hr, (if_neg hnot).symm⟩,
        by simp [hd]⟩, hrs, hd⟩
  have hother : ∀ q s, q ≠ p → (Held (w.restart p now) q s ↔ Held w q s) := by
    intro q s hq
    have hmem : (w.restart p now).memory q = w.memory q := Function.update_of_ne hq _ _
    rw [Held, Held, hmem]
  rw [skipsSoundly_iff]
  constructor
  · intro hsound s hs hd
    exact hsound p s hs (fun hb => absurd hd ((hblocked s hs).mp hb).2) ((hheld s hs).mpr hd)
  · intro hint q s hs hask hh
    by_cases hd : ∃ d ∈ w.jobs.rows, d.id.sourceId = s ∧ d.status = .done
    · exact hint s hs hd
    · by_cases hq : q = p
      · subst hq
        exact absurd ((hheld s hs).mp hh) hd
      · refine skipsSoundly_iff.mp h q s hs (fun hb => ?_) ((hother q s hq).mp hh)
        exact (List.mem_filter.mp (hask ((hblocked s hs).mpr ⟨hb, hd⟩))).1

end Effects

section Runs
variable {changes : JobKind → Bool} {w : World} {p : ℕ} {sid : String} {i : JobId}

lemma SkipsSoundly.look (h : SkipsSoundly w) : SkipsSoundly (w.look p sid) := by
  unfold World.look
  split
  · exact h
  · rename_i hb
    refine h.mono (fun _ _ hh => hh) (fun q s hs ha hbs => ?_) fun _ hi => hi
    rcases List.mem_cons.mp (ha hbs) with hps | hl
    · obtain ⟨rfl, rfl⟩ := Prod.mk.inj hps
      exact absurd ((any_findActive hs).mpr hbs) hb
    · exact hl

/-- **One step**: it is careful exactly if it lets no request be skipped wrongly. -/
lemma careful_iff (h : SkipsSoundly w) (e : Event) :
    Careful w changes e ↔ SkipsSoundly (step changes w e) := by
  cases e with
  | look p sid => exact iff_of_true trivial h.look
  | answer p sid =>
    exact iff_of_true trivial
      (h.mono (fun _ _ hh => hh) (fun _ _ _ ha hb => List.mem_of_mem_erase (ha hb)) fun _ hi => hi)
  | submit p i =>
    refine iff_of_true trivial ?_
    dsimp only [step]
    split
    · exact h.submit
    · exact h
  | preempt p i now =>
    refine iff_of_true trivial ?_
    dsimp only [step]
    split
    · rename_i hf
      exact h.preempt hf
    · exact h
  | promote i =>
    refine iff_of_true trivial ?_
    dsimp only [step]
    split
    · split
      · exact h.enqueue rfl
      · exact h
    · exact h
  | start p i => exact iff_of_true trivial h.start
  | refuse i now =>
    dsimp only [step, Careful]
    split
    · rename_i r hr
      obtain ⟨hmem, hid⟩ := Keyed.get?_eq_some.mp hr
      split
      · rename_i ha
        rw [h.store_iff rfl, hid]
        exact ⟨fun hc => hc ⟨r, hmem, hid, ha⟩, fun hl _ => hl⟩
      · rename_i ha
        refine iff_of_true ?_ h
        rintro ⟨x, hx, hxi, hxa⟩
        refine absurd hxa ?_
        rwa [Keyed.eq_of_key hx hmem (hxi.trans hid.symm)]
    · rename_i hr
      refine iff_of_true ?_ h
      rintro ⟨x, hx, hxi, -⟩
      exact absurd hxi (Keyed.get?_eq_none.mp hr x hx)
  | progress p i =>
    refine iff_of_true trivial ?_
    dsimp only [step]
    split
    · exact skipsSoundly_with.mpr h
    · exact h
  | write p i =>
    dsimp only [step, Careful]
    split
    · rename_i hw
      rw [h.changed_iff (by split <;> simp)]
      exact ⟨fun hc => hc hw.1 hw.2, fun hu _ _ => hu⟩
    · rename_i hw
      exact iff_of_true (fun hr hc => absurd ⟨hr, hc⟩ hw) h
  | finish p i now =>
    dsimp only [step, Careful]
    split
    · rename_i hr
      have hflying : SkipsSoundly (if isFull i.kind || decide (i.kind = .graph) then
            { (if isFull i.kind then changed (w.hold p ⟨i, .done, now⟩) i.sourceId .fullIndex
              else w.hold p ⟨i, .done, now⟩) with
              flying := (p, ⟨i, .done, now⟩) :: (if isFull i.kind then
                changed (w.hold p ⟨i, .done, now⟩) i.sourceId .fullIndex
                else w.hold p ⟨i, .done, now⟩).flying }
          else if isFull i.kind then changed (w.hold p ⟨i, .done, now⟩) i.sourceId .fullIndex
            else w.hold p ⟨i, .done, now⟩) ↔
          SkipsSoundly (if isFull i.kind then
            changed (w.hold p ⟨i, .done, now⟩) i.sourceId .fullIndex
            else w.hold p ⟨i, .done, now⟩) := by
        split
        · exact skipsSoundly_with
        · exact Iff.rfl
      rw [hflying, h.finish_iff]
      exact ⟨fun hc => hc hr, fun hc _ => hc⟩
    · rename_i hr
      exact iff_of_true (fun hr' => absurd hr' hr) h
  | land p j =>
    dsimp only [step, Careful]
    split
    · rename_i hf
      cases ha : j.status.active with
      | true =>
        exact iff_of_true (fun _ hc => by cases hc) (skipsSoundly_with.mpr (h.store_active ha))
      | false =>
        have hstore : SkipsSoundly { w.store j with flying := w.flying.erase (p, j) } ↔
            SkipsSoundly (w.store j) := skipsSoundly_with
        rw [hstore, h.store_iff ha]
        exact ⟨fun hc => hc hf rfl, fun hl _ _ => hl⟩
    · rename_i hf
      exact iff_of_true (fun hf' => absurd hf' hf) h
  | record p i saved =>
    refine iff_of_true trivial ?_
    dsimp only [step]
    split
    · exact h.recorded fun hr => by simp [hr]
    · exact h
  | close p i =>
    dsimp only [step, Careful]
    split
    · rename_i hd
      obtain ⟨j, hj, hjd⟩ : ∃ j, (w.memory p).get? i = some j ∧ j.status = .done := by
        unfold World.running at hd
        split at hd
        · simpa using hd
        · cases hd
      obtain rfl := Keyed.key_of_get? hj
      have hstore : SkipsSoundly { w.store j with runs := w.runs.erase (p, j.id) } ↔
          SkipsSoundly (w.store j) := skipsSoundly_with
      simp only [hj]
      rw [hstore, h.store_iff (by rw [hjd]; rfl)]
      exact ⟨fun hc => hc hd, fun hl _ => hl⟩
    · rename_i hd
      exact iff_of_true (fun hd' => absurd hd' hd) h
  | fail p i now =>
    dsimp only [step, Careful]
    split
    · rename_i hr
      refine Iff.trans ?_ skipsSoundly_with.symm
      rw [h.fail_iff]
      exact ⟨fun hc => hc hr, fun hc _ => hc⟩
    · rename_i hr
      exact iff_of_true (fun hr' => absurd hr' hr) h
  | retry i =>
    refine iff_of_true trivial ?_
    dsimp only [step]
    split
    · split
      · exact h.enqueue rfl
      · exact h
    · exact h
  | removeSource sid graphDeleted recordDeleted =>
    exact h.removed_iff.symm
  | dropStores => exact SkipsSoundly.dropped_iff.symm
  | restart p now => exact h.restart_iff.symm

lemma skipsSoundly_empty : SkipsSoundly empty := by
  intro p sid j _ hj
  obtain ⟨-, a, ha, -⟩ := findDone_isSome.mp ⟨j, hj⟩
  exact absurd ha Keyed.not_mem_empty

/-- **Skipping is sound** in every state of a run if and only if every step of the run is careful:
nothing changes a source, and no job of it ends, so that a request would be answered with a job
that is done though the source is not there or was last changed by something else. -/
theorem skips_soundly_iff (changes : JobKind → Bool) (es : List Event) :
    (∀ pre post, es = pre ++ post → SkipsSoundly (run changes pre)) ↔
      Guarded.Along (step changes) (fun w => Careful w changes) empty es := by
  have hstep : ∀ w e, SkipsSoundly w →
      (Careful w changes e ↔ SkipsSoundly (step changes w e)) := fun _ e h => careful_iff h e
  exact Guarded.good_iff_along hstep skipsSoundly_empty

/-- An index of a source that runs to its end, and the deletion of the source after it. -/
def indexedAndRemoved : List Event :=
  let i : JobId := ⟨0, .repo, "s"⟩
  [.submit 0 i, .start 0 i, .write 0 i, .finish 0 i 1, .record 0 i true, .close 0 i,
    .removeSource "s" true true]

/-- A source that was indexed and deleted is not indexed again: the job is still done. -/
theorem removed_skips : ¬∀ changes es, SkipsSoundly (run changes es) := by
  intro h
  have hintact := h (fun _ => true) indexedAndRemoved 0 "s" ⟨⟨0, .repo, "s"⟩, .done, 1⟩
    (by decide) (by decide)
  exact absurd hintact.1 (by decide)

end Runs

end Treeweft.DoneDedup
