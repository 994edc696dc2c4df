import Treeweft.Service
import Treeweft.UniqueIndex

/-!
The attempts of one incremental job, and its end in the dead letters.

How often a job was tried and what its last error was stand in its row, in the snapshot its worker
read before the run, and in the job as the run changes it. A run that raises has stored the
failure; after that its worker counts the attempt, and queues the job again or gives it up.
-/

namespace Treeweft.Retry

open Treeweft.Jobs Treeweft.JobStore Treeweft.Runners Treeweft.PromptRefresh Treeweft.Queue
open Treeweft.Service Treeweft.IndexGuard Treeweft.UniqueIndex
open Machine (State Label Run Kept initial)

/-- An incremental job of the source whose row says what to run. -/
structure Retriable (sid : String) (j : Job) : Prop where
  kind : j.kind = .incremental
  files : j.payload.changedFiles ≠ []
  url : j.sourceUrl ≠ ""
  source : j.sourceId = sid
  named : sid ≠ ""

/-- How far a task is with the job. -/
inductive Stage
  | apart
  /-- The job's number is that of a job the task is about to write. -/
  | fresh
  | placing
  | claimed
  | read (attempts : ℕ)
  | started (attempts : ℕ)
  /-- The job is run, and the run has stored this status and error as its end. -/
  | working (attempts : ℕ) (ended : Option (JobStatus × String))
  | closing (attempts : ℕ) (ended : Option (JobStatus × String))
  | counted (attempts : ℕ)
  deriving DecidableEq, Repr

namespace Stage

def upserted (l : Stage) (j : Job) (ok : Bool) : Stage :=
  match l with
  | fresh => if ok then if j.status = .queued then placing else apart else fresh
  | read a => started a
  | started _ => apart
  | working a x => working a (if j.status.terminal then some (j.status, j.error) else x)
  | counted _ => if j.status = .queued then placing else apart
  | l => l

def seen (l : Stage) (r : Option Job) : Stage :=
  match l, r with
  | claimed, some j => read j.attempts
  | l, _ => l

def begun : Stage → Stage
  | started a => working a none
  | l => l

def finished : Stage → Stage
  | working a x => closing a x
  | l => l

/-- The task goes on without having counted the attempt. -/
def left : Stage → Stage
  | closing _ _ => apart
  | l => l

/-- What a task may write into the row: a new job, and then what the next step of the job is. -/
def mayUpsert (sid : String) (l : Stage) (j : Job) : Prop :=
  match l with
  | fresh => j.attempts = 0 ∧ j.error = "" ∧ (j.status = .queued ∨ j.status = .waiting)
  | read a => Retriable sid j ∧ j.attempts = a ∧ j.status = .running ∧ j.error = ""
  | started _ => j.status = .failed
  | working a x => Retriable sid j ∧ j.attempts = a ∧
      (j.status = .running ∧ j.error = "" ∧ x = none ∨ j.status.terminal = true)
  | counted n => Retriable sid j ∧ j.attempts = n ∧
      (n < maxJobAttempts ∧ j.status = .queued ∧ j.error = "" ∨
        maxJobAttempts ≤ n ∧ j.status = .deadLetter)
  | _ => False

end Stage

def after (i : ℕ) (l : Stage) : (o : Op) → o.Answer → Stage
  | .newJob, r => if (r : ℕ × ℕ).1 = i then .fresh else l
  | .upsert j, r => if j.id = i then l.upserted j r else l
  | .enqueue k, _ => if k = i then .apart else l
  | .claim, r => if (r : Option ℕ) = some i then .claimed else l
  | .get k, r => if k = i then l.seen r else l
  | .begin j, _ => if j.id = i then l.begun else l
  | .finish j, _ => if j.id = i then l.finished else l
  | .incrementAttempts k, r => if k = i then .counted r else l
  | .lockWaiting _, _ => l.left
  | _, _ => l

def may (i : ℕ) (sid : String) (l : Stage) : Op → Prop
  | .upsert j => j.id = i → l.mayUpsert sid j
  | .enqueue k => k = i → l = .placing
  | .claim => l = .apart
  | .begin j => j.id = i → ∃ a, l = .started a
  | .background j => j.id = i → ∃ a, l = .working a none ∧ Retriable sid j ∧ j.attempts = a ∧
      j.status = .running ∧ j.error = ""
  | .finish j => j.id = i → ∃ a x, l = .working a x
  | .incrementAttempts k => k = i → ∃ a e, l = .closing a (some (.failed, Exc.text e))
  | .cancelIfQueued k => k ≠ i
  | _ => True

/-- The job is waiting for its next attempt. -/
structure Ready (j : Job) (n : ℕ) : Prop where
  status : j.status = .queued
  error : j.error = ""
  attempts : j.attempts = n
  lt : n < maxJobAttempts

def admits (i : ℕ) (sid : String) (l : Stage) : (o : Op) → o.Answer → Prop
  | .upsert j, r => j.id = i → l ≠ .fresh → r = true
  | .get k, r => (∀ j, (r : Option Job) = some j → j.id = k) ∧
      (k = i → l = .claimed → ∃ j n, (r : Option Job) = some j ∧ Retriable sid j ∧ Ready j n)
  | .activeRow _, r => ∀ k, (r : Option Job) = some k → k.id = i → k.kind = .incremental
  | .incrementAttempts k, r => k = i → ∀ a x, l = .closing a x → r = a + 1
  | _, _ => True

abbrev discipline (i : ℕ) (sid : String) : Discipline sig :=
  ⟨Stage, .apart, may i sid, admits i sid, after i⟩

abbrev Sys (i : ℕ) (sid : String) := State machine (discipline i sid)

/-- How often the job was executed. -/
def runs (i : ℕ) (db : Db) : ℕ := (db.begun.filter fun j => j.id = i).length

/-- No process starts or dies, and nobody retries the job by hand. Its first row is that of an
incremental job; where it is queued again no other job holds the source; its progress has landed
before the end of its run is stored; the index guard does not refuse it. And a run that has ended
has raised: its worker counts the attempt. -/
def Raising (i : ℕ) (sid : String) (s : Sys i sid) : Label machine → Prop
  | .start _ e => e ≠ .startup ∧ e ≠ .retry i
  | .run t _ =>
    (∀ j, s.nextOp t = some (.upsert j) → j.id = i →
      (Db.row s.store i = none → Retriable sid j) ∧
      (Db.row s.store i ≠ none → j.status = .queued → Db.conflicts s.store j = false) ∧
      (j.status.terminal = true → ∀ u k, (u, k) ∈ Db.background s.store → k.id ≠ i) ∧
      ∀ a, s.records t ≠ some (.started a)) ∧
    ∀ a x, s.records t = some (.closing a x) → s.nextOp t = some (.incrementAttempts i)
  | .kill _ => False
  | .own _ => True

/-! ### The invariant -/

/-- An attempt was begun, and what it has stored as its end. -/
structure Tried (a : ℕ) (x : Option (JobStatus × String)) (j : Job) (n : ℕ) : Prop where
  attempts : j.attempts = a
  runs : n = a + 1
  le : n ≤ maxJobAttempts
  ended : (j.status, j.error) = x.getD (.running, "")
  terminal : ∀ y, x = some y → y.1.terminal = true

/-- The row that a task at each stage has left. -/
def Fits : Stage → Job → ℕ → Prop
  | .placing, j, n => Ready j n
  | .claimed, j, n => Ready j n
  | .read a, j, n => Ready j n ∧ a = n
  | .started a, j, n => (j.status = .running ∧ j.error = "") ∧ j.attempts = n ∧ n < maxJobAttempts ∧ a = n
  | .working a x, j, n => Tried a x j n
  | .closing a x, j, n => Tried a x j n
  | .counted m, j, n => (j.status = .failed ∧ ∃ e : Exc, j.error = e.text) ∧ j.attempts = n ∧
      n ≤ maxJobAttempts ∧ m = n
  | _, _, _ => False

/-- Where the job is: nowhere yet, behind a refresh, in the queue, with one task, or given up. -/
inductive Place (sid : String) (L : Tid → Option Stage) (row : Option Job) (q : Prop) (n : ℕ) : Prop
  | unborn (hrow : row = none) (hq : ¬q) (hn : n = 0)
      (hnew : ∀ t l, L t = some l → l = .apart ∨ l = .fresh)
      (hone : ∀ t u, L t = some .fresh → L u = some .fresh → t = u)
  | waiting (j : Job) (hrow : row = some j) (hj : Retriable sid j) (hs : j.status = .waiting)
      (he : j.error = "") (ha : j.attempts = 0) (hq : ¬q) (hn : n = 0)
      (hapart : ∀ t l, L t = some l → l = .apart)
  | queued (j : Job) (hrow : row = some j) (hj : Retriable sid j) (hr : Ready j n) (hq : q)
      (hapart : ∀ t l, L t = some l → l = .apart)
  | held (t : Tid) (l : Stage) (j : Job) (hl : L t = some l)
      (hother : ∀ u m, u ≠ t → L u = some m → m = .apart) (hrow : row = some j) (hj : Retriable sid j)
      (hfits : Fits l j n) (hq : ¬q)
  | dead (j : Job) (hrow : row = some j) (hj : Retriable sid j) (hs : j.status = .deadLetter)
      (ha : j.attempts = maxJobAttempts) (hn : n = maxJobAttempts) (hq : ¬q)
      (hapart : ∀ t l, L t = some l → l = .apart)

/-- Progress on its way is that of the attempt in progress. -/
def Snap (sid : String) (L : Tid → Option Stage) (u : Tid) (k : Job) : Prop :=
  Retriable sid k ∧ k.status = .running ∧ k.error = "" ∧
    (L u = some (.working k.attempts none) ∨ L u = some (.closing k.attempts none))

structure Inv (i : ℕ) (sid : String) (db : Db) (L : Tid → Option Stage) : Prop where
  single : Single db
  born : ∀ j, db.row i = some j → i < db.nextJob
  fresh : ∀ t, L t = some .fresh → i < db.nextJob
  snap : ∀ u k, (u, k) ∈ db.background → k.id = i → Snap sid L u k
  place : Place sid L (db.row i) (i ∈ db.queue) (runs i db)

section Inv
variable {i : ℕ} {sid : String} {db db' : Db} {L : Tid → Option Stage} {t : Tid} {l l' : Stage} {n : ℕ}

/-- The rows say the same of the attempts. -/
structure Same (sid : String) (j j' : Job) : Prop where
  status : j'.status = j.status
  error : j'.error = j.error
  attempts : j'.attempts = j.attempts
  retriable : Retriable sid j → Retriable sid j'

lemma Same.refl (j : Job) : Same sid j j := ⟨rfl, rfl, rfl, id⟩

lemma same_behind (j : Job) (k : ℕ) : Same sid j (j.behind k) :=
  ⟨rfl, rfl, rfl, fun h => ⟨h.kind, h.files, h.url, h.source, h.named⟩⟩

lemma same_upserted (sid : String) (db : Db) (j : Job) : Same sid j (db.upserted j) :=
  ⟨rfl, rfl, rfl, fun h => ⟨h.kind, h.files, h.url, h.source, h.named⟩⟩

lemma Ready.same {j j' : Job} (h : Ready j n) (hs : Same sid j j') : Ready j' n :=
  ⟨hs.status.trans h.status, hs.error.trans h.error, hs.attempts.trans h.attempts, h.lt⟩

lemma Tried.same {a : ℕ} {x : Option (JobStatus × String)} {j j' : Job} (h : Tried a x j n)
    (hs : Same sid j j') : Tried a x j' n :=
  ⟨hs.attempts.trans h.attempts, h.runs, h.le, by rw [hs.status, hs.error, h.ended],
    h.terminal⟩

lemma Fits.same {j j' : Job} (h : Fits l j n) (hs : Same sid j j') : Fits l j' n := by
  cases l with
  | placing => exact Ready.same h hs
  | claimed => exact Ready.same h hs
  | read a => exact ⟨h.1.same hs, h.2⟩
  | started a =>
    obtain ⟨⟨h1, h2⟩, h3, h4⟩ := h
    exact ⟨⟨hs.status.trans h1, hs.error.trans h2⟩, hs.attempts.trans h3, h4⟩
  | working a x => exact Tried.same h hs
  | closing a x => exact Tried.same h hs
  | counted m =>
    obtain ⟨⟨h1, e, h2⟩, h3, h4⟩ := h
    exact ⟨⟨hs.status.trans h1, e, hs.error.trans h2⟩, hs.attempts.trans h3, h4⟩
  | apart => exact h
  | fresh => exact h

lemma Place.same {row row' : Option Job} {q q' : Prop} (h : Place sid L row q n) (hq : q' ↔ q)
    (hnone : row = none → row' = none)
    (hsome : ∀ j, row = some j → ∃ j', row' = some j' ∧ Same sid j j') : Place sid L row' q' n := by
  have hnq : ¬q → ¬q' := fun h h' => h (hq.1 h')
  cases h with
  | unborn hrow hq hn hnew hone => exact .unborn (hnone hrow) (hnq hq) hn hnew hone
  | waiting j hrow hj hs he ha hq hn hapart =>
    obtain ⟨j', hj', hsame⟩ := hsome j hrow
    exact .waiting j' hj' (hsame.retriable hj) (hsame.status.trans hs) (hsame.error.trans he)
      (hsame.attempts.trans ha) (hnq hq) hn hapart
  | queued j hrow hj hr hq' hapart =>
    obtain ⟨j', hj', hsame⟩ := hsome j hrow
    exact .queued j' hj' (hsame.retriable hj) (hr.same hsame) (hq.2 hq') hapart
  | held t l j hl hother hrow hj hfits hq =>
    obtain ⟨j', hj', hsame⟩ := hsome j hrow
    exact .held t l j' hl hother hj' (hsame.retriable hj) (hfits.same hsame) (hnq hq)
  | dead j hrow hj hs ha hn hq hapart =>
    obtain ⟨j', hj', hsame⟩ := hsome j hrow
    exact .dead j' hj' (hsame.retriable hj) (hsame.status.trans hs) (hsame.attempts.trans ha) hn
      (hnq hq) hapart

/-- Nothing is done to the job, except that it may be put behind another one. -/
lemma Inv.frame (h : Inv i sid db L) (hs : Single db')
    (hrow : db'.row i = db.row i ∨ ∃ k, db'.row i = (db.row i).map (Job.behind k))
    (hq : i ∈ db'.queue ↔ i ∈ db.queue) (hr : runs i db' = runs i db)
    (hb : ∀ u k, (u, k) ∈ db'.background → k.id = i → (u, k) ∈ db.background)
    (hn : db.nextJob ≤ db'.nextJob) : Inv i sid db' L where
  single := hs
  born j hj := by
    refine lt_of_lt_of_le ?_ hn
    rcases hrow with hrow | ⟨k, hrow⟩
    · exact h.born j (hrow ▸ hj)
    · rw [hrow] at hj
      obtain ⟨r, hr, -⟩ := Option.map_eq_some_iff.1 hj
      exact h.born r hr
  fresh t ht := (h.fresh t ht).trans_le hn
  snap u k hk hi := h.snap u k (hb u k hk hi) hi
  place := by
    rw [hr]
    refine h.place.same hq (fun hnone => ?_) fun j hj => ?_
    · rcases hrow with hrow | ⟨k, hrow⟩
      · exact hrow.trans hnone
      · rw [hrow, hnone]
        rfl
    · rcases hrow with hrow | ⟨k, hrow⟩
      · exact ⟨j, hrow.trans hj, .refl j⟩
      · exact ⟨j.behind k, by rw [hrow, hj]; rfl, same_behind j k⟩

/-- The task that has the job, and its row. -/
lemma Inv.holder (h : Inv i sid db L) (hl : L t = some l) (hne : l ≠ .apart) (hnf : l ≠ .fresh) :
    (∀ u m, u ≠ t → L u = some m → m = .apart) ∧ i ∉ db.queue ∧
      ∃ j, db.row i = some j ∧ Retriable sid j ∧ Fits l j (runs i db) := by
  cases h.place with
  | unborn hrow hq hn hnew hone => exact ((hnew t l hl).elim hne hnf).elim
  | waiting j hrow hj hs he ha hq hn hapart => exact (hne (hapart t l hl)).elim
  | queued j hrow hj hr hq hapart => exact (hne (hapart t l hl)).elim
  | held u m j hu hother hrow hj hfits hq =>
    by_cases htu : t = u
    · subst htu
      rw [hl] at hu
      cases hu
      exact ⟨hother, hq, j, hrow, hj, hfits⟩
    · exact (hne (hother t l htu hl)).elim
  | dead j hrow hj hs ha hn hq hapart => exact (hne (hapart t l hl)).elim

lemma Inv.row_ne_none (h : Inv i sid db L) (hl : L t = some l) (hne : l ≠ .apart)
    (hnf : l ≠ .fresh) : db.row i ≠ none := by
  obtain ⟨-, -, j, hj, -⟩ := h.holder hl hne hnf
  rw [hj]
  simp

/-- Who has the number of the job, before there is a row. -/
lemma Inv.unborn (h : Inv i sid db L) (hl : L t = some .fresh) :
    (∀ u m, u ≠ t → L u = some m → m = .apart) ∧ i ∉ db.queue ∧ db.row i = none ∧
      runs i db = 0 := by
  have hne : ∀ {l : Stage}, l = .apart → l ≠ .fresh := by rintro l rfl h; cases h
  cases h.place with
  | unborn hrow hq hn hnew hone =>
    refine ⟨fun u m hut hu => ?_, hq, hrow, hn⟩
    rcases hnew u m hu with hm | rfl
    · exact hm
    · exact (hut (hone u t hu hl)).elim
  | waiting j hrow hj hs he ha hq hn hapart => exact (hne (hapart t _ hl) rfl).elim
  | queued j hrow hj hr hq hapart => exact (hne (hapart t _ hl) rfl).elim
  | held u m j hu hother hrow hj hfits hq =>
    by_cases htu : t = u
    · subst htu
      rw [hl] at hu
      cases hu
      exact hfits.elim
    · exact (hne (hother t _ htu hl) rfl).elim
  | dead j hrow hj hs ha hn hq hapart => exact (hne (hapart t _ hl) rfl).elim

/-- Where nobody is in a run of the job, none of its progress is on its way. -/
lemma Inv.landed (h : Inv i sid db L) (hother : ∀ u m, u ≠ t → L u = some m → m = .apart)
    (hl : L t = some l) (hnw : ∀ a, l ≠ .working a none ∧ l ≠ .closing a none) (u : Tid) (k : Job)
    (hk : (u, k) ∈ db.background) : k.id ≠ i := by
  intro hi
  obtain ⟨-, -, -, hstage⟩ := h.snap u k hk hi
  by_cases hut : u = t
  · subst hut
    rw [hl, Option.some.injEq, Option.some.injEq] at hstage
    exact hstage.elim (hnw _).1 (hnw _).2
  · rcases hstage with hu | hu <;> cases hother u _ hut hu

lemma apart_update (hother : ∀ u m, u ≠ t → L u = some m → m = .apart) (u : Tid) (m : Stage)
    (hu : Function.update L t (some .apart) u = some m) : m = .apart := by
  rcases update_cases hu with ⟨-, hm⟩ | ⟨hut, hu⟩
  · exact (Option.some.inj hm).symm
  · exact hother u m hut hu

/-- The task that has the job goes on with it. -/
lemma Inv.hold {j : Job} (hother : ∀ u m, u ≠ t → L u = some m → m = .apart) (hs : Single db')
    (hrow : db'.row i = some j) (hj : Retriable sid j) (hfits : Fits l' j (runs i db'))
    (hq : i ∉ db'.queue) (hn : i < db'.nextJob)
    (hsnap : ∀ u k, (u, k) ∈ db'.background → k.id = i →
      Snap sid (Function.update L t (some l')) u k) :
    Inv i sid db' (Function.update L t (some l')) where
  single := hs
  born _ _ := hn
  fresh _ _ := hn
  snap := hsnap
  place := .held t l' j (Function.update_self ..)
    (fun u m hut hu => hother u m hut ((update_cases hu).resolve_left fun h => hut h.1).2) hrow hj
    hfits hq

/-- The job is given on. -/
lemma Inv.release (hs : Single db') (hn : i < db'.nextJob)
    (hsnap : ∀ u k, (u, k) ∈ db'.background → k.id ≠ i)
    (hplace : Place sid (Function.update L t (some .apart)) (db'.row i) (i ∈ db'.queue)
      (runs i db')) : Inv i sid db' (Function.update L t (some .apart)) where
  single := hs
  born _ _ := hn
  fresh _ _ := hn
  snap u k hk hi := (hsnap u k hk hi).elim
  place := hplace

/-! #### The row is written -/

lemma runs_put (j : Job) : runs i (db.put j) = runs i db := rfl

lemma row_put_self (db : Db) {j : Job} (hi : j.id = i) : (db.put j).row i = some (db.upserted j) := by
  rw [row_put, if_pos hi.symm]

/-- A row of the source that is written over one that is active is not refused. -/
lemma not_conflicts_of_active (hs : Single db) {j r : Job} (hr : db.row j.id = some r)
    (hra : r.status.active = true) (hsrc : r.sourceId = j.sourceId) : db.conflicts j = false := by
  rw [Bool.eq_false_iff]
  intro hc
  simp only [Db.conflicts, Bool.and_eq_true, decide_eq_true_eq, List.any_eq_true] at hc
  obtain ⟨⟨-, hne⟩, x, hx, ⟨hxid, hxa⟩, hxs⟩ := hc
  exact hxid (hs _ _ x r (Keyed.get?_of_mem hx) hr hxa hra (hxs.trans hsrc.symm) (hxs ▸ hne))

/-- A new job. -/
lemma Inv.create (h : Inv i sid db L) (hl : L t = some .fresh) {j : Job} (hid : j.id = i)
    (hm : Stage.mayUpsert sid .fresh j) (hj : Retriable sid j) {env : ℕ} {ok : Bool}
    (he : exec db t env (.upsert j) = some (ok, db')) :
    Inv i sid db' (Function.update L t (some (Stage.upserted .fresh j ok))) := by
  obtain ⟨hother, hq, hrow, hn⟩ := h.unborn hl
  obtain ⟨ha, herr, hst⟩ := hm
  have hlanded := h.landed hother hl fun a => ⟨fun h => (by cases h), fun h => (by cases h)⟩
  rcases (exec_upsert he).2 with ⟨rfl, hc, rfl⟩ | ⟨rfl, -, rfl⟩
  · have hs := single_put h.single hc
    have hsame := same_upserted sid db j
    have hput := row_put_self db hid
    rcases hst with hst | hst
    · have hstage : Stage.upserted .fresh j true = .placing := by simp [Stage.upserted, hst]
      rw [hstage]
      refine Inv.hold hother hs hput (hsame.retriable hj) ?_ hq (h.fresh t hl)
        fun u k hk hi => (hlanded u k hk hi).elim
      refine Ready.same ⟨hst, herr, ?_, ?_⟩ hsame
      · rw [runs_put, hn, ha]
      · rw [runs_put, hn]
        decide
    · have hstage : Stage.upserted .fresh j true = .apart := by simp [Stage.upserted, hst]
      rw [hstage]
      exact Inv.release hs (h.fresh t hl) hlanded (.waiting _ hput (hsame.retriable hj) hst herr ha
        hq hn (apart_update hother))
  · have hself : Function.update L t (some (Stage.upserted .fresh j false)) = L := by
      rw [show Stage.upserted .fresh j false = .fresh from rfl, ← hl, Function.update_eq_self]
    rw [hself]
    exact h

lemma Snap.update {u : Tid} {k : Job} (h : Snap sid L u k)
    (ht : u = t → l' = .working k.attempts none ∨ l' = .closing k.attempts none) :
    Snap sid (Function.update L t (some l')) u k := by
  obtain ⟨h1, h2, h3, h4⟩ := h
  refine ⟨h1, h2, h3, ?_⟩
  by_cases hut : u = t
  · rw [hut, Function.update_self, Option.some.injEq, Option.some.injEq]
    exact ht hut
  · rwa [Function.update_of_ne hut]

lemma upsert_ok {j : Job} (hc : db.conflicts j = false) {env : ℕ} {ok : Bool}
    (he : exec db t env (.upsert j) = some (ok, db')) : ok = true ∧ db' = db.put j := by
  rcases (exec_upsert he).2 with ⟨hok, -, hdb⟩ | ⟨-, hc', -⟩
  · exact ⟨hok, hdb⟩
  · rw [hc] at hc'
    cases hc'

/-- The job goes on: it is running, or its run has come to an end, or it is tried again. -/
lemma Inv.upsert (h : Inv i sid db L) (hl : L t = some l) {j : Job} (hid : j.id = i)
    (hm : l.mayUpsert sid j) (hnf : l ≠ .fresh) (hns : ∀ a, l ≠ .started a)
    (hq : j.status = .queued → db.conflicts j = false)
    (hterm : j.status.terminal = true → ∀ u k, (u, k) ∈ db.background → k.id ≠ i) {env : ℕ}
    {ok : Bool} (he : exec db t env (.upsert j) = some (ok, db')) :
    ok = true ∧ Inv i sid db' (Function.update L t (some (l.upserted j ok))) := by
  have hsame := same_upserted sid db j
  have hput := row_put_self db hid
  cases l with
  | read a =>
    obtain ⟨hother, hmem, r, hr, hret, hready, han⟩ := h.holder hl (by simp) (by simp)
    obtain ⟨hj, ha, hst, herr⟩ := hm
    have hc : db.conflicts j = false := by
      refine not_conflicts_of_active h.single (hid ▸ hr) ?_ (hret.source.trans hj.source.symm)
      rw [hready.status]
      rfl
    obtain ⟨rfl, rfl⟩ := upsert_ok hc he
    have hlanded := h.landed hother hl fun a => ⟨by simp, by simp⟩
    refine ⟨rfl, Inv.hold hother (single_put h.single hc) hput (hsame.retriable hj)
      ⟨⟨hst, herr⟩, ha.trans han, hready.lt, han⟩ hmem (h.born r hr)
      fun u k hk hi => (hlanded u k hk hi).elim⟩
  | working a x =>
    obtain ⟨hother, hmem, r, hr, hret, htried⟩ := h.holder hl (by simp) (by simp)
    obtain ⟨hj, ha, ⟨hst, herr, rfl⟩ | hst⟩ := hm
    · have hstage : Stage.upserted (.working a none) j ok = .working a none := by
        simp [Stage.upserted, hst, JobStatus.terminal]
      have hc : db.conflicts j = false := by
        refine not_conflicts_of_active h.single (hid ▸ hr) ?_ (hret.source.trans hj.source.symm)
        rw [(Prod.mk.inj htried.ended).1]
        rfl
      obtain ⟨rfl, rfl⟩ := upsert_ok hc he
      rw [hstage]
      refine ⟨rfl, Inv.hold hother (single_put h.single hc) hput (hsame.retriable hj)
        (Tried.same ⟨ha, htried.runs, htried.le, by rw [hst, herr]; rfl, htried.terminal⟩ hsame) hmem (h.born r hr)
        fun u k hk hi => ?_⟩
      refine (h.snap u k hk hi).update ?_
      rintro rfl
      obtain ⟨-, -, -, hstage⟩ := h.snap u k hk hi
      rwa [hl, Option.some.injEq, Option.some.injEq] at hstage
    · have hstage : Stage.upserted (.working a x) j ok = .working a (some (j.status, j.error)) := by
        simp [Stage.upserted, hst]
      have hc : db.conflicts j = false := not_conflicts (inactive_of_terminal hst)
      obtain ⟨rfl, rfl⟩ := upsert_ok hc he
      rw [hstage]
      exact ⟨rfl, Inv.hold hother (single_put h.single hc) hput (hsame.retriable hj)
        (Tried.same ⟨ha, htried.runs, htried.le, rfl, fun y hy => Option.some.inj hy ▸ hst⟩ hsame) hmem (h.born r hr)
        fun u k hk hi => (hterm hst u k hk hi).elim⟩
  | counted m =>
    obtain ⟨hother, hmem, r, hr, hret, -, -, hle, rfl⟩ := h.holder hl (by simp) (by simp)
    have hlanded := h.landed hother hl fun a => ⟨by simp, by simp⟩
    obtain ⟨hj, ha, ⟨hlt, hst, herr⟩ | ⟨hge, hst⟩⟩ := hm
    · have hstage : Stage.upserted (.counted (runs i db)) j ok = .placing := by
        simp [Stage.upserted, hst]
      obtain ⟨rfl, rfl⟩ := upsert_ok (hq hst) he
      rw [hstage]
      exact ⟨rfl, Inv.hold hother (single_put h.single (hq hst)) hput (hsame.retriable hj)
        (Ready.same ⟨hst, herr, ha, hlt⟩ hsame) hmem (h.born r hr)
        fun u k hk hi => (hlanded u k hk hi).elim⟩
    · have hstage : Stage.upserted (.counted (runs i db)) j ok = .apart := by
        simp [Stage.upserted, hst]
      have hc : db.conflicts j = false := not_conflicts (by rw [hst]; rfl)
      obtain ⟨rfl, rfl⟩ := upsert_ok hc he
      have hmax : runs i db = maxJobAttempts := le_antisymm hle hge
      rw [hstage]
      exact ⟨rfl, Inv.release (single_put h.single hc) (h.born r hr) hlanded
        (.dead _ hput (hsame.retriable hj) hst (ha.trans hmax) hmax hmem (apart_update hother))⟩
  | started a => exact (hns a rfl).elim
  | fresh => exact (hnf rfl).elim
  | _ => exact hm.elim

/-! #### The queue -/

lemma Inv.enqueue (h : Inv i sid db L) (hl : L t = some .placing) :
    Inv i sid (db.enqueue i) (Function.update L t (some .apart)) := by
  obtain ⟨hother, -, r, hr, hret, hready⟩ := h.holder hl (by simp) (by simp)
  exact Inv.release h.single (h.born r hr) (h.landed hother hl fun a => ⟨by simp, by simp⟩)
    (.queued r hr hret hready mem_enqueue_self (apart_update hother))

lemma Inv.claim (h : Inv i sid db L) (hl : L t = some .apart) (hq : i ∈ db.queue) :
    Inv i sid { db with queue := db.queue.erase i } (Function.update L t (some .claimed)) := by
  have hnot : ∀ {p : Prop}, ¬(i ∈ db.queue) → p := fun hn => (hn hq).elim
  cases h.place with
  | unborn hrow hq hn hnew hone => exact hnot hq
  | waiting j hrow hj hs he ha hq hn hapart => exact hnot hq
  | held u m j hu hother hrow hj hfits hq => exact hnot hq
  | dead j hrow hj hs ha hn hq hapart => exact hnot hq
  | queued j hrow hj hr hq hapart =>
    have hother : ∀ u m, u ≠ t → L u = some m → m = .apart := fun u m _ hu => hapart u m hu
    refine Inv.hold hother h.single hrow hj hr (fun hmem => (Keyed.mem_erase.1 hmem).2 rfl)
      (h.born j hrow) fun u k hk hi => ?_
    exact (h.landed hother hl (fun a => ⟨by simp, by simp⟩) u k hk hi).elim

lemma Inv.get (h : Inv i sid db L) (hl : L t = some .claimed) :
    (∃ j n, db.row i = some j ∧ Retriable sid j ∧ Ready j n) ∧
      Inv i sid db (Function.update L t (some (Stage.seen .claimed (db.row i)))) := by
  obtain ⟨hother, hmem, r, hr, hret, hready⟩ := h.holder hl (by simp) (by simp)
  have hready : Ready r (runs i db) := hready
  refine ⟨⟨r, _, hr, hret, hready⟩, ?_⟩
  rw [hr]
  exact Inv.hold hother h.single hr hret ⟨hready, hready.attempts⟩ hmem (h.born r hr)
    fun u k hk hi => (h.landed hother hl (fun a => ⟨by simp, by simp⟩) u k hk hi).elim

/-! #### The run -/

lemma Inv.begin (h : Inv i sid db L) {a : ℕ} (hl : L t = some (.started a)) {j : Job}
    (hid : j.id = i) : Inv i sid { db with begun := db.begun ++ [j] }
      (Function.update L t (some (.working a none))) := by
  obtain ⟨hother, hmem, r, hr, hret, ⟨hst, herr⟩, ha, hlt, han⟩ := h.holder hl (by simp) (by simp)
  have hruns : runs i { db with begun := db.begun ++ [j] } = runs i db + 1 := by
    simp [runs, hid]
  refine Inv.hold hother h.single hr hret ⟨ha.trans han.symm, ?_, ?_, ?_,
    fun y hy => by cases hy⟩ hmem (h.born r hr)
    fun u k hk hi => (h.landed hother hl (fun a => ⟨by simp, by simp⟩) u k hk hi).elim
  · rw [hruns, han]
  · rw [hruns]
    exact hlt
  · rw [hst, herr]
    rfl

/-- Progress is started on its way. -/
lemma Inv.background (h : Inv i sid db L) {a : ℕ} (hl : L t = some (.working a none)) {j : Job}
    (hj : Retriable sid j) (ha : j.attempts = a) (hst : j.status = .running) (herr : j.error = "") :
    Inv i sid { db with background := db.background ++ [(t, j)] } L where
  single := h.single
  born := h.born
  fresh := h.fresh
  snap u k hk hi := by
    rcases List.mem_append.1 hk with hk | hk
    · exact h.snap u k hk hi
    · obtain ⟨rfl, rfl⟩ := Prod.mk.inj (List.mem_singleton.1 hk)
      exact ⟨hj, hst, herr, .inl (ha ▸ hl)⟩
  place := h.place

lemma Inv.finish (h : Inv i sid db L) {a : ℕ} {x : Option (JobStatus × String)}
    (hl : L t = some (.working a x)) : Inv i sid db (Function.update L t (some (.closing a x))) := by
  obtain ⟨hother, hmem, r, hr, hret, htried⟩ := h.holder hl (by simp) (by simp)
  refine Inv.hold hother h.single hr hret htried hmem (h.born r hr) fun u k hk hi =>
    (h.snap u k hk hi).update ?_
  rintro rfl
  obtain ⟨-, -, -, hstage⟩ := h.snap u k hk hi
  rw [hl, Option.some.injEq, Option.some.injEq] at hstage
  rcases hstage with hstage | hstage
  · cases hstage
    exact .inr rfl
  · cases hstage

lemma Inv.count (h : Inv i sid db L) {a : ℕ} {e : Exc}
    (hl : L t = some (.closing a (some (.failed, e.text)))) {n env : ℕ}
    (he : exec db t env (.incrementAttempts i) = some (n, db')) :
    n = a + 1 ∧ Inv i sid db' (Function.update L t (some (.counted n))) := by
  obtain ⟨hother, hmem, r, hr, hret, htried⟩ := h.holder hl (by simp) (by simp)
  have htried : Tried a (some (.failed, e.text)) r (runs i db) := htried
  have hs := single_of_exec h.single he
  have hn : n = r.attempts + 1 := by
    simp only [exec] at he
    split at he
    · cases he
    · cases he
      rw [hr]
      rfl
  obtain ⟨-, rfl⟩ := exec_increment he
  have hna : n = a + 1 := by rw [hn, htried.attempts]
  have hrow : (db.modify i Job.tried Job.tried_id).row i = some r.tried := by
    rw [row_modify, if_pos rfl, hr]
    rfl
  obtain ⟨hst, herr⟩ := Prod.mk.inj htried.ended
  refine ⟨hna, Inv.hold hother hs hrow ⟨hret.kind, hret.files, hret.url, hret.source, hret.named⟩
    ⟨⟨hst, e, herr⟩, ?_, htried.le, ?_⟩ hmem (h.born r hr) fun u k hk hi => ?_⟩
  · change r.attempts + 1 = runs i db
    rw [htried.attempts, htried.runs]
  · change n = runs i db
    rw [hna, htried.runs]
  · exact (h.landed hother hl (fun a => ⟨by simp, by simp⟩) u k hk hi).elim

/-! #### Other steps -/

lemma Fits.not_waiting {j : Job} (h : Fits l j n) : j.status ≠ .waiting := by
  have htried : ∀ {a x}, Tried a x j n → j.status ≠ .waiting := by
    intro a x h hw
    cases x with
    | none =>
      rw [(Prod.mk.inj h.ended).1] at hw
      cases hw
    | some y =>
      have hterm := h.terminal y rfl
      have hst : j.status = y.1 := congrArg Prod.fst h.ended
      rw [← hst, hw] at hterm
      cases hterm
  intro hw
  cases l with
  | placing => rw [Ready.status h] at hw; cases hw
  | claimed => rw [Ready.status h] at hw; cases hw
  | read a => rw [h.1.status] at hw; cases hw
  | started a => rw [h.1.1] at hw; cases hw
  | working a x => exact htried h hw
  | closing a x => exact htried h hw
  | counted m => rw [h.1.1] at hw; cases hw
  | apart => exact h
  | fresh => exact h

lemma Place.le {row : Option Job} {q : Prop} (h : Place sid L row q n) : n ≤ maxJobAttempts := by
  cases h with
  | unborn hrow hq hn => rw [hn]; decide
  | waiting j hrow hj hs he ha hq hn => rw [hn]; decide
  | queued j hrow hj hr => exact hr.lt.le
  | held t l j hl hother hrow hj hfits =>
    cases l with
    | placing => exact (Ready.lt hfits).le
    | claimed => exact (Ready.lt hfits).le
    | read a => exact hfits.1.lt.le
    | started a => exact hfits.2.2.1.le
    | working a x => exact Tried.le hfits
    | closing a x => exact Tried.le hfits
    | counted m => exact hfits.2.2.1
    | apart => exact hfits.elim
    | fresh => exact hfits.elim
  | dead j hrow hj hs ha hn => exact hn.le

lemma Tried.error_of_active {a : ℕ} {x : Option (JobStatus × String)} {j : Job} (h : Tried a x j n)
    (hact : j.status.active = true) : j.error = "" := by
  cases x with
  | none => exact congrArg Prod.snd h.ended
  | some y =>
    have hst : j.status = y.1 := congrArg Prod.fst h.ended
    rw [hst, inactive_of_terminal (h.terminal y rfl)] at hact
    cases hact

lemma Place.error_of_active {q : Prop} {j : Job} (h : Place sid L (some j) q n)
    (hact : j.status.active = true) : j.error = "" := by
  cases h with
  | unborn hrow => cases hrow
  | waiting k hrow hj hs he => cases hrow; exact he
  | queued k hrow hj hr => cases hrow; exact hr.error
  | held t l k hl hother hrow hj hfits =>
    cases hrow
    cases l with
    | placing => exact Ready.error hfits
    | claimed => exact Ready.error hfits
    | read a => exact hfits.1.error
    | started a => exact hfits.1.2
    | working a x => exact Tried.error_of_active hfits hact
    | closing a x => exact Tried.error_of_active hfits hact
    | counted m =>
      rw [hfits.1.1] at hact
      cases hact
    | apart => exact hfits.elim
    | fresh => exact hfits.elim
  | dead k hrow hj hs =>
    cases hrow
    rw [hs] at hact
    cases hact

lemma Place.waits {q : Prop} {j : Job} (h : Place sid L (some j) q n) (hw : j.status = .waiting) :
    Retriable sid j ∧ j.error = "" ∧ j.attempts = 0 ∧ n = 0 ∧ ∀ t l, L t = some l → l = .apart := by
  cases h with
  | unborn hrow hq hn hnew hone => cases hrow
  | waiting k hrow hj hs he ha hq hn hapart =>
    cases hrow
    exact ⟨hj, he, ha, hn, hapart⟩
  | queued k hrow hj hr hq hapart =>
    cases hrow
    rw [hr.status] at hw
    cases hw
  | held t l k hl hother hrow hj hfits hq =>
    cases hrow
    exact (hfits.not_waiting hw).elim
  | dead k hrow hj hs ha hn hq hapart =>
    cases hrow
    rw [hs] at hw
    cases hw

lemma Place.retriable {q : Prop} {j : Job} (h : Place sid L (some j) q n) : Retriable sid j := by
  cases h with
  | unborn hrow => cases hrow
  | waiting k hrow hj => cases hrow; exact hj
  | queued k hrow hj => cases hrow; exact hj
  | held t l k hl hother hrow hj => cases hrow; exact hj
  | dead k hrow hj => cases hrow; exact hj

lemma Inv.promote (h : Inv i sid db L) {k first env : ℕ} {rest : List ℕ} {p : Promotion}
    (he : exec db t env (.promote k first rest) = some (p, db')) : Inv i sid db' L := by
  have hs := single_of_exec h.single he
  rcases exec_promote he with ⟨-, -, rfl⟩ | ⟨j, hj, hw, ⟨-, -, rfl⟩ | ⟨-, -, rfl⟩⟩
  · exact h.frame hs (.inl rfl) Iff.rfl rfl (fun _ _ hk _ => hk) le_rfl
  · exact h.frame hs (.inl rfl) Iff.rfl rfl (fun _ _ hk _ => hk) le_rfl
  · by_cases hfi : first = i
    · -- it waited, and is queued for its first attempt
      subst hfi
      have hplace := h.place
      rw [hj] at hplace
      obtain ⟨hret, herr, ha, hn, hapart⟩ := hplace.waits hw
      have hrow : ((db.modify first Job.promoted Job.promoted_id).setAfter rest first).row first =
          some (if first ∈ rest then j.promoted.behind first else j.promoted) := by
        rw [row_setAfter, row_modify, if_pos rfl, hj]
        split <;> rfl
      have hready : ∀ r, r = j.promoted ∨ r = j.promoted.behind first →
          Retriable sid r ∧ Ready r (runs first db) := by
        rintro r (rfl | rfl)
        all_goals
          refine ⟨⟨hret.kind, hret.files, hret.url, hret.source, hret.named⟩, rfl, herr,
            ha.trans hn.symm, ?_⟩
          rw [hn]
          decide
      obtain ⟨hr, hready⟩ := hready _ (by split <;> simp : (if first ∈ rest then
        j.promoted.behind first else j.promoted) = j.promoted ∨ _ = j.promoted.behind first)
      exact ⟨hs, fun _ _ => h.born j hj, h.fresh, fun u m hm hi => h.snap u m hm hi,
        .queued _ hrow hr hready mem_enqueue_self hapart⟩
    · have hrow : (db.modify first Job.promoted Job.promoted_id).row i = db.row i := by
        rw [row_modify, if_neg fun h => hfi h.symm]
      refine h.frame hs ?_ ⟨fun hi => (mem_enqueue hi).resolve_right hfi, mem_enqueue_of_mem⟩ rfl
        (fun _ _ hk _ => hk) le_rfl
      by_cases hir : i ∈ rest
      · refine .inr ⟨first, ?_⟩
        change ((db.modify first Job.promoted Job.promoted_id).setAfter rest first).row i = _
        rw [row_setAfter, if_pos hir, hrow]
      · refine .inl ?_
        change ((db.modify first Job.promoted Job.promoted_id).setAfter rest first).row i = _
        rw [row_setAfter, if_neg hir, hrow]

lemma Inv.relink (h : Inv i sid db L) (ids : List ℕ) (target : ℕ)
    (hs : Single (db.setAfter ids target)) : Inv i sid ((db.setAfter ids target).endTransaction t) L := by
  refine h.frame hs ?_ Iff.rfl rfl (fun _ _ hk _ => hk) le_rfl
  by_cases hi : i ∈ ids
  · exact .inr ⟨target, by rw [row_endTransaction, row_setAfter, if_pos hi]⟩
  · exact .inl (by rw [row_endTransaction, row_setAfter, if_neg hi])

/-- Progress lands while the job is running. -/
lemma Inv.land (h : Inv i sid db L) {m : ℕ} (he : own db (.land m) = some db') :
    Inv i sid db' L := by
  have hs := single_of_own h.single he
  obtain ⟨u, k, hk, -, hput⟩ := own_land he
  have hless : Inv i sid { db with background := db.background.eraseIdx m } L :=
    h.frame h.single (.inl rfl) Iff.rfl rfl (fun _ _ hk _ => List.mem_of_mem_eraseIdx hk) le_rfl
  rcases hput with ⟨-, rfl⟩ | ⟨-, rfl⟩
  · exact hless
  · by_cases hki : k.id = i
    · obtain ⟨hret, hst, herr, hstage⟩ := h.snap u k (List.mem_of_getElem? hk) hki
      obtain ⟨r, hr, htried⟩ : ∃ r, db.row i = some r ∧ Tried k.attempts none r (runs i db) := by
        rcases hstage with hu | hu
        · obtain ⟨-, -, r, hr, -, htried⟩ := h.holder hu (by simp) (by simp)
          exact ⟨r, hr, htried⟩
        · obtain ⟨-, -, r, hr, -, htried⟩ := h.holder hu (by simp) (by simp)
          exact ⟨r, hr, htried⟩
      obtain ⟨hrst, hrerr⟩ := Prod.mk.inj htried.ended
      have hput := row_put_self { db with background := db.background.eraseIdx m } hki
      refine ⟨hs, fun _ _ => h.born r hr, h.fresh, hless.snap, ?_⟩
      refine h.place.same Iff.rfl (fun hnone => ?_) fun x hx => ⟨_, hput, ?_⟩
      · rw [hr] at hnone
        cases hnone
      · rw [hr] at hx
        cases hx
        exact ⟨hst.trans hrst.symm, herr.trans hrerr.symm, htried.attempts.symm,
          fun _ => ⟨hret.kind, hret.files, hret.url, hret.source, hret.named⟩⟩
    · refine hless.frame hs (.inl ?_) Iff.rfl rfl (fun _ _ hk _ => hk) le_rfl
      rw [row_put, if_neg fun h => hki h.symm]

/-- A new number, which may be the job's. -/
lemma Inv.newJob (h : Inv i sid db L) (hl : L t = some l) :
    Inv i sid { db with nextJob := db.nextJob + 1 }
      (Function.update L t (some (if db.nextJob = i then .fresh else l))) := by
  have hstay : Inv i sid { db with nextJob := db.nextJob + 1 } L :=
    h.frame h.single (.inl rfl) Iff.rfl rfl (fun _ _ hk _ => hk) (Nat.le_succ _)
  split
  · rename_i hi
    have hrow : db.row i = none := by
      cases hr : db.row i with
      | none => rfl
      | some j => exact absurd (h.born j hr) (by omega)
    have hnew : ∀ u, L u ≠ some .fresh := fun u hu => absurd (h.fresh u hu) (by omega)
    refine ⟨h.single, hstay.born, fun u _ => by simp only; omega, fun u k hk hki => ?_, ?_⟩
    · cases h.place with
      | unborn hrow hq hn hnew hone =>
        obtain ⟨-, -, -, hu | hu⟩ := h.snap u k hk hki <;>
          rcases hnew u _ hu with h | h <;> cases h
      | waiting j hj => rw [hrow] at hj; cases hj
      | queued j hj => rw [hrow] at hj; cases hj
      | held u l j hl hother hj => rw [hrow] at hj; cases hj
      | dead j hj => rw [hrow] at hj; cases hj
    · cases h.place with
      | unborn hrow hq hn hfresh hone =>
        refine .unborn hrow hq hn (fun u m hu => ?_) fun u v hu hv => ?_
        · rcases update_cases hu with ⟨-, hm⟩ | ⟨-, hu⟩
          · exact .inr (Option.some.inj hm).symm
          · exact hfresh u m hu
        · rcases update_cases hu with ⟨hut, -⟩ | ⟨-, hu⟩
          · rcases update_cases hv with ⟨hvt, -⟩ | ⟨-, hv⟩
            · exact hut.trans hvt.symm
            · exact (hnew v hv).elim
          · exact (hnew u hu).elim
      | waiting j hj => rw [hrow] at hj; cases hj
      | queued j hj => rw [hrow] at hj; cases hj
      | held u l j hl hother hj => rw [hrow] at hj; cases hj
      | dead j hj => rw [hrow] at hj; cases hj
  · rw [← hl, Function.update_eq_self]
    exact hstay

/-- Every operation of a disciplined task keeps the invariant. -/
lemma Inv.op (h : Inv i sid db L) (hl : L t = some l) {env : ℕ} {o : Op} {r : o.Answer}
    (hm : may i sid l o)
    (hup : ∀ j, o = .upsert j → j.id = i → (db.row i = none → Retriable sid j) ∧
      (db.row i ≠ none → j.status = .queued → db.conflicts j = false) ∧
      (j.status.terminal = true → ∀ u k, (u, k) ∈ db.background → k.id ≠ i) ∧
      ∀ a, l ≠ .started a)
    (hover : ∀ a x, l = .closing a x → o = .incrementAttempts i)
    (he : exec db t env o = some (r, db')) :
    admits i sid l o r ∧ Inv i sid db' (Function.update L t (some (after i l o r))) := by
  have hself : Function.update L t (some l) = L := by rw [← hl, Function.update_eq_self]
  have hs := single_of_exec h.single he
  cases o with
  | newJob =>
    cases he
    exact ⟨trivial, h.newJob hl⟩
  | upsert j =>
    by_cases hid : j.id = i
    · obtain ⟨hret, hq, hterm, hns⟩ := hup j rfl hid
      have hafter : after i l (.upsert j) r = l.upserted j r := if_pos hid
      rw [hafter]
      by_cases hf : l = .fresh
      · subst hf
        exact ⟨fun _ hne => absurd rfl hne,
          h.create hl hid (hm hid) (hret (h.unborn hl).2.2.1) he⟩
      · have hborn : j.status = .queued → db.conflicts j = false := by
          refine hq fun hnone => ?_
          have hrow : l ≠ .apart → False := fun hne => h.row_ne_none hl hne hf hnone
          cases l with
          | fresh => exact hf rfl
          | started a => exact hns a rfl
          | read a => exact hrow (by simp)
          | working a x => exact hrow (by simp)
          | counted a => exact hrow (by simp)
          | _ => exact hm hid
        obtain ⟨hok, hinv⟩ := h.upsert hl hid (hm hid) hf hns hborn hterm he
        exact ⟨fun _ _ => hok, hinv⟩
    · have hafter : after i l (.upsert j) r = l := if_neg hid
      rw [hafter, hself]
      refine ⟨fun h => absurd h hid, ?_⟩
      rcases (exec_upsert he).2 with ⟨-, -, rfl⟩ | ⟨-, -, rfl⟩
      · refine h.frame hs (.inl ?_) Iff.rfl rfl (fun _ _ hk _ => hk) le_rfl
        rw [row_put, if_neg fun h => hid h.symm]
      · exact h
  | get k =>
    obtain ⟨rfl, hdb⟩ : r = db.row k ∧ db = db' := by
      cases he
      exact ⟨rfl, rfl⟩
    subst hdb
    by_cases hk : k = i ∧ l = .claimed
    · obtain ⟨rfl, rfl⟩ := hk
      obtain ⟨hrow, hinv⟩ := h.get hl
      have hafter : after k .claimed (.get k) (db.row k) = Stage.seen .claimed (db.row k) :=
        if_pos rfl
      rw [hafter]
      exact ⟨⟨fun j => id_of_row, fun _ _ => hrow⟩, hinv⟩
    · have hafter : after i l (.get k) (db.row k) = l := by
        simp only [after]
        split
        · rename_i hki
          cases l with
          | claimed => exact (hk ⟨hki, rfl⟩).elim
          | _ => rfl
        · rfl
      rw [hafter, hself]
      exact ⟨⟨fun j => id_of_row, fun hki hc => (hk ⟨hki, hc⟩).elim⟩, h⟩
  | activeRow s =>
    obtain ⟨rfl, hdb⟩ : r = db.activeRow s ∧ db = db' := by
      cases he
      exact ⟨rfl, rfl⟩
    subst hdb
    change _ ∧ Inv i sid db (Function.update L t (some l))
    rw [hself]
    refine ⟨fun k hk hki => ?_, h⟩
    obtain ⟨hrow, -⟩ := activeRow_eq_some hk
    rw [hki] at hrow
    have hplace := h.place
    rw [hrow] at hplace
    exact hplace.retriable.kind
  | incrementAttempts k =>
    by_cases hk : k = i
    · subst hk
      obtain ⟨a, e, rfl⟩ := hm rfl
      obtain ⟨hn, hinv⟩ := h.count hl he
      have hafter : after k (.closing a (some (.failed, e.text))) (.incrementAttempts k) r =
          .counted r := if_pos rfl
      rw [hafter]
      refine ⟨fun _ b x hb => ?_, hinv⟩
      cases hb
      exact hn
    · have hafter : after i l (.incrementAttempts k) r = l := if_neg hk
      obtain ⟨-, rfl⟩ := exec_increment he
      rw [hafter, hself]
      refine ⟨fun h => absurd h hk, h.frame hs (.inl ?_) Iff.rfl rfl (fun _ _ hk _ => hk) le_rfl⟩
      rw [row_modify, if_neg fun h => hk h.symm]
  | enqueue k =>
    cases he
    by_cases hk : k = i
    · subst hk
      obtain rfl := hm rfl
      have hafter : after k .placing (.enqueue k) () = .apart := if_pos rfl
      rw [hafter]
      exact ⟨trivial, h.enqueue hl⟩
    · have hafter : after i l (.enqueue k) () = l := if_neg hk
      rw [hafter, hself]
      exact ⟨trivial, h.frame hs (.inl rfl) ⟨fun hi => (mem_enqueue hi).resolve_right hk,
        mem_enqueue_of_mem⟩ rfl (fun _ _ hk _ => hk) le_rfl⟩
  | claim =>
    refine ⟨trivial, ?_⟩
    rcases exec_claim he with ⟨rfl, rfl⟩ | ⟨k, hk, rfl, rfl⟩
    · have hafter : after i l .claim (none : Option ℕ) = l := by simp [after]
      rw [hafter, hself]
      exact h
    · by_cases hki : k = i
      · subst hki
        have hafter : after k l .claim (some k) = .claimed := if_pos rfl
        rw [hafter]
        obtain rfl : l = .apart := hm
        exact h.claim hl hk
      · have hafter : after i l .claim (some k) = l := if_neg (by simpa using hki)
        rw [hafter, hself]
        refine h.frame hs (.inl rfl) ⟨fun hi => (Keyed.mem_erase.1 hi).1, fun hi => ?_⟩ rfl
          (fun _ _ hk _ => hk) le_rfl
        exact Keyed.mem_erase.2 ⟨hi, fun h => hki h.symm⟩
  | cancelIfQueued k =>
    have hk : k ≠ i := hm
    change _ ∧ Inv i sid db' (Function.update L t (some l))
    rw [hself]
    refine ⟨trivial, ?_⟩
    rcases (exec_cancel he).2 with ⟨-, -, rfl⟩ | ⟨-, -, rfl⟩
    · refine h.frame hs (.inl ?_) ⟨fun hi => (Keyed.mem_erase.1 hi).1, fun hi => ?_⟩ rfl
        (fun _ _ hk _ => hk) le_rfl
      · change (db.modify k Job.cancelled Job.cancelled_id).row i = db.row i
        rw [row_modify, if_neg fun h => hk h.symm]
      · exact Keyed.mem_erase.2 ⟨hi, fun h => hk h.symm⟩
    · exact h
  | lockWaiting k =>
    obtain ⟨-, -, rfl⟩ := exec_lockWaiting he
    have hafter : after i l (.lockWaiting k) r = l := by
      cases l with
      | closing a x => cases hover a x rfl
      | _ => rfl
    rw [hafter, hself]
    exact ⟨trivial, h.frame hs (.inl rfl) Iff.rfl rfl (fun _ _ hk _ => hk) le_rfl⟩
  | relink ids target =>
    cases he
    change _ ∧ Inv i sid _ (Function.update L t (some l))
    rw [hself]
    exact ⟨trivial, h.relink ids target hs⟩
  | promote k first rest =>
    change _ ∧ Inv i sid db' (Function.update L t (some l))
    rw [hself]
    exact ⟨trivial, h.promote he⟩
  | background j =>
    cases he
    change _ ∧ Inv i sid _ (Function.update L t (some l))
    rw [hself]
    refine ⟨trivial, ?_⟩
    by_cases hid : j.id = i
    · obtain ⟨a, rfl, hj, ha, hst, herr⟩ := hm hid
      exact h.background hl hj ha hst herr
    · refine h.frame hs (.inl rfl) Iff.rfl rfl (fun u k hk hki => ?_) le_rfl
      refine (List.mem_append.1 hk).resolve_right fun hk => hid ?_
      obtain ⟨-, rfl⟩ := Prod.mk.inj (List.mem_singleton.1 hk)
      exact hki
  | begin j =>
    cases he
    refine ⟨trivial, ?_⟩
    by_cases hid : j.id = i
    · obtain ⟨a, rfl⟩ := hm hid
      have hafter : after i (.started a) (.begin j) () = .working a none := if_pos hid
      rw [hafter]
      exact h.begin hl hid
    · have hafter : after i l (.begin j) () = l := if_neg hid
      rw [hafter, hself]
      refine h.frame hs (.inl rfl) Iff.rfl ?_ (fun _ _ hk _ => hk) le_rfl
      simp [runs, hid]
  | finish j =>
    cases he
    refine ⟨trivial, ?_⟩
    by_cases hid : j.id = i
    · obtain ⟨a, x, rfl⟩ := hm hid
      have hafter : after i (.working a x) (.finish j) () = .closing a x := if_pos hid
      rw [hafter]
      exact h.finish hl
    · have hafter : after i l (.finish j) () = l := if_neg hid
      rw [hafter, hself]
      exact h
  | write w =>
    change _ ∧ Inv i sid _ (Function.update L t (some l))
    rw [hself]
    refine ⟨trivial, ?_⟩
    cases he
    split
    · exact h.frame ((calms_of_jobs (write_jobs w)).single h.single)
        (.inl (row_congr (write_jobs w) i)) (by rw [write_queue])
        (by rw [runs, write_begun]; rfl) (fun _ _ hk _ => by rwa [write_background] at hk)
        (write_nextJob w).ge
    · exact h
  | tryLock =>
    change _ ∧ Inv i sid _ (Function.update L t (some l))
    rw [hself]
    refine ⟨trivial, ?_⟩
    simp only [exec] at he
    split at he <;> cases he
    · exact h.frame hs (.inl rfl) Iff.rfl rfl (fun _ _ hk _ => hk) le_rfl
    · exact h
  | _ =>
    change _ ∧ Inv i sid _ (Function.update L t (some l))
    rw [hself]
    refine ⟨trivial, ?_⟩
    cases he
    exact h.frame hs (.inl rfl) Iff.rfl rfl (fun _ _ hk _ => hk) le_rfl

end Inv

/-! ### Every task keeps to the discipline -/

/-- The task has not to do with the job, though it may have its number. -/
def Stage.Outside (l : Stage) : Prop := l = .apart ∨ l = .fresh

/-- What concerns other jobs only. -/
def Others (i : ℕ) : Op → Prop
  | .newJob => False
  | .claim => False
  | .upsert j => j.id ≠ i
  | .background j => j.id ≠ i
  | .begin j => j.id ≠ i
  | .finish j => j.id ≠ i
  | .enqueue k => k ≠ i
  | .incrementAttempts k => k ≠ i
  | .cancelIfQueued k => k ≠ i
  | _ => True

section Programs
variable {i : ℕ} {sid : String} {α : Type} {l : Stage} {j k : Job}

lemma others_step (sid : String) {o : Op} (ho : Others i o) (hl : l.Outside) :
    may i sid l o ∧ ∀ r, after i l o r = l := by
  cases o with
  | newJob => exact ho.elim
  | claim => exact ho.elim
  | upsert j => exact ⟨fun h => absurd h ho, fun _ => if_neg ho⟩
  | background j => exact ⟨fun h => absurd h ho, fun _ => rfl⟩
  | begin j => exact ⟨fun h => absurd h ho, fun _ => if_neg ho⟩
  | finish j => exact ⟨fun h => absurd h ho, fun _ => if_neg ho⟩
  | enqueue k => exact ⟨fun h => absurd h ho, fun _ => if_neg ho⟩
  | incrementAttempts k => exact ⟨fun h => absurd h ho, fun _ => if_neg ho⟩
  | cancelIfQueued k => exact ⟨ho, fun _ => rfl⟩
  | get k =>
    refine ⟨trivial, fun r => ?_⟩
    rcases hl with rfl | rfl <;> exact ite_self _
  | lockWaiting k =>
    refine ⟨trivial, fun r => ?_⟩
    rcases hl with rfl | rfl <;> rfl
  | _ => exact ⟨trivial, fun _ => rfl⟩

lemma wp_others_bind {β : Type} {p : Act α} {f : α → Act β} {Q : β → Stage → Prop}
    {X : Exc → Stage → Prop} (h : Uses (Others i) p) (hl : l.Outside)
    (hf : ∀ a, (discipline i sid).wp (f a) Q X l) (hX : ∀ e, X e l) :
    (discipline i sid).wp (p >>= f) Q X l := by
  rw [Discipline.wp_bind]
  refine Discipline.wp_mono (fun a m hm => ?_) (fun e m hm => ?_)
    (h.wp (D := discipline i sid) (I := fun m => m = l) (fun o ho m hm => ?_) rfl)
  · rw [show m = l from hm]
    exact hf a
  · rw [show m = l from hm]
    exact hX e
  · subst hm
    exact ⟨(others_step sid ho hl).1, fun r _ => (others_step sid ho hl).2 r⟩

lemma wp_of_others {p : Act α} (h : Uses (Others i) p) (hl : l.Outside) :
    (discipline i sid).wp p (fun _ => Stage.Outside) (fun _ => Stage.Outside) l := by
  refine h.wp (D := discipline i sid) (I := Stage.Outside) (fun o ho m hm => ?_) hl
  obtain ⟨hmay, hafter⟩ := others_step sid ho hm
  refine ⟨hmay, fun r _ => ?_⟩
  change Stage.Outside (after i m o r)
  rw [hafter r]
  exact hm

lemma wp_swallow {p : Act Unit}
    (h : (discipline i sid).wp p (fun _ => Stage.Outside) (fun _ => Stage.Outside) l) :
    (discipline i sid).wp p.swallow (fun _ => Stage.Outside) (fun _ => Stage.Outside) l := by
  rw [Discipline.wp_swallow]
  exact h

/-! #### New jobs -/

/-- A job as a request makes it. -/
structure New (j : Job) : Prop where
  status : j.status = .queued
  attempts : j.attempts = 0
  error : j.error = ""

/-- A task with a new job: if it is the job, the task has its number. -/
def Stage.Makes (i : ℕ) (l : Stage) (j : Job) : Prop := l.Outside ∧ (j.id = i → l = .fresh)

lemma outside_newJob {r : ℕ × ℕ} (hl : l.Outside) : (after i l .newJob r).Outside := by
  simp only [after]
  split
  · exact .inr rfl
  · exact hl

lemma makes_newJob {r : ℕ × ℕ} (hl : l.Outside) (hj : j.id = r.1) :
    (after i l .newJob r).Makes i j :=
  ⟨outside_newJob hl, fun hid => if_pos (hj.symm.trans hid)⟩

/-- After the upsert of a new job, its row is to be enqueued unless it waits or was refused. -/
lemma wp_persist_new (hl : l.Makes i j) (ha : j.attempts = 0) (he : j.error = "")
    (hs : j.status = .queued ∨ j.status = .waiting) {Q : Unit → Stage → Prop}
    {X : Exc → Stage → Prop} (hX : X .uniqueViolation l)
    (hQ : ∀ m : Stage, (m.Outside ∧ (j.status = .queued → j.id ≠ i) ∨
      (m = .placing ∧ j.status = .queued ∧ j.id = i)) → Q () m) :
    (discipline i sid).wp (persistJob j) Q X l := by
  refine ⟨fun hid => ?_, fun (ok : Bool) _ => ?_⟩
  · rw [hl.2 hid]
    exact ⟨ha, he, hs⟩
  · change (discipline i sid).wp (if ok = true then pure () else .raise .uniqueViolation) Q X
      (after i l (.upsert j) ok)
    by_cases hid : j.id = i
    · have hafter : after i l (.upsert j) ok = l.upserted j ok := if_pos hid
      rw [hafter]
      have hfresh := hl.2 hid
      subst hfresh
      cases ok with
      | false => exact hX
      | true =>
        refine hQ _ ?_
        by_cases hq : j.status = .queued
        · exact .inr ⟨if_pos hq, hq, hid⟩
        · exact .inl ⟨.inl (if_neg hq), fun h => absurd h hq⟩
    · have hafter : after i l (.upsert j) ok = l := if_neg hid
      rw [hafter]
      cases ok with
      | false => exact hX
      | true => exact hQ l (.inl ⟨hl.1, fun _ => hid⟩)

lemma after_enqueue_other {k : ℕ} (h : k ≠ i) : after i l (.enqueue k) () = l := if_neg h

lemma outside_enqueue (sid : String) (hl : l.Outside ∧ j.id ≠ i ∨ l = .placing ∧ j.id = i) :
    may i sid l (.enqueue j.id) ∧ (after i l (.enqueue j.id) ()).Outside := by
  rcases hl with ⟨hl, hid⟩ | ⟨rfl, hid⟩
  · refine ⟨fun h => absurd h hid, ?_⟩
    rw [after_enqueue_other hid]
    exact hl
  · exact ⟨fun _ => rfl, .inl (if_pos hid)⟩

lemma wp_place (hl : l.Makes i j) (hj : New j) :
    (discipline i sid).wp (persistJob j >>= fun _ => enqueue j.id) (fun _ => Stage.Outside)
      (fun _ => Stage.Outside) l := by
  rw [Discipline.wp_bind]
  refine wp_persist_new hl hj.attempts hj.error (.inl hj.status) hl.1 fun m hm => ?_
  obtain ⟨hmay, hout⟩ := outside_enqueue sid
    (hm.imp (fun h => ⟨h.1, h.2 hj.status⟩) fun h => ⟨h.1, h.2.2⟩)
  exact ⟨hmay, fun _ _ => hout⟩

lemma others_promote (k : ℕ) : Uses (Others i) (promoteWaitingAfter k) :=
  (uses_promoteWaitingAfter k).mono fun o ho => by cases o <;> trivial

lemma others_findActive (s : String) : Uses (Others i) (findActiveForSource s) := by
  unfold findActiveForSource
  split
  · trivial
  · exact ⟨trivial, fun _ => trivial⟩

lemma wp_createResummarizeJob (s : String) (hl : l.Outside) :
    (discipline i sid).wp (createResummarizeJob s) (fun _ => Stage.Outside)
      (fun _ => Stage.Outside) l := by
  refine ⟨trivial, fun target _ => ⟨trivial, fun (n : ℕ × ℕ) _ => ?_⟩⟩
  let j : Job := ⟨n.1, s, .queued, .resummarize, n.2, s, "", "", "",
    { noPayload with targetVersion := some target }, 0, none, ""⟩
  have hm : (after i l .newJob n).Makes i j := makes_newJob hl rfl
  refine ⟨fun hid => ?_, fun (ok : Bool) _ => ?_⟩
  · change (after i l .newJob n).mayUpsert sid j
    rw [hm.2 hid]
    exact ⟨rfl, rfl, .inl rfl⟩
  · by_cases hid : j.id = i
    · have hafter : after i (after i l .newJob n) (.upsert j) ok = Stage.upserted .fresh j ok := by
        rw [hm.2 hid]
        exact if_pos hid
      cases ok with
      | false =>
        change Stage.Outside (after i (after i l .newJob n) (.upsert j) false)
        rw [hafter]
        exact .inr rfl
      | true =>
        refine ⟨fun _ => hafter, fun _ _ => ?_⟩
        exact .inl (if_pos hid)
    · have hafter : after i (after i l .newJob n) (.upsert j) ok = after i l .newJob n := if_neg hid
      cases ok with
      | false =>
        change Stage.Outside (after i (after i l .newJob n) (.upsert j) false)
        rw [hafter]
        exact hm.1
      | true =>
        refine ⟨fun h => absurd h hid, fun _ _ => ?_⟩
        change Stage.Outside (after i (after i (after i l .newJob n) (.upsert j) true)
          (.enqueue j.id) ())
        rw [hafter, after_enqueue_other hid]
        exact hm.1

lemma wp_enqueueIfStale (s : String) (hl : l.Outside) :
    (discipline i sid).wp (enqueueIfStale s) (fun _ => Stage.Outside) (fun _ => Stage.Outside)
      l := by
  refine wp_others_bind (p := ask .stale) ⟨trivial, fun _ => trivial⟩ hl (fun r => ?_) fun _ => hl
  split
  · refine wp_others_bind (others_findActive s) hl (fun active => ?_) fun _ => hl
    split
    · exact hl
    · refine wp_others_bind (p := ask .writable) ⟨trivial, fun _ => trivial⟩ hl (fun r => ?_)
        fun _ => hl
      split
      · exact wp_createResummarizeJob s hl
      · exact hl
  · exact hl

lemma wp_maybeEnqueueRefresh (j : Job) (hl : l.Outside) :
    (discipline i sid).wp (maybeEnqueueRefresh j) (fun _ => Stage.Outside)
      (fun _ => Stage.Outside) l := by
  unfold maybeEnqueueRefresh
  split
  · exact hl
  · refine wp_others_bind (others_promote j.id).swallow hl (fun _ => ?_) fun _ => hl
    split
    · refine wp_swallow (wp_others_bind (p := get j.id) ⟨trivial, fun _ => trivial⟩ hl
        (fun fresh => ?_) fun _ => hl)
      refine wp_others_bind (p := ask .targetVersion) ⟨trivial, fun _ => trivial⟩ hl
        (fun current => ?_) fun _ => hl
      split
      · exact hl
      · exact wp_enqueueIfStale _ hl
    · exact wp_swallow (wp_enqueueIfStale _ hl)

/-! #### A worker with another job -/

lemma others_runner (hid : j.id ≠ i) {p : Act Unit} (h : IsRunner j p) : Uses (Others i) p := by
  refine h.uses.mono fun o ho => ?_
  cases o <;> first
    | exact ho.elim
    | trivial
    | skip
  case upsert k => exact fun h => hid ((id_of_core ho.1).symm.trans h)
  case background k => exact fun h => hid ((id_of_core ho.1).symm.trans h)

lemma others_persist (hid : j.id ≠ i) : Uses (Others i) (persistJob j) := uses_persistJob hid

lemma wp_afterRaise_other (hid : j.id ≠ i) (e : Exc) (hl : l.Outside) :
    (discipline i sid).wp (afterRaise j e) (fun _ => Stage.Outside) (fun _ => Stage.Outside) l := by
  have hend : ∀ k : Job, k.id ≠ i → (discipline i sid).wp
      (persistJob k >>= fun _ => maybeEnqueueRefresh j) (fun _ => Stage.Outside)
        (fun _ => Stage.Outside) l := fun k hk =>
    wp_others_bind (others_persist hk) hl (fun _ => wp_maybeEnqueueRefresh j hl) fun _ => hl
  unfold afterRaise
  split
  · refine wp_others_bind (p := incrementAttempts j.id) ⟨hid, fun _ => trivial⟩ hl
      (fun attempts => ?_) fun _ => hl
    split
    · exact wp_of_others ((uses_persistJob hid).bind fun _ => ⟨hid, fun _ => trivial⟩) hl
    · exact hend _ hid
  · exact hend _ hid

lemma wp_runClaimed_other (hid : j.id ≠ i) (hl : l.Outside) :
    (discipline i sid).wp (runClaimed j) (fun _ => Stage.Outside) (fun _ => Stage.Outside) l := by
  have hend : ∀ error, (discipline i sid).wp (persistJob (j.failed error) >>= fun _ =>
      maybeEnqueueRefresh j) (fun _ => Stage.Outside) (fun _ => Stage.Outside) l := fun _ =>
    wp_others_bind (others_persist hid) hl (fun _ => wp_maybeEnqueueRefresh j hl) fun _ => hl
  unfold runClaimed
  refine wp_others_bind (others_persist hid) hl (fun _ => ?_) fun _ => hl
  rw [Discipline.wp_bind]
  refine wp_dispatchAllowed (fun o ho => ?_) fun b => ?_
  · have hother : Others i o := by cases o <;> first | exact ho.elim | trivial
    exact ⟨(others_step sid hother hl).1, fun r _ => (others_step sid hother hl).2 r⟩
  · split
    · rw [Discipline.wp_bind]
      refine wp_dispatchJob (fun q => ⟨trivial, fun _ => rfl⟩) (hend _) fun p hp => ?_
      unfold runCoroutine
      refine wp_others_bind (p := (.op (Op.begin j) .ret : Act Unit)) ⟨hid, fun _ => trivial⟩ hl
        (fun _ => ?_) fun _ => hl
      refine wp_others_bind (others_runner hid hp).attempt hl (fun raised => ?_) fun _ => hl
      refine wp_others_bind (p := (.op (Op.finish j) .ret : Act Unit)) ⟨hid, fun _ => trivial⟩ hl
        (fun _ => ?_) fun _ => hl
      cases raised with
      | none => exact wp_maybeEnqueueRefresh j hl
      | some e => exact wp_afterRaise_other hid e hl
    · exact hend _

/-! #### The worker that has the job -/

lemma retriable_of_core (h : core k = core j) (hj : Retriable sid j) : Retriable sid k := by
  have hkind : k.kind = j.kind := congrArg (fun x => x.kind) h
  have hfiles : k.payload.changedFiles = j.payload.changedFiles :=
    congrArg (fun x => x.payload.changedFiles) h
  have hurl : k.sourceUrl = j.sourceUrl := congrArg (fun x => x.sourceUrl) h
  exact ⟨hkind.trans hj.kind, hfiles ▸ hj.files, hurl ▸ hj.url,
    (sourceId_of_core h).trans hj.source, hj.named⟩

/-- What is written of the job by the task that has it is not refused. -/
lemma wp_persist_mine (hid : j.id = i) (hnf : l ≠ .fresh) (hm : l.mayUpsert sid j)
    {Q : Unit → Stage → Prop} {X : Exc → Stage → Prop} (hQ : Q () (l.upserted j true)) :
    (discipline i sid).wp (persistJob j) Q X l := by
  refine ⟨fun _ => hm, fun (ok : Bool) hok => ?_⟩
  obtain rfl : ok = true := hok hid hnf
  have hafter : after i l (.upsert j) true = l.upserted j true := if_pos hid
  change Q () (after i l (.upsert j) true)
  rw [hafter]
  exact hQ

/-- A run that raises has stored the error it raises as that of the job. -/
lemma wp_runner (hid : j.id = i) (hj : Retriable sid j) (he : j.error = "") :
    (discipline i sid).wp (runIncrementalIndex j)
      (fun _ m => ∃ x, m = .working j.attempts x)
      (fun e m => m = .working j.attempts (some (.failed, e.text))) (.working j.attempts none) := by
  have hphased : Phased (WorkOp j) (StoreOp j) (runIncrementalIndex j) :=
    phased_runIncrementalIndex (fun _ h => h) fun _ h => h
  unfold runIncrementalIndex at hphased ⊢
  rw [Discipline.wp_catching]
  refine Discipline.wp_mono (fun _ m hm => hm) (fun e m hm => ?_) (Phased.wp (D := discipline i sid)
    (I := fun m => m = .working j.attempts none) (J := fun m => ∃ x, m = .working j.attempts x)
    (Phased.of_catching hphased) (fun o ho m hm => ?_) (fun o ho m hm => ?_)
    (fun m hm => ⟨none, hm⟩) rfl)
  · obtain ⟨x, rfl⟩ := hm
    unfold failJob
    rw [Discipline.wp_bind]
    exact wp_persist_mine (l := .working j.attempts x)
      (j := Job.failed e.text { j with status := .running }) hid (by simp)
      ⟨⟨hj.kind, hj.files, hj.url, hj.source, hj.named⟩, rfl, .inr rfl⟩ rfl
  · subst hm
    cases o <;> first
      | exact ho.elim
      | exact ⟨trivial, fun _ _ => rfl⟩
      | skip
    case upsert k =>
      have hret := retriable_of_core ho.core hj
      have hkid : k.id = i := (id_of_core ho.core).trans hid
      refine ⟨fun _ => ⟨hret, ho.attempts, .inl ⟨ho.status, ho.error.trans he, rfl⟩⟩,
        fun ok _ => ?_⟩
      have hafter : after i (.working j.attempts none) (.upsert k) ok =
          Stage.upserted (.working j.attempts none) k ok := if_pos hkid
      refine hafter.trans ?_
      simp [Stage.upserted, ho.status, JobStatus.terminal]
    case background k =>
      exact ⟨fun _ => ⟨_, rfl, retriable_of_core ho.core hj, ho.attempts, ho.status,
        ho.error.trans he⟩, fun _ _ => rfl⟩
  · obtain ⟨x, rfl⟩ := hm
    cases o <;> first
      | exact ho.elim
      | exact ⟨trivial, fun _ _ => ⟨x, rfl⟩⟩
      | skip
    case upsert k =>
      have hkid : k.id = i := (id_of_core ho.1).trans hid
      have hterm : k.status.terminal = true := by
        rcases ho.2.2 with ⟨hst, -⟩ | hst <;> rw [hst] <;> rfl
      refine ⟨fun _ => ⟨retriable_of_core ho.1 hj, ho.2.1, .inr hterm⟩,
        fun ok _ => ⟨some (k.status, k.error), ?_⟩⟩
      have hafter : after i (.working j.attempts x) (.upsert k) ok =
          Stage.upserted (.working j.attempts x) k ok := if_pos hkid
      refine hafter.trans ?_
      simp [Stage.upserted, hterm]

lemma wp_afterRaise (hid : j.id = i) (hj : Retriable sid j) (e : Exc) :
    (discipline i sid).wp (afterRaise j e) (fun _ => Stage.Outside) (fun _ => Stage.Outside)
      (.closing j.attempts (some (.failed, e.text))) := by
  have hret : ∀ st n err, Retriable sid { j with status := st, attempts := n, error := err } :=
    fun _ _ _ => ⟨hj.kind, hj.files, hj.url, hj.source, hj.named⟩
  unfold afterRaise
  rw [if_pos hj.kind]
  refine ⟨fun _ => ⟨_, e, rfl⟩, fun (n : ℕ) _ => ?_⟩
  have hcount : after i (.closing j.attempts (some (.failed, e.text))) (.incrementAttempts j.id) n =
      .counted n := if_pos hid
  change (discipline i sid).wp (if n < maxJobAttempts then _ else _) _ _
    (after i (.closing j.attempts (some (.failed, e.text))) (.incrementAttempts j.id) n)
  rw [hcount]
  split
  · rename_i hlt
    rw [Discipline.wp_bind]
    refine wp_persist_mine (l := .counted n)
      (j := { j with status := .queued, attempts := n, error := "" }) hid (by simp)
      ⟨hret _ _ _, rfl, .inl ⟨hlt, rfl, rfl⟩⟩ ?_
    exact ⟨fun _ => rfl, fun _ _ => .inl (if_pos hid)⟩
  · rename_i hge
    rw [Discipline.wp_bind]
    refine wp_persist_mine (l := .counted n) (j := { j with status := .deadLetter, attempts := n })
      hid (by simp) ⟨hret _ _ _, rfl, .inr ⟨not_lt.1 hge, rfl⟩⟩ ?_
    exact wp_maybeEnqueueRefresh j (.inl rfl)

/-- A run that returns is followed by the promotion of what waits, its attempt uncounted. -/
lemma wp_left {a : ℕ} {x : Option (JobStatus × String)} (hj : j.sourceId ≠ "") :
    (discipline i sid).wp (maybeEnqueueRefresh j) (fun _ => Stage.Outside) (fun _ => Stage.Outside)
      (.closing a x) := by
  have h : (discipline i sid).wp (maybeEnqueueRefresh j) (fun _ => Stage.Outside)
      (fun _ => Stage.Outside) .apart := wp_maybeEnqueueRefresh j (.inl rfl)
  unfold maybeEnqueueRefresh at h ⊢
  rw [if_neg hj] at h ⊢
  exact h

lemma wp_runClaimed (hid : j.id = i) (hj : Retriable sid j) (he : j.error = "") :
    (discipline i sid).wp (runClaimed j) (fun _ => Stage.Outside) (fun _ => Stage.Outside)
      (.read j.attempts) := by
  have hne : j.sourceId ≠ "" := hj.source ▸ hj.named
  unfold runClaimed
  rw [Discipline.wp_bind]
  refine wp_persist_mine (l := .read j.attempts) (j := { j with status := .running }) hid (by simp)
    ⟨⟨hj.kind, hj.files, hj.url, hj.source, hj.named⟩, rfl, rfl, he⟩ ?_
  rw [Discipline.wp_bind]
  refine wp_dispatchAllowed (fun o ho => ?_) fun b => ?_
  · cases o <;> first | exact ho.elim | exact ⟨trivial, fun _ _ => rfl⟩
  · split
    · have hrun : dispatchJob j = pure (some (runIncrementalIndex j)) := by
        unfold dispatchJob
        rw [hj.kind]
        exact if_neg (by simp [hj.files, hj.url, hne])
      rw [hrun]
      change (discipline i sid).wp (runCoroutine j (runIncrementalIndex j)) _ _
        (.started j.attempts)
      unfold runCoroutine
      simp only [Discipline.wp_bind, Discipline.wp_attempt, Discipline.wp_op, Discipline.wp_ret]
      refine ⟨fun _ => ⟨_, rfl⟩, fun r _ => ?_⟩
      have hbegin : after i (.started j.attempts) (.begin j) r = .working j.attempts none :=
        if_pos hid
      rw [hbegin]
      refine Discipline.wp_mono (fun _ m hm => ?_) (fun e m hm => ?_) (wp_runner hid hj he)
      · obtain ⟨x, rfl⟩ := hm
        refine ⟨fun _ => ⟨_, x, rfl⟩, fun r _ => ?_⟩
        have hfinish : after i (.working j.attempts x) (.finish j) r = .closing j.attempts x :=
          if_pos hid
        rw [hfinish]
        exact wp_left hne
      · subst hm
        refine ⟨fun _ => ⟨_, _, rfl⟩, fun r _ => ?_⟩
        have hfinish : after i (.working j.attempts (some (.failed, e.text))) (.finish j) r =
            .closing j.attempts (some (.failed, e.text)) := if_pos hid
        rw [hfinish]
        exact wp_afterRaise hid hj e
    · rw [Discipline.wp_bind]
      exact wp_persist_mine (l := .started j.attempts) (j := j.failed _) hid (by simp) rfl
        (wp_maybeEnqueueRefresh j (.inl rfl))

lemma wp_worker : (discipline i sid).wp worker (fun _ => Stage.Outside) (fun _ => Stage.Outside)
    .apart := by
  refine ⟨rfl, fun (c : Option ℕ) _ => ?_⟩
  cases c with
  | none => exact .inl (by simp [after])
  | some k =>
    by_cases hk : k = i
    · subst hk
      have hclaim : after k .apart .claim (some k) = .claimed := if_pos rfl
      refine ⟨trivial, fun (r : Option Job) hr => ?_⟩
      change (discipline k sid).wp _ _ _ (after k (after k .apart .claim (some k)) (.get k) r)
      change admits k sid (after k .apart .claim (some k)) (.get k) r at hr
      rw [hclaim] at hr ⊢
      obtain ⟨hid, hrow⟩ := hr
      obtain ⟨j, n, rfl, hj, hready⟩ := hrow rfl rfl
      have hget : after k .claimed (.get k) (some j) = .read j.attempts := if_pos rfl
      rw [hget]
      change (discipline k sid).wp (if j.status.terminal = true then pure () else Queue.runClaimed j)
        _ _ _
      rw [hready.status]
      exact wp_runClaimed (hid j rfl) hj hready.error
    · have hclaim : after i .apart .claim (some k) = .apart := if_neg (by simpa using hk)
      refine ⟨trivial, fun (r : Option Job) hr => ?_⟩
      change (discipline i sid).wp _ _ _ (after i (after i .apart .claim (some k)) (.get k) r)
      rw [hclaim]
      have hget : after i .apart (.get k) r = .apart := if_neg hk
      rw [hget]
      cases r with
      | none => exact .inl rfl
      | some j =>
        have hid : j.id ≠ i := by
          have hjk : j.id = k := hr.1 j rfl
          exact hjk ▸ hk
        change (discipline i sid).wp (if j.status.terminal = true then pure ()
          else Queue.runClaimed j) _ _ _
        split
        · exact .inl rfl
        · exact wp_runClaimed_other hid (.inl rfl)

/-! #### Requests -/

/-- What a request submits is a new queued job. -/
def Builds (i : ℕ) (sid : String) (build : Act Job) : Prop :=
  ∀ (Q : Job → Stage → Prop) (X : Exc → Stage → Prop) (l : Stage), l.Outside →
    (∀ j m, Stage.Makes i m j → New j → Q j m) → (discipline i sid).wp build Q X l

lemma builds_newRepoJob (ev : Event) : Builds i sid (newRepoJob ev) :=
  fun _ _ _ hl hQ => ⟨trivial, fun _ _ => hQ _ _ (makes_newJob hl rfl) ⟨rfl, rfl, rfl⟩⟩

lemma builds_incremental (ev : Event) : Builds i sid (buildIncrementalOrFallbackJob ev) := by
  unfold buildIncrementalOrFallbackJob
  split
  · exact builds_newRepoJob ev
  · exact fun _ _ _ hl hQ => ⟨trivial, fun _ _ => hQ _ _ (makes_newJob hl rfl) ⟨rfl, rfl, rfl⟩⟩

lemma builds_submitted (r : Submission) : Builds i sid (buildSubmitted r) :=
  fun _ _ _ hl hQ => ⟨trivial, fun _ _ => hQ _ _ (makes_newJob hl rfl) ⟨rfl, rfl, rfl⟩⟩

lemma wp_persistAndEnqueue {build : Act Job} (h : Builds i sid build) (hl : l.Outside) :
    (discipline i sid).wp (persistAndEnqueue build) (fun _ => Stage.Outside)
      (fun _ => Stage.Outside) l := by
  unfold persistAndEnqueue
  rw [Discipline.wp_bind]
  exact h _ _ l hl fun j m hm hj => wp_place hm hj

lemma wp_waitFor (refresh : ℕ) (hl : l.Makes i j) (hj : New j) :
    (discipline i sid).wp (waitFor refresh j) (fun _ => Stage.Outside) (fun _ => Stage.Outside)
      l := by
  unfold waitFor
  rw [Discipline.wp_bind]
  refine wp_persist_new (j := { j with status := .waiting, payload.afterJob := some refresh }) hl
    hj.attempts hj.error (.inr rfl) hl.1 fun m hm => ?_
  have hout : m.Outside := hm.elim And.left fun h => by cases h.2.1
  refine wp_others_bind (p := get refresh) ⟨trivial, fun _ => trivial⟩ hout (fun r => ?_)
    fun _ => hout
  split
  · exact hout
  · exact wp_of_others (others_promote refresh) hout

/-- The active row of a source is looked up; if it is that of the job, it is incremental. -/
lemma wp_findActive {s : String} {Q : Option Job → Stage → Prop} {X : Exc → Stage → Prop}
    (hQ : ∀ r : Option Job, (∀ k, r = some k → k.id = i → k.kind = .incremental) → Q r l) :
    (discipline i sid).wp (findActiveForSource s) Q X l := by
  unfold findActiveForSource
  split
  · exact hQ none fun k hk => by cases hk
  · exact ⟨trivial, fun r hr => hQ r hr⟩

lemma wp_preempt {build : Act Job} (h : Builds i sid build) (s : String) (hl : l.Outside) :
    (discipline i sid).wp (preemptActiveRefresh s build) (fun _ => Stage.Outside)
      (fun _ => Stage.Outside) l := by
  unfold preemptActiveRefresh
  rw [Discipline.wp_bind]
  refine wp_findActive fun refresh hrefresh => ?_
  cases refresh with
  | none => exact wp_persistAndEnqueue h hl
  | some refresh =>
    change (discipline i sid).wp (if refresh.kind ≠ .resummarize then _ else _) _ _ l
    split
    · exact wp_persistAndEnqueue h hl
    · rename_i hkind
      -- only a refresh is cancelled
      have hid : refresh.id ≠ i := fun hid => hkind (by simp [hrefresh refresh rfl hid])
      rw [Discipline.wp_bind]
      refine h _ _ l hl fun j m hm hj => ⟨hid, fun (cancelled : Bool) _ => ?_⟩
      cases cancelled with
      | true => exact wp_place hm hj
      | false => exact wp_waitFor refresh.id hm hj

lemma wp_accept_after {p : Act Unit} {ev : Event} {n : ℕ} (hl : l.Outside)
    (h : (discipline i sid).wp p (fun _ => Stage.Outside) (fun _ => Stage.Outside) l) :
    (discipline i sid).wp (unlessSaturated (p >>= fun _ => accept ev n)) (fun _ => Stage.Outside)
      (fun _ => Stage.Outside) l := by
  refine wp_others_bind (p := queueDepth) ⟨trivial, fun _ => trivial⟩ hl (fun depth => ?_)
    fun _ => hl
  split
  · exact hl
  · rw [Discipline.wp_bind]
    exact Discipline.wp_mono (fun _ _ hm => wp_of_others (p := accept ev n)
      ⟨trivial, fun _ => trivial⟩ hm) (fun _ _ h => h) h

lemma wp_handleWebhook (ev : Event) (hl : l.Outside) :
    (discipline i sid).wp (handleWebhook ev) (fun _ => Stage.Outside) (fun _ => Stage.Outside)
      l := by
  have haccept : ∀ n, (discipline i sid).wp (accept ev n) (fun _ => Stage.Outside)
      (fun _ => Stage.Outside) l := fun n => wp_of_others ⟨trivial, fun _ => trivial⟩ hl
  refine ⟨trivial, fun (since : ℕ) _ => ⟨trivial, fun (sources : List Source) _ =>
    ⟨trivial, fun (w : ℕ) _ => ?_⟩⟩⟩
  change (discipline i sid).wp (if w = 0 then if (sources.any fun s => s.url = ev.repoUrl) = true
    then webhookExistingSource ev since else webhookNewSource ev since else pure ()) _ _ l
  split
  · split
    · refine wp_others_bind (others_findActive ev.sourceId) hl (fun active => ?_) fun _ => hl
      cases active with
      | none => exact wp_accept_after hl (wp_persistAndEnqueue (builds_incremental ev) hl)
      | some active =>
        change (discipline i sid).wp (if active.kind ≠ .resummarize then _ else _) _ _ l
        split
        · exact haccept since
        · exact wp_accept_after hl (wp_preempt (builds_incremental ev) ev.sourceId hl)
    · refine wp_others_bind (others_findActive ev.sourceId) hl (fun active => ?_) fun _ => hl
      cases active with
      | none => exact wp_accept_after hl (wp_persistAndEnqueue (builds_newRepoJob ev) hl)
      | some active => exact haccept since
  · exact hl

lemma wp_submit (r : Submission) (hl : l.Outside) :
    (discipline i sid).wp (submit r) (fun _ => Stage.Outside) (fun _ => Stage.Outside) l := by
  refine wp_others_bind (p := ask .writable) ⟨trivial, fun _ => trivial⟩ hl (fun w => ?_)
    fun _ => hl
  split
  · refine wp_others_bind (others_findActive r.sourceId) hl (fun active => ?_) fun _ => hl
    cases active with
    | none => exact wp_persistAndEnqueue (builds_submitted r) hl
    | some active =>
      change (discipline i sid).wp (if active.kind ≠ .resummarize then _ else _) _ _ l
      split
      · exact hl
      · exact wp_preempt (builds_submitted r) r.sourceId hl
  · exact hl

lemma wp_retryJob {k : ℕ} (hk : k ≠ i) (hl : l.Outside) :
    (discipline i sid).wp (retryJob k) (fun _ => Stage.Outside) (fun _ => Stage.Outside) l := by
  refine wp_others_bind (p := ask .writable) ⟨trivial, fun _ => trivial⟩ hl (fun w => ?_)
    fun _ => hl
  split
  · refine ⟨trivial, fun (r : Option Job) hr => ?_⟩
    have hget : after i l (.get k) r = l := if_neg hk
    change (discipline i sid).wp _ _ _ (after i l (.get k) r)
    rw [hget]
    cases r with
    | none => exact hl
    | some j =>
      have hid : j.id = k := hr.1 j rfl
      change (discipline i sid).wp (if j.status.terminal = true then _ else _) _ _ l
      split
      · refine wp_of_others (Uses.bind (uses_persistJob ?_) fun _ => ⟨hk, fun _ => trivial⟩) hl
        exact fun h => hk (hid.symm.trans h)
      · exact hl
  · exact hl

/-! #### Rebuilds -/

lemma others_jobBlockers : Uses (Others i) jobBlockers :=
  Uses.bind ⟨trivial, fun _ => trivial⟩ fun _ => Uses.bind ⟨trivial, fun _ => trivial⟩ fun _ => trivial

lemma others_recreateStores : Uses (Others i) recreateStores := by
  refine Uses.bind ⟨trivial, fun _ => trivial⟩ fun r => ?_
  split
  · refine Uses.bind ⟨trivial, fun _ => trivial⟩ fun r => ?_
    split
    · refine Uses.bind ⟨trivial, fun _ => trivial⟩ fun r => ?_
      split
      · exact ⟨trivial, fun _ => trivial⟩
      · trivial
    · trivial
  · trivial

lemma wp_enqueueReindex (g : ℕ) (src : Source) (hl : l.Outside) :
    (discipline i sid).wp (enqueueReindex g src) (fun _ => Stage.Outside) (fun _ => Stage.Outside)
      l := by
  have hkind : Uses (Others i) (resolveReindexKind src) := by
    unfold resolveReindexKind
    split
    · trivial
    · split
      · trivial
      · refine Uses.bind ⟨trivial, fun _ => trivial⟩ fun r => ?_
        split <;> trivial
  unfold enqueueReindex buildSourceReindexJob
  rw [Prog.bind_assoc]
  refine wp_others_bind hkind hl (fun kind => ⟨trivial, fun n _ => ?_⟩) fun _ => hl
  exact wp_place (makes_newJob hl rfl) ⟨rfl, rfl, rfl⟩

lemma wp_rebuild (hl : l.Outside) :
    (discipline i sid).wp rebuild (fun _ => Stage.Outside) (fun _ => Stage.Outside) l := by
  have hunlock : ∀ {α : Type} (e : Exc), Uses (Others i) (unlock >>= fun _ => (.raise e : Act α)) :=
    fun e => Uses.bind ⟨trivial, fun _ => trivial⟩ fun _ => trivial
  refine wp_others_bind (p := listSources) ⟨trivial, fun _ => trivial⟩ hl (fun sources => ?_)
    fun _ => hl
  refine wp_others_bind others_jobBlockers hl (fun blocked => ?_) fun _ => hl
  refine wp_others_bind (p := probeLock) ⟨trivial, fun _ => trivial⟩ hl (fun locked => ?_)
    fun _ => hl
  split
  · exact hl
  · refine ⟨trivial, fun (granted : Bool) _ => ?_⟩
    cases granted with
    | false => exact hl
    | true =>
      refine wp_others_bind (p := .op (Op.createGroup (sources.map Source.id)) .ret)
        ⟨trivial, fun _ => trivial⟩ hl (fun g => ?_) fun _ => hl
      refine wp_others_bind others_jobBlockers hl (fun blocked => ?_) fun _ => hl
      split
      · exact wp_of_others (Uses.bind ⟨trivial, fun _ => trivial⟩ fun _ => hunlock _) hl
      · refine wp_others_bind others_recreateStores hl (fun ok => ?_) fun _ => hl
        split
        · rw [Discipline.wp_bind]
          refine Discipline.wp_mono (fun _ m hm => ?_) (fun _ _ h => h) (Discipline.wp_forEach
            (I := Stage.Outside) (fun src _ m hm => wp_enqueueReindex g src hm) hl)
          exact wp_of_others (p := unlock) ⟨trivial, fun _ => trivial⟩ hm
        · exact wp_of_others (hunlock _) hl

lemma wp_main {e : Entry} (hs : e ≠ .startup) (hr : e ≠ .retry i) :
    (discipline i sid).wp e.main (fun _ => Stage.Outside) (fun _ => Stage.Outside) .apart := by
  have hl : Stage.Outside .apart := .inl rfl
  cases e with
  | worker => exact wp_worker
  | startup => exact (hs rfl).elim
  | webhook ev => exact wp_handleWebhook ev hl
  | submit r => exact wp_submit r hl
  | retry k => exact wp_retryJob (fun hk => hr (hk ▸ rfl)) hl
  | refresh s => exact wp_enqueueIfStale s hl
  | rebuild => exact wp_rebuild hl

end Programs

/-! ### Runs -/

/-- A task that has not to do with the job comes or goes. -/
lemma Inv.records {i : ℕ} {sid : String} {db : Db} {L L' : Tid → Option Stage}
    (h : Inv i sid db L) (hkeep : ∀ u m, L u = some m → ¬m.Outside → L' u = some m)
    (hfrom : ∀ u m, L' u = some m → m = .apart ∨ L u = some m) : Inv i sid db L' := by
  have hapart : (∀ u m, L u = some m → m = .apart) → ∀ u m, L' u = some m → m = .apart :=
    fun hall u m hu => (hfrom u m hu).elim id (hall u m)
  refine ⟨h.single, h.born, fun u hu => ?_, fun u k hk hi => ?_, ?_⟩
  · rcases hfrom u _ hu with hu | hu
    · cases hu
    · exact h.fresh u hu
  · obtain ⟨h1, h2, h3, hu | hu⟩ := h.snap u k hk hi
    · exact ⟨h1, h2, h3, .inl (hkeep u _ hu fun h => h.elim (fun h => (by cases h)) fun h => (by cases h))⟩
    · exact ⟨h1, h2, h3, .inr (hkeep u _ hu fun h => h.elim (fun h => (by cases h)) fun h => (by cases h))⟩
  · cases h.place with
    | unborn hrow hq hn hnew hone =>
      have hfresh : ∀ u, L' u = some .fresh → L u = some .fresh := fun u hu =>
        (hfrom u _ hu).elim (fun h => by cases h) id
      exact .unborn hrow hq hn (fun u m hu => (hfrom u m hu).elim .inl (hnew u m)) fun u v hu hv =>
        hone u v (hfresh u hu) (hfresh v hv)
    | waiting j hrow hj hs he ha hq hn hall => exact .waiting j hrow hj hs he ha hq hn (hapart hall)
    | queued j hrow hj hr hq hall => exact .queued j hrow hj hr hq (hapart hall)
    | held u m j hu hother hrow hj hfits hq =>
      have hin : ¬m.Outside := by
        rintro (rfl | rfl)
        · exact hfits
        · exact hfits
      refine .held u m j (hkeep u m hu hin) (fun v k hv hk => ?_) hrow hj hfits hq
      exact (hfrom v k hk).elim id (hother v k hv)
    | dead j hrow hj hs ha hn hq hall => exact .dead j hrow hj hs ha hn hq (hapart hall)

lemma kept (i : ℕ) (sid : String) : Kept (Raising i sid) Stage.Outside (Inv i sid) where
  main s t e hc := wp_main hc.1 hc.2
  start s t e _ h ht := by
    refine h.records (fun u m hu _ => ?_) fun u m hu => ?_
    · have hut : u ≠ t := fun hut => by rw [hut, ht] at hu; cases hu
      rw [Function.update_of_ne hut, hu]
    · rcases update_cases hu with ⟨-, hm⟩ | ⟨-, hu⟩
      · exact .inl (Option.some.inj hm).symm
      · exact .inr hu
  op s t env o l r db' hc ho hl hm h he := by
    refine h.op hl hm (fun j hj hid => ?_) (fun a x hover => ?_) he
    · subst hj
      obtain ⟨h1, h2, h3, h4⟩ := hc.1 j ho hid
      refine ⟨h1, h2, h3, ?_⟩
      rintro a rfl
      exact h4 a hl
    · subst hover
      have hnext := hc.2 a x hl
      rw [ho] at hnext
      exact Option.some.inj hnext
  stop s t env l _ hl hE h := by
    refine h.records (fun u m hu hm => ?_) fun u m hu => ?_
    · have hut : u ≠ t := by
        rintro rfl
        rw [hl] at hu
        cases hu
        exact hm hE
      rw [Function.update_of_ne hut, hu]
    · rcases update_cases hu with ⟨-, hm⟩ | ⟨-, hu⟩
      · cases hm
      · exact .inr hu
  kill _ _ hc := hc.elim
  own s x st _ h he := by
    cases x with
    | land n => exact h.land he
    | flush n =>
      obtain ⟨-, w, -, rfl⟩ := own_flush he
      cases w <;> exact h.frame h.single (.inl rfl) Iff.rfl rfl (fun _ _ hk _ => hk) le_rfl
    | deleteSource s' =>
      cases he
      exact h.frame h.single (.inl rfl) Iff.rfl rfl (fun _ _ hk _ => hk) le_rfl

/-- Where the job is before anything happens: it is still to be made, or is made and was never
executed. -/
structure Untried (i : ℕ) (sid : String) (db : Db) : Prop where
  single : Single db
  born : ∀ j, db.row i = some j → i < db.nextJob
  background : ∀ u k, (u, k) ∈ db.background → k.id ≠ i
  begun : runs i db = 0
  place : (db.row i = none ∧ i ∉ db.queue) ∨ ∃ j, db.row i = some j ∧ Retriable sid j ∧
    j.attempts = 0 ∧ j.error = "" ∧
      (j.status = .queued ∧ i ∈ db.queue ∨ j.status = .waiting ∧ i ∉ db.queue)

lemma Untried.inv {i : ℕ} {sid : String} {db : Db} (h : Untried i sid db) :
    Inv i sid db fun _ => none := by
  refine ⟨h.single, h.born, fun t ht => (by cases ht), fun u k hk hi =>
    (h.background u k hk hi).elim, ?_⟩
  rcases h.place with ⟨hrow, hq⟩ | ⟨j, hrow, hj, ha, he, ⟨hs, hq⟩ | ⟨hs, hq⟩⟩
  · exact .unborn hrow hq h.begun (fun t l ht => (by cases ht)) fun t u ht => (by cases ht)
  · refine .queued j hrow hj ⟨hs, he, ha.trans h.begun.symm, ?_⟩ hq fun t l ht => (by cases ht)
    rw [h.begun]
    decide
  · exact .waiting j hrow hj hs he ha hq h.begun fun t l ht => (by cases ht)

/-- **Retries of an incremental job** that raises at every attempt: at rest it is a dead letter
that was executed `maxJobAttempts` times, or is in the queue for one of the attempts it has left,
or still waits behind a refresh. Its row counts its executions; where an attempt is about to be
counted the row has failed with the error that was raised, and while the job is queued or running
it has none. -/
theorem retried (i : ℕ) (sid : String) (db : Db) (hdb : Untried i sid db) (s : Sys i sid)
    (hrun : Run (Raising i sid) (initial db) s) :
    runs i s.store ≤ maxJobAttempts ∧
    (s.Quiescent → ∀ j, Db.row s.store i = some j →
      j.status = .deadLetter ∧ j.attempts = maxJobAttempts ∧ runs i s.store = maxJobAttempts ∨
      j.status = .queued ∧ i ∈ Db.queue s.store ∧ j.attempts = runs i s.store ∧
        runs i s.store < maxJobAttempts ∨
      j.status = .waiting ∧ runs i s.store = 0) ∧
    (∀ t, s.nextOp t = some (.incrementAttempts i) → ∃ j, ∃ e : Exc,
      Db.row s.store i = some j ∧ j.status = .failed ∧ j.error = e.text) ∧
    ∀ j, Db.row s.store i = some j → j.status.active = true → j.error = "" := by
  obtain ⟨hinv, hdisc⟩ := (kept i sid).run_initial hrun hdb.inv
  refine ⟨hinv.place.le, fun hq j hj => ?_, fun t ht => ?_, fun j hj ha => ?_⟩
  · have hplace := hinv.place
    rw [hj] at hplace
    cases hplace with
    | unborn hrow => cases hrow
    | waiting k hrow hk hs he ha hq hn => cases hrow; exact .inr (.inr ⟨hs, hn⟩)
    | queued k hrow hk hr hmem =>
      cases hrow
      exact .inr (.inl ⟨hr.status, hmem, hr.attempts, hr.lt⟩)
    | held t l k ht =>
      rw [Machine.records_of_quiescent hq] at ht
      cases ht
    | dead k hrow hk hs ha hn => cases hrow; exact .inl ⟨hs, ha, hn⟩
  · obtain ⟨k, l, hk⟩ := Machine.nextOp_eq_some.1 ht
    have hmay : may i sid l (.incrementAttempts i) := (hdisc _ (Keyed.mem_of_get? hk)).1
    obtain ⟨a, e, rfl⟩ := hmay rfl
    have hl : s.records t = some (.closing a (some (.failed, e.text))) := by simp [State.records, hk]
    obtain ⟨-, -, j, hj, -, htried⟩ := hinv.holder hl (by simp) (by simp)
    obtain ⟨hst, herr⟩ := Prod.mk.inj (Tried.ended htried)
    exact ⟨j, e, hj, hst, herr⟩
  · have hplace := hinv.place
    rw [hj] at hplace
    exact hplace.error_of_active ha

/-! ### An attempt, and the next -/

instance (sid : String) (j : Job) : Decidable (Retriable sid j) :=
  decidable_of_iff (j.kind = .incremental ∧ j.payload.changedFiles ≠ [] ∧ j.sourceUrl ≠ "" ∧
    j.sourceId = sid ∧ sid ≠ "") ⟨fun ⟨h1, h2, h3, h4, h5⟩ => ⟨h1, h2, h3, h4, h5⟩,
    fun h => ⟨h.kind, h.files, h.url, h.source, h.named⟩⟩

/-- A sufficient condition that can be run. -/
def raising {i : ℕ} {sid : String} (s : Sys i sid) : Label machine → Bool
  | .start _ e => e ≠ .startup && e ≠ .retry i
  | .run t _ =>
    (match s.nextOp t with
      | some (.upsert j) => j.id ≠ i || (Retriable sid j && !Db.conflicts s.store j &&
          (Db.background s.store).isEmpty && match s.records t with
            | some (.started _) => false
            | _ => true)
      | _ => true) &&
    match s.records t with
      | some (.closing _ _) => s.nextOp t = some (.incrementAttempts i)
      | _ => true
  | .kill _ => false
  | .own _ => true

lemma raising_iff {i : ℕ} {sid : String} (s : Sys i sid) (l : Label machine)
    (h : raising s l = true) : Raising i sid s l := by
  cases l with
  | start t e =>
    simp only [raising, Bool.and_eq_true, decide_eq_true_eq] at h
    exact h
  | run t env =>
    simp only [raising, Bool.and_eq_true] at h
    obtain ⟨hup, hover⟩ := h
    refine ⟨fun j hj hid => ?_, fun a x ha => ?_⟩
    · rw [hj] at hup
      simp only [Bool.or_eq_true, Bool.and_eq_true, decide_eq_true_eq, Bool.not_eq_true',
        List.isEmpty_iff] at hup
      obtain ⟨⟨⟨hret, hc⟩, hb⟩, hst⟩ := hup.resolve_left fun hne => hne hid
      refine ⟨fun _ => hret, fun _ _ => hc, fun _ u k hk => ?_, fun a ha => ?_⟩
      · rw [hb] at hk
        cases hk
      · rw [ha] at hst
        cases hst
    · rw [ha] at hover
      simpa using hover
  | kill p => cases h
  | own x => trivial

def registered : Db :=
  { empty with sources := Keyed.empty.put ⟨"s", .repo, "", "https://git/s", "main"⟩ }

/-- A push that modifies a file. -/
def merged : Event := ⟨"https://git/s", "main", "s", [⟨.rel ["a.py"], .modified⟩]⟩

lemma untried_registered : Untried 0 "s" registered :=
  ⟨fun _ _ _ _ h => (by cases h), fun _ h => (by cases h), fun _ _ h => (by cases h), rfl,
    .inl ⟨rfl, fun h => by cases h⟩⟩

/-- The clone fails, and the worker counts the attempt. -/
def attempt (n : ℕ) : List (Label machine) :=
  .start ⟨0, n⟩ .worker :: steps ⟨0, n⟩ 7 ++ .run ⟨0, n⟩ 1 :: steps ⟨0, n⟩ 5

/-- A job that fails three times is a dead letter. -/
theorem dead_after_three_attempts : ∃ s : Sys 0 "s", Run (Raising 0 "s") (initial registered) s ∧
    s.Quiescent ∧ 0 ∉ Db.queue s.store ∧ ∃ j, Db.row s.store 0 = some j ∧
      j.status = .deadLetter ∧ runs 0 s.store = maxJobAttempts := by
  have h : (((initial registered : Sys 0 "s").runChecked raising
      (.start ⟨1, 0⟩ (.webhook merged) :: steps ⟨1, 0⟩ 10 ++ attempt 0 ++ steps ⟨0, 0⟩ 1 ++
        attempt 1 ++ steps ⟨0, 1⟩ 1 ++ attempt 2 ++ .run ⟨0, 2⟩ 1 :: steps ⟨0, 2⟩ 1)).map fun s =>
      (decide s.Quiescent, decide (0 ∉ (Db.queue s.store).rows),
        (Db.row s.store 0).map fun j => decide (j.status = .waiting))) =
      some (true, true, some false) := by decide
  obtain ⟨s, hs, hx⟩ := Option.map_eq_some_iff.1 h
  simp only [Prod.mk.injEq, decide_eq_true_eq] at hx
  obtain ⟨hq, hmem, hrow⟩ := hx
  obtain ⟨j, hj, hw⟩ := Option.map_eq_some_iff.1 hrow
  have hrun := Machine.run_of_runChecked raising_iff hs
  refine ⟨s, hrun, hq, hmem, j, hj, ?_⟩
  rcases (retried 0 "s" registered untried_registered s hrun).2.1 hq j hj with
    ⟨hst, -, hn⟩ | ⟨-, hin, -⟩ | ⟨hst, -⟩
  · exact ⟨hst, hn⟩
  · exact absurd hin hmem
  · rw [hst] at hw
    cases hw

/-- A job that is queued again carries no error. -/
theorem requeued_without_error : ¬∀ (i : ℕ) (sid : String) (db : Db) (s : Sys i sid),
    Untried i sid db → Run (Raising i sid) (initial db) s → ∀ j, Db.row s.store i = some j →
      1 ≤ runs i s.store → j.status ≠ .done → ∃ e : Exc, j.error = e.text := by
  intro hclaim
  have h : (((initial registered : Sys 0 "s").runChecked raising
      (.start ⟨1, 0⟩ (.webhook merged) :: steps ⟨1, 0⟩ 10 ++ attempt 0)).map fun s =>
      (runs 0 s.store, (Db.row s.store 0).map fun j => (j.status, j.error))) =
      some (1, some (.queued, "")) := by decide
  obtain ⟨s, hs, hx⟩ := Option.map_eq_some_iff.1 h
  obtain ⟨hn, hrow⟩ := Prod.mk.inj hx
  obtain ⟨j, hj, hst⟩ := Option.map_eq_some_iff.1 hrow
  obtain ⟨hst, herr⟩ := Prod.mk.inj hst
  obtain ⟨e, he⟩ := hclaim 0 "s" registered s untried_registered
    (Machine.run_of_runChecked raising_iff hs) j hj hn.ge (by rw [hst]; simp)
  rw [herr] at he
  cases e <;> simp [Exc.text] at he

end Treeweft.Retry
