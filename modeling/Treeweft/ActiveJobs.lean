import Treeweft.TerminalStatus
import Treeweft.UniqueIndex

/-!
Whether a queued or running job can be left to nobody.

The status of a job and its place in the queue are two tables. A job that says it is queued or
running is in the queue, or some task has it: a worker from its claim to the end of the run, a
request from the upsert to the enqueue. Two things can break that: a cancellation that takes a
running job out of the queue, and progress that lands after the end of its run.
-/

namespace Treeweft.ActiveJobs

open Treeweft.Jobs Treeweft.JobStore Treeweft.Runners Treeweft.PromptRefresh Treeweft.Queue
open Treeweft.Service Treeweft.IndexGuard Treeweft.TerminalStatus Treeweft.UniqueIndex
open Machine (State Label Run Kept initial)

/-- The rows a task has read or written, by id and source; the id it has for a new job; the job it
has to see into the queue or to its end, and the job it runs. -/
structure Hand where
  known : List (ℕ × String)
  fresh : Option ℕ
  owns : Option ℕ
  works : Option ℕ
  deriving DecidableEq, Repr

def drop (o : Option ℕ) (i : ℕ) : Option ℕ := if o = some i then none else o

/-- A row that was written as active is the task's to look after, a terminal one no more. Where the
upsert is refused another job has the source, and this one is not active. -/
def Hand.afterUpsert (l : Hand) (j : Job) (ok : Bool) : Hand :=
  if ok then
    ⟨(j.id, j.sourceId) :: l.known, drop l.fresh j.id,
      if j.status.active then some j.id else if j.status.terminal then drop l.owns j.id else l.owns,
      if j.status.terminal then drop l.works j.id else l.works⟩
  else { l with owns := drop l.owns j.id }

def after (l : Hand) : (o : Op) → o.Answer → Hand
  | .claim, r => { l with owns := r }
  | .get i, r => match (r : Option Job) with
    | none => { l with owns := drop l.owns i }
    | some j =>
      { l with
        known := (i, j.sourceId) :: l.known
        owns := if j.status.active then l.owns else drop l.owns i }
  | .listByStatus _, r =>
    { l with known := (r : List Job).map (fun j => (j.id, j.sourceId)) ++ l.known }
  | .newJob, r => { l with fresh := some (r : ℕ × ℕ).1 }
  | .upsert j, r => l.afterUpsert j r
  | .enqueue i, _ => { l with owns := drop l.owns i }
  | .begin j, _ => { l with works := some j.id }
  | _, _ => l

def Hand.Knows (l : Hand) (j : Job) : Prop := (j.id, j.sourceId) ∈ l.known

/-- A task writes rows it has read, or new ones, and looks after one job at a time. -/
def may (l : Hand) : Op → Prop
  | .claim => l.owns = none
  | .upsert j => (l.Knows j ∨ l.fresh = some j.id) ∧ (l.owns = none ∨ l.owns = some j.id)
  | .background j => l.Knows j ∧ (j.status.active = true → l.works = some j.id)
  | .begin _ => l.works = none
  | _ => True

def admits : (o : Op) → o.Answer → Prop
  | .get i, r => ∀ j, (r : Option Job) = some j → j.id = i
  | .upsert j, r => j.status.active = false → r = true
  | _, _ => True

abbrev discipline : Discipline sig := ⟨Hand, ⟨[], none, none, none⟩, may, fun _ => admits, after⟩

abbrev Sys := State machine discipline

def Hand.Holds (l : Hand) (i : ℕ) : Prop := l.owns = some i ∨ l.works = some i

/-- The task has the job: it has claimed it and not come to its end, or has written its row and
not yet enqueued it. -/
def Holds (s : Sys) (t : Tid) (i : ℕ) : Prop := ∃ l, s.records t = some l ∧ l.Holds i

/-- No process dies. A job that is cancelled in the queue says that it is queued, if it has not
ended; and progress lands before the end of its run. -/
def Careful (s : Sys) : Label machine → Prop
  | .kill _ => False
  | .run t env => LandsFirst s (.run t env) ∧ ∀ i, s.nextOp t = some (.cancelIfQueued i) →
      i ∈ Db.queue s.store → ∀ j, Db.row s.store i = some j →
        j.status = .queued ∨ j.status.terminal = true
  | _ => True

/-! ### The invariant -/

structure Inv (db : Db) (L : Tid → Option Hand) : Prop where
  backed : ∀ i j, db.row i = some j → j.status.active = true →
    i ∈ db.queue ∨ ∃ t l, L t = some l ∧ l.Holds i
  left : ∀ t k, (t, k) ∈ db.background → (∃ j, db.row k.id = some j ∧ j.sourceId = k.sourceId) ∧
    (k.status.active = true → ∃ l, L t = some l ∧ l.works = some k.id)
  single : Single db
  known : ∀ t l i s, L t = some l → (i, s) ∈ l.known → ∃ j, db.row i = some j ∧ j.sourceId = s
  fresh : ∀ t l i, L t = some l → l.fresh = some i → db.row i = none ∧ i < db.nextJob
  distinct : ∀ t u l m i, L t = some l → L u = some m → l.fresh = some i → m.fresh = some i → t = u
  numbered : ∀ i j, db.row i = some j → i < db.nextJob

lemma drop_eq_some {o : Option ℕ} {i k : ℕ} : drop o i = some k ↔ o = some k ∧ k ≠ i := by
  unfold drop
  split
  · rename_i h
    rw [h]
    constructor
    · exact fun h => by cases h
    · rintro ⟨h, hne⟩
      exact absurd (Option.some.inj h).symm hne
  · rename_i h
    constructor
    · intro ho
      refine ⟨ho, ?_⟩
      rintro rfl
      exact h ho
    · exact And.left

section Inv
variable {db db' : Db} {L : Tid → Option Hand} {t : Tid} {l l' : Hand}

/-- Who holds a job still does, unless it is the task that moves. -/
lemma held_update {i : ℕ} (hl : L t = some l) (h : ∃ u m, L u = some m ∧ m.Holds i) :
    l.Holds i ∨ ∀ x, ∃ u m, Function.update L t x u = some m ∧ m.Holds i := by
  obtain ⟨u, m, hu, hm⟩ := h
  by_cases hut : u = t
  · subst hut
    rw [hl] at hu
    cases hu
    exact .inl hm
  · exact .inr fun x => ⟨u, m, by rw [Function.update_of_ne hut, hu], hm⟩

lemma held_self {i : ℕ} (h : l'.Holds i) :
    ∃ u m, Function.update L t (some l') u = some m ∧ m.Holds i :=
  ⟨t, l', Function.update_self .., h⟩

/-- A task moves, and the rows stay. -/
lemma Inv.move (h : Inv db L) (hl : L t = some l) (hj : db'.jobs = db.jobs)
    (hq : ∀ i, i ∈ db.queue → i ∈ db'.queue ∨ l'.Holds i)
    (hb : ∀ x ∈ db'.background, x ∈ db.background ∨
      ∃ j, x = (t, j) ∧ l.Knows j ∧ (j.status.active = true → l.works = some j.id))
    (hn : db.nextJob ≤ db'.nextJob)
    (hhold : ∀ i j, l.Holds i → db.row i = some j → j.status.active = true →
      l'.Holds i ∨ i ∈ db'.queue)
    (hworks : ∀ i, l.works = some i → l'.works = some i)
    (hknown : ∀ i s, (i, s) ∈ l'.known → (i, s) ∈ l.known ∨ ∃ j, db.row i = some j ∧ j.sourceId = s)
    (hfresh : l'.fresh = l.fresh ∨ l'.fresh = some db.nextJob ∧ db.nextJob < db'.nextJob) :
    Inv db' (Function.update L t (some l')) where
  backed i j hi ha := by
    rw [row_congr hj] at hi
    rcases h.backed i j hi ha with hmem | hheld
    · exact (hq i hmem).imp_right held_self
    · rcases held_update hl hheld with hown | hother
      · exact (hhold i j hown hi ha).symm.imp_right held_self
      · exact .inr (hother _)
  left u k hk := by
    rw [row_congr hj]
    rcases hb _ hk with hk | ⟨j, hkj, hknows, hw⟩
    · refine ⟨(h.left u k hk).1, fun ha => ?_⟩
      obtain ⟨m, hm, hmw⟩ := (h.left u k hk).2 ha
      by_cases hut : u = t
      · subst hut
        rw [hl] at hm
        cases hm
        exact ⟨l', Function.update_self .., hworks _ hmw⟩
      · exact ⟨m, by rw [Function.update_of_ne hut, hm], hmw⟩
    · obtain ⟨rfl, rfl⟩ := Prod.mk.inj hkj
      exact ⟨h.known u l _ _ hl hknows, fun ha => ⟨l', Function.update_self .., hworks _ (hw ha)⟩⟩
  single i k j r hi hk := h.single i k j r (row_congr hj i ▸ hi) (row_congr hj k ▸ hk)
  known u m i s hu hm := by
    rw [row_congr hj]
    rcases update_cases hu with ⟨rfl, hm'⟩ | ⟨-, hu⟩
    · cases hm'
      exact (hknown i s hm).elim (h.known u l i s hl) id
    · exact h.known u m i s hu hm
  fresh u m i hu hm := by
    rw [row_congr hj]
    rcases update_cases hu with ⟨rfl, hm'⟩ | ⟨-, hu⟩
    · cases hm'
      rcases hfresh with hf | ⟨hf, hlt⟩
      · exact ⟨(h.fresh u l i hl (hf ▸ hm)).1, (h.fresh u l i hl (hf ▸ hm)).2.trans_le hn⟩
      · rw [hf] at hm
        cases hm
        refine ⟨?_, hlt⟩
        cases hrow : db.row db.nextJob with
        | none => rfl
        | some j => exact absurd (h.numbered _ j hrow) (lt_irrefl _)
    · exact ⟨(h.fresh u m i hu hm).1, (h.fresh u m i hu hm).2.trans_le hn⟩
  distinct u v m m' i hu hv hm hm' := by
    -- a number that has just been given out is nobody else's
    have hnew : ∀ w k, L w = some k → k.fresh = some i → l'.fresh = some i → w = t := by
      intro w k hw hk hi
      rcases hfresh with hf | ⟨hf, -⟩
      · exact h.distinct w t k l i hw hl hk (hf ▸ hi)
      · rw [hf] at hi
        cases hi
        exact absurd (h.fresh w k _ hw hk).2 (lt_irrefl _)
    rcases update_cases hu with ⟨hut, hl'⟩ | ⟨-, hu'⟩ <;>
      rcases update_cases hv with ⟨hvt, hl''⟩ | ⟨-, hv'⟩
    · exact hut.trans hvt.symm
    · cases hl'
      exact hut.trans (hnew v m' hv' hm' hm).symm
    · cases hl''
      exact (hnew u m hu' hm hm').trans hvt.symm
    · exact h.distinct u v m m' i hu' hv' hm hm'
  numbered i j hi := (h.numbered i j (row_congr hj i ▸ hi)).trans_le hn

/-- The row of a job a task may write has the job's source, or is not there yet. -/
lemma Inv.source (h : Inv db L) (hl : L t = some l) {j r : Job}
    (hm : l.Knows j ∨ l.fresh = some j.id) (hr : db.row j.id = some r) : r.sourceId = j.sourceId := by
  rcases hm with hm | hm
  · obtain ⟨r', hr', hs⟩ := h.known t l _ _ hl hm
    rw [hr] at hr'
    cases hr'
    exact hs
  · rw [(h.fresh t l _ hl hm).1] at hr
    cases hr

/-- A row is written. -/
lemma Inv.put (h : Inv db L) {j : Job} (hc : db.conflicts j = false)
    (hsrc : ∀ r, db.row j.id = some r → r.sourceId = j.sourceId) (hnum : j.id < db.nextJob)
    {L' : Tid → Option Hand}
    (hself : j.status.active = true → ∃ u m, L' u = some m ∧ m.Holds j.id)
    (hheld : ∀ i, i ≠ j.id → (∃ u m, L u = some m ∧ m.Holds i) → ∃ u m, L' u = some m ∧ m.Holds i)
    (hleft : ∀ u k, (u, k) ∈ db.background → k.status.active = true →
      ∃ m, L' u = some m ∧ m.works = some k.id)
    (hknown : ∀ u m i s, L' u = some m → (i, s) ∈ m.known →
      (i = j.id ∧ s = j.sourceId) ∨ ∃ m', L u = some m' ∧ (i, s) ∈ m'.known)
    (hfresh : ∀ u m i, L' u = some m → m.fresh = some i →
      i ≠ j.id ∧ ∃ m', L u = some m' ∧ m'.fresh = some i) : Inv (db.put j) L' where
  backed i r hi ha := by
    rw [row_put] at hi
    split at hi
    · rename_i hij
      cases hi
      exact .inr (hij ▸ hself ha)
    · rename_i hij
      exact (h.backed i r hi ha).imp_right (hheld i hij)
  left u k hk := by
    refine ⟨?_, hleft u k hk⟩
    obtain ⟨r, hr, hs⟩ := (h.left u k hk).1
    rw [row_put]
    split
    · rename_i hkj
      exact ⟨_, rfl, (hsrc r (hkj ▸ hr)).symm.trans hs⟩
    · exact ⟨r, hr, hs⟩
  single := single_put h.single hc
  known u m i s hu hm := by
    rw [row_put]
    rcases hknown u m i s hu hm with ⟨rfl, rfl⟩ | ⟨m', hu', hm'⟩
    · exact ⟨_, if_pos rfl, rfl⟩
    · obtain ⟨r, hr, hs⟩ := h.known u m' i s hu' hm'
      split
      · rename_i hij
        exact ⟨_, rfl, (hsrc r (hij ▸ hr)).symm.trans hs⟩
      · exact ⟨r, hr, hs⟩
  fresh u m i hu hm := by
    obtain ⟨hij, m', hu', hm'⟩ := hfresh u m i hu hm
    rw [row_put, if_neg hij]
    exact h.fresh u m' i hu' hm'
  distinct u v m k i hu hv hm hk := by
    obtain ⟨-, m', hu', hm'⟩ := hfresh u m i hu hm
    obtain ⟨-, k', hv', hk'⟩ := hfresh v k i hv hk
    exact h.distinct u v m' k' i hu' hv' hm' hk'
  numbered i r hi := by
    rw [row_put] at hi
    split at hi
    · rename_i hij
      exact hij ▸ hnum
    · exact h.numbered i r hi

/-- The row of another task's new job is not written. -/
lemma Inv.fresh_ne (h : Inv db L) (hl : L t = some l) {j : Job}
    (hm : l.Knows j ∨ l.fresh = some j.id) {u : Tid} (hut : u ≠ t) {m : Hand} {i : ℕ}
    (hu : L u = some m) (hi : m.fresh = some i) : i ≠ j.id := by
  rintro rfl
  rcases hm with hm | hm
  · obtain ⟨r, hr, -⟩ := h.known t l _ _ hl hm
    rw [(h.fresh u m _ hu hi).1] at hr
    cases hr
  · exact hut (h.distinct u t m l _ hu hl hi hm)

lemma Inv.upsert (h : Inv db L) (hl : L t = some l) {j : Job}
    (hm : l.Knows j ∨ l.fresh = some j.id) (ho : l.owns = none ∨ l.owns = some j.id)
    (hland : j.status.terminal = true → ∀ k, (t, k) ∈ db.background → k.status.terminal = true)
    {ok : Bool} {env : ℕ} (he : exec db t env (.upsert j) = some (ok, db')) :
    Inv db' (Function.update L t (some (l.afterUpsert j ok))) := by
  have hnum : j.id < db.nextJob := by
    rcases hm with hm | hm
    · obtain ⟨r, hr, -⟩ := h.known t l _ _ hl hm
      exact h.numbered _ r hr
    · exact (h.fresh t l _ hl hm).2
  rcases exec_upsert he with ⟨-, ⟨rfl, hconf, rfl⟩ | ⟨rfl, hconf, rfl⟩⟩
  · refine h.put hconf (fun r hr => h.source hl hm hr) hnum (fun ha => ?_) (fun i hi hheld => ?_)
      (fun u k hk ha => ?_) (fun u m i s hu hmem => ?_) fun u m i hu hi => ?_
    · refine held_self (.inl ?_)
      simp [Hand.afterUpsert, ha]
    · rcases held_update hl hheld with hown | hother
      · refine held_self (hown.imp (fun hown => ?_) fun hown => ?_)
        · rcases ho with ho | ho
          · rw [ho] at hown
            cases hown
          · exact absurd (Option.some.inj (ho.symm.trans hown)).symm hi
        · simp only [Hand.afterUpsert, if_true]
          split
          · exact drop_eq_some.2 ⟨hown, hi⟩
          · exact hown
      · exact hother _
    · obtain ⟨m, hu, hw⟩ := (h.left u k hk).2 ha
      by_cases hut : u = t
      · subst hut
        rw [hl] at hu
        cases hu
        refine ⟨_, Function.update_self .., ?_⟩
        simp only [Hand.afterUpsert, if_true]
        split
        · rename_i hterm
          rw [inactive_of_terminal (hland hterm k hk)] at ha
          cases ha
        · exact hw
      · exact ⟨m, by rw [Function.update_of_ne hut, hu], hw⟩
    · rcases update_cases hu with ⟨rfl, hm'⟩ | ⟨-, hu⟩
      · cases hm'
        rcases List.mem_cons.1 hmem with hmem | hmem
        · exact .inl (Prod.mk.inj hmem)
        · exact .inr ⟨l, hl, hmem⟩
      · exact .inr ⟨m, hu, hmem⟩
    · rcases update_cases hu with ⟨rfl, hm'⟩ | ⟨hut, hu⟩
      · cases hm'
        obtain ⟨hf, hne⟩ := drop_eq_some.1 hi
        exact ⟨hne, l, hl, hf⟩
      · exact ⟨h.fresh_ne hl hm hut hu hi, m, hu, hi⟩
  · -- refused: another active row has the source, so this one is not active
    refine h.move hl rfl (fun i hi => .inl hi) (fun x hx => .inl hx) le_rfl
      (fun i r hown hr ha => .inl ?_) (fun i hi => hi) (fun i s hi => .inl hi) (.inl rfl)
    refine hown.imp_left fun hown => drop_eq_some.2 ⟨hown, ?_⟩
    rintro rfl
    simp only [Db.conflicts, Bool.and_eq_true, decide_eq_true_eq, List.any_eq_true] at hconf
    obtain ⟨⟨-, hne⟩, x, hx, ⟨hxid, hxa⟩, hxs⟩ := hconf
    have hs := h.source hl hm hr
    exact hxid (h.single _ _ x r (Keyed.get?_of_mem hx) hr hxa ha (hxs.trans hs.symm)
      (hxs ▸ hne))

/-- Rows are rewritten, and no task takes or gives up a job. -/
lemma Inv.rewrite (h : Inv db L)
    (hrow : ∀ i r', db'.row i = some r' → ∃ r, db.row i = some r ∧ r'.sourceId = r.sourceId ∧
      (r'.status.active = true → r.status.active = true ∨ i ∈ db'.queue))
    (hrow' : ∀ i r, db.row i = some r → ∃ r', db'.row i = some r' ∧ r'.sourceId = r.sourceId)
    (hq : ∀ i, i ∈ db.queue → i ∈ db'.queue ∨ ∀ r, db'.row i = some r → r.status.active = false)
    (hb : db'.background = db.background) (hs : Single db') (hn : db'.nextJob = db.nextJob) :
    Inv db' L where
  backed i r' hi ha := by
    obtain ⟨r, hr, -, hact⟩ := hrow i r' hi
    rcases hact ha with hra | hmem
    · rcases h.backed i r hr hra with hmem | hheld
      · rcases hq i hmem with hmem | hnone
        · exact .inl hmem
        · rw [hnone r' hi] at ha
          cases ha
      · exact .inr hheld
    · exact .inl hmem
  left u k hk := by
    rw [hb] at hk
    refine ⟨?_, (h.left u k hk).2⟩
    obtain ⟨r, hr, hrs⟩ := (h.left u k hk).1
    obtain ⟨r', hr', hs'⟩ := hrow' _ r hr
    exact ⟨r', hr', hs'.trans hrs⟩
  single := hs
  known u m i s hu hm := by
    obtain ⟨r, hr, hrs⟩ := h.known u m i s hu hm
    obtain ⟨r', hr', hs'⟩ := hrow' _ r hr
    exact ⟨r', hr', hs'.trans hrs⟩
  fresh u m i hu hm := by
    obtain ⟨hnone, hlt⟩ := h.fresh u m i hu hm
    refine ⟨?_, hn ▸ hlt⟩
    cases hi : db'.row i with
    | none => rfl
    | some r' =>
      obtain ⟨r, hr, -⟩ := hrow i r' hi
      rw [hnone] at hr
      cases hr
  distinct := h.distinct
  numbered i r' hi := by
    obtain ⟨r, hr, -⟩ := hrow i r' hi
    exact hn ▸ h.numbered i r hr

lemma Inv.calm (h : Inv db L) (hc : Calms db db')
    (hrow : ∀ i r, db.row i = some r → ∃ r', db'.row i = some r' ∧ r'.sourceId = r.sourceId)
    (hq : ∀ i, i ∈ db.queue → i ∈ db'.queue ∨ ∀ r, db'.row i = some r → r.status.active = false)
    (hb : db'.background = db.background) (hn : db'.nextJob = db.nextJob) : Inv db' L := by
  refine h.rewrite (fun k r' hk => ?_) hrow hq hb (hc.single h.single) hn
  obtain ⟨r, hr, hs, ha⟩ := hc k r' hk
  exact ⟨r, hr, hs, fun h => .inl (ha h)⟩

lemma Inv.increment (h : Inv db L) {i n env : ℕ}
    (he : exec db t env (.incrementAttempts i) = some (n, db')) : Inv db' L := by
  obtain ⟨-, rfl⟩ := exec_increment he
  exact h.calm (calms_modify i Job.tried_id (fun _ => rfl) fun _ ha => ha)
    (fun k r hk => modify_of_row i _ (fun _ => rfl) hk) (fun _ hk => .inl hk) rfl rfl

lemma Inv.relink (h : Inv db L) (ids : List ℕ) (target : ℕ) :
    Inv ((db.setAfter ids target).endTransaction t) L :=
  h.calm (calms_setAfter ids target) (fun _ _ hk => setAfter_of_row ids target hk)
    (fun _ hk => .inl hk) rfl rfl

/-- A job that is cancelled in the queue is not active after that. -/
lemma cancelled_row {i : ℕ} (hc : ∀ j, db.row i = some j → j.status = .queued ∨ j.status.terminal = true)
    {r' : Job} (hr : (db.modify i Job.cancelled Job.cancelled_id).row i = some r') :
    r'.status.terminal = true := by
  obtain ⟨r, hrow, ⟨hne, -⟩ | ⟨-, rfl⟩⟩ := row_of_modify hr
  · exact absurd rfl hne
  · unfold Job.cancelled
    split
    · rfl
    · rename_i hq
      exact (hc r hrow).resolve_left hq

lemma Inv.cancel (h : Inv db L) {i env : ℕ} {ok : Bool}
    (hc : i ∈ db.queue → ∀ j, db.row i = some j → j.status = .queued ∨ j.status.terminal = true)
    (he : exec db t env (.cancelIfQueued i) = some (ok, db')) : Inv db' L := by
  rcases (exec_cancel he).2 with ⟨rfl, hi, rfl⟩ | ⟨rfl, -, rfl⟩
  · refine h.calm (calms_modify i Job.cancelled_id sourceId_cancelled fun _ =>
      active_of_cancelled) (fun k r hk => modify_of_row i Job.cancelled_id sourceId_cancelled hk)
      (fun k hk => ?_) rfl rfl
    by_cases hki : k = i
    · exact .inr fun r hr => inactive_of_terminal (cancelled_row (hc hi) (hki ▸ hr))
    · exact .inl (Keyed.mem_erase.2 ⟨hk, hki⟩)
  · exact h

lemma Inv.promote (h : Inv db L) {n first env : ℕ} {rest : List ℕ} {p : Promotion}
    (he : exec db t env (.promote n first rest) = some (p, db')) : Inv db' L := by
  have hend : Inv (db.endTransaction t) L :=
    ⟨h.backed, h.left, h.single, h.known, h.fresh, h.distinct, h.numbered⟩
  rcases exec_promote he with ⟨-, -, rfl⟩ | ⟨j, hj, hw, ⟨-, -, rfl⟩ | ⟨-, hconf, rfl⟩⟩
  · exact hend
  · exact hend
  · refine h.rewrite (fun k r' hk => ?_) (fun k r hk => ?_)
      (fun k hk => .inl (mem_enqueue_of_mem hk)) rfl
      ((calms_promoted rest hj).single (single_put h.single hconf)) rfl
    · obtain ⟨x, hx, hrx⟩ := row_of_setAfter hk
      obtain ⟨r, hr, ⟨-, rfl⟩ | ⟨rfl, rfl⟩⟩ := row_of_modify hx
      · refine ⟨x, hr, ?_⟩
        rcases hrx with rfl | rfl <;> exact ⟨rfl, fun ha => .inl ha⟩
      · refine ⟨r, hr, ?_, fun _ => .inr mem_enqueue_self⟩
        rcases hrx with rfl | rfl <;> rfl
    · obtain ⟨x, hx, hxs⟩ := modify_of_row first Job.promoted_id (fun _ => rfl) hk
      obtain ⟨r', hr', hs⟩ := setAfter_of_row rest first hx
      exact ⟨r', hr', hs.trans hxs⟩

/-- Progress lands, and its run is not over. -/
lemma Inv.land (h : Inv db L) {n : ℕ} (he : own db (.land n) = some db') : Inv db' L := by
  obtain ⟨u, k, hk, -, hput⟩ := own_land he
  have hmem := List.mem_of_getElem? hk
  have hless : Inv { db with background := db.background.eraseIdx n } L :=
    ⟨h.backed, fun v m hm => h.left v m (List.mem_of_mem_eraseIdx hm), h.single, h.known, h.fresh,
      h.distinct, h.numbered⟩
  obtain ⟨r, hr, hs⟩ := (h.left u k hmem).1
  rcases hput with ⟨-, rfl⟩ | ⟨hconf, rfl⟩
  · exact hless
  · refine hless.put hconf (fun x hx => ?_) (h.numbered _ r hr) (fun ha => ?_) (fun _ _ hheld => hheld)
      (fun v m hm ha => (hless.left v m hm).2 ha) (fun v m i s hv hm => .inr ⟨m, hv, hm⟩)
      fun v m i hv hi => ⟨?_, m, hv, hi⟩
    · have hx : db.row k.id = some x := hx
      rw [hr] at hx
      cases hx
      exact hs
    · obtain ⟨m, hm, hw⟩ := (h.left u k hmem).2 ha
      exact ⟨u, m, hm, .inr hw⟩
    · rintro rfl
      rw [(h.fresh v m _ hv hi).1] at hr
      cases hr

/-- What a task does to other tables, or only to its place in the queue. -/
lemma Inv.frame (h : Inv db L) (hl : L t = some l) {env : ℕ} {o : Op} {r : o.Answer}
    (he : exec db t env o = some (r, db')) (hw : writesJobs o = false) (hq : db'.queue = db.queue)
    (hb : ∀ j, o ≠ .background j) (hn : db'.nextJob = db.nextJob)
    (hhold : ∀ i j, l.Holds i → db.row i = some j → j.status.active = true → l'.Holds i)
    (hworks : l'.works = l.works) (hfresh : l'.fresh = l.fresh)
    (hknown : ∀ i s, (i, s) ∈ l'.known → (i, s) ∈ l.known ∨ ∃ j, db.row i = some j ∧ j.sourceId = s) :
    Inv db' (Function.update L t (some l')) := by
  refine h.move hl (jobs_of_exec he hw) (fun i hi => .inl (hq ▸ hi)) (fun x hx => .inl ?_) hn.ge
    (fun i j hi hj ha => .inl (hhold i j hi hj ha)) (fun i hi => hworks.trans hi) hknown
    (.inl hfresh)
  exact (background_of_exec he hx).resolve_right fun ⟨j, hj, _⟩ => hb j hj

/-- Every operation of a disciplined task keeps the invariant. -/
lemma Inv.op (h : Inv db L) (hl : L t = some l) {env : ℕ} {o : Op} {r : o.Answer} (hm : may l o)
    (hland : ∀ j, o = .upsert j → j.status.terminal = true →
      ∀ k, (t, k) ∈ db.background → k.status.terminal = true)
    (hcancel : ∀ i, o = .cancelIfQueued i → i ∈ db.queue →
      ∀ j, db.row i = some j → j.status = .queued ∨ j.status.terminal = true)
    (he : exec db t env o = some (r, db')) :
    admits o r ∧ Inv db' (Function.update L t (some (after l o r))) := by
  have hself : Function.update L t (some l) = L := by rw [← hl, Function.update_eq_self]
  cases o with
  | newJob =>
    cases he
    exact ⟨trivial, h.move hl rfl (fun _ hi => .inl hi) (fun _ hx => .inl hx) (Nat.le_succ _)
      (fun _ _ hi _ _ => .inl hi) (fun _ hi => hi) (fun _ _ hi => .inl hi)
      (.inr ⟨rfl, Nat.lt_succ_self _⟩)⟩
  | upsert j =>
    refine ⟨fun hj => ?_, h.upsert hl hm.1 hm.2 (hland j rfl) he⟩
    rcases (exec_upsert he).2 with ⟨hr, -⟩ | ⟨-, hc, -⟩
    · exact hr
    · rw [not_conflicts hj] at hc
      cases hc
  | get i =>
    obtain ⟨rfl, hdb⟩ : r = db.row i ∧ db = db' := by
      cases he
      exact ⟨rfl, rfl⟩
    subst hdb
    refine ⟨fun j => id_of_row, ?_⟩
    -- a row that is active is not let go
    cases hr : db.row i with
    | none =>
      refine h.frame hl he rfl rfl (fun _ => by simp) rfl
        (fun k j hk hj _ => hk.imp_left fun hown => drop_eq_some.2 ⟨hown, ?_⟩) rfl rfl
        fun _ _ hk => .inl hk
      rintro rfl
      rw [hr] at hj
      cases hj
    | some r =>
      refine h.frame hl he rfl rfl (fun _ => by simp) rfl
        (fun k j hk hj ha => hk.imp_left fun hown => ?_) rfl rfl fun k s hk => ?_
      · change (if r.status.active = true then l.owns else drop l.owns i) = some k
        split
        · exact hown
        · rename_i hra
          refine drop_eq_some.2 ⟨hown, ?_⟩
          rintro rfl
          rw [hr] at hj
          cases hj
          exact hra ha
      · rcases List.mem_cons.1 hk with hk | hk
        · obtain ⟨rfl, rfl⟩ := Prod.mk.inj hk
          exact .inr ⟨r, hr, rfl⟩
        · exact .inl hk
  | listByStatus st =>
    obtain ⟨rfl, hdb⟩ : r = (db.jobs.rows.filter fun r => r.status = st) ∧ db = db' := by
      cases he
      exact ⟨rfl, rfl⟩
    subst hdb
    refine ⟨trivial, h.frame hl he rfl rfl
      (fun _ => by simp) rfl (fun _ _ hk _ _ => hk) rfl rfl fun i s hi => ?_⟩
    rcases List.mem_append.1 hi with hi | hi
    · obtain ⟨j, hj, hjs⟩ := List.mem_map.1 hi
      obtain ⟨rfl, rfl⟩ := Prod.mk.inj hjs
      exact .inr ⟨j, Keyed.get?_of_mem (List.mem_filter.1 hj).1, rfl⟩
    · exact .inl hi
  | incrementAttempts i =>
    refine ⟨trivial, ?_⟩
    change Inv db' (Function.update L t (some l))
    rw [hself]
    exact h.increment he
  | enqueue i =>
    cases he
    refine ⟨trivial, h.move hl rfl (fun k hk => .inl ?_) (fun x hx => .inl hx) le_rfl
      (fun k j hk _ _ => ?_) (fun _ hk => hk) (fun _ _ hk => .inl hk) (.inl rfl)⟩
    · exact mem_enqueue_of_mem hk
    · by_cases hki : k = i
      · exact .inr (hki ▸ mem_enqueue_self)
      · exact .inl (hk.imp_left fun hown => drop_eq_some.2 ⟨hown, hki⟩)
  | claim =>
    refine ⟨trivial, ?_⟩
    have hnone : l.owns = none := hm
    have hhold : ∀ (o : Option ℕ) k, l.Holds k → ({ l with owns := o } : Hand).Holds k := by
      intro o k hk
      rcases hk with hk | hk
      · rw [hnone] at hk
        cases hk
      · exact .inr hk
    rcases exec_claim he with ⟨rfl, rfl⟩ | ⟨i, hi, rfl, rfl⟩
    · exact h.move hl rfl (fun _ hk => .inl hk) (fun _ hx => .inl hx) le_rfl
        (fun k _ hk _ _ => .inl (hhold _ k hk)) (fun _ hk => hk) (fun _ _ hk => .inl hk) (.inl rfl)
    · refine h.move hl rfl (fun k hk => ?_) (fun _ hx => .inl hx) le_rfl
        (fun k _ hk _ _ => .inl (hhold _ k hk)) (fun _ hk => hk) (fun _ _ hk => .inl hk) (.inl rfl)
      by_cases hki : k = i
      · exact .inr (.inl (hki ▸ rfl))
      · exact .inl (Keyed.mem_erase.2 ⟨hk, hki⟩)
  | cancelIfQueued i =>
    refine ⟨trivial, ?_⟩
    change Inv db' (Function.update L t (some l))
    rw [hself]
    exact h.cancel (hcancel i rfl) he
  | relink ids target =>
    cases he
    refine ⟨trivial, ?_⟩
    change Inv _ (Function.update L t (some l))
    rw [hself]
    exact h.relink ids target
  | promote n first rest =>
    refine ⟨trivial, ?_⟩
    change Inv db' (Function.update L t (some l))
    rw [hself]
    exact h.promote he
  | background j =>
    cases he
    refine ⟨trivial, h.move hl rfl (fun _ hk => .inl hk) (fun x hx => ?_) le_rfl
      (fun _ _ hk _ _ => .inl hk) (fun _ hk => hk) (fun _ _ hk => .inl hk) (.inl rfl)⟩
    rcases List.mem_append.1 hx with hx | hx
    · exact .inl hx
    · exact .inr ⟨j, List.mem_singleton.1 hx, hm.1, hm.2⟩
  | begin j =>
    cases he
    have hnone : l.works = none := hm
    refine ⟨trivial, h.move hl rfl (fun _ hk => .inl hk) (fun _ hx => .inl hx) le_rfl
      (fun k _ hk _ _ => .inl (hk.imp_right fun hw => ?_)) (fun k hw => ?_) (fun _ _ hk => .inl hk)
      (.inl rfl)⟩
    · rw [hnone] at hw
      cases hw
    · rw [hnone] at hw
      cases hw
  | lockWaiting i =>
    obtain ⟨-, -, rfl⟩ := exec_lockWaiting he
    exact ⟨trivial, h.move hl rfl (fun _ hk => .inl hk) (fun _ hx => .inl hx) le_rfl
      (fun _ _ hk _ _ => .inl hk) (fun _ hk => hk) (fun _ _ hk => .inl hk) (.inl rfl)⟩
  | write w =>
    refine ⟨trivial, ?_⟩
    refine h.frame hl he rfl ?_ (fun _ => by simp) ?_ (fun _ _ hk _ _ => hk) rfl rfl
      fun _ _ hk => .inl hk
    all_goals
      cases he
      split
      · first | exact write_queue w | exact write_nextJob w
      · rfl
  | tryLock =>
    refine ⟨trivial, ?_⟩
    refine h.frame hl he rfl ?_ (fun _ => by simp) ?_ (fun _ _ hk _ _ => hk) rfl rfl
      fun _ _ hk => .inl hk
    all_goals
      simp only [exec] at he
      split at he <;> cases he <;> rfl
  | _ =>
    refine ⟨trivial, ?_⟩
    refine h.frame hl he rfl ?_ (fun _ => by simp) ?_ (fun _ _ hk _ _ => hk) rfl rfl
      fun _ _ hk => .inl hk
    all_goals
      cases he
      rfl

end Inv

/-! ### Every task keeps to the discipline -/

/-- The task has no job to look after. -/
def Hand.Free (l : Hand) : Prop := l.owns = none ∧ l.works = none

/-- The only job the task may have to look after is `j`. -/
structure Hand.Has (l : Hand) (j : Job) : Prop where
  knows : l.Knows j
  owns : l.owns = none ∨ l.owns = some j.id
  works : l.works = none ∨ l.works = some j.id

section Programs
variable {α : Type} {l : Hand} {j k : Job}

lemma drop_owned {o : Option ℕ} {i : ℕ} (h : o = none ∨ o = some i) : drop o i = none := by
  rcases h with rfl | rfl
  · rfl
  · exact if_pos rfl

lemma owns_afterUpsert : (l.afterUpsert j true).owns =
    if j.status.active then some j.id
    else if j.status.terminal then drop l.owns j.id else l.owns := rfl

lemma works_afterUpsert : (l.afterUpsert j true).works =
    if j.status.terminal then drop l.works j.id else l.works := rfl

lemma knows_afterUpsert (h : l.Knows k) (ok : Bool) : (l.afterUpsert j ok).Knows k := by
  cases ok with
  | true => exact List.mem_cons_of_mem _ h
  | false => exact h

lemma knows_of_upsert (hid : k.id = j.id) (hs : k.sourceId = j.sourceId) :
    (l.afterUpsert k true).Knows j := by
  refine List.mem_cons.2 (.inl ?_)
  rw [hid, hs]

lemma Hand.Has.of_id (h : l.Has j) (hid : k.id = j.id) (hs : k.sourceId = j.sourceId) : l.Has k :=
  ⟨by
    have hk := h.knows
    rwa [Hand.Knows, ← hid, ← hs] at hk, hid ▸ h.owns, hid ▸ h.works⟩

lemma Hand.Has.upsert (h : l.Has j) (ok : Bool) : (l.afterUpsert j ok).Has j := by
  refine ⟨knows_afterUpsert h.knows ok, ?_, ?_⟩
  · cases ok with
    | false => exact .inl (drop_owned h.owns)
    | true =>
      rw [owns_afterUpsert]
      split
      · exact .inr rfl
      · split
        · exact .inl (drop_owned h.owns)
        · exact h.owns
  · cases ok with
    | false => exact h.works
    | true =>
      rw [works_afterUpsert]
      split
      · exact .inl (drop_owned h.works)
      · exact h.works

/-- Who has stored the end of a job is rid of it. -/
lemma free_of_terminal (ho : l.owns = none ∨ l.owns = some j.id)
    (hw : l.works = none ∨ l.works = some j.id) (hj : j.status.terminal = true) :
    (l.afterUpsert j true).Free := by
  constructor
  · rw [owns_afterUpsert, if_neg (by simp [inactive_of_terminal hj]), if_pos hj]
    exact drop_owned ho
  · rw [works_afterUpsert, if_pos hj]
    exact drop_owned hw

/-- What a program does that persists nothing leaves a free task free. -/
lemma free_of_silent {o : Op} (ho : Silent o) (h : l.Free) :
    may l o ∧ ∀ r, (after l o r).Free := by
  obtain ⟨ho', hw⟩ := h
  cases o <;> first
    | exact ho.elim
    | exact ⟨trivial, fun _ => ⟨ho', hw⟩⟩
    | skip
  case get i =>
    refine ⟨trivial, fun r => ?_⟩
    cases r with
    | none => exact ⟨drop_owned (.inl ho'), hw⟩
    | some r =>
      refine ⟨?_, hw⟩
      change (if r.status.active = true then l.owns else drop l.owns i) = none
      split
      · exact ho'
      · exact drop_owned (.inl ho')
  case enqueue i => exact ⟨trivial, fun _ => ⟨drop_owned (.inl ho'), hw⟩⟩

lemma wp_of_silent {p : Act α} (h : Uses Silent p) (hl : l.Free) :
    discipline.wp p (fun _ => Hand.Free) (fun _ => Hand.Free) l :=
  h.wp (D := discipline) (I := Hand.Free) (fun _ ho _ hl =>
    ⟨(free_of_silent ho hl).1, fun r _ => (free_of_silent ho hl).2 r⟩) hl

lemma wp_silent_bind {β : Type} {p : Act α} {f : α → Act β} {Q : β → Hand → Prop}
    {X : Exc → Hand → Prop} (h : Uses Silent p) (hl : l.Free)
    (hf : ∀ a m, m.Free → discipline.wp (f a) Q X m) (hX : ∀ e m, m.Free → X e m) :
    discipline.wp (p >>= f) Q X l := by
  rw [Discipline.wp_bind]
  exact Discipline.wp_mono hf hX (wp_of_silent h hl)

lemma wp_persist {Q : Unit → Hand → Prop} {X : Exc → Hand → Prop}
    (hm : l.Knows j ∨ l.fresh = some j.id) (ho : l.owns = none ∨ l.owns = some j.id)
    (hQ : Q () (l.afterUpsert j true))
    (hX : j.status.active = true → X .uniqueViolation (l.afterUpsert j false)) :
    discipline.wp (persistJob j) Q X l := by
  refine ⟨⟨hm, ho⟩, fun (ok : Bool) hok => ?_⟩
  change discipline.wp (if ok = true then pure () else .raise .uniqueViolation) Q X
    (l.afterUpsert j ok)
  cases ok with
  | true => exact hQ
  | false =>
    cases ha : j.status.active with
    | true => exact hX ha
    | false => cases hok ha

/-- A job that is written is the task's until it is in the queue. -/
lemma wp_persist_enqueue (hm : l.Knows j ∨ l.fresh = some j.id) (hl : l.Free)
    (hj : j.status.active = true) :
    discipline.wp (persistJob j >>= fun _ => enqueue j.id) (fun _ => Hand.Free)
      (fun _ => Hand.Free) l := by
  have hterm : j.status.terminal = false := by
    cases hs : j.status <;> simp_all [JobStatus.active, JobStatus.terminal]
  rw [Discipline.wp_bind]
  refine wp_persist hm (.inl hl.1) ⟨trivial, fun _ _ => ⟨?_, ?_⟩⟩ fun _ =>
    ⟨drop_owned (.inl hl.1), hl.2⟩
  · exact drop_owned (.inr (if_pos hj))
  · change (l.afterUpsert j true).works = none
    rw [works_afterUpsert, if_neg (by simp [hterm])]
    exact hl.2

lemma wp_persist_end {m : Hand} (hm : m.Knows j ∨ m.fresh = some j.id)
    (ho : m.owns = none ∨ m.owns = some j.id) (hw : m.works = none ∨ m.works = some j.id)
    (hj : j.status.terminal = true) {Q : Unit → Hand → Prop} {X : Exc → Hand → Prop}
    (hQ : ∀ m', m'.Free → (∀ k : Job, m.Knows k → m'.Knows k) → Q () m') :
    discipline.wp (persistJob j) Q X m := by
  refine wp_persist hm ho (hQ _ (free_of_terminal ho hw hj) fun k hk => knows_afterUpsert hk true) ?_
  rw [inactive_of_terminal hj]
  exact fun h => by cases h

/-! #### Refreshes and promotions -/

lemma wp_createResummarizeJob (sid : String) (hl : l.Free) :
    discipline.wp (createResummarizeJob sid) (fun _ => Hand.Free) (fun _ => Hand.Free) l := by
  refine ⟨trivial, fun target _ => ⟨trivial, fun (n : ℕ × ℕ) _ => ?_⟩⟩
  refine ⟨⟨.inr rfl, .inl hl.1⟩, fun (ok : Bool) _ => ?_⟩
  cases ok with
  | true => exact ⟨trivial, fun _ _ => ⟨if_pos rfl, hl.2⟩⟩
  | false => exact ⟨drop_owned (.inl hl.1), hl.2⟩

lemma wp_enqueueIfStale (sid : String) (hl : l.Free) :
    discipline.wp (enqueueIfStale sid) (fun _ => Hand.Free) (fun _ => Hand.Free) l := by
  refine wp_silent_bind (p := ask .stale) ⟨trivial, fun _ => trivial⟩ hl (fun r m hm => ?_)
    fun _ _ h => h
  split
  · refine wp_silent_bind silent_findActive hm (fun active m hm => ?_) fun _ _ h => h
    split
    · exact hm
    · refine wp_silent_bind (p := ask .writable) ⟨trivial, fun _ => trivial⟩ hm (fun r m hm => ?_)
        fun _ _ h => h
      split
      · exact wp_createResummarizeJob sid hm
      · exact hm
  · exact hm

lemma wp_swallow {p : Act Unit} {m : Hand}
    (h : discipline.wp p (fun _ => Hand.Free) (fun _ => Hand.Free) m) :
    discipline.wp p.swallow (fun _ => Hand.Free) (fun _ => Hand.Free) m := by
  rw [Discipline.wp_swallow]
  exact h

lemma wp_maybeEnqueueRefresh (j : Job) (hl : l.Free) :
    discipline.wp (maybeEnqueueRefresh j) (fun _ => Hand.Free) (fun _ => Hand.Free) l := by
  unfold maybeEnqueueRefresh
  split
  · exact hl
  · refine wp_silent_bind (silent_promote j.id).swallow hl (fun _ m hm => ?_) fun _ _ h => h
    split
    · refine wp_swallow (wp_silent_bind (p := get j.id) ⟨trivial, fun _ => trivial⟩ hm
        (fun fresh m hm => ?_) fun _ _ h => h)
      refine wp_silent_bind (p := ask .targetVersion) ⟨trivial, fun _ => trivial⟩ hm
        (fun current m hm => ?_) fun _ _ h => h
      split
      · exact hm
      · exact wp_enqueueIfStale _ hm
    · exact wp_swallow (wp_enqueueIfStale _ hm)

/-! #### Workers -/

/-- The job is running, and the task works on it. -/
def Hand.Working (l : Hand) (j : Job) : Prop := l.Has j ∧ l.works = some j.id

lemma wp_runner {p : Act Unit} (h : IsRunner j p) (hl : l.Working j) :
    discipline.wp p (fun _ m => m.Free ∧ m.Knows j) (fun _ m => m.Free ∧ m.Knows j) l := by
  refine h.phased.wp_ends (D := discipline) (I := fun m => m.Working j) (J := fun m => m.Has j)
    h.ends (fun o ho m hm => ?_) (fun o ho m hm => ?_) (fun o ho m hm r hr => ?_)
    (fun m hm => hm.1) hl
  · obtain ⟨hhas, hworks⟩ := hm
    cases o <;> first
      | exact ho.elim
      | exact ⟨trivial, fun _ _ => ⟨hhas, hworks⟩⟩
      | skip
    case upsert k =>
      have hk := hhas.of_id (id_of_core ho.core) (sourceId_of_core ho.core)
      refine ⟨⟨.inl hk.knows, hk.owns⟩, fun ok _ => ⟨?_, ?_⟩⟩
      · exact (hk.upsert ok).of_id (id_of_core ho.core).symm (sourceId_of_core ho.core).symm
      · cases (ok : Bool) with
        | false => exact hworks
        | true =>
          change (m.afterUpsert k true).works = some j.id
          rw [works_afterUpsert, if_neg (by simp [ho.status, JobStatus.terminal])]
          exact hworks
    case background k =>
      have hk := hhas.of_id (id_of_core ho.core) (sourceId_of_core ho.core)
      refine ⟨⟨hk.knows, fun _ => ?_⟩, fun _ _ => ⟨hhas, hworks⟩⟩
      rw [hworks, id_of_core ho.core]
  · cases o <;> first
      | exact ho.elim
      | exact ⟨trivial, fun _ _ => hm⟩
      | skip
    case upsert k =>
      have hk := hm.of_id (id_of_core ho.1) (sourceId_of_core ho.1)
      exact ⟨⟨.inl hk.knows, hk.owns⟩, fun ok _ =>
        (hk.upsert ok).of_id (id_of_core ho.1).symm (sourceId_of_core ho.1).symm⟩
    case background k =>
      have hk := hm.of_id (id_of_core ho.1) (sourceId_of_core ho.1)
      refine ⟨⟨hk.knows, fun ha => ?_⟩, fun _ _ => hm⟩
      rw [ho.2.1] at ha
      cases ha
  · cases o <;> first
      | exact ho.elim
      | skip
    case upsert k =>
      have hk := hm.of_id (id_of_core ho.1) (sourceId_of_core ho.1)
      obtain rfl : r = true := hr (inactive_of_terminal ho.2)
      exact ⟨free_of_terminal hk.owns hk.works ho.2,
        knows_of_upsert (id_of_core ho.1) (sourceId_of_core ho.1)⟩

/-- The end of a job, and what follows it. -/
lemma wp_end {m : Hand} (hm : m.Has j) (hid : k.id = j.id) (hs : k.sourceId = j.sourceId)
    (hk : k.status.terminal = true) :
    discipline.wp (persistJob k >>= fun _ => maybeEnqueueRefresh j) (fun _ => Hand.Free)
      (fun _ => Hand.Free) m := by
  have hhas := hm.of_id hid hs
  rw [Discipline.wp_bind]
  exact wp_persist_end (.inl hhas.knows) hhas.owns hhas.works hk fun m' hm' _ =>
    wp_maybeEnqueueRefresh j hm'

lemma wp_afterRaise (e : Exc) (hl : l.Free) (hj : l.Knows j) :
    discipline.wp (afterRaise j e) (fun _ => Hand.Free) (fun _ => Hand.Free) l := by
  have hhas : l.Has j := ⟨hj, .inl hl.1, .inl hl.2⟩
  unfold afterRaise
  split
  · refine ⟨trivial, fun (attempts : ℕ) _ => ?_⟩
    change discipline.wp (if attempts < maxJobAttempts then _ else _) _ _ l
    split
    · exact wp_persist_enqueue (j := { j with status := .queued, attempts := attempts, error := "" })
        (.inl hj) hl rfl
    · exact wp_end hhas rfl rfl rfl
  · exact wp_end hhas rfl rfl rfl

lemma wp_runCoroutine {p : Act Unit} (h : IsRunner j p) (hl : l.Has j) (hw : l.works = none) :
    discipline.wp (runCoroutine j p) (fun _ => Hand.Free) (fun _ => Hand.Free) l := by
  unfold runCoroutine
  simp only [Discipline.wp_bind, Discipline.wp_attempt, Discipline.wp_op, Discipline.wp_ret]
  refine ⟨hw, fun _ _ => Discipline.wp_mono ?_ ?_ (wp_runner h ⟨⟨hl.knows, hl.owns, .inr rfl⟩, rfl⟩)⟩
  · exact fun _ m hm => ⟨trivial, fun _ _ => wp_maybeEnqueueRefresh j hm.1⟩
  · exact fun e m hm => ⟨trivial, fun _ _ => wp_afterRaise e hm.1 hm.2⟩

lemma wp_runClaimed (hl : l.Has j) (hw : l.works = none) :
    discipline.wp (runClaimed j) (fun _ => Hand.Free) (fun _ => Hand.Free) l := by
  unfold runClaimed
  rw [Discipline.wp_bind]
  refine wp_persist (j := { j with status := .running }) (.inl hl.knows) hl.owns ?_ fun _ =>
    ⟨drop_owned hl.owns, hw⟩
  have hhas : (l.afterUpsert { j with status := .running } true).Has j :=
    (Hand.Has.upsert (j := { j with status := .running }) (hl.of_id rfl rfl) true).of_id rfl rfl
  rw [Discipline.wp_bind]
  refine wp_dispatchAllowed (fun o ho => ?_) fun b => ?_
  · cases o <;> first | exact ho.elim | exact ⟨trivial, fun _ _ => rfl⟩
  · split
    · rw [Discipline.wp_bind]
      exact wp_dispatchJob (fun q => ⟨trivial, fun _ => rfl⟩) (wp_end hhas rfl rfl rfl) fun p hp =>
        wp_runCoroutine hp hhas hw
    · exact wp_end hhas rfl rfl rfl

lemma wp_worker (hl : l.Free) :
    discipline.wp worker (fun _ => Hand.Free) (fun _ => Hand.Free) l := by
  refine ⟨hl.1, fun (i : Option ℕ) _ => ?_⟩
  cases i with
  | none => exact ⟨rfl, hl.2⟩
  | some i =>
    refine ⟨trivial, fun (r : Option Job) hr => ?_⟩
    cases r with
    | none => exact ⟨if_pos rfl, hl.2⟩
    | some j =>
      obtain rfl : j.id = i := hr j rfl
      change discipline.wp (if j.status.terminal = true then pure () else runClaimed j) _ _ _
      split
      · rename_i hterm
        refine ⟨?_, hl.2⟩
        change (if j.status.active = true then some j.id else drop (some j.id) j.id) = none
        rw [if_neg (by rw [inactive_of_terminal hterm]; simp)]
        exact if_pos rfl
      · refine wp_runClaimed ⟨List.mem_cons_self .., ?_, .inl hl.2⟩ hl.2
        change (if j.status.active = true then some j.id else drop (some j.id) j.id) = none ∨
          (if j.status.active = true then some j.id else drop (some j.id) j.id) = some j.id
        split
        · exact .inr rfl
        · exact .inl (if_pos rfl)

/-! #### Requests -/

/-- What a request submits is a new queued job. -/
def Builds (build : Act Job) : Prop :=
  ∀ (Q : Job → Hand → Prop) (X : Exc → Hand → Prop) (l : Hand), l.Free →
    (∀ j m, m.Free → m.fresh = some j.id → j.status = .queued → Q j m) →
      discipline.wp build Q X l

lemma builds_newRepoJob (ev : Event) : Builds (newRepoJob ev) :=
  fun _ _ _ hl hQ => ⟨trivial, fun _ _ => hQ _ _ hl rfl rfl⟩

lemma builds_incremental (ev : Event) : Builds (buildIncrementalOrFallbackJob ev) := by
  unfold buildIncrementalOrFallbackJob
  split
  · exact builds_newRepoJob ev
  · exact fun _ _ _ hl hQ => ⟨trivial, fun _ _ => hQ _ _ hl rfl rfl⟩

lemma builds_submitted (r : Submission) : Builds (buildSubmitted r) :=
  fun _ _ _ hl hQ => ⟨trivial, fun _ _ => hQ _ _ hl rfl rfl⟩

lemma wp_persistAndEnqueue {build : Act Job} (h : Builds build) (hl : l.Free) :
    discipline.wp (persistAndEnqueue build) (fun _ => Hand.Free) (fun _ => Hand.Free) l := by
  unfold persistAndEnqueue
  rw [Discipline.wp_bind]
  exact h _ _ l hl fun j m hm hf hj => wp_persist_enqueue (.inr hf) hm (by rw [hj]; rfl)

lemma wp_waitFor (refresh : ℕ) (hl : l.Free) (hf : l.fresh = some j.id) :
    discipline.wp (waitFor refresh j) (fun _ => Hand.Free) (fun _ => Hand.Free) l := by
  unfold waitFor
  rw [Discipline.wp_bind]
  refine wp_persist (.inr hf) (.inl hl.1) ?_ fun h => (by cases h)
  refine wp_silent_bind (p := get refresh) ⟨trivial, fun _ => trivial⟩ hl (fun r m hm => ?_)
    fun _ _ h => h
  split
  · exact hm
  · exact wp_of_silent (silent_promote refresh) hm

lemma wp_preempt {build : Act Job} (h : Builds build) (sid : String) (hl : l.Free) :
    discipline.wp (preemptActiveRefresh sid build) (fun _ => Hand.Free) (fun _ => Hand.Free) l := by
  refine wp_silent_bind silent_findActive hl (fun refresh m hm => ?_) fun _ _ h => h
  cases refresh with
  | none => exact wp_persistAndEnqueue h hm
  | some refresh =>
    change discipline.wp (if refresh.kind ≠ .resummarize then _ else _) _ _ m
    split
    · exact wp_persistAndEnqueue h hm
    · rw [Discipline.wp_bind]
      refine h _ _ m hm fun j m hm hf hj => ⟨trivial, fun (cancelled : Bool) _ => ?_⟩
      cases cancelled with
      | true => exact wp_persist_enqueue (.inr hf) hm (by rw [hj]; rfl)
      | false => exact wp_waitFor refresh.id hm hf

lemma wp_accept_after {p : Act Unit} {ev : Event} {n : ℕ} (hl : l.Free)
    (h : ∀ m, Hand.Free m → discipline.wp p (fun _ => Hand.Free) (fun _ => Hand.Free) m) :
    discipline.wp (unlessSaturated (p >>= fun _ => accept ev n)) (fun _ => Hand.Free)
      (fun _ => Hand.Free) l := by
  refine wp_silent_bind (p := queueDepth) ⟨trivial, fun _ => trivial⟩ hl (fun depth m hm => ?_)
    fun _ _ h => h
  split
  · exact hm
  · rw [Discipline.wp_bind]
    exact Discipline.wp_mono (fun _ _ hm => wp_of_silent (silent_accept ev n) hm) (fun _ _ h => h)
      (h m hm)

lemma wp_handleWebhook (ev : Event) (hl : l.Free) :
    discipline.wp (handleWebhook ev) (fun _ => Hand.Free) (fun _ => Hand.Free) l := by
  have haccept : ∀ n m, Hand.Free m → discipline.wp (accept ev n) (fun _ => Hand.Free)
      (fun _ => Hand.Free) m := fun n _ hm => wp_of_silent (silent_accept ev n) hm
  refine ⟨trivial, fun (since : ℕ) _ => ⟨trivial, fun (sources : List Source) _ =>
    ⟨trivial, fun (w : ℕ) _ => ?_⟩⟩⟩
  change discipline.wp (if w = 0 then if (sources.any fun s => s.url = ev.repoUrl) = true then
    webhookExistingSource ev since else webhookNewSource ev since else pure ()) _ _ l
  split
  · split
    · refine wp_silent_bind silent_findActive hl (fun active m hm => ?_) fun _ _ h => h
      cases active with
      | none => exact wp_accept_after hm fun m => wp_persistAndEnqueue (builds_incremental ev)
      | some active =>
        change discipline.wp (if active.kind ≠ .resummarize then _ else _) _ _ m
        split
        · exact haccept since m hm
        · exact wp_accept_after hm fun m => wp_preempt (builds_incremental ev) ev.sourceId
    · refine wp_silent_bind silent_findActive hl (fun active m hm => ?_) fun _ _ h => h
      cases active with
      | none => exact wp_accept_after hm fun m => wp_persistAndEnqueue (builds_newRepoJob ev)
      | some active => exact haccept since m hm
  · exact hl

lemma wp_submit (r : Submission) (hl : l.Free) :
    discipline.wp (submit r) (fun _ => Hand.Free) (fun _ => Hand.Free) l := by
  refine wp_silent_bind (p := ask .writable) ⟨trivial, fun _ => trivial⟩ hl (fun w m hm => ?_)
    fun _ _ h => h
  split
  · refine wp_silent_bind silent_findActive hm (fun active m hm => ?_) fun _ _ h => h
    cases active with
    | none => exact wp_persistAndEnqueue (builds_submitted r) hm
    | some active =>
      change discipline.wp (if active.kind ≠ .resummarize then _ else _) _ _ m
      split
      · exact hm
      · exact wp_preempt (builds_submitted r) r.sourceId hm
  · exact hm

lemma wp_retryJob (i : ℕ) (hl : l.Free) :
    discipline.wp (retryJob i) (fun _ => Hand.Free) (fun _ => Hand.Free) l := by
  refine wp_silent_bind (p := ask .writable) ⟨trivial, fun _ => trivial⟩ hl (fun w m hm => ?_)
    fun _ _ h => h
  split
  · refine ⟨trivial, fun (r : Option Job) hr => ?_⟩
    cases r with
    | none => exact ⟨drop_owned (.inl hm.1), hm.2⟩
    | some j =>
      obtain rfl : j.id = i := hr j rfl
      have hfree := (free_of_silent (o := .get j.id) trivial hm).2 (some j)
      change discipline.wp (if j.status.terminal = true then _ else _) _ _
        (after m (.get j.id) (some j))
      split
      · exact wp_persist_enqueue (j := { j with status := .queued, error := "" })
          (.inl (List.mem_cons_self ..)) hfree rfl
      · exact hfree
  · exact hm

/-! #### Startup and rebuild -/

/-- The recovery of one job, whose row is among those that were listed. -/
lemma wp_recoverJob (doneSources : List String) (hl : l.Free) (hj : l.Knows j) :
    discipline.wp (recoverJob doneSources j)
      (fun _ m => m.Free ∧ ∀ k : Job, l.Knows k → m.Knows k) (fun _ => Hand.Free) l := by
  have hend : ∀ k : Job, k.id = j.id → k.sourceId = j.sourceId → k.status.terminal = true →
      discipline.wp (persistJob k) (fun _ m => m.Free ∧ ∀ k : Job, l.Knows k → m.Knows k)
        (fun _ => Hand.Free) l := by
    intro k hid hs hk
    have hhas := Hand.Has.of_id ⟨hj, .inl hl.1, .inl hl.2⟩ hid hs
    exact wp_persist_end (.inl hhas.knows) hhas.owns hhas.works hk fun m hm hknows => ⟨hm, hknows⟩
  unfold recoverJob
  split
  · exact hend { j with status := .done } rfl rfl rfl
  · rw [Discipline.wp_bind]
    refine wp_dispatchJob (fun q => ⟨trivial, fun _ => rfl⟩) (hend _ rfl rfl rfl) fun p _ => ?_
    exact ⟨trivial, fun _ _ => ⟨⟨drop_owned (.inl hl.1), hl.2⟩, fun _ hk => hk⟩⟩

lemma wp_startup (hl : l.Free) :
    discipline.wp startup (fun _ => Hand.Free) (fun _ => Hand.Free) l := by
  refine wp_silent_bind (p := listByStatus .done) ⟨trivial, fun _ => trivial⟩ hl
    (fun done m hm => ?_) fun _ _ h => h
  refine ⟨trivial, fun (running : List Job) _ => ⟨trivial, fun (queued : List Job) _ => ?_⟩⟩
  change discipline.wp (Prog.forEach (running ++ queued) (recoverJob (doneSourceIds done)) >>=
    fun _ => listByStatus .waiting >>= fun waiting => recoverWaiting [] waiting) _ _ _
  rw [Discipline.wp_bind]
  refine Discipline.wp_mono (fun _ m hm => ?_) (fun _ _ h => h)
    (Discipline.wp_forEach (I := fun m => Hand.Free m ∧ ∀ j ∈ running ++ queued, Hand.Knows m j)
      (fun j hj m hm => Discipline.wp_mono (fun _ m' hm' => ⟨hm'.1, fun k hk => hm'.2 k (hm.2 k hk)⟩)
        (fun _ _ h => h) (wp_recoverJob _ hm.1 (hm.2 j hj))) ⟨hm, fun j hj => ?_⟩)
  · refine wp_silent_bind (p := listByStatus .waiting) ⟨trivial, fun _ => trivial⟩ hm.1
      (fun waiting m hm => ?_) fun _ _ h => h
    exact wp_of_silent (silent_recoverWaiting waiting []) hm
  · -- both lists were read, the queued one last
    refine (List.mem_append.1 hj).elim (fun hj => ?_) fun hj => ?_
    · exact List.mem_append.2 (.inr (List.mem_append.2 (.inl (List.mem_map.2 ⟨j, hj, rfl⟩))))
    · exact List.mem_append.2 (.inl (List.mem_map.2 ⟨j, hj, rfl⟩))

lemma wp_enqueueReindex (g : ℕ) (src : Source) (hl : l.Free) :
    discipline.wp (enqueueReindex g src) (fun _ => Hand.Free) (fun _ => Hand.Free) l := by
  have hkind : Uses Silent (resolveReindexKind src) := by
    unfold resolveReindexKind
    split
    · trivial
    · split
      · trivial
      · refine Uses.bind ⟨trivial, fun _ => trivial⟩ fun r => ?_
        split <;> trivial
  unfold enqueueReindex buildSourceReindexJob
  rw [Prog.bind_assoc]
  refine wp_silent_bind hkind hl (fun kind m hm => ⟨trivial, fun n _ => ?_⟩) fun _ _ h => h
  exact wp_persist_enqueue (.inr rfl) hm rfl

lemma wp_rebuild (hl : l.Free) :
    discipline.wp rebuild (fun _ => Hand.Free) (fun _ => Hand.Free) l := by
  have hunlock : ∀ {α : Type} (e : Exc), Uses Silent (unlock >>= fun _ => (.raise e : Act α)) :=
    fun e => Uses.bind ⟨trivial, fun _ => trivial⟩ fun _ => trivial
  refine wp_silent_bind (p := listSources) ⟨trivial, fun _ => trivial⟩ hl (fun sources m hm => ?_)
    fun _ _ h => h
  refine wp_silent_bind silent_jobBlockers hm (fun blocked m hm => ?_) fun _ _ h => h
  refine wp_silent_bind (p := probeLock) ⟨trivial, fun _ => trivial⟩ hm (fun locked m hm => ?_)
    fun _ _ h => h
  split
  · exact hm
  · refine ⟨trivial, fun (granted : Bool) _ => ?_⟩
    cases granted with
    | false => exact hm
    | true =>
      refine wp_silent_bind (p := .op (Op.createGroup (sources.map Source.id)) .ret)
        ⟨trivial, fun _ => trivial⟩ hm (fun g m hm => ?_) fun _ _ h => h
      refine wp_silent_bind silent_jobBlockers hm (fun blocked m hm => ?_) fun _ _ h => h
      split
      · exact wp_of_silent (Uses.bind ⟨trivial, fun _ => trivial⟩ fun _ => hunlock _) hm
      · refine wp_silent_bind silent_recreateStores hm (fun ok m hm => ?_) fun _ _ h => h
        split
        · rw [Discipline.wp_bind]
          refine Discipline.wp_mono (fun _ m hm => ?_) (fun _ _ h => h) (Discipline.wp_forEach
            (I := Hand.Free) (fun src _ m hm => wp_enqueueReindex g src hm) hm)
          exact wp_of_silent (p := unlock) ⟨trivial, fun _ => trivial⟩ hm
        · exact wp_of_silent (hunlock _) hm

lemma wp_main (e : Entry) :
    discipline.wp e.main (fun _ => Hand.Free) (fun _ => Hand.Free) discipline.init := by
  have hl : Hand.Free discipline.init := ⟨rfl, rfl⟩
  cases e with
  | worker => exact wp_worker hl
  | startup => exact wp_startup hl
  | webhook ev => exact wp_handleWebhook ev hl
  | submit r => exact wp_submit r hl
  | retry i => exact wp_retryJob i hl
  | refresh sid => exact wp_enqueueIfStale sid hl
  | rebuild => exact wp_rebuild hl

end Programs

/-! ### Runs -/

/-- A task that has nothing to look after comes or goes. -/
lemma Inv.records {db : Db} {L L' : Tid → Option Hand} (h : Inv db L)
    (hheld : ∀ u m i, L u = some m → m.Holds i → L' u = some m)
    (hfrom : ∀ u m, L' u = some m → L u = some m ∨ m = discipline.init) : Inv db L' where
  backed i j hi ha := (h.backed i j hi ha).imp_right fun ⟨u, m, hu, hm⟩ =>
    ⟨u, m, hheld u m i hu hm, hm⟩
  left u k hk := by
    refine ⟨(h.left u k hk).1, fun ha => ?_⟩
    obtain ⟨m, hu, hm⟩ := (h.left u k hk).2 ha
    exact ⟨m, hheld u m _ hu (.inr hm), hm⟩
  single := h.single
  known u m i s hu hm := by
    rcases hfrom u m hu with hu | rfl
    · exact h.known u m i s hu hm
    · cases hm
  fresh u m i hu hm := by
    rcases hfrom u m hu with hu | rfl
    · exact h.fresh u m i hu hm
    · cases hm
  distinct u v m k i hu hv hm hk := by
    rcases hfrom u m hu with hu | rfl
    · rcases hfrom v k hv with hv | rfl
      · exact h.distinct u v m k i hu hv hm hk
      · cases hk
    · cases hm
  numbered := h.numbered

lemma kept : Kept Careful Hand.Free Inv where
  main s t e _ := wp_main e
  start s t e _ h ht := by
    refine h.records (fun u m i hu _ => ?_) fun u m hu => ?_
    · have hut : u ≠ t := fun hut => by rw [hut, ht] at hu; cases hu
      rw [Function.update_of_ne hut, hu]
    · rcases update_cases hu with ⟨-, hm⟩ | ⟨-, hu⟩
      · exact .inr (Option.some.inj hm).symm
      · exact .inl hu
  op s t env o l r db' hc ho hl hm h he := by
    refine h.op hl hm (fun j hj hterm => ?_) (fun i hi hq j hj => ?_) he
    · subst hj
      exact hc.1 (Option.isSome_iff_exists.2 ⟨j, ending_eq_some.2 ⟨ho, hterm⟩⟩)
    · subst hi
      exact hc.2 i ho hq j hj
  stop s t env l _ hl hE h := by
    refine h.records (fun u m i hu hm => ?_) fun u m hu => ?_
    · have hut : u ≠ t := by
        rintro rfl
        rw [hl] at hu
        cases hu
        rcases hm with hm | hm
        · rw [hE.1] at hm
          cases hm
        · rw [hE.2] at hm
          cases hm
      rw [Function.update_of_ne hut, hu]
    · rcases update_cases hu with ⟨-, hm⟩ | ⟨-, hu⟩
      · cases hm
      · exact .inl hu
  kill _ _ hc := hc.elim
  own s x st _ h he := by
    cases x with
    | land n => exact h.land he
    | flush n =>
      obtain ⟨-, w, -, rfl⟩ := own_flush he
      cases w <;> exact ⟨h.backed, h.left, h.single, h.known, h.fresh, h.distinct, h.numbered⟩
    | deleteSource sid =>
      cases he
      exact ⟨h.backed, h.left, h.single, h.known, h.fresh, h.distinct, h.numbered⟩

/-- No task is in progress, and every queued or running job is in the queue. -/
structure Sound (db : Db) : Prop where
  queued : ∀ i j, db.row i = some j → j.status.active = true → i ∈ db.queue
  single : Single db
  background : db.background = []
  numbered : ∀ i j, db.row i = some j → i < db.nextJob

/-- **No zombie**: in a careful run each queued or running job is in the queue or some task has
it, so it is in the queue once all tasks have ended; and a job that is cancelled has ended. -/
theorem no_zombie (db : Db) (hdb : Sound db) (s : Sys) (hrun : Run Careful (initial db) s) :
    (∀ i j, Db.row s.store i = some j → j.status.active = true →
      i ∈ Db.queue s.store ∨ ∃ t, Holds s t i) ∧
    (s.Quiescent → ∀ i j, Db.row s.store i = some j → j.status.active = true →
      i ∈ Db.queue s.store) ∧
    ∀ t env i s', s.nextOp t = some (.cancelIfQueued i) → i ∈ Db.queue s.store →
      Careful s (.run t env) → s.step (.run t env) = some s' →
        ∀ j, Db.row s'.store i = some j → j.status.terminal = true := by
  have hinit : Inv db fun _ => none := by
    refine ⟨fun i j hi ha => .inl (hdb.queued i j hi ha), fun t k hk => ?_, hdb.single,
      fun _ _ _ _ hu => (by cases hu), fun _ _ _ hu => (by cases hu),
      fun _ _ _ _ _ hu => (by cases hu), hdb.numbered⟩
    rw [hdb.background] at hk
    cases hk
  have hinv := (kept.run_initial hrun hinit).1
  have hbacked : ∀ i j, Db.row s.store i = some j → j.status.active = true →
      i ∈ Db.queue s.store ∨ ∃ t, Holds s t i := fun i j hi ha =>
    (hinv.backed i j hi ha).imp_right fun ⟨t, l, ht, hl⟩ => ⟨t, l, ht, hl⟩
  refine ⟨hbacked, fun hq i j hi ha => ?_, fun t env i s' ho hi hc hs j hj => ?_⟩
  · rcases hbacked i j hi ha with hmem | ⟨t, l, ht, -⟩
    · exact hmem
    · rw [Machine.records_of_quiescent hq] at ht
      cases ht
  · obtain ⟨k, l, hk⟩ := Machine.nextOp_eq_some.1 ho
    simp only [State.step, hk] at hs
    split at hs
    · cases hs
    · rename_i r db' he
      cases hs
      have he : exec s.store t env (.cancelIfQueued i) = some (r, db') := he
      rcases (exec_cancel he).2 with ⟨-, -, rfl⟩ | ⟨-, hnot, -⟩
      · exact cancelled_row (hc.2 i ho hi) hj
      · exact absurd hi hnot

def repoRequest : Submission := ⟨.repo, "s", "", "https://git/s", "main"⟩

/-- A sufficient condition that can be run. -/
def careful (s : Sys) : Label machine → Bool
  | .kill _ => false
  | .run t _ => (Db.background s.store).isEmpty && match s.nextOp t with
    | some (.cancelIfQueued i) =>
      (Db.row s.store i).all fun j => j.status = .queued || j.status.terminal
    | _ => true
  | _ => true

lemma careful_iff (s : Sys) (l : Label machine) (h : careful s l = true) : Careful s l := by
  cases l with
  | kill p => cases h
  | run t env =>
    obtain ⟨hb, h⟩ := Bool.and_eq_true_iff.1 h
    rw [List.isEmpty_iff] at hb
    refine ⟨fun _ k hk => ?_, fun i hi _ j hj => ?_⟩
    · rw [hb] at hk
      cases hk
    · rw [hi] at h
      simpa [hj] using h
  | _ => trivial

/-- A refresh that is queued is cancelled for a request, whose job is then in the queue. -/
theorem request_cancels_queued_refresh : ∃ (s : Sys) (j : Job), Run Careful (initial empty) s ∧
    s.Quiescent ∧ Db.row s.store 1 = some j ∧ j.status.active = true ∧ 1 ∈ Db.queue s.store := by
  have h : (((initial empty : Sys).runChecked careful
      (.start ⟨0, 0⟩ (.refresh "s") :: steps ⟨0, 0⟩ 8 ++
        .start ⟨1, 0⟩ (.submit repoRequest) :: steps ⟨1, 0⟩ 8)).map fun s =>
      (decide s.Quiescent, (Db.row s.store 1).map Job.status)) = some (true, some .queued) := by
    decide
  obtain ⟨s, hs, hx⟩ := Option.map_eq_some_iff.1 h
  obtain ⟨hq, hrow⟩ := Prod.mk.inj hx
  obtain ⟨j, hj, hst⟩ := Option.map_eq_some_iff.1 hrow
  have hrun := Machine.run_of_runChecked careful_iff hs
  have hdb : Sound empty := ⟨fun _ _ h => (by cases h), fun _ _ _ _ h => (by cases h), rfl,
    fun _ _ h => (by cases h)⟩
  have hact : j.status.active = true := by rw [hst]; rfl
  exact ⟨s, j, hrun, of_decide_eq_true hq, hj, hact,
    (no_zombie empty hdb s hrun).2.1 (of_decide_eq_true hq) 1 j hj hact⟩

/-- A refresh that was being worked on when its process died. -/
def refreshRow : Job :=
  ⟨0, "s", .running, .resummarize, 0, "s", "", "", "", noPayload, 0, none, ""⟩

/-- Recovery has put it back into the queue, and its row still says that it is running. -/
def recovered : Db := { empty with jobs := Keyed.empty.put refreshRow, nextJob := 1 }.enqueue 0

example : (((initial { recovered with queue := .empty } : Sys).runChecked (fun _ _ => true)
    (.start ⟨0, 0⟩ .startup :: steps ⟨0, 0⟩ 6)).map fun s =>
      (decide s.Quiescent, (Db.jobs s.store).rows, (Db.queue s.store).rows)) =
    some (true, recovered.jobs.rows, recovered.queue.rows) := by decide

/-- No process dies. -/
def NoDeath (_ : Sys) : Label machine → Prop
  | .kill _ => False
  | _ => True

def noDeath (_ : Sys) : Label machine → Bool
  | .kill _ => false
  | _ => true

lemma noDeath_iff (s : Sys) (l : Label machine) (h : noDeath s l = true) : NoDeath s l := by
  cases l with
  | kill p => cases h
  | _ => trivial

/-- A request cancels it: its queue row is gone, and it is running for ever. -/
theorem recovered_refresh_is_zombie :
    ¬∀ (db : Db) (s : Sys), Sound db → Run NoDeath (initial db) s → s.Quiescent →
      ∀ i j, Db.row s.store i = some j → j.status.active = true → i ∈ Db.queue s.store := by
  intro hclaim
  have h : (((initial recovered : Sys).runChecked noDeath
      (.start ⟨0, 0⟩ (.submit repoRequest) :: steps ⟨0, 0⟩ 7)).map fun s =>
      (decide s.Quiescent, (Db.row s.store 0).map Job.status, (Db.queue s.store).rows)) =
        some (true, some .running, []) := by decide
  obtain ⟨s, hs, hx⟩ := Option.map_eq_some_iff.1 h
  simp only [Prod.mk.injEq] at hx
  obtain ⟨hq, hrow, hqueue⟩ := hx
  obtain ⟨j, hj, hst⟩ := Option.map_eq_some_iff.1 hrow
  have hall : ∀ i k, recovered.row i = some k → i = 0 := by
    intro i k hi
    have hmem : k ∈ recovered.jobs.rows := Keyed.mem_of_get? hi
    have hk : k = refreshRow := List.mem_singleton.1 hmem
    rw [← id_of_row hi, hk]
    rfl
  have hdb : Sound recovered := by
    refine ⟨fun i k hi _ => ?_, fun i k a b hi hk _ _ _ _ => ?_, rfl, fun i k hi => ?_⟩
    · rw [hall i k hi]
      exact mem_enqueue_self
    · rw [hall i a hi, hall k b hk]
    · rw [hall i k hi]
      exact Nat.one_pos
  have hmem := hclaim recovered s hdb (Machine.run_of_runChecked noDeath_iff hs)
    (of_decide_eq_true hq) 0 j hj (by rw [hst]; rfl)
  change 0 ∈ (Db.queue s.store).rows at hmem
  rw [hqueue] at hmem
  cases hmem

end Treeweft.ActiveJobs
