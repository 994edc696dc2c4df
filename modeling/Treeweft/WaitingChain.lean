import Treeweft.Service
import Treeweft.UniqueIndex

/-!
The order in which waiting jobs are promoted.

A promotion reads the jobs that wait on one job, locks them, and queues the oldest; the others it
hands to that one. It sees no other waiting job of the source, so the order holds as long as
there is none: `Together`.
-/

namespace Treeweft.WaitingChain

open Treeweft.Jobs Treeweft.JobStore Treeweft.Runners Treeweft.PromptRefresh Treeweft.Queue
open Treeweft.Service Treeweft.IndexGuard Treeweft.UniqueIndex
open Machine (State Label Run Logged Kept initial)

/-- The rows a task has seen not waiting, the id it has for a new job, and the promotion it is in:
the job waited on and the rows it has locked. -/
structure Grip where
  placed : List ℕ
  fresh : Option ℕ
  tx : Option (ℕ × List ℕ)
  deriving DecidableEq, Repr

def Grip.see (l : Grip) (js : List Job) : Grip :=
  { l with placed := (js.filter fun j => j.status ≠ .waiting).map Job.id ++ l.placed }

def Grip.afterUpsert (l : Grip) (j : Job) (ok : Bool) : Grip :=
  if ok then { l.see [j] with fresh := if l.fresh = some j.id then none else l.fresh } else l

def after (l : Grip) : (o : Op) → o.Answer → Grip
  | .claim, r => { l with placed := (r : Option ℕ).toList ++ l.placed }
  | .get _, r => l.see (r : Option Job).toList
  | .listByStatus _, r => l.see r
  | .activeRow _, r => l.see (r : Option Job).toList
  | .newJob, r => { l with fresh := some (r : ℕ × ℕ).1 }
  | .upsert j, r => l.afterUpsert j r
  | .lockWaiting i, r =>
    { l with tx := if (r : List Job) = [] then none else some (i, (r : List Job).map Job.id) }
  | .relink _ _, _ => { l with tx := none }
  | .promote _ _ _, _ => { l with tx := none }
  | _, _ => l

/-- A job is stored as waiting once, when it is new, and behind a job that is not. -/
structure MayUpsert (l : Grip) (j : Job) : Prop where
  tx : l.tx = none
  waiting : j.status = .waiting → l.fresh = some j.id ∧ ∃ i ∈ l.placed, j.payload.afterJob = some i
  other : j.status ≠ .waiting → j.id ∈ l.placed ∨ l.fresh = some j.id

def may (l : Grip) : Op → Prop
  | .upsert j => MayUpsert l j
  | .background j => j.id ∈ l.placed ∧ j.status ≠ .waiting
  | .enqueue i => i ∈ l.placed
  | .incrementAttempts _ => l.tx = none
  | .cancelIfQueued _ => l.tx = none
  | .lockWaiting _ => l.tx = none
  | .relink ids target => target ∈ l.placed ∧ ∃ i, l.tx = some (i, ids)
  | .promote _ first rest => ∃ i, l.tx = some (i, first :: rest)
  | _ => True

def admits : (o : Op) → o.Answer → Prop
  | .get i, r => ∀ j, (r : Option Job) = some j → j.id = i
  | .listByStatus st, r => ∀ j ∈ (r : List Job), j.status = st
  | .activeRow _, r => ∀ j, (r : Option Job) = some j → j.status.active = true
  | _, _ => True

abbrev discipline : Discipline sig := ⟨Grip, ⟨[], none, none⟩, may, fun _ => admits, after⟩

abbrev Sys := State machine discipline

/-! ### The invariant -/

def Placed (db : Db) (i : ℕ) : Prop := ∃ j, db.row i = some j ∧ j.status ≠ .waiting

def Awaited (db : Db) (i k : ℕ) : Prop :=
  ∃ j, db.row k = some j ∧ j.status = .waiting ∧ j.payload.afterJob = some i

def Older (db : Db) (i k : ℕ) : Prop :=
  ∀ j w, db.row i = some j → db.row k = some w → j.startTime ≤ w.startTime

/-- What is queued, reported on or waited for is not waiting itself. -/
structure Placing (db : Db) (L : Tid → Option Grip) : Prop where
  numbered : ∀ i j, db.row i = some j → i < db.nextJob
  queued : ∀ i ∈ db.queue, Placed db i
  pending : ∀ x ∈ db.background, Placed db x.2.id ∧ x.2.status ≠ .waiting
  target : ∀ i k, Awaited db i k → Placed db i
  placed : ∀ t l i, L t = some l → i ∈ l.placed → Placed db i
  fresh : ∀ t l i, L t = some l → l.fresh = some i → db.row i = none ∧ i < db.nextJob
  distinct : ∀ t u l m i, L t = some l → L u = some m → l.fresh = some i → m.fresh = some i → t = u

/-- The rows of a promotion are waiting, oldest first, and nobody else's. -/
structure Locking (db : Db) (L : Tid → Option Grip) : Prop where
  exclusive : ∀ t u k, (t, k) ∈ db.rowLocks → (u, k) ∈ db.rowLocks → t = u
  held : ∀ t l i ids k, L t = some l → l.tx = some (i, ids) → k ∈ ids →
    (t, k) ∈ db.rowLocks ∧ Awaited db i k
  sorted : ∀ t l i ids, L t = some l → l.tx = some (i, ids) → ids.Pairwise (Older db)

structure Inv (db : Db) (L : Tid → Option Grip) : Prop where
  single : Single db
  placing : Placing db L
  locking : Locking db L

section Rows
variable {db db' : Db}

lemma not_placed {i : ℕ} {j : Job} (h : db.row i = some j) (hw : j.status = .waiting) :
    ¬Placed db i := by
  rintro ⟨k, hk, hs⟩
  rw [h] at hk
  cases hk
  exact hs hw

lemma not_waiting_of_active {st : JobStatus} (h : st.active = true) : st ≠ .waiting := by
  rintro rfl
  cases h

lemma awaited_congr (hj : db'.jobs = db.jobs) {i k : ℕ} : Awaited db' i k ↔ Awaited db i k := by
  simp only [Awaited, row_congr hj]

/-- Every row is rewritten, and what decides the order of promotion stays. -/
def Gentle (db db' : Db) : Prop :=
  ∀ i, (db.row i = none ∧ db'.row i = none) ∨ ∃ j j', db.row i = some j ∧ db'.row i = some j' ∧
    (j'.status = .waiting ↔ j.status = .waiting) ∧ j'.sourceId = j.sourceId ∧
    j'.startTime = j.startTime

/-- The row `k`, if it is waiting, goes on waiting. -/
def Stays (db db' : Db) (k : ℕ) : Prop :=
  ∀ j, db.row k = some j → j.status = .waiting → ∃ j', db'.row k = some j' ∧
    j'.status = .waiting ∧ j'.sourceId = j.sourceId ∧ j'.startTime = j.startTime

lemma gentle_of_jobs (hj : db'.jobs = db.jobs) : Gentle db db' := by
  intro i
  rw [row_congr hj i]
  cases h : db.row i with
  | none => exact .inl ⟨rfl, rfl⟩
  | some j => exact .inr ⟨j, j, rfl, rfl, Iff.rfl, rfl, rfl⟩

lemma gentle_modify {f : Job → Job} (k : ℕ) (hf : ∀ j, (f j).id = j.id)
    (hw : ∀ j, (f j).status = .waiting ↔ j.status = .waiting)
    (hs : ∀ j, (f j).sourceId = j.sourceId) (ht : ∀ j, (f j).startTime = j.startTime) :
    Gentle db (db.modify k f hf) := by
  intro i
  rw [row_modify]
  cases h : db.row i with
  | none => exact .inl ⟨rfl, by split <;> rfl⟩
  | some j =>
    refine .inr ⟨j, if i = k then f j else j, rfl, by split <;> rfl, ?_⟩
    split
    · exact ⟨hw j, hs j, ht j⟩
    · exact ⟨Iff.rfl, rfl, rfl⟩

lemma gentle_setAfter (ids : List ℕ) (target : ℕ) : Gentle db (db.setAfter ids target) := by
  intro i
  rw [row_setAfter]
  cases h : db.row i with
  | none => exact .inl ⟨rfl, by split <;> rfl⟩
  | some j =>
    refine .inr ⟨j, if i ∈ ids then j.behind target else j, rfl, by split <;> rfl, ?_⟩
    split <;> exact ⟨Iff.rfl, rfl, rfl⟩

lemma Gentle.placed (h : Gentle db db') {i : ℕ} (hi : Placed db i) : Placed db' i := by
  obtain ⟨j, hj, hs⟩ := hi
  rcases h i with ⟨hn, -⟩ | ⟨j₀, j', hj₀, hj', hw, -, -⟩
  · rw [hn] at hj
    cases hj
  · rw [hj₀] at hj
    cases hj
    exact ⟨j', hj', fun hst => hs (hw.1 hst)⟩

lemma Gentle.stays (h : Gentle db db') (k : ℕ) : Stays db db' k := by
  intro j hj hs
  rcases h k with ⟨hn, -⟩ | ⟨j₀, j', hj₀, hj', hw, hsrc, ht⟩
  · rw [hn] at hj
    cases hj
  · rw [hj₀] at hj
    cases hj
    exact ⟨j', hj', hw.2 hs, hsrc, ht⟩

lemma Gentle.row_none (h : Gentle db db') {i : ℕ} (hi : db.row i = none) : db'.row i = none := by
  rcases h i with ⟨-, hn⟩ | ⟨j₀, j', hj₀, -⟩
  · exact hn
  · rw [hi] at hj₀
    cases hj₀

/-- A job is stored that is not waiting, or that is new. -/
lemma placed_put {j : Job} (hj : j.status ≠ .waiting ∨ db.row j.id = none) {i : ℕ}
    (hi : Placed db i) : Placed (db.put j) i := by
  obtain ⟨r, hr, hs⟩ := hi
  by_cases hij : i = j.id
  · rcases hj with hj | hj
    · exact ⟨db.upserted j, by rw [row_put, if_pos hij], hj⟩
    · rw [hij, hj] at hr
      cases hr
  · exact ⟨r, by rw [row_put, if_neg hij, hr], hs⟩

lemma stays_put {j : Job} (hj : Placed db j.id ∨ db.row j.id = none) (k : ℕ) :
    Stays db (db.put j) k := by
  intro r hr hs
  have hkj : k ≠ j.id := by
    rintro rfl
    rcases hj with hj | hj
    · exact not_placed hr hs hj
    · rw [hj] at hr
      cases hr
  exact ⟨r, by rw [row_put, if_neg hkj, hr], hs, rfl, rfl⟩

lemma awaited_put {j : Job} {i k : ℕ} (h : Awaited (db.put j) i k) :
    Awaited db i k ∨ j.status = .waiting ∧ j.payload.afterJob = some i := by
  obtain ⟨r, hr, hs, ha⟩ := h
  rw [row_put] at hr
  split at hr
  · cases hr
    exact .inr ⟨hs, ha⟩
  · exact .inl ⟨r, hr, hs, ha⟩

lemma awaited_setAfter {ids : List ℕ} {target i k : ℕ} (h : Awaited (db.setAfter ids target) i k) :
    Awaited db i k ∨ i = target := by
  obtain ⟨r, hr, hs, ha⟩ := h
  obtain ⟨x, hx, rfl | rfl⟩ := row_of_setAfter hr
  · exact .inl ⟨r, hx, hs, ha⟩
  · exact .inr (Option.some.inj ha).symm

/-- The rows after a promotion. -/
abbrev afterPromotion (db : Db) (first : ℕ) (rest : List ℕ) : Db :=
  (db.modify first Job.promoted Job.promoted_id).setAfter rest first

section Promotion
variable {first : ℕ} {rest : List ℕ} {j : Job}

lemma placed_promotion {i : ℕ} (hi : Placed db i) : Placed (afterPromotion db first rest) i := by
  refine (gentle_setAfter rest first).placed ?_
  obtain ⟨r, hr, hs⟩ := hi
  by_cases hif : i = first
  · exact ⟨r.promoted, by rw [row_modify, if_pos hif, hr]; rfl, fun h => by cases h⟩
  · exact ⟨r, by rw [row_modify, if_neg hif, hr], hs⟩

lemma placed_promoted (hj : db.row first = some j) : Placed (afterPromotion db first rest) first :=
  (gentle_setAfter rest first).placed
    ⟨j.promoted, by rw [row_modify, if_pos rfl, hj]; rfl, fun h => by cases h⟩

lemma stays_promotion {k : ℕ} (hk : k ≠ first) : Stays db (afterPromotion db first rest) k := by
  intro r hr hs
  exact (gentle_setAfter rest first).stays k r (by rw [row_modify, if_neg hk, hr]) hs

lemma row_none_promotion {i : ℕ} (hi : db.row i = none) :
    (afterPromotion db first rest).row i = none := by
  refine (gentle_setAfter rest first).row_none ?_
  rw [row_modify, hi]
  split <;> rfl

lemma row_promotion {k : ℕ} (hk : k ∉ first :: rest) :
    (afterPromotion db first rest).row k = db.row k := by
  rw [List.mem_cons, not_or] at hk
  rw [row_setAfter, if_neg hk.2, row_modify, if_neg hk.1]

lemma awaited_promotion {i k : ℕ} (h : Awaited (afterPromotion db first rest) i k) :
    Awaited db i k ∨ i = first := by
  refine (awaited_setAfter h).imp_left ?_
  rintro ⟨r, hr, hs, ha⟩
  obtain ⟨x, hx, ⟨-, rfl⟩ | ⟨-, rfl⟩⟩ := row_of_modify hr
  · exact ⟨r, hx, hs, ha⟩
  · cases hs

end Promotion

end Rows

/-! ### One step -/

section Step
variable {db db' : Db} {L : Tid → Option Grip} {t : Tid} {l l' : Grip}

/-- The rows change in one step of `t`, whose record becomes `x`. -/
lemma Placing.frame (h : Placing db L) {x : Option Grip} (hn : db.nextJob ≤ db'.nextJob)
    (hpl : ∀ i, Placed db i → Placed db' i)
    (hrow : ∀ i, db.row i = none → db'.row i = none ∨
      (∃ l, L t = some l ∧ l.fresh = some i) ∧ ∀ m, x = some m → m.fresh ≠ some i)
    (hq : ∀ i ∈ db'.queue, i ∈ db.queue ∨ Placed db' i)
    (hb : ∀ y ∈ db'.background, y ∈ db.background ∨ Placed db' y.2.id ∧ y.2.status ≠ .waiting)
    (hw : ∀ i k, Awaited db' i k → Awaited db i k ∨ Placed db' i)
    (hp : ∀ m i, x = some m → i ∈ m.placed → Placed db' i)
    (hf : ∀ m i, x = some m → m.fresh = some i →
      (∃ l, L t = some l ∧ l.fresh = some i) ∨ i = db.nextJob ∧ i < db'.nextJob) :
    Placing db' (Function.update L t x) where
  numbered i j hi := by
    cases hdb : db.row i with
    | some r => exact (h.numbered i r hdb).trans_le hn
    | none =>
      rcases hrow i hdb with hnone | ⟨⟨l, hl, hfr⟩, -⟩
      · rw [hnone] at hi
        cases hi
      · exact (h.fresh t l i hl hfr).2.trans_le hn
  queued i hi := (hq i hi).elim (fun hi => hpl i (h.queued i hi)) id
  pending y hy := (hb y hy).elim
    (fun hy => ⟨hpl _ (h.pending y hy).1, (h.pending y hy).2⟩) id
  target i k hi := (hw i k hi).elim (fun hi => hpl i (h.target i k hi)) id
  placed u m i hu hi := by
    rcases update_cases hu with ⟨rfl, hx⟩ | ⟨-, hu⟩
    · exact hp m i hx hi
    · exact hpl i (h.placed u m i hu hi)
  fresh u m i hu hi := by
    rcases update_cases hu with ⟨rfl, hx⟩ | ⟨hut, hu⟩
    · rcases hf m i hx hi with ⟨l, hl, hfr⟩ | ⟨rfl, hlt⟩
      · obtain ⟨hnone, hlt⟩ := h.fresh u l i hl hfr
        exact ⟨(hrow i hnone).resolve_right fun hr => hr.2 m hx hi, hlt.trans_le hn⟩
      · have hnone : db.row db.nextJob = none := by
          cases hdb : db.row db.nextJob with
          | none => rfl
          | some r => exact absurd (h.numbered _ r hdb) (lt_irrefl _)
        exact ⟨(hrow _ hnone).resolve_right fun hr => hr.2 m hx hi, hlt⟩
    · obtain ⟨hnone, hlt⟩ := h.fresh u m i hu hi
      refine ⟨(hrow i hnone).resolve_right ?_, hlt.trans_le hn⟩
      rintro ⟨⟨l, hl, hfr⟩, -⟩
      exact hut (h.distinct u t m l i hu hl hi hfr)
  distinct u v m m' i hu hv hi hi' := by
    -- a number that has just been given out is nobody else's
    have hnew : ∀ w k, w ≠ t → L w = some k → k.fresh = some i → ∀ m, x = some m →
        m.fresh = some i → False := by
      intro w k hwt hw hk m hx hm
      rcases hf m i hx hm with ⟨l, hl, hfr⟩ | ⟨rfl, -⟩
      · exact hwt (h.distinct w t k l i hw hl hk hfr)
      · exact absurd (h.fresh w k _ hw hk).2 (lt_irrefl _)
    rcases update_cases hu with ⟨hut, hx⟩ | ⟨hut, hLu⟩ <;>
      rcases update_cases hv with ⟨hvt, hy⟩ | ⟨hvt, hLv⟩
    · exact hut.trans hvt.symm
    · exact (hnew v m' hvt hLv hi' m hx hi).elim
    · exact (hnew u m hut hLu hi m' hy hi').elim
    · exact h.distinct u v m m' i hLu hLv hi hi'

/-- No lock is added, and the rows a promotion has locked stay. -/
lemma Locking.frame (h : Locking db L) {L' : Tid → Option Grip}
    (hless : ∀ x ∈ db'.rowLocks, x ∈ db.rowLocks)
    (htx : ∀ u m i ids, L' u = some m → m.tx = some (i, ids) →
      (∃ m', L u = some m' ∧ m'.tx = some (i, ids)) ∧
        ∀ k ∈ ids, db'.row k = db.row k ∧ ((u, k) ∈ db.rowLocks → (u, k) ∈ db'.rowLocks)) :
    Locking db' L' where
  exclusive u v k hu hv := h.exclusive u v k (hless _ hu) (hless _ hv)
  held u m i ids k hu hm hk := by
    obtain ⟨⟨m', hu', hm'⟩, hrow⟩ := htx u m i ids hu hm
    obtain ⟨hlock, j, hj, hw⟩ := h.held u m' i ids k hu' hm' hk
    exact ⟨(hrow k hk).2 hlock, j, (hrow k hk).1.trans hj, hw⟩
  sorted u m i ids hu hm := by
    obtain ⟨⟨m', hu', hm'⟩, hrow⟩ := htx u m i ids hu hm
    refine (h.sorted u m' i ids hu' hm').imp_of_mem fun ha hb hab j w hj hw => ?_
    exact hab j w ((hrow _ ha).1 ▸ hj) ((hrow _ hb).1 ▸ hw)

/-- The rows that a task without a promotion may write are in nobody's. -/
lemma Locking.free (h : Locking db L) {k : ℕ} (hlock : db.lockedFor t k = false)
    (hl : L t = some l) (htx : l.tx = none) :
    ∀ u m i ids, L u = some m → m.tx = some (i, ids) → k ∉ ids := by
  intro u m i ids hu hm hk
  obtain rfl : u = t := not_lockedFor.1 hlock u (h.held u m i ids k hu hm hk).1
  rw [hl] at hu
  cases hu
  rw [htx] at hm
  cases hm

/-- One row is written, which no promotion has locked. -/
lemma Locking.write (h : Locking db L) {i : ℕ} (hrow : ∀ k, k ≠ i → db'.row k = db.row k)
    (hk : db'.rowLocks = db.rowLocks)
    (hfree : ∀ u m a ids, L u = some m → m.tx = some (a, ids) → i ∉ ids) (hl : L t = some l)
    (htx : l'.tx = l.tx) : Locking db' (Function.update L t (some l')) := by
  refine h.frame (fun x hx => hk ▸ hx) fun u m a ids hu hm => ?_
  have hold : ∃ m', L u = some m' ∧ m'.tx = some (a, ids) := by
    rcases update_cases hu with ⟨rfl, hx⟩ | ⟨-, hu⟩
    · cases hx
      exact ⟨l, hl, htx ▸ hm⟩
    · exact ⟨m, hu, hm⟩
  obtain ⟨m', hu', hm'⟩ := hold
  refine ⟨⟨m', hu', hm'⟩, fun k hmem => ⟨hrow k ?_, fun hlock => hk ▸ hlock⟩⟩
  rintro rfl
  exact hfree u m' a ids hu' hm' hmem

/-- The task closes its transaction, after a change to the rows it had locked. -/
lemma Locking.close (h : Locking db L) (hk : db'.rowLocks = db.rowLocks.filter fun x => x.1 ≠ t)
    (hl : L t = some l) {i : ℕ} {ids : List ℕ} (htx : l.tx = some (i, ids))
    (hrow : ∀ k, k ∉ ids → db'.row k = db.row k) :
    Locking db' (Function.update L t (some { l with tx := none })) := by
  refine h.frame (fun x hx => ?_) fun u m a us hu hm => ?_
  · rw [hk] at hx
    exact (List.mem_filter.1 hx).1
  · rcases update_cases hu with ⟨rfl, hx⟩ | ⟨hut, hu⟩
    · cases hx
      cases hm
    · refine ⟨⟨m, hu, hm⟩, fun k hmem => ⟨hrow k fun hk => ?_, fun hlock => ?_⟩⟩
      · exact hut (h.exclusive u t k (h.held u m a us k hu hm hmem).1
          (h.held t l i ids k hl htx hk).1)
      · rw [hk]
        exact List.mem_filter.2 ⟨hlock, decide_eq_true hut⟩

@[simp] lemma see_fresh (l : Grip) (js : List Job) : (l.see js).fresh = l.fresh := rfl

@[simp] lemma see_tx (l : Grip) (js : List Job) : (l.see js).tx = l.tx := rfl

lemma mem_see {js : List Job} {i : ℕ} :
    i ∈ (l.see js).placed ↔ (∃ j ∈ js, j.status ≠ .waiting ∧ j.id = i) ∨ i ∈ l.placed := by
  simp only [Grip.see, List.mem_append, List.mem_map, List.mem_filter, ne_eq, decide_eq_true_eq]
  refine or_congr_left (exists_congr fun j => ?_)
  rw [and_assoc]

/-- The rows and their locks stay. -/
lemma Inv.move (h : Inv db L) (hl : L t = some l) (hj : db'.jobs = db.jobs)
    (hk : db'.rowLocks = db.rowLocks) (htx : l'.tx = l.tx) (hn : db.nextJob ≤ db'.nextJob)
    (hq : ∀ i ∈ db'.queue, i ∈ db.queue ∨ Placed db i)
    (hb : ∀ y ∈ db'.background, y ∈ db.background ∨ Placed db y.2.id ∧ y.2.status ≠ .waiting)
    (hp : ∀ i ∈ l'.placed, i ∈ l.placed ∨ Placed db i)
    (hf : ∀ i, l'.fresh = some i → l.fresh = some i ∨ i = db.nextJob ∧ i < db'.nextJob) :
    Inv db' (Function.update L t (some l')) := by
  have hgentle := gentle_of_jobs hj
  refine ⟨(calms_of_jobs hj).single h.single, h.placing.frame hn (fun _ => hgentle.placed)
    (fun i hi => .inl (hgentle.row_none hi)) (fun i hi => (hq i hi).imp_right hgentle.placed)
    (fun y hy => (hb y hy).imp_right fun ⟨hy, hs⟩ => ⟨hgentle.placed hy, hs⟩)
    (fun i k hi => .inl ((awaited_congr hj).1 hi)) (fun m i hx hi => ?_) (fun m i hx hi => ?_), ?_⟩
  · cases hx
    exact hgentle.placed ((hp i hi).elim (h.placing.placed t l i hl) id)
  · cases hx
    exact (hf i hi).imp_left fun hi => ⟨l, hl, hi⟩
  · refine h.locking.frame (fun x hx => hk ▸ hx) fun u m a ids hu hm =>
      ⟨?_, fun k _ => ⟨row_congr hj k, fun hlock => hk ▸ hlock⟩⟩
    rcases update_cases hu with ⟨rfl, hx⟩ | ⟨-, hu⟩
    · cases hx
      exact ⟨l, hl, htx ▸ hm⟩
    · exact ⟨m, hu, hm⟩

/-- A task without a promotion rewrites one row, and the record stays. -/
lemma Inv.rewrite (h : Inv db L) (hl : L t = some l) (htx : l.tx = none) {i : ℕ} {f : Job → Job}
    (hf : ∀ j, (f j).id = j.id) (hlock : db.lockedFor t i = false)
    (hw : ∀ j, (f j).status = .waiting ↔ j.status = .waiting)
    (hs : ∀ j, (f j).sourceId = j.sourceId) (ht : ∀ j, (f j).startTime = j.startTime)
    (hp : ∀ j, (f j).payload = j.payload)
    (ha : ∀ j, (f j).status.active = true → j.status.active = true)
    (hj : db'.jobs = (db.modify i f hf).jobs) (hk : db'.rowLocks = db.rowLocks)
    (hn : db'.nextJob = db.nextJob) (hb : db'.background = db.background)
    (hq : ∀ k ∈ db'.queue, k ∈ db.queue) : Inv db' (Function.update L t (some l)) := by
  have hrow : ∀ k, db'.row k = (db.modify i f hf).row k := row_congr hj
  have hgentle : Gentle db db' := fun k => hrow k ▸ gentle_modify i hf hw hs ht k
  have hcalms : Calms db db' := fun k r hr => calms_modify i hf hs ha k r (hrow k ▸ hr)
  refine ⟨hcalms.single h.single, h.placing.frame hn.ge (fun _ => hgentle.placed)
    (fun k hk => .inl (hgentle.row_none hk)) (fun k hk => .inl (hq k hk))
    (fun y hy => .inl (hb ▸ hy)) (fun a k hak => .inl ?_) (fun m k hx hk => ?_)
    (fun m k hx hk => ?_), ?_⟩
  · obtain ⟨r', hr', hst, hafter⟩ := hak
    obtain ⟨r, hr, ⟨-, rfl⟩ | ⟨-, rfl⟩⟩ := row_of_modify (hrow k ▸ hr')
    · exact ⟨r', hr, hst, hafter⟩
    · exact ⟨r, hr, (hw r).1 hst, hp r ▸ hafter⟩
  · cases hx
    exact hgentle.placed (h.placing.placed t l k hl hk)
  · cases hx
    exact .inl ⟨l, hl, hk⟩
  · exact h.locking.write (i := i) (fun k hki => by rw [hrow, row_modify, if_neg hki]) hk
      (h.locking.free hlock hl htx) hl rfl

lemma Inv.upsert (h : Inv db L) (hl : L t = some l) {j : Job} (hm : MayUpsert l j)
    {ok : Bool} {env : ℕ} (he : exec db t env (.upsert j) = some (ok, db')) :
    Inv db' (Function.update L t (some (l.afterUpsert j ok))) := by
  have hsingle := single_of_exec h.single he
  rcases exec_upsert he with ⟨hlock, ⟨rfl, -, rfl⟩ | ⟨rfl, -, rfl⟩⟩
  · have hfresh : l.fresh = some j.id → db.row j.id = none := fun hf =>
      (h.placing.fresh t l j.id hl hf).1
    have hnone : j.status ≠ .waiting ∨ db.row j.id = none := by
      by_cases hs : j.status = .waiting
      · exact .inr (hfresh (hm.waiting hs).1)
      · exact .inl hs
    have hself : db.row j.id = none → l.fresh = some j.id := fun hrow => by
      by_cases hs : j.status = .waiting
      · exact (hm.waiting hs).1
      · refine (hm.other hs).resolve_left fun hmem => ?_
        obtain ⟨r, hr, -⟩ := h.placing.placed t l j.id hl hmem
        rw [hrow] at hr
        cases hr
    refine ⟨hsingle, h.placing.frame le_rfl (fun i => placed_put hnone) (fun i hi => ?_)
      (fun i hi => .inl hi) (fun y hy => .inl hy) (fun i k hik => ?_) (fun m i hx hi => ?_)
      (fun m i hx hi => ?_), ?_⟩
    · by_cases hij : i = j.id
      · subst hij
        refine .inr ⟨⟨l, hl, hself hi⟩, fun m hx hf => ?_⟩
        cases hx
        change (if l.fresh = some j.id then none else l.fresh) = some j.id at hf
        rw [if_pos (hself hi)] at hf
        cases hf
      · exact .inl (by rw [row_put, if_neg hij, hi])
    · rcases awaited_put hik with hik | ⟨hs, ha⟩
      · exact .inl hik
      · obtain ⟨a, hmem, ha'⟩ := (hm.waiting hs).2
        rw [ha] at ha'
        cases ha'
        exact .inr (placed_put hnone (h.placing.placed t l i hl hmem))
    · cases hx
      rcases mem_see.1 hi with ⟨k, hk, hs, rfl⟩ | hi
      · obtain rfl : k = j := List.mem_singleton.1 hk
        exact ⟨db.upserted k, by rw [row_put, if_pos rfl], hs⟩
      · exact placed_put hnone (h.placing.placed t l i hl hi)
    · cases hx
      refine .inl ⟨l, hl, ?_⟩
      change (if l.fresh = some j.id then none else l.fresh) = some i at hi
      split at hi
      · cases hi
      · exact hi
    · exact h.locking.write (i := j.id) (fun k hk => by rw [row_put, if_neg hk]) rfl
        (h.locking.free hlock hl hm.tx) hl rfl
  · exact h.move hl rfl rfl rfl le_rfl (fun i hi => .inl hi) (fun y hy => .inl hy)
      (fun i hi => .inl hi) fun i hi => .inl hi

lemma Inv.lockWaiting (h : Inv db L) (hl : L t = some l) {i env : ℕ} {rows : List Job}
    (he : exec db t env (.lockWaiting i) = some (rows, db')) :
    Inv db' (Function.update L t (some (after l (.lockWaiting i) rows))) := by
  obtain ⟨rfl, hfree, rfl⟩ := exec_lockWaiting he
  have hmine : ∀ k, (t, k) ∈ (db.waitingAfter i).map (fun r => (t, r.id)) →
      ∀ u, (u, k) ∈ db.rowLocks → u = t := by
    intro k hk
    obtain ⟨r, hr, hrk⟩ := List.mem_map.1 hk
    obtain rfl : r.id = k := congrArg Prod.snd hrk
    exact not_lockedFor.1 (hfree r hr)
  have htx' : ∀ a ids, (after l (.lockWaiting i) (db.waitingAfter i)).tx = some (a, ids) →
      a = i ∧ ids = (db.waitingAfter i).map Job.id := by
    intro a ids hm
    change (if _ then _ else _) = _ at hm
    split at hm
    · cases hm
    · cases hm
      exact ⟨rfl, rfl⟩
  refine ⟨h.single, h.placing.frame le_rfl (fun _ hi => hi) (fun _ hi => .inl hi)
    (fun _ hi => .inl hi) (fun _ hy => .inl hy) (fun _ _ hi => .inl hi) (fun m k hx hk => ?_)
    (fun m k hx hk => ?_), ?_, ?_, ?_⟩
  · cases hx
    exact h.placing.placed t l k hl hk
  · cases hx
    exact .inl ⟨l, hl, hk⟩
  · intro u v k hu hv
    have hlock : ∀ w, (w, k) ∈ (db.waitingAfter i).map (fun r => (t, r.id)) → w = t := by
      intro w hw
      obtain ⟨r, -, hr⟩ := List.mem_map.1 hw
      exact (congrArg Prod.fst hr).symm
    rcases List.mem_append.1 hu with hu' | hu' <;> rcases List.mem_append.1 hv with hv' | hv'
    · exact (hlock u hu').trans (hlock v hv').symm
    · obtain rfl := hlock u hu'
      exact (hmine k hu' v hv').symm
    · obtain rfl := hlock v hv'
      exact hmine k hv' u hu'
    · exact h.locking.exclusive u v k hu' hv'
  · intro u m a ids k hu hm hk
    rcases update_cases hu with ⟨rfl, hx⟩ | ⟨-, hu⟩
    · cases hx
      obtain ⟨rfl, rfl⟩ := htx' a ids hm
      obtain ⟨r, hr, rfl⟩ := List.mem_map.1 hk
      exact ⟨List.mem_append.2 (.inl (List.mem_map.2 ⟨r, hr, rfl⟩)), r, mem_waitingAfter.1 hr⟩
    · obtain ⟨hlock, haw⟩ := h.locking.held u m a ids k hu hm hk
      exact ⟨List.mem_append.2 (.inr hlock), haw⟩
  · intro u m a ids hu hm
    rcases update_cases hu with ⟨rfl, hx⟩ | ⟨-, hu⟩
    · cases hx
      obtain ⟨rfl, rfl⟩ := htx' a ids hm
      have hsorted := List.pairwise_insertionSort (fun a b : Job => a.startTime ≤ b.startTime)
        (db.jobs.rows.filter fun r => r.status = .waiting && r.payload.afterJob = some a)
      refine List.pairwise_map.2 (List.Pairwise.imp_of_mem ?_ hsorted)
      intro x y hx hy hxy j w hj hw
      have hxr := (mem_waitingAfter.1 hx).1
      have hyr := (mem_waitingAfter.1 hy).1
      have hj : db.row x.id = some j := hj
      have hw : db.row y.id = some w := hw
      rw [hxr] at hj
      rw [hyr] at hw
      cases hj
      cases hw
      exact hxy
    · exact h.locking.sorted u m a ids hu hm

lemma Inv.relink (h : Inv db L) (hl : L t = some l) {i : ℕ} {ids : List ℕ} {target : ℕ}
    (hmem : target ∈ l.placed) (htx : l.tx = some (i, ids)) :
    Inv ((db.setAfter ids target).endTransaction t)
      (Function.update L t (some { l with tx := none })) := by
  have hgentle : Gentle db ((db.setAfter ids target).endTransaction t) := gentle_setAfter ids target
  have htarget := h.placing.placed t l target hl hmem
  refine ⟨(calms_setAfter ids target).single h.single, h.placing.frame le_rfl
    (fun _ => hgentle.placed) (fun k hk => .inl (hgentle.row_none hk)) (fun _ hk => .inl hk)
    (fun _ hy => .inl hy) (fun a k hak => ?_) (fun m k hx hk => ?_) (fun m k hx hk => ?_), ?_⟩
  · have hak : Awaited (db.setAfter ids target) a k := hak
    refine (awaited_setAfter hak).imp_right ?_
    rintro rfl
    exact hgentle.placed htarget
  · cases hx
    exact hgentle.placed (h.placing.placed t l k hl hk)
  · cases hx
    exact .inl ⟨l, hl, hk⟩
  · exact h.locking.close rfl hl htx fun k hk => by
      rw [row_endTransaction, row_setAfter, if_neg hk]

lemma Inv.promote (h : Inv db L) (hl : L t = some l) {i n env first : ℕ} {rest : List ℕ}
    (htx : l.tx = some (i, first :: rest)) {p : Promotion}
    (he : exec db t env (.promote n first rest) = some (p, db')) :
    Inv db' (Function.update L t (some { l with tx := none })) := by
  have hsingle := single_of_exec h.single he
  have hend : Inv (db.endTransaction t) (Function.update L t (some { l with tx := none })) := by
    refine ⟨h.single, h.placing.frame le_rfl (fun _ hi => hi) (fun _ hi => .inl hi)
      (fun _ hi => .inl hi) (fun _ hy => .inl hy) (fun _ _ hi => .inl hi) (fun m k hx hk => ?_)
      (fun m k hx hk => ?_), h.locking.close rfl hl htx fun _ _ => rfl⟩
    · cases hx
      exact h.placing.placed t l k hl hk
    · cases hx
      exact .inl ⟨l, hl, hk⟩
  rcases exec_promote he with ⟨-, -, rfl⟩ | ⟨j, hj, -, ⟨-, -, rfl⟩ | ⟨-, -, rfl⟩⟩
  · exact hend
  · exact hend
  · refine ⟨hsingle, h.placing.frame le_rfl (fun _ hk => ?_) (fun k hk => .inl ?_) (fun k hk => ?_)
      (fun _ hy => .inl hy) (fun a k hak => ?_) (fun m k hx hk => ?_) (fun m k hx hk => ?_), ?_⟩
    · exact placed_promotion hk
    · exact row_none_promotion hk
    · refine (mem_enqueue hk).imp_right ?_
      rintro rfl
      exact placed_promoted hj
    · have hak : Awaited (afterPromotion db first rest) a k := hak
      refine (awaited_promotion hak).imp_right ?_
      rintro rfl
      exact placed_promoted hj
    · cases hx
      exact placed_promotion (h.placing.placed t l k hl hk)
    · cases hx
      exact .inl ⟨l, hl, hk⟩
    · exact h.locking.close rfl hl htx fun k hk => by
        rw [row_endTransaction, row_enqueue]
        exact row_promotion hk

lemma status_cancelled (j : Job) : j.cancelled.status = .waiting ↔ j.status = .waiting := by
  unfold Job.cancelled
  split
  · rename_i hs
    simp [hs]
  · exact Iff.rfl

lemma startTime_cancelled (j : Job) : j.cancelled.startTime = j.startTime := by
  unfold Job.cancelled
  split <;> rfl

lemma payload_cancelled (j : Job) : j.cancelled.payload = j.payload := by
  unfold Job.cancelled
  split <;> rfl

lemma nextJob_of_exec {env : ℕ} {o : Op} {r : o.Answer} (he : exec db t env o = some (r, db'))
    (ho : o ≠ .newJob) : db'.nextJob = db.nextJob := by
  cases o <;> simp only [exec, Db.cancelIfQueued, Db.promote] at he <;> (repeat' split at he) <;>
    cases he <;> first
    | rfl
    | exact write_nextJob _
    | exact absurd rfl ho

/-- An operation that touches neither rows nor locks, and queues no job. -/
lemma Inv.other (h : Inv db L) (hl : L t = some l) {env : ℕ} {o : Op} {r : o.Answer}
    (he : exec db t env o = some (r, db')) (ho : writesJobs o = false) (hlo : writesLocks o = false)
    (hins : inserts o = none) (hb : ∀ j, o ≠ .background j) (hn : o ≠ .newJob)
    (hp : ∀ i ∈ l'.placed, i ∈ l.placed ∨ Placed db i) (hf : l'.fresh = l.fresh)
    (htx : l'.tx = l.tx) : Inv db' (Function.update L t (some l')) := by
  refine h.move hl (jobs_of_exec he ho) (rowLocks_of_exec he hlo) htx (nextJob_of_exec he hn).ge
    (fun i hi => .inl ?_) (fun y hy => .inl ?_) hp fun i hfr => .inl (hf ▸ hfr)
  · refine (mem_queue_of_exec he hi).resolve_right fun h => ?_
    rw [hins] at h
    cases h
  · exact (background_of_exec he hy).resolve_right fun ⟨j, hj, _⟩ => hb j hj

/-- The rows that a task is shown are placed as far as they do not wait. -/
lemma placed_of_see {js : List Job} (hjs : ∀ j ∈ js, db.row j.id = some j) :
    ∀ i ∈ (l.see js).placed, i ∈ l.placed ∨ Placed db i := by
  intro i hi
  rcases mem_see.1 hi with ⟨j, hj, hs, rfl⟩ | hi
  · exact .inr ⟨j, hjs j hj, hs⟩
  · exact .inl hi

/-- Every operation of a disciplined task keeps the invariant. -/
lemma Inv.op (h : Inv db L) (hl : L t = some l) {env : ℕ} {o : Op} {r : o.Answer} (hm : may l o)
    (he : exec db t env o = some (r, db')) :
    admits o r ∧ Inv db' (Function.update L t (some (after l o r))) := by
  cases o with
  | newJob =>
    cases he
    refine ⟨trivial, h.move hl rfl rfl rfl (Nat.le_succ _) (fun _ hi => .inl hi)
      (fun _ hy => .inl hy) (fun _ hi => .inl hi) fun i hi => .inr ?_⟩
    cases hi
    exact ⟨rfl, Nat.lt_succ_self _⟩
  | upsert j => exact ⟨trivial, h.upsert hl hm he⟩
  | get i =>
    have hr : r = db.row i := by
      cases he
      rfl
    subst hr
    refine ⟨fun j => id_of_row, h.other hl he rfl rfl rfl (by simp) (by simp)
      (placed_of_see fun j hj => ?_) rfl rfl⟩
    have hj : db.row i = some j := by simpa using hj
    rwa [id_of_row hj]
  | listByStatus st =>
    have hr : r = db.jobs.rows.filter fun r => r.status = st := by
      cases he
      rfl
    subst hr
    refine ⟨fun j hj => of_decide_eq_true (List.mem_filter.1 hj).2, h.other hl he rfl rfl rfl
      (by simp) (by simp) (placed_of_see fun j hj => ?_) rfl rfl⟩
    exact Keyed.get?_of_mem (List.mem_filter.1 hj).1
  | activeRow sid =>
    have hr : r = db.activeRow sid := by
      cases he
      rfl
    subst hr
    refine ⟨fun j hj => (activeRow_eq_some hj).2.1, h.other hl he rfl rfl rfl (by simp) (by simp)
      (placed_of_see fun j hj => ?_) rfl rfl⟩
    have hj : db.activeRow sid = some j := by simpa using hj
    exact (activeRow_eq_some hj).1
  | incrementAttempts i =>
    obtain ⟨hlock, rfl⟩ := exec_increment he
    exact ⟨trivial, h.rewrite hl hm Job.tried_id hlock (fun _ => Iff.rfl)
      (fun _ => rfl) (fun _ => rfl) (fun _ => rfl) (fun _ ha => ha) rfl rfl rfl rfl fun _ hk => hk⟩
  | enqueue i =>
    cases he
    refine ⟨trivial, h.move hl rfl rfl rfl le_rfl (fun k hk => (mem_enqueue hk).imp_right ?_)
      (fun _ hy => .inl hy) (fun _ hi => .inl hi) fun _ hi => .inl hi⟩
    rintro rfl
    exact h.placing.placed t l i hl hm
  | claim =>
    refine ⟨trivial, h.other hl he rfl rfl rfl (by simp) (by simp) (fun i hi => ?_) rfl rfl⟩
    rcases List.mem_append.1 hi with hi | hi
    · rcases exec_claim he with ⟨rfl, -⟩ | ⟨k, hk, rfl, -⟩
      · cases hi
      · have hi : i ∈ [k] := hi
        obtain rfl := List.mem_singleton.1 hi
        exact .inr (h.placing.queued i hk)
    · exact .inl hi
  | cancelIfQueued i =>
    refine ⟨trivial, ?_⟩
    obtain ⟨hlock, ⟨-, -, rfl⟩ | ⟨-, -, rfl⟩⟩ := exec_cancel he
    · exact h.rewrite hl hm Job.cancelled_id hlock status_cancelled
        sourceId_cancelled startTime_cancelled payload_cancelled (fun _ => active_of_cancelled) rfl
        rfl rfl rfl fun _ hk => (Keyed.mem_erase.1 hk).1
    · exact h.move hl rfl rfl rfl le_rfl (fun _ hi => .inl hi) (fun _ hy => .inl hy)
        (fun _ hi => .inl hi) fun _ hi => .inl hi
  | lockWaiting i => exact ⟨trivial, h.lockWaiting hl he⟩
  | relink ids target =>
    obtain ⟨hmem, i, htx⟩ := hm
    cases he
    exact ⟨trivial, h.relink hl hmem htx⟩
  | promote n first rest =>
    obtain ⟨i, htx⟩ := hm
    exact ⟨trivial, h.promote hl htx he⟩
  | background j =>
    cases he
    refine ⟨trivial, h.move hl rfl rfl rfl le_rfl (fun _ hi => .inl hi) (fun y hy => ?_)
      (fun _ hi => .inl hi) fun _ hi => .inl hi⟩
    rcases List.mem_append.1 hy with hy | hy
    · exact .inl hy
    · obtain rfl := List.mem_singleton.1 hy
      exact .inr ⟨h.placing.placed t l _ hl hm.1, hm.2⟩
  | _ =>
    exact ⟨trivial, h.other hl he rfl rfl rfl (by simp) (by simp) (fun _ hi => .inl hi) rfl rfl⟩

/-- Progress lands on a job that does not wait. -/
lemma Inv.land (h : Inv db L) {n : ℕ} (he : own db (.land n) = some db') : Inv db' L := by
  have hsingle := single_of_own h.single he
  obtain ⟨u, k, hk, hlock, hput⟩ := own_land he
  obtain ⟨hplaced, hs⟩ := h.placing.pending _ (List.mem_of_getElem? hk)
  have hless : Inv { db with background := db.background.eraseIdx n } L :=
    ⟨h.single, ⟨h.placing.numbered, h.placing.queued,
      fun y hy => h.placing.pending y (List.mem_of_mem_eraseIdx hy), h.placing.target,
      h.placing.placed, h.placing.fresh, h.placing.distinct⟩,
      ⟨h.locking.exclusive, h.locking.held, h.locking.sorted⟩⟩
  rcases hput with ⟨-, rfl⟩ | ⟨-, rfl⟩
  · exact hless
  · have hrow : ∀ i, i ≠ k.id → (Db.put { db with background := db.background.eraseIdx n } k).row i =
        db.row i := fun i hi => by
      rw [row_put, if_neg hi]
      rfl
    refine ⟨hsingle, ?_, h.locking.frame (fun x hx => hx) fun v m i ids hv hm =>
      ⟨⟨m, hv, hm⟩, fun i' hi' => ⟨hrow i' ?_, id⟩⟩⟩
    · rw [← Function.update_eq_self u L]
      refine hless.placing.frame le_rfl (fun i => placed_put (.inl hs)) (fun i hi => .inl ?_)
        (fun _ hi => .inl hi) (fun _ hy => .inl hy) (fun i w hiw => ?_) (fun m i hx hi => ?_)
        fun m i hx hi => .inl ⟨m, hx, hi⟩
      · rw [hrow i]
        · exact hi
        · rintro rfl
          obtain ⟨r, hr, -⟩ := hplaced
          have hi : db.row k.id = none := hi
          rw [hr] at hi
          cases hi
      · exact (awaited_put hiw).imp_right fun hw => absurd hw.1 hs
      · exact placed_put (.inl hs) (hless.placing.placed u m i hx hi)
    · rintro rfl
      exact not_locked.1 hlock v (h.locking.held v m i ids _ hv hm hi').1

end Step

/-! ### Every task keeps to the discipline -/

/-- The task is in no promotion, and has seen what it had seen in `l`. -/
structure Follows (l m : Grip) : Prop where
  tx : m.tx = none
  placed : ∀ i ∈ l.placed, i ∈ m.placed

/-- What needs no permission, and opens no promotion. -/
def Calm : Op → Prop
  | .upsert _ => False
  | .background _ => False
  | .enqueue _ => False
  | .lockWaiting _ => False
  | .relink _ _ => False
  | .promote _ _ _ => False
  | _ => True

section Programs
variable {α β : Type} {l m : Grip} {j k : Job}

lemma Follows.refl (h : l.tx = none) : Follows l l := ⟨h, fun _ hi => hi⟩

lemma Follows.trans {n : Grip} (h : Follows l m) (h' : Follows m n) : Follows l n :=
  ⟨h'.tx, fun i hi => h'.placed i (h.placed i hi)⟩

lemma follows_see (js : List Job) (h : Follows l m) : Follows l (m.see js) :=
  ⟨h.tx, fun i hi => mem_see.2 (.inr (h.placed i hi))⟩

lemma follows_of_calm {o : Op} (ho : Calm o) (h : Follows l m) :
    may m o ∧ ∀ r, Follows l (after m o r) := by
  cases o <;> first
    | exact ho.elim
    | exact ⟨trivial, fun _ => h⟩
    | exact ⟨trivial, fun _ => follows_see _ h⟩
    | exact ⟨h.tx, fun _ => h⟩
    | skip
  case claim =>
    exact ⟨trivial, fun r => ⟨h.tx, fun i hi => List.mem_append.2 (.inr (h.placed i hi))⟩⟩
  case newJob => exact ⟨trivial, fun r => ⟨h.tx, h.placed⟩⟩

lemma wp_of_calm {p : Act α} (h : Uses Calm p) (hl : Follows l m) :
    discipline.wp p (fun _ => Follows l) (fun _ => Follows l) m :=
  h.wp (D := discipline) (I := Follows l) (fun _ ho _ hl =>
    ⟨(follows_of_calm ho hl).1, fun r _ => (follows_of_calm ho hl).2 r⟩) hl

lemma wp_calm_bind {p : Act α} {f : α → Act β} {Q : β → Grip → Prop} {X : Exc → Grip → Prop}
    (h : Uses Calm p) (hl : Follows l m) (hf : ∀ a m, Follows l m → discipline.wp (f a) Q X m)
    (hX : ∀ e m, Follows l m → X e m) : discipline.wp (p >>= f) Q X m := by
  rw [Discipline.wp_bind]
  exact Discipline.wp_mono hf hX (wp_of_calm h hl)

lemma follows_afterUpsert (h : Follows l m) (ok : Bool) : Follows l (m.afterUpsert j ok) := by
  cases ok with
  | true => exact ⟨h.tx, fun i hi => mem_see.2 (.inr (h.placed i hi))⟩
  | false => exact h

lemma placed_afterUpsert (hs : j.status ≠ .waiting) : j.id ∈ (m.afterUpsert j true).placed :=
  mem_see.2 (.inl ⟨j, List.mem_singleton.2 rfl, hs, rfl⟩)

lemma wp_persist {Q : Unit → Grip → Prop} {X : Exc → Grip → Prop} (hm : MayUpsert m j)
    (hQ : Q () (m.afterUpsert j true)) (hX : X .uniqueViolation m) :
    discipline.wp (persistJob j) Q X m := by
  refine ⟨hm, fun (ok : Bool) _ => ?_⟩
  change discipline.wp (if ok = true then pure () else .raise .uniqueViolation) Q X
    (m.afterUpsert j ok)
  cases ok with
  | true => exact hQ
  | false => exact hX

/-- A job that does not wait is stored. -/
lemma wp_store (hs : j.status ≠ .waiting) (hm : j.id ∈ m.placed ∨ m.fresh = some j.id)
    (hl : Follows l m) {Q : Unit → Grip → Prop} {X : Exc → Grip → Prop}
    (hQ : ∀ m', Follows l m' → Follows m m' → j.id ∈ m'.placed → Q () m')
    (hX : Follows l m → X .uniqueViolation m) :
    discipline.wp (persistJob j) Q X m :=
  wp_persist ⟨hl.tx, fun h => absurd h hs, fun _ => hm⟩
    (hQ _ (follows_afterUpsert hl true) (follows_afterUpsert (.refl hl.tx) true)
      (placed_afterUpsert hs)) (hX hl)

lemma wp_store_enqueue (hs : j.status ≠ .waiting) (hm : j.id ∈ m.placed ∨ m.fresh = some j.id)
    (hl : Follows l m) : discipline.wp (persistJob j >>= fun _ => enqueue j.id)
      (fun _ => Follows l) (fun _ => Follows l) m := by
  rw [Discipline.wp_bind]
  exact wp_store hs hm hl (fun m' hm' _ hmem => ⟨hmem, fun _ _ => hm'⟩) fun h => h

/-! #### Promotions and refreshes -/

lemma wp_promoteAttempt (n after : ℕ) (hl : Follows l m) :
    discipline.wp (promoteAttempt n after) (fun _ => Follows l) (fun _ => Follows l) m := by
  refine ⟨hl.tx, fun (rows : List Job) _ => ?_⟩
  cases rows with
  | nil => exact ⟨rfl, hl.placed⟩
  | cons first rest =>
    refine ⟨trivial, fun (active : Option Job) hactive => ?_⟩
    cases active with
    | some a =>
      refine ⟨⟨?_, after, rfl⟩, fun _ _ => ⟨rfl, fun i hi => ?_⟩⟩
      · exact mem_see.2 (.inl ⟨a, List.mem_singleton.2 rfl,
          not_waiting_of_active (hactive a rfl), rfl⟩)
      · exact mem_see.2 (.inr (hl.placed i hi))
    | none =>
      refine ⟨⟨after, rfl⟩, fun (p : Promotion) _ => ?_⟩
      cases p <;> exact ⟨rfl, hl.placed⟩

lemma wp_promoteWaitingAfter (after : ℕ) (hl : Follows l m) :
    discipline.wp (promoteWaitingAfter after) (fun _ => Follows l) (fun _ => Follows l) m := by
  unfold promoteWaitingAfter promoteNextWaiting
  simp only [Discipline.wp_bind]
  refine Discipline.wp_mono (fun r m' hm' => ?_) (fun _ _ h => h) (wp_promoteAttempt 0 after hl)
  cases r with
  | some r => exact hm'
  | none =>
    change discipline.wp (promoteAttempt 1 after >>= _) _ _ m'
    rw [Discipline.wp_bind]
    refine Discipline.wp_mono (fun r m' hm' => ?_) (fun _ _ h => h) (wp_promoteAttempt 1 after hm')
    cases r <;> exact hm'

lemma calm_findActive {sid : String} : Uses Calm (findActiveForSource sid) := by
  unfold findActiveForSource
  split
  · trivial
  · exact ⟨trivial, fun _ => trivial⟩

/-- A job that is found active does not wait. -/
lemma wp_findActive (sid : String) (hl : Follows l m) :
    discipline.wp (findActiveForSource sid)
      (fun r m => Follows l m ∧ ∀ j, r = some j → j.id ∈ m.placed) (fun _ => Follows l) m := by
  unfold findActiveForSource
  split
  · exact ⟨hl, fun _ h => by cases h⟩
  · refine ⟨trivial, fun (r : Option Job) hr => ⟨follows_see _ hl, ?_⟩⟩
    rintro j rfl
    exact mem_see.2 (.inl ⟨j, List.mem_singleton.2 rfl, not_waiting_of_active (hr j rfl), rfl⟩)

lemma wp_createResummarizeJob (sid : String) (hl : Follows l m) :
    discipline.wp (createResummarizeJob sid) (fun _ => Follows l) (fun _ => Follows l) m := by
  refine ⟨trivial, fun target _ => ⟨trivial, fun (n : ℕ × ℕ) _ => ?_⟩⟩
  refine ⟨⟨hl.tx, fun h => (by cases h), fun _ => .inr rfl⟩, fun (ok : Bool) _ => ?_⟩
  cases ok with
  | true => exact ⟨placed_afterUpsert fun h => (by cases h), fun _ _ => follows_afterUpsert
      (m := { m with fresh := some n.1 }) ⟨hl.tx, hl.placed⟩ true⟩
  | false => exact ⟨hl.tx, hl.placed⟩

lemma wp_enqueueIfStale (sid : String) (hl : Follows l m) :
    discipline.wp (enqueueIfStale sid) (fun _ => Follows l) (fun _ => Follows l) m := by
  refine wp_calm_bind (p := ask .stale) ⟨trivial, fun _ => trivial⟩ hl (fun r m hm => ?_)
    fun _ _ h => h
  split
  · refine wp_calm_bind calm_findActive hm (fun active m hm => ?_) fun _ _ h => h
    split
    · exact hm
    · refine wp_calm_bind (p := ask .writable) ⟨trivial, fun _ => trivial⟩ hm (fun r m hm => ?_)
        fun _ _ h => h
      split
      · exact wp_createResummarizeJob sid hm
      · exact hm
  · exact hm

lemma wp_swallow {p : Act Unit}
    (h : discipline.wp p (fun _ => Follows l) (fun _ => Follows l) m) :
    discipline.wp p.swallow (fun _ => Follows l) (fun _ => Follows l) m := by
  rw [Discipline.wp_swallow]
  exact h

lemma wp_maybeEnqueueRefresh (j : Job) (hl : Follows l m) :
    discipline.wp (maybeEnqueueRefresh j) (fun _ => Follows l) (fun _ => Follows l) m := by
  unfold maybeEnqueueRefresh
  split
  · exact hl
  · rw [Discipline.wp_bind]
    refine Discipline.wp_mono (fun _ m hm => ?_) (fun _ _ h => h)
      (wp_swallow (wp_promoteWaitingAfter j.id hl))
    split
    · refine wp_swallow (wp_calm_bind (p := get j.id) ⟨trivial, fun _ => trivial⟩ hm
        (fun fresh m hm => ?_) fun _ _ h => h)
      refine wp_calm_bind (p := ask .targetVersion) ⟨trivial, fun _ => trivial⟩ hm
        (fun current m hm => ?_) fun _ _ h => h
      split
      · exact hm
      · exact wp_enqueueIfStale _ hm
    · exact wp_swallow (wp_enqueueIfStale _ hm)

/-! #### Workers -/

/-- A run writes its own job, which has been running. -/
lemma wp_runner {p : Act Unit} (h : IsRunner j p) (hj : j.id ∈ m.placed) (hl : Follows l m) :
    discipline.wp p (fun _ m => j.id ∈ m.placed ∧ Follows l m)
      (fun _ m => j.id ∈ m.placed ∧ Follows l m) m := by
  refine h.uses.wp (D := discipline) (I := fun m => j.id ∈ m.placed ∧ Follows l m)
    (fun o ho m hm => ?_) ⟨hj, hl⟩
  obtain ⟨hmem, hfol⟩ := hm
  cases o <;> first
    | exact ho.elim
    | exact ⟨trivial, fun _ _ => ⟨hmem, hfol⟩⟩
    | skip
  case upsert k =>
    have hs : k.status ≠ .waiting := by
      rcases ho.2 with hs | hs | hs <;> simp [hs]
    refine ⟨⟨hfol.tx, fun h => absurd h hs, fun _ => .inl ?_⟩, fun ok _ => ?_⟩
    · rw [id_of_core ho.1]
      exact hmem
    · exact ⟨(follows_afterUpsert (.refl hfol.tx) ok).placed _ hmem, follows_afterUpsert hfol ok⟩
  case background k =>
    have hs : k.status ≠ .waiting := by
      rcases ho.2 with hs | hs <;> simp [hs]
    exact ⟨⟨by rw [id_of_core ho.1]; exact hmem, hs⟩, fun _ _ => ⟨hmem, hfol⟩⟩

/-- The end of a job, and what follows it. -/
lemma wp_end (hs : k.status ≠ .waiting) (hk : k.id ∈ m.placed) (hl : Follows l m) :
    discipline.wp (persistJob k >>= fun _ => maybeEnqueueRefresh j) (fun _ => Follows l)
      (fun _ => Follows l) m := by
  rw [Discipline.wp_bind]
  exact wp_store hs (.inl hk) hl (fun m' hm' _ _ => wp_maybeEnqueueRefresh j hm') fun h => h

lemma wp_afterRaise (e : Exc) (hj : j.id ∈ m.placed) (hl : Follows l m) :
    discipline.wp (afterRaise j e) (fun _ => Follows l) (fun _ => Follows l) m := by
  unfold afterRaise
  split
  · refine ⟨hl.tx, fun (attempts : ℕ) _ => ?_⟩
    change discipline.wp (if attempts < maxJobAttempts then _ else _) _ _ m
    split
    · exact wp_store_enqueue (j := { j with status := .queued, attempts := attempts, error := "" })
        (fun h => by cases h) (.inl hj) hl
    · exact wp_end (k := { j with status := .deadLetter, attempts := attempts })
        (fun h => by cases h) hj hl
  · exact wp_end (k := j.failed e.text) (fun h => by cases h) hj hl

lemma wp_runCoroutine {p : Act Unit} (h : IsRunner j p) (hj : j.id ∈ m.placed)
    (hl : Follows l m) :
    discipline.wp (runCoroutine j p) (fun _ => Follows l) (fun _ => Follows l) m := by
  unfold runCoroutine
  simp only [Discipline.wp_bind, Discipline.wp_attempt, Discipline.wp_op, Discipline.wp_ret]
  refine ⟨trivial, fun _ _ => Discipline.wp_mono ?_ ?_ (wp_runner h hj hl)⟩
  · exact fun _ m hm => ⟨trivial, fun _ _ => wp_maybeEnqueueRefresh j hm.2⟩
  · exact fun e m hm => ⟨trivial, fun _ _ => wp_afterRaise e hm.1 hm.2⟩

lemma wp_runClaimed (hj : j.id ∈ m.placed) (hl : Follows l m) :
    discipline.wp (runClaimed j) (fun _ => Follows l) (fun _ => Follows l) m := by
  unfold runClaimed
  rw [Discipline.wp_bind]
  refine wp_store (j := { j with status := .running }) (fun h => by cases h) (.inl hj) hl
    (fun m hm _ hj => ?_) fun h => h
  rw [Discipline.wp_bind]
  refine wp_dispatchAllowed (fun o ho => ?_) fun b => ?_
  · cases o <;> first | exact ho.elim | exact ⟨trivial, fun _ _ => rfl⟩
  · split
    · rw [Discipline.wp_bind]
      refine wp_dispatchJob (fun q => ⟨trivial, fun _ => rfl⟩) ?_ fun p hp =>
        wp_runCoroutine hp hj hm
      exact wp_end (k := j.failed "Cannot dispatch job from queue") (fun h => by cases h) hj hm
    · exact wp_end (k := j.failed "Index requires rebuild. See GET /health.")
        (fun h => by cases h) hj hm

lemma wp_worker (hl : Follows l m) :
    discipline.wp worker (fun _ => Follows l) (fun _ => Follows l) m := by
  refine ⟨trivial, fun (i : Option ℕ) _ => ?_⟩
  cases i with
  | none => exact ⟨hl.tx, hl.placed⟩
  | some i =>
    refine ⟨trivial, fun (r : Option Job) hr => ?_⟩
    have hfol : ∀ js, Follows l (Grip.see { m with placed := i :: m.placed } js) := fun js =>
      follows_see js ⟨hl.tx, fun k hk => List.mem_cons_of_mem _ (hl.placed k hk)⟩
    cases r with
    | none => exact hfol []
    | some j =>
      obtain rfl : j.id = i := hr j rfl
      change discipline.wp (if j.status.terminal = true then pure () else runClaimed j) _ _ _
      split
      · exact hfol [j]
      · exact wp_runClaimed (mem_see.2 (.inr (List.mem_cons_self ..))) (hfol [j])

/-! #### Requests -/

/-- What a request submits is a new queued job. -/
def Builds (build : Act Job) : Prop :=
  ∀ (Q : Job → Grip → Prop) (X : Exc → Grip → Prop) (l m : Grip), Follows l m →
    (∀ j m', Follows l m' → Follows m m' → m'.fresh = some j.id → j.status = .queued → Q j m') →
      discipline.wp build Q X m

lemma follows_fresh (h : Follows l m) (o : Option ℕ) : Follows l { m with fresh := o } :=
  ⟨h.tx, h.placed⟩

lemma builds_newRepoJob (ev : Event) : Builds (newRepoJob ev) :=
  fun _ _ _ _ hl hQ => ⟨trivial, fun _ _ =>
    hQ _ _ (follows_fresh hl _) (follows_fresh (.refl hl.tx) _) rfl rfl⟩

lemma builds_incremental (ev : Event) : Builds (buildIncrementalOrFallbackJob ev) := by
  unfold buildIncrementalOrFallbackJob
  split
  · exact builds_newRepoJob ev
  · exact fun _ _ _ _ hl hQ => ⟨trivial, fun _ _ =>
      hQ _ _ (follows_fresh hl _) (follows_fresh (.refl hl.tx) _) rfl rfl⟩

lemma builds_submitted (r : Submission) : Builds (buildSubmitted r) :=
  fun _ _ _ _ hl hQ => ⟨trivial, fun _ _ =>
    hQ _ _ (follows_fresh hl _) (follows_fresh (.refl hl.tx) _) rfl rfl⟩

lemma wp_persistAndEnqueue {build : Act Job} (h : Builds build) (hl : Follows l m) :
    discipline.wp (persistAndEnqueue build) (fun _ => Follows l) (fun _ => Follows l) m := by
  unfold persistAndEnqueue
  rw [Discipline.wp_bind]
  exact h _ _ l m hl fun j m hm _ hf hj => wp_store_enqueue (by simp [hj]) (.inr hf) hm

lemma wp_waitFor {refresh : ℕ} (hl : Follows l m) (hf : m.fresh = some j.id)
    (hr : refresh ∈ m.placed) :
    discipline.wp (waitFor refresh j) (fun _ => Follows l) (fun _ => Follows l) m := by
  unfold waitFor
  rw [Discipline.wp_bind]
  refine wp_persist ⟨hl.tx, fun _ => ⟨hf, refresh, hr, rfl⟩, fun h => absurd rfl h⟩ ?_ hl
  refine wp_calm_bind (p := get refresh) ⟨trivial, fun _ => trivial⟩
    (follows_afterUpsert hl true) (fun r m hm => ?_) fun _ _ h => h
  split
  · exact hm
  · exact wp_promoteWaitingAfter refresh hm

lemma wp_preempt {build : Act Job} (h : Builds build) (sid : String) (hl : Follows l m) :
    discipline.wp (preemptActiveRefresh sid build) (fun _ => Follows l) (fun _ => Follows l) m := by
  unfold preemptActiveRefresh
  rw [Discipline.wp_bind]
  refine Discipline.wp_mono (fun refresh m hm => ?_) (fun _ _ h => h) (wp_findActive sid hl)
  obtain ⟨hm, hplaced⟩ := hm
  cases refresh with
  | none => exact wp_persistAndEnqueue h hm
  | some refresh =>
    change discipline.wp (if refresh.kind ≠ .resummarize then _ else _) _ _ m
    split
    · exact wp_persistAndEnqueue h hm
    · rw [Discipline.wp_bind]
      refine h _ _ l m hm fun j m' hm' hmm' hf hj => ⟨hm'.tx, fun (cancelled : Bool) _ => ?_⟩
      cases cancelled with
      | true => exact wp_store_enqueue (by simp [hj]) (.inr hf) hm'
      | false => exact wp_waitFor hm' hf (hmm'.placed _ (hplaced refresh rfl))

lemma wp_accept_after {p : Act Unit} {ev : Event} {n : ℕ} (hl : Follows l m)
    (h : ∀ m, Follows l m → discipline.wp p (fun _ => Follows l) (fun _ => Follows l) m) :
    discipline.wp (unlessSaturated (p >>= fun _ => accept ev n)) (fun _ => Follows l)
      (fun _ => Follows l) m := by
  refine wp_calm_bind (p := queueDepth) ⟨trivial, fun _ => trivial⟩ hl (fun depth m hm => ?_)
    fun _ _ h => h
  split
  · exact hm
  · rw [Discipline.wp_bind]
    exact Discipline.wp_mono
      (fun _ _ hm => wp_of_calm (p := accept ev n) ⟨trivial, fun _ => trivial⟩ hm)
      (fun _ _ h => h) (h m hm)

lemma wp_handleWebhook (ev : Event) (hl : Follows l m) :
    discipline.wp (handleWebhook ev) (fun _ => Follows l) (fun _ => Follows l) m := by
  have haccept : ∀ n m, Follows l m → discipline.wp (accept ev n) (fun _ => Follows l)
      (fun _ => Follows l) m := fun n _ hm =>
    wp_of_calm (p := accept ev n) ⟨trivial, fun _ => trivial⟩ hm
  refine ⟨trivial, fun (since : ℕ) _ => ⟨trivial, fun (sources : List Source) _ =>
    ⟨trivial, fun (w : ℕ) _ => ?_⟩⟩⟩
  change discipline.wp (if w = 0 then if (sources.any fun s => s.url = ev.repoUrl) = true then
    webhookExistingSource ev since else webhookNewSource ev since else pure ()) _ _ m
  split
  · split
    · refine wp_calm_bind calm_findActive hl (fun active m hm => ?_) fun _ _ h => h
      cases active with
      | none => exact wp_accept_after hm fun m => wp_persistAndEnqueue (builds_incremental ev)
      | some active =>
        change discipline.wp (if active.kind ≠ .resummarize then _ else _) _ _ m
        split
        · exact haccept since m hm
        · exact wp_accept_after hm fun m => wp_preempt (builds_incremental ev) ev.sourceId
    · refine wp_calm_bind calm_findActive hl (fun active m hm => ?_) fun _ _ h => h
      cases active with
      | none => exact wp_accept_after hm fun m => wp_persistAndEnqueue (builds_newRepoJob ev)
      | some active => exact haccept since m hm
  · exact hl

lemma wp_submit (r : Submission) (hl : Follows l m) :
    discipline.wp (submit r) (fun _ => Follows l) (fun _ => Follows l) m := by
  refine wp_calm_bind (p := ask .writable) ⟨trivial, fun _ => trivial⟩ hl (fun w m hm => ?_)
    fun _ _ h => h
  split
  · refine wp_calm_bind calm_findActive hm (fun active m hm => ?_) fun _ _ h => h
    cases active with
    | none => exact wp_persistAndEnqueue (builds_submitted r) hm
    | some active =>
      change discipline.wp (if active.kind ≠ .resummarize then _ else _) _ _ m
      split
      · exact hm
      · exact wp_preempt (builds_submitted r) r.sourceId hm
  · exact hm

lemma wp_retryJob (i : ℕ) (hl : Follows l m) :
    discipline.wp (retryJob i) (fun _ => Follows l) (fun _ => Follows l) m := by
  refine wp_calm_bind (p := ask .writable) ⟨trivial, fun _ => trivial⟩ hl (fun w m hm => ?_)
    fun _ _ h => h
  split
  · refine ⟨trivial, fun (r : Option Job) hr => ?_⟩
    cases r with
    | none => exact follows_see [] hm
    | some j =>
      obtain rfl : j.id = i := hr j rfl
      change discipline.wp (if j.status.terminal = true then _ else _) _ _ (m.see [j])
      split
      · rename_i hterm
        have hs : j.status ≠ .waiting := by
          intro h
          rw [h] at hterm
          cases hterm
        exact wp_store_enqueue (j := { j with status := .queued, error := "" })
          (fun h => by cases h) (.inl (mem_see.2 (.inl ⟨j, List.mem_singleton.2 rfl, hs, rfl⟩)))
          (follows_see [j] hm)
      · exact follows_see [j] hm
  · exact hm

/-! #### Startup and rebuild -/

lemma wp_recoverJob (doneSources : List String) (hj : j.id ∈ l.placed) (hl : Follows l m) :
    discipline.wp (recoverJob doneSources j) (fun _ => Follows l) (fun _ => Follows l) m := by
  have hstore : ∀ k : Job, k.id = j.id → k.status ≠ .waiting →
      discipline.wp (persistJob k) (fun _ => Follows l) (fun _ => Follows l) m := fun k hid hs =>
    wp_store hs (.inl (hid ▸ hl.placed _ hj)) hl (fun _ hm _ _ => hm) fun h => h
  unfold recoverJob
  split
  · exact hstore { j with status := .done } rfl fun h => by cases h
  · rw [Discipline.wp_bind]
    refine wp_dispatchJob (fun q => ⟨trivial, fun _ => rfl⟩) ?_ fun p _ => ?_
    · exact hstore (j.failed "Cannot resume job after restart") rfl fun h => by cases h
    · exact ⟨hl.placed _ hj, fun _ _ => hl⟩

lemma wp_recoverWaiting (js : List Job) : ∀ checked (m : Grip), Follows l m →
    discipline.wp (recoverWaiting checked js) (fun _ => Follows l) (fun _ => Follows l) m := by
  induction js with
  | nil => exact fun _ _ hl => hl
  | cons j js ih =>
    intro checked m hl
    unfold recoverWaiting
    split
    · exact ih checked m hl
    · split
      · exact ih checked m hl
      · rename_i after _ _
        rw [Discipline.wp_bind]
        refine Discipline.wp_mono (fun _ m hm => ih _ m hm) (fun _ _ h => h) ?_
        refine wp_calm_bind (p := get after) ⟨trivial, fun _ => trivial⟩ hl (fun ref m hm => ?_)
          fun _ _ h => h
        split
        · exact hm
        · exact wp_promoteWaitingAfter after hm

lemma wp_startup (hl : Follows l m) :
    discipline.wp startup (fun _ => Follows l) (fun _ => Follows l) m := by
  refine wp_calm_bind (p := listByStatus .done) ⟨trivial, fun _ => trivial⟩ hl
    (fun done m hm => ?_) fun _ _ h => h
  refine ⟨trivial, fun (running : List Job) hrun => ⟨trivial, fun (queued : List Job) hqueue => ?_⟩⟩
  change discipline.wp (Prog.forEach (running ++ queued) (recoverJob (doneSourceIds done)) >>=
    fun _ => listByStatus .waiting >>= fun waiting => recoverWaiting [] waiting) _ _
      ((m.see running).see queued)
  have hboth : Follows l ((m.see running).see queued) := follows_see _ (follows_see _ hm)
  have hplaced : ∀ j ∈ running ++ queued, j.id ∈ ((m.see running).see queued).placed := by
    intro j hj
    rcases List.mem_append.1 hj with hj | hj
    · exact mem_see.2 (.inr (mem_see.2 (.inl ⟨j, hj, by simp [hrun j hj], rfl⟩)))
    · exact mem_see.2 (.inl ⟨j, hj, by simp [hqueue j hj], rfl⟩)
  rw [Discipline.wp_bind]
  refine Discipline.wp_mono (fun _ m' hm' => ?_) (fun _ _ h => hboth.trans h)
    (Discipline.wp_forEach (I := Follows ((m.see running).see queued))
      (fun j hj m' hm' => wp_recoverJob _ (hplaced j hj) hm') (.refl hboth.tx))
  exact wp_calm_bind (p := listByStatus .waiting) ⟨trivial, fun _ => trivial⟩ (hboth.trans hm')
    (fun waiting m hm => wp_recoverWaiting waiting [] m hm) fun _ _ h => h

lemma wp_enqueueReindex (g : ℕ) (src : Source) (hl : Follows l m) :
    discipline.wp (enqueueReindex g src) (fun _ => Follows l) (fun _ => Follows l) m := by
  have hkind : Uses Calm (resolveReindexKind src) := by
    unfold resolveReindexKind
    split
    · trivial
    · split
      · trivial
      · refine Uses.bind ⟨trivial, fun _ => trivial⟩ fun r => ?_
        split <;> trivial
  unfold enqueueReindex buildSourceReindexJob
  rw [Prog.bind_assoc]
  refine wp_calm_bind hkind hl (fun kind m hm => ⟨trivial, fun n _ => ?_⟩) fun _ _ h => h
  exact wp_store_enqueue (fun h => by cases h) (.inr rfl) (follows_fresh hm _)

lemma calm_of_silent_unlock {α : Type} (e : Exc) :
    Uses Calm (unlock >>= fun _ => (.raise e : Act α)) :=
  Uses.bind ⟨trivial, fun _ => trivial⟩ fun _ => trivial

lemma calm_jobBlockers : Uses Calm jobBlockers :=
  Uses.bind ⟨trivial, fun _ => trivial⟩ fun _ => Uses.bind ⟨trivial, fun _ => trivial⟩ fun _ =>
    trivial

lemma calm_recreateStores : Uses Calm recreateStores := by
  refine Uses.bind ⟨trivial, fun _ => trivial⟩ fun r => ?_
  split
  · refine Uses.bind ⟨trivial, fun _ => trivial⟩ fun r => ?_
    split
    · refine Uses.bind ⟨trivial, fun _ => trivial⟩ fun r => ?_
      split
      · exact ⟨trivial, fun _ => trivial⟩
      · trivial
    · trivial
  · trivial

lemma wp_rebuild (hl : Follows l m) :
    discipline.wp rebuild (fun _ => Follows l) (fun _ => Follows l) m := by
  refine wp_calm_bind (p := listSources) ⟨trivial, fun _ => trivial⟩ hl (fun sources m hm => ?_)
    fun _ _ h => h
  refine wp_calm_bind calm_jobBlockers hm (fun blocked m hm => ?_) fun _ _ h => h
  refine wp_calm_bind (p := probeLock) ⟨trivial, fun _ => trivial⟩ hm (fun locked m hm => ?_)
    fun _ _ h => h
  split
  · exact hm
  · refine ⟨trivial, fun (granted : Bool) _ => ?_⟩
    cases granted with
    | false => exact hm
    | true =>
      refine wp_calm_bind (p := .op (Op.createGroup (sources.map Source.id)) .ret)
        ⟨trivial, fun _ => trivial⟩ hm (fun g m hm => ?_) fun _ _ h => h
      refine wp_calm_bind calm_jobBlockers hm (fun blocked m hm => ?_) fun _ _ h => h
      split
      · exact wp_of_calm (Uses.bind ⟨trivial, fun _ => trivial⟩ fun _ => calm_of_silent_unlock _) hm
      · refine wp_calm_bind calm_recreateStores hm (fun ok m hm => ?_) fun _ _ h => h
        split
        · rw [Discipline.wp_bind]
          refine Discipline.wp_mono (fun _ m hm => ?_) (fun _ _ h => h) (Discipline.wp_forEach
            (I := Follows l) (fun src _ m hm => wp_enqueueReindex g src hm) hm)
          exact wp_of_calm (p := unlock) ⟨trivial, fun _ => trivial⟩ hm
        · exact wp_of_calm (calm_of_silent_unlock _) hm

lemma wp_main (e : Entry) :
    discipline.wp e.main (fun _ => Follows discipline.init) (fun _ => Follows discipline.init)
      discipline.init := by
  have hl : Follows discipline.init discipline.init := .refl rfl
  cases e with
  | worker => exact wp_worker hl
  | startup => exact wp_startup hl
  | webhook ev => exact wp_handleWebhook ev hl
  | submit r => exact wp_submit r hl
  | retry i => exact wp_retryJob i hl
  | refresh sid => exact wp_enqueueIfStale sid hl
  | rebuild => exact wp_rebuild hl

end Programs

/-! ### Runs -/

section Runs
variable {db db' : Db} {L : Tid → Option Grip}

lemma kept (C : Sys → Label machine → Prop) :
    Kept (M := machine) (D := discipline) C (Follows discipline.init) Inv where
  main _ _ e _ := wp_main e
  start s t e _ h ht := by
    refine ⟨h.single, h.placing.frame le_rfl (fun _ hi => hi) (fun _ hi => .inl hi)
      (fun _ hi => .inl hi) (fun _ hy => .inl hy) (fun _ _ hi => .inl hi) (fun m i hx hi => ?_)
      (fun m i hx hi => ?_), h.locking.frame (fun _ hx => hx) fun u m i ids hu hm => ?_⟩
    · cases hx
      cases hi
    · cases hx
      cases hi
    · rcases update_cases hu with ⟨-, hx⟩ | ⟨-, hu⟩
      · cases hx
        cases hm
      · exact ⟨⟨m, hu, hm⟩, fun _ _ => ⟨rfl, id⟩⟩
  op s t env o l r st _ _ hl hm h he := h.op hl hm he
  stop s t env l _ hl hE h := by
    refine ⟨h.single, h.placing.frame le_rfl (fun _ hi => hi) (fun _ hi => .inl hi)
      (fun _ hi => .inl hi) (fun _ hy => .inl hy) (fun _ _ hi => .inl hi)
      (fun _ _ hx => by cases hx) (fun _ _ hx => by cases hx),
      h.locking.frame (fun _ hx => hx) fun u m i ids hu hm => ?_⟩
    rcases update_cases hu with ⟨-, hx⟩ | ⟨-, hu⟩
    · cases hx
    · exact ⟨⟨m, hu, hm⟩, fun _ _ => ⟨rfl, id⟩⟩
  kill s p _ h := by
    have hL : ∀ {t : Tid} {l : Grip}, (if t.proc = p then none else s.records t) = some l →
        t.proc ≠ p ∧ s.records t = some l := by
      intro t l ht
      split at ht
      · cases ht
      · rename_i hp
        exact ⟨hp, ht⟩
    refine ⟨h.single, ⟨h.placing.numbered, h.placing.queued,
      fun y hy => h.placing.pending y (List.mem_filter.1 hy).1, h.placing.target,
      fun t l i ht => h.placing.placed t l i (hL ht).2,
      fun t l i ht => h.placing.fresh t l i (hL ht).2,
      fun t u l m i ht hu => h.placing.distinct t u l m i (hL ht).2 (hL hu).2⟩,
      h.locking.frame (fun _ hx => (List.mem_filter.1 hx).1) fun u m i ids hu hm =>
        ⟨⟨m, (hL hu).2, hm⟩, fun k _ => ⟨rfl, fun hlock =>
          List.mem_filter.2 ⟨hlock, decide_eq_true (hL hu).1⟩⟩⟩⟩
  own s x st _ h he := by
    cases x with
    | land n => exact h.land he
    | flush n =>
      obtain ⟨-, w, -, rfl⟩ := own_flush he
      cases w <;> exact ⟨h.single, ⟨h.placing.numbered, h.placing.queued, h.placing.pending,
        h.placing.target, h.placing.placed, h.placing.fresh, h.placing.distinct⟩,
        ⟨h.locking.exclusive, h.locking.held, h.locking.sorted⟩⟩
    | deleteSource sid =>
      cases he
      exact ⟨h.single, ⟨h.placing.numbered, h.placing.queued, h.placing.pending, h.placing.target,
        h.placing.placed, h.placing.fresh, h.placing.distinct⟩,
        ⟨h.locking.exclusive, h.locking.held, h.locking.sorted⟩⟩

/-- The job that an operation promotes. -/
def promotedBy (db : Db) (t : Tid) : Op → List ℕ
  | .promote _ first rest => if (db.promote t first rest).1 = .promoted then [first] else []
  | _ => []

/-- The job that a step promotes. -/
def promoted (s : Sys) : Label machine → List ℕ
  | .run t _ => (s.nextOp t).elim [] (promotedBy s.store t)
  | _ => []

/-- A promotion is carried out only while every waiting job of the source is among the rows that
it has locked. -/
def Together (s : Sys) : Label machine → Prop
  | .run t _ => ∀ n first rest, s.nextOp t = some (.promote n first rest) →
      (Db.promote s.store t first rest).1 = .promoted →
        ∀ j k w, Db.row s.store first = some j → Db.row s.store k = some w →
          w.status = .waiting → w.sourceId = j.sourceId → k ∈ first :: rest
  | _ => True

/-- Jobs go on waiting until they are promoted, and are not waiting from then on. -/
structure Evolves (db db' : Db) (ps : List ℕ) : Prop where
  placed : ∀ i, Placed db i ∨ i ∈ ps → Placed db' i
  stays : ∀ k, k ∉ ps → Stays db db' k
  unplaced : ∀ k ∈ ps, ¬Placed db k
  once : ps.Nodup

lemma Gentle.evolves (h : Gentle db db') : Evolves db db' [] :=
  ⟨fun _ hi => h.placed (hi.resolve_right List.not_mem_nil), fun k _ => h.stays k,
    fun _ hk => absurd hk List.not_mem_nil, List.nodup_nil⟩

lemma evolves_of_jobs (hj : db'.jobs = db.jobs) : Evolves db db' [] := (gentle_of_jobs hj).evolves

lemma evolves_put {j : Job} (hj : j.status ≠ .waiting ∨ db.row j.id = none)
    (hp : Placed db j.id ∨ db.row j.id = none) : Evolves db (db.put j) [] :=
  ⟨fun _ hi => placed_put hj (hi.resolve_right List.not_mem_nil), fun k _ => stays_put hp k,
    fun _ hk => absurd hk List.not_mem_nil, List.nodup_nil⟩

/-- A promotion queues the row it found waiting, or only closes its transaction. -/
lemma promote_cases (db : Db) (t : Tid) (first : ℕ) (rest : List ℕ) :
    (db.promote t first rest).1 ≠ .promoted ∧ (db.promote t first rest).2 = db.endTransaction t ∨
      (db.promote t first rest).1 = .promoted ∧
        (∃ j, db.row first = some j ∧ j.status = .waiting) ∧ (db.promote t first rest).2 =
          ((afterPromotion db first rest).enqueue first).endTransaction t := by
  have he : exec db t 0 (.promote 0 first rest) =
    some ((db.promote t first rest).1, (db.promote t first rest).2) := rfl
  generalize (db.promote t first rest).1 = r at he ⊢
  generalize (db.promote t first rest).2 = db' at he ⊢
  rcases exec_promote he with ⟨rfl, -, rfl⟩ | ⟨j, hj, hw, ⟨rfl, -, rfl⟩ | ⟨rfl, -, rfl⟩⟩
  · exact .inl ⟨by simp, rfl⟩
  · exact .inl ⟨by simp, rfl⟩
  · exact .inr ⟨rfl, ⟨j, hj, hw⟩, rfl⟩

lemma evolves_promote {t : Tid} {n first : ℕ} {rest : List ℕ} :
    Evolves db (db.promote t first rest).2 (promotedBy db t (.promote n first rest)) := by
  simp only [promotedBy]
  rcases promote_cases db t first rest with ⟨hp, hdb⟩ | ⟨hp, ⟨j, hj, hw⟩, hdb⟩
  · rw [if_neg hp, hdb]
    exact evolves_of_jobs rfl
  · rw [if_pos hp, hdb]
    refine ⟨fun i hi => ?_, fun k hk => ?_, fun k hk => ?_, List.nodup_singleton first⟩
    · rcases hi with hi | hi
      · exact placed_promotion hi
      · obtain rfl := List.mem_singleton.1 hi
        exact placed_promoted hj
    · exact stays_promotion fun hkf => hk (List.mem_singleton.2 hkf)
    · obtain rfl := List.mem_singleton.1 hk
      exact not_placed hj hw

lemma Inv.evolves_op (h : Inv db L) {t : Tid} {l : Grip} (hl : L t = some l) {env : ℕ} {o : Op}
    {r : o.Answer} (hm : may l o) (he : exec db t env o = some (r, db')) :
    Evolves db db' (promotedBy db t o) := by
  cases o with
  | upsert j =>
    have hm : MayUpsert l j := hm
    rcases exec_upsert he with ⟨-, ⟨-, -, rfl⟩ | ⟨-, -, rfl⟩⟩
    · have hfresh : l.fresh = some j.id → db.row j.id = none := fun hf =>
        (h.placing.fresh t l j.id hl hf).1
      by_cases hs : j.status = .waiting
      · have hrow := hfresh (hm.waiting hs).1
        exact evolves_put (.inr hrow) (.inr hrow)
      · exact evolves_put (.inl hs) ((hm.other hs).imp (h.placing.placed t l j.id hl) hfresh)
    · exact evolves_of_jobs rfl
  | incrementAttempts i =>
    obtain ⟨-, rfl⟩ := exec_increment he
    exact (gentle_modify i Job.tried_id (fun _ => Iff.rfl) (fun _ => rfl) fun _ => rfl).evolves
  | cancelIfQueued i =>
    rcases (exec_cancel he).2 with ⟨-, -, rfl⟩ | ⟨-, -, rfl⟩
    · exact Gentle.evolves (gentle_modify i Job.cancelled_id status_cancelled sourceId_cancelled
        startTime_cancelled)
    · exact evolves_of_jobs rfl
  | relink ids target =>
    cases he
    exact Gentle.evolves (gentle_setAfter ids target)
  | promote n first rest =>
    obtain ⟨-, rfl⟩ := Prod.mk.inj (Option.some.inj he)
    exact evolves_promote
  | _ => exact evolves_of_jobs (jobs_of_exec he rfl)

lemma Inv.evolves_land (h : Inv db L) {n : ℕ} (he : own db (.land n) = some db') :
    Evolves db db' [] := by
  obtain ⟨u, k, hk, -, ⟨-, rfl⟩ | ⟨-, rfl⟩⟩ := own_land he
  · exact evolves_of_jobs rfl
  · obtain ⟨hplaced, hs⟩ := h.placing.pending _ (List.mem_of_getElem? hk)
    have hput : Evolves { db with background := db.background.eraseIdx n }
        (Db.put { db with background := db.background.eraseIdx n } k) [] :=
      evolves_put (.inl hs) (.inl hplaced)
    exact ⟨hput.placed, hput.stays, hput.unplaced, hput.once⟩

/-- What one step does to the waiting jobs. -/
lemma evolves_of_step {s s' : Sys} {l : Label machine} (h : Inv s.store s.records)
    (hd : Machine.Disciplined (Follows discipline.init) s) (hs : s.step l = some s') :
    Evolves s.store s'.store (promoted s l) := by
  cases l with
  | start t e =>
    simp only [State.step] at hs
    split at hs
    · cases hs
      exact evolves_of_jobs rfl
    · cases hs
  | run t env =>
    rcases Kept.step_run hs hd with ⟨ho, hst⟩ | ⟨o, l, r, ho, hl, hm, he⟩
    · simp only [promoted, ho, hst]
      exact evolves_of_jobs rfl
    · simp only [promoted, ho]
      exact h.evolves_op hl hm he
  | kill p =>
    cases hs
    exact evolves_of_jobs rfl
  | own x =>
    obtain ⟨st, he, rfl⟩ := Option.map_eq_some_iff.1 hs
    cases x with
    | land n => exact h.evolves_land he
    | flush n =>
      obtain ⟨-, w, -, rfl⟩ := own_flush he
      exact evolves_of_jobs (write_jobs w)
    | deleteSource sid =>
      cases he
      exact evolves_of_jobs rfl

lemma Stays.trans {db'' : Db} {k : ℕ} (h : Stays db db' k) (h' : Stays db' db'' k) :
    Stays db db'' k := by
  intro j hj hs
  obtain ⟨j', hj', hs', hsrc, ht⟩ := h j hj hs
  obtain ⟨j'', hj'', hs'', hsrc', ht'⟩ := h' j' hj' hs'
  exact ⟨j'', hj'', hs'', hsrc'.trans hsrc, ht'.trans ht⟩

lemma Evolves.trans {db'' : Db} {ps qs : List ℕ} (h : Evolves db db' ps)
    (h' : Evolves db' db'' qs) : Evolves db db'' (ps ++ qs) where
  placed i hi := by
    rcases hi with hi | hi
    · exact h'.placed i (.inl (h.placed i (.inl hi)))
    · exact h'.placed i ((List.mem_append.1 hi).imp_left fun hi => h.placed i (.inr hi))
  stays k hk := by
    rw [List.mem_append, not_or] at hk
    exact (h.stays k hk.1).trans (h'.stays k hk.2)
  unplaced k hk := by
    rcases List.mem_append.1 hk with hk | hk
    · exact h.unplaced k hk
    · exact fun hp => h'.unplaced k hk (h.placed k (.inl hp))
  once := by
    refine List.nodup_append.2 ⟨h.once, h'.once, ?_⟩
    rintro a ha b hb rfl
    exact h'.unplaced a hb (h.placed a (.inr ha))

/-- The state is one that a run can reach. -/
structure Sane (s : Sys) : Prop where
  inv : Inv s.store s.records
  disciplined : Machine.Disciplined (Follows discipline.init) s

variable {s s' : Sys} {C : Sys → Label machine → Prop} {ps : List ℕ} {l : Label machine}

lemma Sane.run (h : Sane s) (hr : Run C s s') : Sane s' :=
  ⟨((kept C).run hr h.inv h.disciplined).1, ((kept C).run hr h.inv h.disciplined).2⟩

lemma Sane.evolves (h : Sane s) (hl : Logged C promoted s ps s') :
    Evolves s.store s'.store ps := by
  induction hl with
  | refl => exact evolves_of_jobs rfl
  | tail hl _ hs ih =>
    have hmid := h.run hl.run
    exact ih.trans (evolves_of_step hmid.inv hmid.disciplined hs)

/-- The promotion that a step carries out. -/
lemma mem_promoted {k : ℕ} (h : k ∈ promoted s l) : ∃ t env n rest, l = .run t env ∧
    s.nextOp t = some (.promote n k rest) ∧ (Db.promote s.store t k rest).1 = .promoted := by
  cases l with
  | run t env =>
    simp only [promoted] at h
    cases ho : s.nextOp t with
    | none => simp [ho] at h
    | some o =>
      cases o <;> simp only [ho, Option.elim_some, promotedBy, List.not_mem_nil] at h
      case promote n first rest =>
        split at h
        · rename_i hp
          obtain rfl := List.mem_singleton.1 h
          exact ⟨t, env, n, rest, rfl, ho, hp⟩
        · cases h
  | _ => cases h

/-- Where all waiting jobs of a source are in its hands, a promotion takes the oldest. -/
lemma Sane.oldest (h : Sane s) (ht : Together s l) {first k : ℕ} (hp : first ∈ promoted s l)
    {j w : Job} (hj : Db.row s.store first = some j) (hw : Db.row s.store k = some w)
    (hs : w.status = .waiting) (hsrc : w.sourceId = j.sourceId) : j.startTime ≤ w.startTime := by
  obtain ⟨t, env, n, rest, rfl, ho, hpr⟩ := mem_promoted hp
  obtain ⟨r, hr, i, htx⟩ := Kept.may_of_nextOp h.disciplined ho
  rcases List.mem_cons.1 (ht n first rest ho hpr j k w hj hw hs hsrc) with rfl | hk
  · rw [hj] at hw
    cases hw
    exact le_rfl
  · exact (List.pairwise_cons.1 (h.inv.locking.sorted t r i _ hr htx)).1 k hk j w hj hw

/-- What a step that promotes leaves in the table. -/
lemma Sane.store_promoted (h : Sane s) {t : Tid} {env n first : ℕ} {rest : List ℕ}
    (ho : s.nextOp t = some (.promote n first rest))
    (hp : (Db.promote s.store t first rest).1 = .promoted) (hs : s.step (.run t env) = some s') :
    s'.store = ((afterPromotion s.store first rest).enqueue first).endTransaction t := by
  rcases Kept.step_run hs h.disciplined with ⟨hnone, -⟩ | ⟨o, r, p, ho', -, -, he⟩
  · rw [ho] at hnone
    cases hnone
  · rw [ho] at ho'
    cases ho'
    have hst : s'.store = (Db.promote s.store t first rest).2 :=
      (Prod.mk.inj (Option.some.inj he)).2.symm
    rw [hst]
    rcases promote_cases s.store t first rest with ⟨hn, -⟩ | ⟨-, -, hdb⟩
    · exact absurd hp hn
    · exact hdb

/-- A job that waits after a promotion has waited before; the others it holds are handed on. -/
lemma row_of_promotion {t : Tid} {first k : ℕ} {rest : List ℕ} {w : Job}
    (hw : Db.row (((afterPromotion db first rest).enqueue first).endTransaction t) k = some w)
    (hs : w.status = .waiting) : ∃ r, db.row k = some r ∧ r.status = .waiting ∧
      r.sourceId = w.sourceId ∧ r.startTime = w.startTime ∧ k ≠ first ∧
      (k ∈ rest → w.payload.afterJob = some first) ∧
      (k ∉ rest → w.payload.afterJob = r.payload.afterJob) := by
  have hw : (afterPromotion db first rest).row k = some w := hw
  rw [row_setAfter] at hw
  split at hw
  · rename_i hk
    obtain ⟨x, hx, rfl⟩ := Option.map_eq_some_iff.1 hw
    obtain ⟨r, hr, ⟨hne, rfl⟩ | ⟨-, rfl⟩⟩ := row_of_modify hx
    · exact ⟨x, hr, hs, rfl, rfl, hne, fun _ => rfl, fun h => absurd hk h⟩
    · cases hs
  · rename_i hk
    obtain ⟨r, hr, ⟨hne, rfl⟩ | ⟨-, rfl⟩⟩ := row_of_modify hw
    · exact ⟨w, hr, hs, rfl, rfl, hne, fun h => absurd h hk, fun _ => rfl⟩
    · cases hs

lemma row_promoted {t : Tid} {first : ℕ} {rest : List ℕ} {j j' : Job}
    (hj : db.row first = some j)
    (hj' : Db.row (((afterPromotion db first rest).enqueue first).endTransaction t) first =
      some j') : j'.sourceId = j.sourceId := by
  have hj' : (afterPromotion db first rest).row first = some j' := hj'
  obtain ⟨x, hx, hxj⟩ := row_of_setAfter hj'
  obtain ⟨r, hr, ⟨hne, -⟩ | ⟨-, rfl⟩⟩ := row_of_modify hx
  · exact absurd rfl hne
  · rw [hj] at hr
    cases hr
    rcases hxj with rfl | rfl <;> rfl

/-- The oldest waiting job of a source is promoted, and the others wait on it from then on. -/
structure InOrder (db db' : Db) (first : ℕ) : Prop where
  oldest : ∀ j k w, db.row first = some j → db.row k = some w → w.status = .waiting →
    w.sourceId = j.sourceId → j.startTime ≤ w.startTime
  relinked : ∀ j k w, db'.row first = some j → db'.row k = some w → w.status = .waiting →
    w.sourceId = j.sourceId → w.payload.afterJob = some first

/-- A job that the promotion has not locked is not handed on either. -/
lemma inOrder_iff (h : Sane s) (hs : s.step l = some s') {first : ℕ}
    (hp : first ∈ promoted s l) : InOrder s.store s'.store first ↔ Together s l := by
  obtain ⟨t, env, n, rest, rfl, ho, hpr⟩ := mem_promoted hp
  have hst := h.store_promoted ho hpr hs
  obtain ⟨j, hj, hwait⟩ : ∃ j, Db.row s.store first = some j ∧ j.status = .waiting := by
    rcases promote_cases s.store t first rest with ⟨hn, -⟩ | ⟨-, hrow, -⟩
    · exact absurd hpr hn
    · exact hrow
  constructor
  · intro hin n' first' rest' ho' _ j₀ k w hj₀ hw hws hsrc
    rw [ho] at ho'
    cases ho'
    rw [hj] at hj₀
    cases hj₀
    by_contra hk
    rw [List.mem_cons, not_or] at hk
    have hrow : Db.row s'.store k = some w := by
      rw [hst, row_endTransaction, row_enqueue, row_promotion (by simp [hk.1, hk.2]), hw]
    obtain ⟨j', hj'⟩ : ∃ j', Db.row s'.store first = some j' := by
      obtain ⟨j', hj', -⟩ := (evolves_of_step h.inv h.disciplined hs).placed first (.inr hp)
      exact ⟨j', hj'⟩
    have hsrc' : j'.sourceId = j.sourceId := row_promoted hj (hst ▸ hj')
    -- nobody waits on a job that waits itself
    exact not_placed hj hwait (h.inv.placing.target first k
      ⟨w, hw, hws, hin.relinked j' k w hj' hrow hws (hsrc.trans hsrc'.symm)⟩)
  · intro ht
    refine ⟨fun j₀ k w hj₀ hw => h.oldest ht hp hj₀ hw, fun j' k w hj' hw hws hsrc => ?_⟩
    obtain ⟨r, hr, hrs, hrsrc, -, hne, hmem, -⟩ := row_of_promotion (hst ▸ hw) hws
    refine hmem ((List.mem_cons.1 (ht n first rest ho hpr j k r hj hr hrs ?_)).resolve_left hne)
    rw [hrsrc, hsrc]
    exact row_promoted hj (hst ▸ hj')

/-- Of two jobs of a source that wait at one time, the older is promoted before the other. -/
lemma Sane.sublist (h : Sane s) (hl : Logged Together promoted s ps s') {i k : ℕ} {j w : Job}
    (hj : Db.row s.store i = some j) (hjs : j.status = .waiting) (hw : Db.row s.store k = some w)
    (hws : w.status = .waiting) (hsrc : j.sourceId = w.sourceId) (ht : j.startTime < w.startTime)
    (hk : k ∈ ps) : [i, k].Sublist ps := by
  induction hl with
  | refl => cases hk
  | @tail s₁ s₂ l ps hl hc hs ih =>
    by_cases hold : k ∈ ps
    · exact (ih hold).trans (List.sublist_append_left _ _)
    · have hnew := (List.mem_append.1 hk).resolve_left hold
      have hmid := h.run hl.run
      have hev := h.evolves hl
      -- the younger one is promoted now, so the older one cannot be waiting any more
      obtain ⟨w', hw', -, hwsrc, hwt⟩ := hev.stays k hold w hw hws
      have hmem : i ∈ ps := by
        by_contra hi
        obtain ⟨j', hj', hjs', hjsrc, hjt⟩ := hev.stays i hi j hj hjs
        have hle := hmid.oldest hc hnew hw' hj' hjs' (by rw [hjsrc, hsrc, hwsrc])
        omega
      exact (List.singleton_sublist.2 hmem).append (List.singleton_sublist.2 hnew)

/-- One queued or running job a source; what is queued or waited for is a job that does not wait;
nothing is in progress. -/
structure Sound (db : Db) : Prop where
  single : Single db
  numbered : ∀ i j, db.row i = some j → i < db.nextJob
  queued : ∀ i ∈ db.queue, Placed db i
  target : ∀ i k, Awaited db i k → Placed db i
  background : db.background = []
  rowLocks : db.rowLocks = []

lemma Sound.sane (h : Sound db) : Sane (initial db) where
  inv := by
    refine ⟨h.single, ⟨h.numbered, h.queued, fun y hy => ?_, h.target, fun _ _ _ ht => ?_,
      fun _ _ _ ht => ?_, fun _ _ _ _ _ ht => ?_⟩, fun _ _ _ ht => ?_, fun _ _ _ _ _ ht => ?_,
      fun _ _ _ _ ht => ?_⟩
    · have hy : y ∈ db.background := hy
      rw [h.background] at hy
      cases hy
    · cases ht
    · cases ht
    · cases ht
    · have ht : (_, _) ∈ db.rowLocks := ht
      rw [h.rowLocks] at ht
      cases ht
    · cases ht
    · cases ht
  disciplined k hk := by
    cases hk

/-- **Promotion in order**: one job of a source is queued or running, and no job is promoted twice
or lost. Where each promotion finds all waiting jobs of its source among those it has locked, it
takes the oldest and lets the others wait on that one. -/
theorem promoted_in_order (db : Db) (hdb : Sound db) (s s' : Sys) (ps : List ℕ)
    (hr : Run Together (initial db) s) (hl : Logged Together promoted s ps s') :
    Single s'.store ∧ ps.Nodup ∧
      (∀ k j, Db.row s.store k = some j → j.status = .waiting →
        (k ∈ ps ↔ ¬∃ j', Db.row s'.store k = some j' ∧ j'.status = .waiting)) ∧
      (∀ i k j w, Db.row s.store i = some j → j.status = .waiting → Db.row s.store k = some w →
        w.status = .waiting → j.sourceId = w.sourceId → j.startTime < w.startTime → k ∈ ps →
          [i, k].Sublist ps) ∧
      ∀ l s'' first, Together s' l → s'.step l = some s'' → first ∈ promoted s' l →
        InOrder s'.store s''.store first ∧ first ∈ Db.queue s''.store := by
  have hs := hdb.sane.run hr
  have hs' := hs.run hl.run
  have hev := hs.evolves hl
  refine ⟨hs'.inv.single, hev.once, fun k j hj hjs => ⟨fun hk => ?_, fun hk => ?_⟩,
    fun i k j w hj hjs hw hws hsrc ht hk => hs.sublist hl hj hjs hw hws hsrc ht hk,
    fun l s'' first ht hstep hp => ⟨(inOrder_iff hs' hstep hp).2 ht, ?_⟩⟩
  · rintro ⟨j', hj', hjs'⟩
    exact not_placed hj' hjs' (hev.placed k (.inr hk))
  · by_contra hnot
    obtain ⟨j', hj', hjs', -⟩ := hev.stays k hnot j hj hjs
    exact hk ⟨j', hj', hjs'⟩
  · obtain ⟨t, env, n, rest, rfl, ho, hpr⟩ := mem_promoted hp
    rw [hs'.store_promoted ho hpr hstep]
    exact mem_enqueue_self

end Runs

lemma sound_empty : Sound empty :=
  ⟨fun _ _ _ _ h => (by cases h), fun _ _ h => (by cases h), fun _ h => (by cases h),
    fun _ _ ⟨_, h, _⟩ => (by cases h), rfl, rfl⟩

def repoRequest : Submission := ⟨.repo, "s", "", "https://git/s", "main"⟩

/-- A request that is made at the time `n`. -/
def request (n : ℕ) : List (Label machine) :=
  .start ⟨1, n⟩ (.submit repoRequest) :: steps ⟨1, n⟩ 3 ++ .run ⟨1, n⟩ n :: steps ⟨1, n⟩ 4

/-- A refresh has ended that two requests wait for, and its worker is about to promote. -/
def refreshed : List (Label machine) :=
  .start ⟨0, 0⟩ (.refresh "s") :: steps ⟨0, 0⟩ 8 ++ .start ⟨0, 1⟩ .worker :: steps ⟨0, 1⟩ 8 ++
    request 1 ++ request 2 ++ steps ⟨0, 1⟩ 11

/-- The first request has run, and its worker has not looked yet who waits for it. A new refresh
has ended meanwhile, and its worker is about to promote a third request. -/
def overtaken : List (Label machine) :=
  refreshed ++ steps ⟨0, 1⟩ 4 ++ .start ⟨0, 2⟩ .worker :: steps ⟨0, 2⟩ 23 ++
    .start ⟨0, 3⟩ (.refresh "s") :: steps ⟨0, 3⟩ 8 ++ .start ⟨0, 4⟩ .worker :: steps ⟨0, 4⟩ 8 ++
    request 5 ++ steps ⟨0, 4⟩ 11

/-- A sufficient condition that can be run: no other job is waiting at all. -/
def together (s : Sys) : Label machine → Bool
  | .run t _ => match s.nextOp t with
    | some (.promote _ first rest) => s.store.jobs.rows.all fun r =>
        r.status ≠ .waiting || r.id ∈ first :: rest
    | _ => true
  | _ => true

lemma together_of (s : Sys) (l : Label machine) (h : together s l = true) : Together s l := by
  cases l with
  | run t env =>
    intro n first rest ho _ j k w _ hw hws _
    simp only [together, ho, List.all_eq_true, Bool.or_eq_true, decide_eq_true_eq] at h
    have hmem := (h w (Keyed.mem_of_get? hw)).resolve_left fun hne => hne hws
    rwa [id_of_row hw] at hmem
  | _ => trivial

/-- The first of two requests is promoted, and the second goes on waiting. -/
theorem second_request_waits : ∃ s s' : Sys, Logged Together promoted s [1] s' ∧
    ∃ j, Db.row s'.store 2 = some j ∧ j.status = .waiting := by
  have h : (((initial empty : Sys).runChecked together refreshed).bind fun s =>
      (s.step (.run ⟨0, 1⟩ 0)).map fun _ => (together s (.run ⟨0, 1⟩ 0),
        promoted s (.run ⟨0, 1⟩ 0), (Db.row s.store 2).map Job.status)) =
      some (true, [1], some .waiting) := by decide
  obtain ⟨s, hs, hx⟩ := Option.bind_eq_some_iff.1 h
  obtain ⟨s', hs', hx⟩ := Option.map_eq_some_iff.1 hx
  simp only [Prod.mk.injEq] at hx
  obtain ⟨ht, hp, hrow⟩ := hx
  obtain ⟨j, hj, hw⟩ := Option.map_eq_some_iff.1 hrow
  have hl : Logged Together promoted s ([] ++ promoted s (.run ⟨0, 1⟩ 0)) s' :=
    .tail (.refl s) (together_of s _ ht) hs'
  rw [hp] at hl
  refine ⟨s, s', hl, ?_⟩
  have hwaits := (promoted_in_order empty sound_empty s s' [1]
    (Machine.run_of_runChecked together_of hs) hl).2.2.1 2 j hj hw
  by_contra hnot
  exact absurd (hwaits.2 hnot) (by decide)

set_option maxRecDepth 4000 in
/-- The third request is promoted while the second, which is older, still waits for the first. -/
theorem older_request_overtaken :
    ¬∀ (s s' : Sys) (ps : List ℕ), Run (fun _ _ => True) (initial empty) s →
      Logged (fun _ _ => True) promoted s ps s' → ∀ i k j w, Db.row s.store i = some j →
        j.status = .waiting → Db.row s.store k = some w → w.status = .waiting →
          j.sourceId = w.sourceId → j.startTime < w.startTime → k ∈ ps → [i, k].Sublist ps := by
  intro hclaim
  have h : (((initial empty : Sys).runChecked (fun _ _ => true) overtaken).bind fun s =>
      (s.step (.run ⟨0, 4⟩ 0)).map fun _ => (promoted s (.run ⟨0, 4⟩ 0),
        [2, 4].map fun i => (Db.row s.store i).map fun j => (j.status, j.sourceId, j.startTime))) =
      some ([4], [some (.waiting, "s", 2), some (.waiting, "s", 5)]) := by decide
  obtain ⟨s, hs, hx⟩ := Option.bind_eq_some_iff.1 h
  obtain ⟨s', hs', hx⟩ := Option.map_eq_some_iff.1 hx
  simp only [List.map_cons, List.map_nil, Prod.mk.injEq, List.cons.injEq, and_true] at hx
  obtain ⟨hp, hold, hnew⟩ := hx
  obtain ⟨j, hj, hjx⟩ := Option.map_eq_some_iff.1 hold
  obtain ⟨w, hw, hwx⟩ := Option.map_eq_some_iff.1 hnew
  simp only [Prod.mk.injEq] at hjx hwx
  have hl : Logged (fun _ _ => True) promoted s ([] ++ promoted s (.run ⟨0, 4⟩ 0)) s' :=
    .tail (.refl s) trivial hs'
  rw [hp] at hl
  have hsub := hclaim s s' [4] (Machine.run_of_runChecked (fun _ _ _ => trivial) hs) hl 2 4 j w hj
    hjx.1 hw hwx.1 (hjx.2.1.trans hwx.2.1.symm) (by omega) (by decide)
  exact absurd hsub (by decide)

end Treeweft.WaitingChain
