import Treeweft.Service

/-!
Whether a waiting job is ever forgotten.

A waiting job is promoted by whoever ends the job it waits on. So as long as that job is neither
active nor waiting itself, some task must still be about to promote what waits on it, or be in
the middle of that. The steps after which neither holds are named by `Backing`.
-/

namespace Treeweft.Waiting

open Treeweft.Jobs Treeweft.JobStore Treeweft.Runners Treeweft.PromptRefresh Treeweft.Queue
open Treeweft.Service Treeweft.IndexGuard
open Machine (State Label Run Kept initial)

/-- The job a task has claimed, the job whose waiters it is to promote, and the promotion it is
in: the job waited on and the rows it has locked. -/
structure Duty where
  mine : Option ℕ
  owes : Option ℕ
  tx : Option (ℕ × List ℕ)
  deriving DecidableEq, Repr

def Duty.afterUpsert (l : Duty) (j : Job) (ok : Bool) : Duty :=
  if j.status = .waiting then if ok then { l with owes := j.payload.afterJob } else l
  else if l.mine = some j.id then
    if j.status = .queued then { l with owes := none }
    else if ok then { l with owes := some j.id } else l
  else l

/-- A worker owes the promotion from the moment its job is running, whoever has just created a
waiting job from then on; both until they have promoted, or seen that the job is active. -/
def after (l : Duty) : (o : Op) → o.Answer → Duty
  | .claim, r => { l with mine := r }
  | .get i, r =>
    if l.owes = some i ∧ (r : Option Job).any fun j => j.status.active then { l with owes := none }
    else l
  | .upsert j, r => l.afterUpsert j r
  | .lockWaiting i, r =>
    ⟨l.mine, none, if (r : List Job) = [] then none else some (i, (r : List Job).map Job.id)⟩
  | .relink _ _, _ => { l with tx := none }
  | .promote n _ _, r =>
    ⟨l.mine, if (r : Promotion) = .conflict ∧ n = 0 then l.tx.map Prod.fst else none, none⟩
  | _, _ => l

example : after ⟨none, none, none⟩ .claim none = ⟨none, none, none⟩ := by rw [after]

section Source
variable (sid : String)

structure MayUpsert (l : Duty) (j : Job) : Prop where
  source : j.sourceId = sid
  tx : l.tx = none
  waiting : j.status = .waiting → l.owes = none ∧ j.payload.afterJob.isSome
  terminal : j.status.terminal = true → l.mine = some j.id
  mine : l.mine = some j.id → l.owes = none ∨ l.owes = some j.id

/-- All work is on one source; only the worker that claimed a job ends it. -/
def may (l : Duty) : Op → Prop
  | .upsert j => MayUpsert sid l j
  | .background j => j.sourceId = sid ∧ j.status ≠ .waiting
  | .incrementAttempts _ => l.tx = none
  | .cancelIfQueued _ => l.tx = none
  | .lockWaiting i => l.owes = some i ∧ l.tx = none
  | .relink ids _ => l.owes = none ∧ ∃ i, l.tx = some (i, ids)
  | .promote _ first rest => l.owes = none ∧ ∃ i, l.tx = some (i, first :: rest)
  | _ => True

def admits : (o : Op) → o.Answer → Prop
  | .get i, r => ∀ j, (r : Option Job) = some j → j.id = i ∧ j.sourceId = sid
  | .upsert j, r => j.status.active = false → r = true
  | _, _ => True

abbrev discipline : Discipline sig := ⟨Duty, ⟨none, none, none⟩, may sid, fun _ => admits sid, after⟩

/-- The requests and the work of one source. -/
def Concerns : Entry → Prop
  | .worker => True
  | .webhook ev => ev.sourceId = sid
  | .submit r => r.sourceId = sid
  | .retry _ => True
  | .refresh s => s = sid
  | .startup => False
  | .rebuild => False

instance : ∀ e, Decidable (Concerns sid e)
  | .worker => .isTrue trivial
  | .webhook ev => inferInstanceAs (Decidable (ev.sourceId = sid))
  | .submit r => inferInstanceAs (Decidable (r.sourceId = sid))
  | .retry _ => .isTrue trivial
  | .refresh s => inferInstanceAs (Decidable (s = sid))
  | .startup => .isFalse id
  | .rebuild => .isFalse id

end Source

abbrev Sys (sid : String) := State machine (discipline sid)

/-! ### Promoters -/

/-- The task will promote `k` once it promotes what waits on `i`. -/
def Duty.Covers (l : Duty) (i k : ℕ) : Prop :=
  l.owes = some i ∨ ∃ ids, l.tx = some (i, ids) ∧ k ∈ ids

def Covered (L : Tid → Option Duty) (i k : ℕ) : Prop := ∃ t l, L t = some l ∧ l.Covers i k

def Live (db : Db) (i : ℕ) : Prop :=
  ∃ j, db.row i = some j ∧ (j.status.active = true ∨ j.status = .waiting)

def Awaited (db : Db) (i k : ℕ) : Prop :=
  ∃ j, db.row k = some j ∧ j.status = .waiting ∧ j.payload.afterJob = some i

/-- The job `k` waits on `i` and will be promoted. -/
def Backed (db : Db) (L : Tid → Option Duty) (i k : ℕ) : Prop := Live db i ∨ Covered L i k

def others (L : Tid → Option Duty) (t : Tid) : Tid → Option Duty := Function.update L t none

/-- The operation of `t` leaves nobody without a promoter. -/
def BackingOp (db : Db) (L : Tid → Option Duty) (t : Tid) : Op → Prop
  | .cancelIfQueued i =>
    -- a refresh is cancelled that other jobs wait for
    ∀ j, i ∈ db.queue → db.row i = some j → j.status = .queued → ∀ k, Awaited db i k → Covered L i k
  | .relink ids target =>
    -- waiters are handed to a job that has ended meanwhile
    ∀ k ∈ ids, Backed db (others L t) target k
  | .upsert j =>
    -- a failed job is to be queued again, and its source has got another active one
    j.status = .queued → db.conflicts j = true → (∃ l, L t = some l ∧ l.mine = some j.id) →
      ∀ k, Awaited db j.id k → Backed db (others L t) j.id k
  | .promote n first rest =>
    -- a promotion loses its source to another job for the second time
    n ≠ 0 → ∀ j, db.row first = some j → db.conflicts j.promoted = true →
      ∀ k ∈ first :: rest, ∀ i, Awaited db i k → Backed db (others L t) i k
  | _ => True

/-- A terminal status that a run left in the background lands on a job that was started again. -/
def BackingOwn (db : Db) (L : Tid → Option Duty) : Own → Prop
  | .land n => ∀ t j, db.background[n]? = some (t, j) → j.status.terminal = true →
    ∀ k, Awaited db j.id k → Covered L j.id k
  | _ => True

/-- No step takes from a waiting job the last that would promote it. -/
def Backing (sid : String) (s : Sys sid) : Label machine → Prop
  | .start _ e => Concerns sid e
  | .run t _ => ∀ o, s.nextOp t = some o → BackingOp s.store s.records t o
  | .kill _ => False
  | .own x => BackingOwn s.store s.records x

/-! ### The invariant -/

structure Inv (sid : String) (db : Db) (L : Tid → Option Duty) : Prop where
  source : ∀ i j, db.row i = some j → j.sourceId = sid
  pending : ∀ x ∈ db.background, x.2.sourceId = sid ∧ x.2.status ≠ .waiting
  exclusive : ∀ t u k, (t, k) ∈ db.rowLocks → (u, k) ∈ db.rowLocks → t = u
  held : ∀ t l i ids k, L t = some l → l.tx = some (i, ids) → k ∈ ids →
    (t, k) ∈ db.rowLocks ∧ Awaited db i k
  waits : ∀ k j, db.row k = some j → j.status = .waiting →
    ∃ i, j.payload.afterJob = some i ∧ Backed db L i k

section Inv
variable {sid : String} {db db' : Db} {L : Tid → Option Duty} {t : Tid} {l l' : Duty}

lemma others_of_covered {i k : ℕ} (hl : L t = some l) (h : Covered L i k) :
    l.Covers i k ∨ Covered (others L t) i k := by
  obtain ⟨u, m, hu, hm⟩ := h
  by_cases hut : u = t
  · subst hut
    rw [hl] at hu
    cases hu
    exact .inl hm
  · exact .inr ⟨u, m, by rw [others, Function.update_of_ne hut, hu], hm⟩

lemma covered_of_others {i k : ℕ} {x : Option Duty} (h : Covered (others L t) i k) :
    Covered (Function.update L t x) i k := by
  obtain ⟨u, m, hu, hm⟩ := h
  by_cases hut : u = t
  · subst hut
    rw [others, Function.update_self] at hu
    cases hu
  · rw [others, Function.update_of_ne hut] at hu
    exact ⟨u, m, by rw [Function.update_of_ne hut, hu], hm⟩

lemma covered_self {i k : ℕ} (h : l'.Covers i k) :
    Covered (Function.update L t (some l')) i k :=
  ⟨t, l', Function.update_self .., h⟩

/-- Who is covered stays so, as far as the task that moves still covers whom it did. -/
lemma covered_update {i k : ℕ} (hl : L t = some l) (h : Covered L i k)
    (hk : l.Covers i k → l'.Covers i k) : Covered (Function.update L t (some l')) i k := by
  rcases others_of_covered hl h with h | h
  · exact covered_self (hk h)
  · exact covered_of_others h

lemma Live.of_row {i : ℕ} (h : Live db i)
    (hrow : ∀ j, db.row i = some j → (j.status.active = true ∨ j.status = .waiting) →
      ∃ j', db'.row i = some j' ∧ (j'.status.active = true ∨ j'.status = .waiting)) :
    Live db' i := by
  obtain ⟨j, hj, hs⟩ := h
  exact hrow j hj hs

lemma live_congr (hj : db'.jobs = db.jobs) {i : ℕ} : Live db' i ↔ Live db i := by
  simp only [Live, row_congr hj]

lemma awaited_congr (hj : db'.jobs = db.jobs) {i k : ℕ} : Awaited db' i k ↔ Awaited db i k := by
  simp only [Awaited, row_congr hj]

/-- A task moves, and the jobs stay. -/
lemma Inv.move (h : Inv sid db L) (hl : L t = some l) (hj : db'.jobs = db.jobs)
    (hb : ∀ x ∈ db'.background, x ∈ db.background ∨ x.2.sourceId = sid ∧ x.2.status ≠ .waiting)
    (hk : db'.rowLocks = db.rowLocks) (htx : l'.tx = l.tx)
    (hw : ∀ i k, Awaited db i k → l.owes = some i → Backed db (others L t) i k ∨ l'.owes = some i) :
    Inv sid db' (Function.update L t (some l')) where
  source i j hi := h.source i j (row_congr hj i ▸ hi)
  pending x hx := (hb x hx).elim (h.pending x) id
  exclusive := hk ▸ h.exclusive
  held u m i ids k hu hm hmem := by
    rw [hk, awaited_congr hj]
    by_cases hut : u = t
    · subst hut
      rw [Function.update_self] at hu
      cases hu
      exact h.held u l i ids k hl (htx ▸ hm) hmem
    · rw [Function.update_of_ne hut] at hu
      exact h.held u m i ids k hu hm hmem
  waits k j hjk hs := by
    rw [row_congr hj] at hjk
    obtain ⟨i, hi, hback⟩ := h.waits k j hjk hs
    refine ⟨i, hi, ?_⟩
    rcases hback with hlive | hc
    · exact .inl ((live_congr hj).2 hlive)
    · rcases others_of_covered hl hc with hc | hc
      · rcases hc with ho | ⟨ids, hids, hmem⟩
        · rcases hw i k ⟨j, hjk, hs, hi⟩ ho with (hlive | hc) | ho
          · exact .inl ((live_congr hj).2 hlive)
          · exact .inr (covered_of_others hc)
          · exact .inr (covered_self (.inl ho))
        · exact .inr (covered_self (.inr ⟨ids, htx.trans hids, hmem⟩))
      · exact .inr (covered_of_others hc)

/-- One row is written that no promotion has locked. -/
lemma Inv.write (h : Inv sid db L) {L' : Tid → Option Duty} {i : ℕ}
    (hrow : ∀ k, k ≠ i → db'.row k = db.row k) (hsrc : ∀ j, db'.row i = some j → j.sourceId = sid)
    (hb : ∀ x ∈ db'.background, x ∈ db.background) (hk : db'.rowLocks = db.rowLocks)
    (hfree : ∀ u m a ids, L u = some m → m.tx = some (a, ids) → i ∉ ids)
    (htx : ∀ u m a ids, L' u = some m → m.tx = some (a, ids) →
      ∃ m', L u = some m' ∧ m'.tx = some (a, ids))
    (hself : ∀ j, db'.row i = some j → j.status = .waiting →
      ∃ a, j.payload.afterJob = some a ∧ Backed db' L' a i)
    (hother : ∀ a k, k ≠ i → Awaited db a k → Backed db L a k → Backed db' L' a k) :
    Inv sid db' L' where
  source k j hj := by
    by_cases hki : k = i
    · exact hsrc j (hki ▸ hj)
    · exact h.source k j (hrow k hki ▸ hj)
  pending x hx := h.pending x (hb x hx)
  exclusive := hk ▸ h.exclusive
  held u m a ids k hu hm hmem := by
    obtain ⟨m', hu', hm'⟩ := htx u m a ids hu hm
    obtain ⟨hlock, j, hj, hw⟩ := h.held u m' a ids k hu' hm' hmem
    have hki : k ≠ i := fun hki => hfree u m' a ids hu' hm' (hki ▸ hmem)
    exact ⟨hk ▸ hlock, j, (hrow k hki).trans hj, hw⟩
  waits k j hj hs := by
    by_cases hki : k = i
    · exact hki ▸ hself j (hki ▸ hj) hs
    · rw [hrow k hki] at hj
      obtain ⟨a, ha, hback⟩ := h.waits k j hj hs
      exact ⟨a, ha, hother a k hki ⟨j, hj, hs, ha⟩ hback⟩

/-- Rows that nobody else has locked are in no promotion but the task's own. -/
lemma Inv.free (h : Inv sid db L) {i : ℕ} (hlock : db.lockedFor t i = false)
    (hl : L t = some l) (htx : l.tx = none) :
    ∀ u m a ids, L u = some m → m.tx = some (a, ids) → i ∉ ids := by
  intro u m a ids hu hm hi
  obtain rfl : u = t := not_lockedFor.1 hlock u (h.held u m a ids i hu hm hi).1
  rw [hl] at hu
  cases hu
  rw [htx] at hm
  cases hm

lemma tx_update {L : Tid → Option Duty} (hl : L t = some l) (htx : l'.tx = l.tx) :
    ∀ u m (a : ℕ) (ids : List ℕ), Function.update L t (some l') u = some m → m.tx = some (a, ids) →
      ∃ m', L u = some m' ∧ m'.tx = some (a, ids) := by
  intro u m a ids hu hm
  by_cases hut : u = t
  · subst hut
    rw [Function.update_self] at hu
    cases hu
    exact ⟨l, hl, htx ▸ hm⟩
  · rw [Function.update_of_ne hut] at hu
    exact ⟨m, hu, hm⟩

@[simp] lemma afterUpsert_tx (l : Duty) (j : Job) (ok : Bool) : (l.afterUpsert j ok).tx = l.tx := by
  unfold Duty.afterUpsert
  repeat' split
  all_goals rfl

lemma update_same {L : Tid → Option Duty} (hl : L t = some l) :
    Function.update L t (some l) = L := by
  rw [← hl, Function.update_eq_self]

lemma Inv.upsert (h : Inv sid db L) (hl : L t = some l) {j : Job} (hm : MayUpsert sid l j)
    {ok : Bool} {env : ℕ} (he : exec db t env (.upsert j) = some (ok, db'))
    (hc : BackingOp db L t (.upsert j)) :
    Inv sid db' (Function.update L t (some (l.afterUpsert j ok))) := by
  rcases exec_upsert he with ⟨hlock, ⟨rfl, -, rfl⟩ | ⟨rfl, hconf, rfl⟩⟩
  · have hrow : (db.put j).row j.id = some (db.upserted j) := by rw [row_put, if_pos rfl]
    refine h.write (i := j.id) (fun k hk => by rw [row_put, if_neg hk]) (fun j' hj' => ?_)
      (fun _ hx => hx) rfl (h.free hlock hl hm.tx) (tx_update hl (afterUpsert_tx ..))
      (fun j' hj' hs => ?_) fun a k hk _ hback => ?_
    · rw [hrow] at hj'
      cases hj'
      exact hm.source
    · rw [hrow] at hj'
      cases hj'
      have hw : j.status = .waiting := hs
      obtain ⟨a, ha⟩ := Option.isSome_iff_exists.1 (hm.waiting hw).2
      refine ⟨a, ha, .inr (covered_self (.inl ?_))⟩
      simp [Duty.afterUpsert, hw, ha]
    · -- whoever waited on `j` finds it live, or its worker about to promote
      have hown : a = j.id → Backed (db.put j) (Function.update L t (some (l.afterUpsert j true))) a k := by
        rintro rfl
        rcases j.status.cases with hs | hs | hs
        · exact .inl ⟨_, hrow, .inl hs⟩
        · refine .inr (covered_self (.inl ?_))
          have hw : j.status ≠ .waiting := by rintro hw; simp [hw, JobStatus.terminal] at hs
          have hq : j.status ≠ .queued := by rintro hq; simp [hq, JobStatus.terminal] at hs
          simp [Duty.afterUpsert, hw, hq, hm.terminal hs]
        · exact .inl ⟨_, hrow, .inr hs⟩
      by_cases ha : a = j.id
      · exact hown ha
      · rcases hback with hlive | hcov
        · exact .inl (hlive.of_row fun j' hj' hs => ⟨j', by rw [row_put, if_neg ha, hj'], hs⟩)
        · refine .inr (covered_update hl hcov ?_)
          rintro (ho | ⟨ids, hids, -⟩)
          · -- a duty towards another job is not touched
            left
            have hw : j.status ≠ .waiting := fun hw => by simp [(hm.waiting hw).1] at ho
            have hmine : l.mine ≠ some j.id := fun hmine => by
              rcases hm.mine hmine with h0 | h0
              · simp [h0] at ho
              · rw [h0] at ho
                exact ha (Option.some.inj ho).symm
            simp [Duty.afterUpsert, hw, hmine, ho]
          · rw [hm.tx] at hids
            cases hids
  · refine h.move hl rfl (fun _ hx => .inl hx) rfl (afterUpsert_tx ..) fun i k hw ho => ?_
    have hact : j.status.active = true := by
      by_contra hna
      rw [not_conflicts (by simpa using hna)] at hconf
      cases hconf
    have hnw : j.status ≠ .waiting := by rintro h; simp [h, JobStatus.active] at hact
    by_cases hmine : l.mine = some j.id ∧ j.status = .queued
    · rcases hm.mine hmine.1 with h0 | h0
      · simp [h0] at ho
      · rw [h0] at ho
        cases ho
        exact .inl (hc hmine.2 hconf ⟨l, hl, hmine.1⟩ k hw)
    · right
      simp only [Duty.afterUpsert, if_neg hnw]
      split
      · rename_i hmj
        rw [if_neg fun hq => hmine ⟨hmj, hq⟩]
        simpa using ho
      · exact ho

lemma Inv.cancel (h : Inv sid db L) (hl : L t = some l) {i : ℕ} (htx : l.tx = none) {r : Bool}
    {env : ℕ} (he : exec db t env (.cancelIfQueued i) = some (r, db'))
    (hc : BackingOp db L t (.cancelIfQueued i)) : Inv sid db' L := by
  rcases exec_cancel he with ⟨hlock, ⟨-, hq, rfl⟩ | ⟨-, -, rfl⟩⟩
  · set db' : Db := { db.modify i Job.cancelled Job.cancelled_id with queue := db.queue.erase i }
    have hrow : ∀ k, db'.row k = if k = i then (db.row k).map Job.cancelled else db.row k :=
      fun k => row_modify Job.cancelled_id i k
    have hlive : ∀ a, Live db a → (a = i → ∀ j, db.row i = some j → j.status ≠ .queued) →
        Live db' a := by
      intro a ha hne
      refine ha.of_row fun j hj hs => ?_
      rw [hrow]
      split
      · rename_i hai
        subst hai
        exact ⟨j, by rw [hj, Option.map_some, Job.cancelled, if_neg (hne rfl j hj)], hs⟩
      · exact ⟨j, hj, hs⟩
    refine h.write (i := i) (fun k hk => by rw [hrow, if_neg hk]) (fun j hj => ?_)
      (fun _ hx => hx) rfl (h.free hlock hl htx) (fun u m a ids hu hm => ⟨m, hu, hm⟩)
      (fun j hj hs => ?_) fun a k hk hw hback => ?_
    · rw [hrow, if_pos rfl] at hj
      obtain ⟨j', hj', rfl⟩ := Option.map_eq_some_iff.1 hj
      unfold Job.cancelled
      split <;> exact h.source i j' hj'
    · rw [hrow, if_pos rfl] at hj
      obtain ⟨j', hj', rfl⟩ := Option.map_eq_some_iff.1 hj
      unfold Job.cancelled at hs ⊢
      split at hs
      · cases hs
      · rename_i hnq
        rw [if_neg hnq]
        obtain ⟨a, ha, hback⟩ := h.waits i j' hj' hs
        refine ⟨a, ha, hback.imp_left fun hlv => hlive a hlv fun _ k hk => ?_⟩
        rw [hj'] at hk
        cases hk
        exact hnq
    · rcases hback with hlv | hcov
      · by_cases hdead : ∃ j, a = i ∧ db.row i = some j ∧ j.status = .queued
        · obtain ⟨j, rfl, hj, hs⟩ := hdead
          exact .inr (hc j hq hj hs k hw)
        · exact .inl (hlive a hlv fun ha j hj hs => hdead ⟨j, ha, hj, hs⟩)
      · exact .inr hcov
  · exact h

lemma Inv.increment (h : Inv sid db L) (hl : L t = some l) {i : ℕ} (htx : l.tx = none) {r : ℕ}
    {env : ℕ} (he : exec db t env (.incrementAttempts i) = some (r, db')) : Inv sid db' L := by
  obtain ⟨hlock, rfl⟩ := exec_increment he
  have hback : ∀ {a k}, Backed db L a k → Backed (db.modify i Job.tried Job.tried_id) L a k := by
    rintro a k (hlv | hcov)
    · refine .inl (hlv.of_row fun j hj hs => ?_)
      rw [row_modify]
      split
      · exact ⟨j.tried, by rw [hj, Option.map_some], hs⟩
      · exact ⟨j, hj, hs⟩
    · exact .inr hcov
  refine h.write (i := i) (fun k hk => by rw [row_modify, if_neg hk]) (fun j hj => ?_)
    (fun _ hx => hx) rfl (h.free hlock hl htx) (fun u m a ids hu hm => ⟨m, hu, hm⟩)
    (fun j hj hs => ?_) fun a k _ _ => hback
  · rw [row_modify, if_pos rfl] at hj
    obtain ⟨j', hj', rfl⟩ := Option.map_eq_some_iff.1 hj
    exact h.source i j' hj'
  · rw [row_modify, if_pos rfl] at hj
    obtain ⟨j', hj', rfl⟩ := Option.map_eq_some_iff.1 hj
    obtain ⟨a, ha, hb⟩ := h.waits i j' hj' hs
    exact ⟨a, ha, hback hb⟩

/-- A promotion begins: it locks whoever waits. -/
lemma Inv.lock (h : Inv sid db L) (hl : L t = some l) {i : ℕ} (ho : l.owes = some i)
    (htx : l.tx = none) {rows : List Job} {env : ℕ}
    (he : exec db t env (.lockWaiting i) = some (rows, db')) :
    Inv sid db' (Function.update L t (some (after l (.lockWaiting i) rows))) := by
  obtain ⟨rfl, hfree, rfl⟩ := exec_lockWaiting he
  set rows := db.waitingAfter i with hrows
  have hmem : ∀ k, (∃ j ∈ rows, j.id = k) ↔ Awaited db i k := by
    intro k
    constructor
    · rintro ⟨j, hj, rfl⟩
      exact ⟨j, mem_waitingAfter.1 hj⟩
    · rintro ⟨j, hj, hs⟩
      obtain rfl := id_of_row hj
      exact ⟨j, mem_waitingAfter.2 ⟨hj, hs⟩, rfl⟩
  have hnew : ∀ a ids, (after l (.lockWaiting i) rows).tx = some (a, ids) →
      a = i ∧ ids = rows.map Job.id := by
    intro a ids hids
    simp only [after] at hids
    split at hids
    · cases hids
    · cases hids
      exact ⟨rfl, rfl⟩
  refine ⟨h.source, h.pending, fun u v k hu hv => ?_, fun u m a ids k hu hm hk => ?_,
    fun k j hj hs => ?_⟩
  · rcases List.mem_append.1 hu with hu | hu <;> rcases List.mem_append.1 hv with hv | hv
    · obtain ⟨j, -, hj⟩ := List.mem_map.1 hu
      obtain ⟨j', -, hj'⟩ := List.mem_map.1 hv
      exact (Prod.mk.inj hj).1.symm.trans (Prod.mk.inj hj').1
    · obtain ⟨j, hjr, hj⟩ := List.mem_map.1 hu
      cases hj
      exact (not_lockedFor.1 (hfree j hjr) v hv).symm
    · obtain ⟨j, hjr, hj⟩ := List.mem_map.1 hv
      cases hj
      exact not_lockedFor.1 (hfree j hjr) u hu
    · exact h.exclusive u v k hu hv
  · by_cases hut : u = t
    · subst hut
      rw [Function.update_self] at hu
      cases hu
      obtain ⟨rfl, rfl⟩ := hnew a ids hm
      obtain ⟨j, hj, rfl⟩ := List.mem_map.1 hk
      exact ⟨List.mem_append_left _ (List.mem_map.2 ⟨j, hj, rfl⟩), (hmem _).1 ⟨j, hj, rfl⟩⟩
    · rw [Function.update_of_ne hut] at hu
      obtain ⟨hlock, haw⟩ := h.held u m a ids k hu hm hk
      exact ⟨List.mem_append_right _ hlock, haw⟩
  · obtain ⟨a, ha, hback⟩ := h.waits k j hj hs
    refine ⟨a, ha, ?_⟩
    rcases hback with hlv | hcov
    · exact .inl hlv
    · refine .inr (covered_update hl hcov ?_)
      rintro (hoa | ⟨ids, hids, -⟩)
      · -- what was owed is now being done
        rw [ho] at hoa
        cases hoa
        obtain ⟨j', hj', hjk⟩ := (hmem k).2 ⟨j, hj, hs, ha⟩
        refine .inr ⟨rows.map Job.id, ?_, List.mem_map.2 ⟨j', hj', hjk⟩⟩
        simp only [after, if_neg (List.ne_nil_of_mem hj')]
      · rw [htx] at hids
        cases hids

/-- A promotion ends: it has written no rows but those it had locked. -/
lemma Inv.close (h : Inv sid db L) (hl : L t = some l) (ho : l.owes = none) {i : ℕ} {ids : List ℕ}
    (htx : l.tx = some (i, ids)) (htx' : l'.tx = none)
    (hrow : ∀ k, k ∉ ids → db'.row k = db.row k)
    (hsrc : ∀ k ∈ ids, ∀ j, db'.row k = some j → j.sourceId = sid)
    (hb : db'.background = db.background) (hk : db'.rowLocks = db.rowLocks.filter fun x => x.1 ≠ t)
    (hself : ∀ k ∈ ids, ∀ j, db'.row k = some j → j.status = .waiting →
      ∃ a, j.payload.afterJob = some a ∧ Backed db' (Function.update L t (some l')) a k)
    (hlive : ∀ a, Live db a → Live db' a) : Inv sid db' (Function.update L t (some l')) where
  source k j hj := by
    by_cases hki : k ∈ ids
    · exact hsrc k hki j hj
    · exact h.source k j (hrow k hki ▸ hj)
  pending x hx := h.pending x (hb ▸ hx)
  exclusive u v k hu hv := by
    rw [hk] at hu hv
    exact h.exclusive u v k (List.mem_of_mem_filter hu) (List.mem_of_mem_filter hv)
  held u m a jds k hu hm hmem := by
    by_cases hut : u = t
    · subst hut
      rw [Function.update_self] at hu
      cases hu
      rw [htx'] at hm
      cases hm
    · rw [Function.update_of_ne hut] at hu
      obtain ⟨hlock, j, hj, hw⟩ := h.held u m a jds k hu hm hmem
      have hki : k ∉ ids := fun hki =>
        hut (h.exclusive u t k hlock (h.held t l i ids k hl htx hki).1)
      exact ⟨hk ▸ List.mem_filter.2 ⟨hlock, by simpa using hut⟩, j, (hrow k hki).trans hj, hw⟩
  waits k j hj hs := by
    by_cases hki : k ∈ ids
    · exact hself k hki j hj hs
    · rw [hrow k hki] at hj
      obtain ⟨a, ha, hback⟩ := h.waits k j hj hs
      refine ⟨a, ha, ?_⟩
      rcases hback with hlv | hcov
      · exact .inl (hlive a hlv)
      · rcases others_of_covered hl hcov with (hoa | ⟨jds, hjds, hmem⟩) | hcov
        · rw [ho] at hoa
          cases hoa
        · rw [htx] at hjds
          cases hjds
          exact absurd hmem hki
        · exact .inr (covered_of_others hcov)

lemma Inv.relink (h : Inv sid db L) (hl : L t = some l) (ho : l.owes = none) {i : ℕ}
    {ids : List ℕ} (htx : l.tx = some (i, ids)) {target : ℕ}
    (hc : BackingOp db L t (.relink ids target)) :
    Inv sid ((db.setAfter ids target).endTransaction t)
      (Function.update L t (some { l with tx := none })) := by
  have hrow : ∀ k, ((db.setAfter ids target).endTransaction t).row k =
      if k ∈ ids then (db.row k).map (Job.behind target) else db.row k :=
    fun k => row_setAfter ids target k
  have hlive : ∀ a, Live db a → Live ((db.setAfter ids target).endTransaction t) a := by
    intro a ha
    refine ha.of_row fun j hj hs => ?_
    rw [hrow]
    split
    · exact ⟨j.behind target, by rw [hj, Option.map_some], hs⟩
    · exact ⟨j, hj, hs⟩
  refine h.close hl ho htx rfl (fun k hk => by rw [hrow, if_neg hk]) (fun k hk j hj => ?_) rfl rfl
    (fun k hk j hj _ => ?_) hlive
  · rw [hrow, if_pos hk] at hj
    obtain ⟨j', hj', rfl⟩ := Option.map_eq_some_iff.1 hj
    exact h.source k j' hj'
  · rw [hrow, if_pos hk] at hj
    obtain ⟨j', -, rfl⟩ := Option.map_eq_some_iff.1 hj
    exact ⟨target, rfl, (hc k hk).imp (hlive target) covered_of_others⟩

lemma Inv.promote (h : Inv sid db L) (hl : L t = some l) (ho : l.owes = none) {i first n env : ℕ}
    {rest : List ℕ} (htx : l.tx = some (i, first :: rest)) {r : Promotion}
    (he : exec db t env (.promote n first rest) = some (r, db'))
    (hc : BackingOp db L t (.promote n first rest)) :
    Inv sid db' (Function.update L t (some (after l (.promote n first rest) r))) := by
  have hheld := fun k => h.held t l i (first :: rest) k hl htx
  rcases exec_promote he with ⟨-, hgone, -⟩ | ⟨j, hj, -, ⟨rfl, hconf, rfl⟩ | ⟨-, -, rfl⟩⟩
  · obtain ⟨-, j, hj, hw, -⟩ := hheld first (List.mem_cons_self ..)
    exact absurd hw (hgone j hj)
  · refine h.close hl ho htx rfl (fun _ _ => rfl) (fun k _ => h.source k) rfl rfl
      (fun k hk j' hj' _ => ?_) fun _ ha => ha
    obtain ⟨-, haw⟩ := hheld k hk
    obtain ⟨j'', hj'', -, ha⟩ := id haw
    rw [show db.row k = some j' from hj'] at hj''
    cases hj''
    refine ⟨i, ha, ?_⟩
    by_cases hn : n = 0
    · refine .inr (covered_self (.inl ?_))
      simp [after, hn, htx]
    · exact (hc hn j hj hconf k hk i haw).imp_right covered_of_others
  · set db' : Db := (((db.modify first Job.promoted Job.promoted_id).setAfter rest first).enqueue
      first).endTransaction t
    have hrow : ∀ k, db'.row k = if k ∈ rest then
        (if k = first then (db.row k).map Job.promoted else db.row k).map (Job.behind first)
        else if k = first then (db.row k).map Job.promoted else db.row k := by
      intro k
      rw [← row_modify Job.promoted_id]
      exact row_setAfter rest first k
    have hlive : ∀ a, Live db a → Live db' a := by
      intro a ha
      refine ha.of_row fun j hj hs => ?_
      rw [hrow, hj]
      split <;> split
      · exact ⟨_, rfl, .inl rfl⟩
      · exact ⟨_, rfl, hs⟩
      · exact ⟨_, rfl, .inl rfl⟩
      · exact ⟨_, rfl, hs⟩
    refine h.close hl ho htx rfl (fun k hk => ?_) (fun k _ j' hj' => ?_) rfl rfl
      (fun k hk j' hj' hs => ?_) hlive
    · rw [List.mem_cons, not_or] at hk
      rw [hrow, if_neg hk.2, if_neg hk.1]
    · rw [hrow] at hj'
      cases hk : db.row k with
      | none => simp [hk] at hj'
      | some j₀ =>
        have := h.source k j₀ hk
        rw [hk] at hj'
        split at hj' <;> split at hj' <;> cases hj' <;> exact this
    · -- the first is queued, and the rest wait for it
      have hkf : k ≠ first := by
        rintro rfl
        rw [hrow, if_pos rfl, hj] at hj'
        split at hj' <;> cases hj' <;> cases hs
      have hkr : k ∈ rest := (List.mem_cons.1 hk).resolve_left hkf
      rw [hrow, if_pos hkr, if_neg hkf] at hj'
      obtain ⟨j₀, -, rfl⟩ := Option.map_eq_some_iff.1 hj'
      refine ⟨first, rfl, .inl ?_⟩
      unfold Live
      rw [hrow, if_pos rfl, hj]
      split
      · exact ⟨_, rfl, .inl rfl⟩
      · exact ⟨_, rfl, .inl rfl⟩

/-- An upsert of the background lands. -/
lemma Inv.land (h : Inv sid db L) {n : ℕ} (he : own db (.land n) = some db')
    (hc : BackingOwn db L (.land n)) : Inv sid db' L := by
  obtain ⟨t, j, hj, hlock, hcase⟩ := own_land he
  have hmem : ∀ x ∈ db.background.eraseIdx n, x ∈ db.background := fun _ => List.mem_of_mem_eraseIdx
  obtain ⟨hsrc, hnw⟩ := h.pending (t, j) (List.mem_of_getElem? hj)
  rcases hcase with ⟨-, rfl⟩ | ⟨-, rfl⟩
  · exact ⟨h.source, fun x hx => h.pending x (hmem x hx), h.exclusive, h.held, h.waits⟩
  · set db₁ : Db := { db with background := db.background.eraseIdx n }
    have hrow : (db₁.put j).row j.id = some (db₁.upserted j) := by rw [row_put, if_pos rfl]
    refine h.write (i := j.id) (fun k hk => by rw [row_put, if_neg hk]; rfl) (fun j' hj' => ?_)
      hmem rfl (fun u m a ids hu hm hk => ?_) (fun u m a ids hu hm => ⟨m, hu, hm⟩)
      (fun j' hj' hs => ?_) fun a k _ hw hback => ?_
    · rw [hrow] at hj'
      cases hj'
      exact hsrc
    · exact not_locked.1 hlock u (h.held u m a ids j.id hu hm hk).1
    · rw [hrow] at hj'
      cases hj'
      exact absurd hs hnw
    · by_cases ha : a = j.id
      · subst ha
        rcases j.status.cases with hs | hs | hs
        · exact .inl ⟨_, hrow, .inl hs⟩
        · exact .inr (hc t j hj hs k hw)
        · exact absurd hs hnw
      · refine hback.imp_left fun hlv => hlv.of_row fun j' hj' hs => ⟨j', ?_, hs⟩
        rw [row_put, if_neg ha]
        exact hj'

/-- One operation of one task. -/
lemma Inv.op (h : Inv sid db L) (hl : L t = some l) {o : Op} (hm : may sid l o) {r : o.Answer}
    {env : ℕ} (he : exec db t env o = some (r, db')) (hc : BackingOp db L t o) :
    admits sid o r ∧ Inv sid db' (Function.update L t (some (after l o r))) := by
  have hb : ∀ x ∈ db'.background, x ∈ db.background ∨ x.2.sourceId = sid ∧ x.2.status ≠ .waiting := by
    intro x hx
    rcases background_of_exec he hx with hx | ⟨j, rfl, rfl⟩
    · exact .inl hx
    · exact .inr hm
  cases o
  case upsert j =>
    refine ⟨fun hs => ?_, h.upsert hl hm he hc⟩
    rcases exec_upsert he with ⟨-, ⟨hr, -⟩ | ⟨-, hconf, -⟩⟩
    · exact hr
    · rw [not_conflicts hs] at hconf
      cases hconf
  case get i =>
    cases he
    refine ⟨fun j hj => ⟨id_of_row hj, h.source i j hj⟩, ?_⟩
    refine h.move hl rfl hb rfl ?_ fun a k _ ho => ?_
    · simp only [after]
      split <;> rfl
    · simp only [after]
      split
      · -- the job is active, so whoever ends it will promote
        rename_i hact
        obtain ⟨howes, hact⟩ := hact
        obtain rfl : i = a := Option.some.inj (howes.symm.trans ho)
        cases hj : db.row i with
        | none =>
          rw [hj] at hact
          cases hact
        | some j =>
          rw [hj] at hact
          exact .inl (.inl ⟨j, hj, .inl hact⟩)
      · exact .inr ho
  case lockWaiting i => exact ⟨trivial, h.lock hl hm.1 hm.2 he⟩
  case relink ids target =>
    cases he
    obtain ⟨ho, i, htx⟩ := hm
    exact ⟨trivial, h.relink hl ho htx hc⟩
  case promote n first rest =>
    obtain ⟨ho, i, htx⟩ := hm
    exact ⟨trivial, h.promote hl ho htx he hc⟩
  case cancelIfQueued i => exact ⟨trivial, (update_same hl).symm ▸ h.cancel hl hm he hc⟩
  case incrementAttempts i => exact ⟨trivial, (update_same hl).symm ▸ h.increment hl hm he⟩
  all_goals
    exact ⟨trivial, h.move hl (jobs_of_exec he rfl) hb (rowLocks_of_exec he rfl) rfl
      fun _ _ _ ho => .inr ho⟩

end Inv

/-! ### The programs keep to the discipline -/

section Programs
variable {sid : String}

def clear (m : Option ℕ) : Duty := ⟨m, none, none⟩

def Duty.Done (l : Duty) : Prop := l.owes = none ∧ l.tx = none

lemma done_of_clear {m : Option ℕ} {l : Duty} (h : l = clear m) : l.Done := h ▸ ⟨rfl, rfl⟩

/-- Work on the source that has nothing to do with promotions. -/
def Plain (sid : String) : Op → Prop
  | .upsert j => j.sourceId = sid ∧ j.status = .queued
  | .claim => False
  | .background _ => False
  | .lockWaiting _ => False
  | .relink _ _ => False
  | .promote _ _ _ => False
  | _ => True

lemma plain_step {m : Option ℕ} {o : Op} (h : Plain sid o) :
    may sid (clear m) o ∧ ∀ r, after (clear m) o r = clear m := by
  cases o <;> first
    | exact h.elim
    | exact ⟨trivial, fun _ => rfl⟩
    | exact ⟨rfl, fun _ => rfl⟩
    | skip
  case upsert j =>
    obtain ⟨hsrc, hs⟩ := h
    refine ⟨⟨hsrc, rfl, fun hw => ?_, fun ht => ?_, fun _ => .inl rfl⟩, fun _ => ?_⟩
    · rw [hs] at hw
      cases hw
    · rw [hs] at ht
      cases ht
    · simp only [after, Duty.afterUpsert, hs]
      split
      · rename_i hw
        cases hw
      · split <;> rfl

lemma wp_of_plain {α : Type} {p : Act α} (h : Uses (Plain sid) p) (m : Option ℕ) :
    (discipline sid).wp p (fun _ l => l = clear m) (fun _ l => l = clear m) (clear m) := by
  refine h.wp (D := discipline sid) (I := fun l => l = clear m) (fun o ho l hl => ?_) rfl
  subst hl
  exact ⟨(plain_step ho).1, fun r _ => (plain_step ho).2 r⟩

lemma plain_findActive (s : String) : Uses (Plain sid) (findActiveForSource s) := by
  unfold findActiveForSource
  split
  · trivial
  · exact ⟨trivial, fun _ => trivial⟩

lemma plain_enqueueIfStale : Uses (Plain sid) (enqueueIfStale sid) := by
  refine Uses.bind ⟨trivial, fun _ => trivial⟩ fun r => ?_
  split
  · refine Uses.bind (plain_findActive sid) fun active => ?_
    split
    · trivial
    · refine Uses.bind ⟨trivial, fun _ => trivial⟩ fun r => ?_
      split
      · refine Uses.bind ⟨trivial, fun _ => trivial⟩ fun target => ?_
        refine ⟨trivial, fun _ => ⟨⟨rfl, rfl⟩, fun ok => ?_⟩⟩
        change Uses _ (if ok = true then _ else _)
        split
        · exact ⟨trivial, fun _ => trivial⟩
        · trivial
      · trivial
  · trivial

/-- One attempt at a promotion that is owed. -/
lemma wp_promoteAttempt (m : Option ℕ) (n i : ℕ) {Q : Option (Option ℕ) → Duty → Prop}
    {X : Exc → Duty → Prop} (hsome : ∀ r, Q (some r) (clear m))
    (hnone : Q none ⟨m, if n = 0 then some i else none, none⟩) :
    (discipline sid).wp (promoteAttempt n i) Q X ⟨m, some i, none⟩ := by
  refine ⟨⟨rfl, rfl⟩, fun (rows : List Job) _ => ?_⟩
  cases rows with
  | nil => exact hsome none
  | cons first rest =>
    refine ⟨trivial, fun (active : Option Job) _ => ?_⟩
    cases active with
    | some k => exact ⟨⟨rfl, i, rfl⟩, fun _ _ => hsome none⟩
    | none =>
      refine ⟨⟨rfl, i, rfl⟩, fun (p : Promotion) _ => ?_⟩
      cases p with
      | promoted => exact hsome _
      | gone => exact hsome _
      | conflict =>
        have hq : Q none (after ⟨m, none, some (i, first.id :: rest.map Job.id)⟩
            (.promote n first.id (rest.map Job.id)) .conflict) := by simpa [after] using hnone
        exact hq

lemma wp_promoteWaitingAfter (m : Option ℕ) (i : ℕ) :
    (discipline sid).wp (promoteWaitingAfter i) (fun _ l => l = clear m) (fun _ l => l = clear m)
      ⟨m, some i, none⟩ := by
  unfold promoteWaitingAfter promoteNextWaiting
  simp only [Discipline.wp_bind]
  refine wp_promoteAttempt m 0 i (fun _ => rfl) ?_
  rw [Discipline.wp_bind]
  exact wp_promoteAttempt m 1 i (fun _ => rfl) rfl

/-- The end of a run pays what its worker owes. -/
lemma wp_maybeEnqueueRefresh (hsid : sid ≠ "") {j : Job} (hj : j.sourceId = sid) (m : Option ℕ) :
    (discipline sid).wp (maybeEnqueueRefresh j) (fun _ => Duty.Done) (fun _ => Duty.Done)
      ⟨m, some j.id, none⟩ := by
  have hrest : (discipline sid).wp (if j.kind = .resummarize then Prog.swallow (do
        let fresh ← get j.id
        let current ← ask .targetVersion
        if (fresh.getD j).payload.targetVersion = some current then pure ()
        else enqueueIfStale j.sourceId) else Prog.swallow (enqueueIfStale j.sourceId))
      (fun _ => Duty.Done) (fun _ => Duty.Done) (clear m) := by
    refine Discipline.wp_mono (fun _ _ => done_of_clear) (fun _ _ => done_of_clear)
      (wp_of_plain ?_ m)
    rw [hj]
    split
    · refine Uses.swallow (Uses.bind ⟨trivial, fun _ => trivial⟩ fun fresh =>
        Uses.bind ⟨trivial, fun _ => trivial⟩ fun current => ?_)
      split
      · trivial
      · exact plain_enqueueIfStale
    · exact plain_enqueueIfStale.swallow
  unfold maybeEnqueueRefresh
  rw [if_neg (hj ▸ hsid)]
  rw [Discipline.wp_bind, Discipline.wp_swallow]
  refine Discipline.wp_mono ?_ ?_ (wp_promoteWaitingAfter m j.id)
  · rintro _ l rfl
    exact hrest
  · rintro _ l rfl
    exact hrest

/-! #### Workers -/

/-- The record of a worker that owes the promotion of what waits on its job. -/
def owing (i : ℕ) : Duty := ⟨some i, some i, none⟩

/-- A worker writes the row of its job, as running or as ended. -/
lemma wp_persist {j : Job} {i : ℕ} (hsrc : j.sourceId = sid) (hid : j.id = i)
    (hst : j.status = .running ∨ j.status.terminal = true) {o : Option ℕ}
    (ho : o = none ∨ o = some i) {Q : Unit → Duty → Prop} {X : Exc → Duty → Prop}
    (hQ : Q () (owing i)) (hX : j.status = .running → X .uniqueViolation ⟨some i, o, none⟩) :
    (discipline sid).wp (persistJob j) Q X ⟨some i, o, none⟩ := by
  subst hid
  have hw : j.status ≠ .waiting := by rintro h; simp [h, JobStatus.terminal] at hst
  have hq : j.status ≠ .queued := by rintro h; simp [h, JobStatus.terminal] at hst
  refine ⟨⟨hsrc, rfl, fun h => absurd h hw, fun _ => rfl, fun _ => ho⟩, fun (ok : Bool) hok => ?_⟩
  have hl : after ⟨some j.id, o, none⟩ (.upsert j) ok =
      if ok then owing j.id else ⟨some j.id, o, none⟩ := by
    simp only [after, Duty.afterUpsert, if_neg hw, if_neg hq, if_pos]
    rfl
  change (discipline sid).wp (if ok = true then pure () else .raise .uniqueViolation) Q X
    (after ⟨some j.id, o, none⟩ (.upsert j) ok)
  rw [hl]
  cases ok with
  | true => exact hQ
  | false =>
    rcases hst with hs | hs
    · exact hX hs
    · have : j.status.active = false := by cases h : j.status <;> simp_all [JobStatus.terminal, JobStatus.active]
      cases hok this

lemma wp_runner {j : Job} (hj : j.sourceId = sid) {p : Act Unit} (h : IsRunner j p) :
    (discipline sid).wp p (fun _ l => l = owing j.id) (fun _ l => l = owing j.id) (owing j.id) := by
  refine h.uses.wp (D := discipline sid) (I := fun l => l = owing j.id) (fun o ho l hl => ?_) rfl
  subst hl
  cases o <;> first
    | exact ho.elim
    | exact ⟨trivial, fun _ _ => rfl⟩
    | skip
  case upsert k =>
    obtain ⟨hcore, hst⟩ := ho
    have hid : k.id = j.id := id_of_core hcore
    have hsrc : k.sourceId = sid := (sourceId_of_core hcore).trans hj
    have hw : k.status ≠ .waiting := by rintro h; simp [h] at hst
    have hq : k.status ≠ .queued := by rintro h; simp [h] at hst
    refine ⟨⟨hsrc, rfl, fun h => absurd h hw, fun _ => hid ▸ rfl, fun _ => .inr (hid ▸ rfl)⟩,
      fun ok _ => ?_⟩
    simp only [after, Duty.afterUpsert, if_neg hw, if_neg hq, hid, owing, if_pos]
    split <;> rfl
  case background k =>
    obtain ⟨hcore, hst⟩ := ho
    refine ⟨⟨(sourceId_of_core hcore).trans hj, ?_⟩, fun _ _ => rfl⟩
    rintro h
    simp [h] at hst

lemma wp_afterRaise (hsid : sid ≠ "") {j : Job} (hj : j.sourceId = sid) (e : Exc) :
    (discipline sid).wp (afterRaise j e) (fun _ => Duty.Done) (fun _ => Duty.Done) (owing j.id) := by
  have hend : ∀ k : Job, k.sourceId = sid → k.id = j.id → k.status.terminal = true →
      (discipline sid).wp (persistJob k >>= fun _ => maybeEnqueueRefresh j) (fun _ => Duty.Done)
        (fun _ => Duty.Done) (owing j.id) := by
    intro k hk hid hst
    rw [Discipline.wp_bind]
    refine wp_persist hk hid (.inr hst) (.inr rfl) (wp_maybeEnqueueRefresh hsid hj _) fun h => ?_
    rw [h] at hst
    cases hst
  unfold afterRaise
  split
  · refine ⟨rfl, fun (attempts : ℕ) _ => ?_⟩
    change (discipline sid).wp (if attempts < maxJobAttempts then _ else _) _ _ (owing j.id)
    split
    · -- queued again, its worker owes nothing: another will run the job
      refine ⟨⟨hj, rfl, fun h => (by cases h), fun h => (by cases h), fun _ => .inr rfl⟩,
        fun (ok : Bool) _ => ?_⟩
      have hl : after (owing j.id)
          (.upsert { j with status := .queued, attempts := attempts, error := "" }) ok = clear (some j.id) := by simp [after, Duty.afterUpsert, owing, clear]
      change (discipline sid).wp (Prog.bind (if ok = true then pure () else .raise .uniqueViolation)
        fun _ => enqueue j.id) _ _
        (after (owing j.id)
          (.upsert { j with status := .queued, attempts := attempts, error := "" }) ok)
      rw [hl]
      split
      · exact ⟨trivial, fun _ _ => ⟨rfl, rfl⟩⟩
      · exact ⟨rfl, rfl⟩
    · exact hend { j with status := .deadLetter, attempts := attempts } hj rfl rfl
  · exact hend (j.failed e.text) hj rfl rfl

lemma wp_runCoroutine (hsid : sid ≠ "") {j : Job} (hj : j.sourceId = sid) {p : Act Unit}
    (h : IsRunner j p) :
    (discipline sid).wp (runCoroutine j p) (fun _ => Duty.Done) (fun _ => Duty.Done)
      (owing j.id) := by
  unfold runCoroutine
  simp only [Discipline.wp_bind, Discipline.wp_attempt, Discipline.wp_op, Discipline.wp_ret]
  refine ⟨trivial, fun _ _ => Discipline.wp_mono ?_ ?_ (wp_runner hj h)⟩
  · rintro _ l rfl
    exact ⟨trivial, fun _ _ => wp_maybeEnqueueRefresh hsid hj _⟩
  · rintro e l rfl
    exact ⟨trivial, fun _ _ => wp_afterRaise hsid hj e⟩

lemma wp_runClaimed (hsid : sid ≠ "") {j : Job} (hj : j.sourceId = sid) :
    (discipline sid).wp (runClaimed j) (fun _ => Duty.Done) (fun _ => Duty.Done)
      (clear (some j.id)) := by
  have hend : ∀ error, (discipline sid).wp (persistJob (j.failed error) >>= fun _ =>
      maybeEnqueueRefresh j) (fun _ => Duty.Done) (fun _ => Duty.Done) (owing j.id) := by
    intro error
    rw [Discipline.wp_bind]
    exact wp_persist (j := j.failed error) hj rfl (.inr rfl) (.inr rfl)
      (wp_maybeEnqueueRefresh hsid hj _) fun h => (by cases h)
  unfold runClaimed
  rw [Discipline.wp_bind]
  refine wp_persist (j := { j with status := .running }) hj rfl (.inl rfl) (.inl rfl) ?_
    fun _ => ⟨rfl, rfl⟩
  rw [Discipline.wp_bind]
  refine wp_dispatchAllowed (fun o ho => ?_) fun b => ?_
  · cases o <;> first | exact ho.elim | exact ⟨trivial, fun _ _ => rfl⟩
  · split
    · rw [Discipline.wp_bind]
      exact wp_dispatchJob (fun q => ⟨trivial, fun _ => rfl⟩) (hend _) fun p hp =>
        wp_runCoroutine hsid hj hp
    · exact hend _

lemma wp_worker (hsid : sid ≠ "") :
    (discipline sid).wp worker (fun _ => Duty.Done) (fun _ => Duty.Done) (clear none) := by
  refine ⟨trivial, fun (i : Option ℕ) _ => ?_⟩
  cases i with
  | none => exact ⟨rfl, rfl⟩
  | some i =>
    refine ⟨trivial, fun (r : Option Job) hr => ?_⟩
    have hl : after (clear (some i)) (.get i) r = clear (some i) := rfl
    cases r with
    | none => exact ⟨rfl, rfl⟩
    | some j =>
      obtain ⟨rfl, hj⟩ := hr j rfl
      change (discipline sid).wp (if j.status.terminal = true then pure () else runClaimed j) _ _
        (after (clear (some j.id)) (.get j.id) (some j))
      rw [hl]
      split
      · exact ⟨rfl, rfl⟩
      · exact wp_runClaimed hsid hj

/-! #### Requests -/

lemma wp_plain_bind {α β : Type} {p : Act α} {f : α → Act β} {Q : β → Duty → Prop}
    {X : Exc → Duty → Prop} {m : Option ℕ} (h : Uses (Plain sid) p)
    (hf : ∀ a, (discipline sid).wp (f a) Q X (clear m)) (hX : ∀ e, X e (clear m)) :
    (discipline sid).wp (p >>= f) Q X (clear m) := by
  rw [Discipline.wp_bind]
  refine Discipline.wp_mono ?_ ?_ (wp_of_plain h m)
  · rintro a l rfl
    exact hf a
  · rintro e l rfl
    exact hX e

/-- What a request submits is a new queued job of the source. -/
def Builds (sid : String) (build : Act Job) : Prop :=
  ∀ (Q : Job → Duty → Prop) (X : Exc → Duty → Prop),
    (∀ j, j.sourceId = sid → j.status = .queued → Q j (clear none)) →
      (discipline sid).wp build Q X (clear none)

lemma builds_newRepoJob {ev : Event} (h : ev.sourceId = sid) : Builds sid (newRepoJob ev) :=
  fun _ _ hQ => ⟨trivial, fun _ _ => hQ _ h rfl⟩

lemma builds_incremental {ev : Event} (h : ev.sourceId = sid) :
    Builds sid (buildIncrementalOrFallbackJob ev) := by
  unfold buildIncrementalOrFallbackJob
  split
  · exact builds_newRepoJob h
  · exact fun _ _ hQ => ⟨trivial, fun _ _ => hQ _ h rfl⟩

lemma builds_submitted {r : Submission} (h : r.sourceId = sid) : Builds sid (buildSubmitted r) :=
  fun _ _ hQ => ⟨trivial, fun _ _ => hQ _ h rfl⟩

lemma plain_persistAndEnqueue {j : Job} {i : ℕ} (hj : j.sourceId = sid) (hs : j.status = .queued) :
    Uses (Plain sid) (persistJob j >>= fun _ => enqueue i) :=
  (uses_persistJob ⟨hj, hs⟩).bind fun _ => ⟨trivial, fun _ => trivial⟩

lemma wp_persistAndEnqueue {build : Act Job} (h : Builds sid build) :
    (discipline sid).wp (persistAndEnqueue build) (fun _ l => l = clear none)
      (fun _ l => l = clear none) (clear none) := by
  unfold persistAndEnqueue
  rw [Discipline.wp_bind]
  exact h _ _ fun j hj hs => wp_of_plain (plain_persistAndEnqueue hj hs) none

/-- Whoever lets a job wait promotes it, unless somebody else will. -/
lemma wp_waitFor {j : Job} (hj : j.sourceId = sid) (refresh : ℕ) :
    (discipline sid).wp (waitFor refresh j) (fun _ l => l = clear none)
      (fun _ l => l = clear none) (clear none) := by
  refine ⟨⟨hj, rfl, fun _ => ⟨rfl, rfl⟩, fun h => (by cases h), fun h => (by cases h)⟩,
    fun (ok : Bool) hok => ?_⟩
  obtain rfl : ok = true := hok rfl
  refine ⟨trivial, fun (r : Option Job) _ => ?_⟩
  change (discipline sid).wp (if r.any (fun k => k.status.active) = true then pure ()
    else promoteWaitingAfter refresh) _ _ (after ⟨none, some refresh, none⟩ (.get refresh) r)
  split
  · rename_i hact
    exact if_pos ⟨rfl, hact⟩
  · rename_i hact
    rw [show after ⟨none, some refresh, none⟩ (.get refresh) r = ⟨none, some refresh, none⟩ from
      if_neg fun h => hact h.2]
    exact wp_promoteWaitingAfter none refresh

lemma wp_preempt {build : Act Job} (h : Builds sid build) (s : String) :
    (discipline sid).wp (preemptActiveRefresh s build) (fun _ l => l = clear none)
      (fun _ l => l = clear none) (clear none) := by
  refine wp_plain_bind (plain_findActive s) (fun refresh => ?_) fun _ => rfl
  cases refresh with
  | none => exact wp_persistAndEnqueue h
  | some refresh =>
    change (discipline sid).wp (if refresh.kind ≠ .resummarize then _ else _) _ _ _
    split
    · exact wp_persistAndEnqueue h
    · rw [Discipline.wp_bind]
      refine h _ _ fun j hj hs => ⟨rfl, fun (cancelled : Bool) _ => ?_⟩
      cases cancelled with
      | true => exact wp_of_plain (plain_persistAndEnqueue hj hs) none
      | false => exact wp_waitFor hj refresh.id

lemma wp_accept_after {p : Act Unit} {ev : Event} {n : ℕ}
    (h : (discipline sid).wp p (fun _ l => l = clear none) (fun _ l => l = clear none) (clear none)) :
    (discipline sid).wp (unlessSaturated (p >>= fun _ => accept ev n)) (fun _ l => l = clear none)
      (fun _ l => l = clear none) (clear none) := by
  refine wp_plain_bind (p := queueDepth) ⟨trivial, fun _ => trivial⟩ (fun depth => ?_) fun _ => rfl
  split
  · rfl
  · rw [Discipline.wp_bind]
    refine Discipline.wp_mono ?_ (fun _ _ h => h) h
    rintro _ l rfl
    exact ⟨trivial, fun _ _ => rfl⟩

lemma wp_handleWebhook {ev : Event} (h : ev.sourceId = sid) :
    (discipline sid).wp (handleWebhook ev) (fun _ l => l = clear none) (fun _ l => l = clear none)
      (clear none) := by
  have haccept : ∀ n, (discipline sid).wp (accept ev n) (fun _ l => l = clear none)
      (fun _ l => l = clear none) (clear none) := fun n => ⟨trivial, fun _ _ => rfl⟩
  refine ⟨trivial, fun (since : ℕ) _ => ⟨trivial, fun (sources : List Source) _ =>
    ⟨trivial, fun (w : ℕ) _ => ?_⟩⟩⟩
  change (discipline sid).wp (if w = 0 then if (sources.any fun s => s.url = ev.repoUrl) = true then
    webhookExistingSource ev since else webhookNewSource ev since else pure ()) _ _ (clear none)
  split
  · split
    · refine wp_plain_bind (plain_findActive ev.sourceId) (fun active => ?_) fun _ => rfl
      cases active with
      | none => exact wp_accept_after (wp_persistAndEnqueue (builds_incremental h))
      | some active =>
        change (discipline sid).wp (if active.kind ≠ .resummarize then _ else _) _ _ _
        split
        · exact haccept since
        · exact wp_accept_after (wp_preempt (builds_incremental h) ev.sourceId)
    · refine wp_plain_bind (plain_findActive ev.sourceId) (fun active => ?_) fun _ => rfl
      cases active with
      | none => exact wp_accept_after (wp_persistAndEnqueue (builds_newRepoJob h))
      | some active => exact haccept since
  · rfl

lemma wp_submit {r : Submission} (h : r.sourceId = sid) :
    (discipline sid).wp (submit r) (fun _ l => l = clear none) (fun _ l => l = clear none)
      (clear none) := by
  refine ⟨trivial, fun (w : ℕ) _ => ?_⟩
  change (discipline sid).wp (if w = 0 then _ else _) _ _ (clear none)
  split
  · refine wp_plain_bind (plain_findActive r.sourceId) (fun active => ?_) fun _ => rfl
    cases active with
    | none => exact wp_persistAndEnqueue (builds_submitted h)
    | some active =>
      change (discipline sid).wp (if active.kind ≠ .resummarize then _ else _) _ _ _
      split
      · rfl
      · exact wp_preempt (builds_submitted h) r.sourceId
  · rfl

lemma wp_retryJob (i : ℕ) :
    (discipline sid).wp (retryJob i) (fun _ l => l = clear none) (fun _ l => l = clear none)
      (clear none) := by
  refine ⟨trivial, fun (w : ℕ) _ => ?_⟩
  change (discipline sid).wp (if w = 0 then _ else _) _ _ (clear none)
  split
  · refine ⟨trivial, fun (r : Option Job) hr => ?_⟩
    have hl : after (clear none) (.get i) r = clear none := rfl
    cases r with
    | none => exact hl
    | some j =>
      change (discipline sid).wp (if j.status.terminal = true then _ else _) _ _
        (after (clear none) (.get i) (some j))
      rw [hl]
      split
      · exact wp_of_plain (plain_persistAndEnqueue (j := { j with status := .queued, error := "" }) (hr j rfl).2
          rfl) none
      · rfl
  · rfl

lemma wp_main (hsid : sid ≠ "") {e : Entry} (h : Concerns sid e) :
    (discipline sid).wp e.main (fun _ => Duty.Done) (fun _ => Duty.Done) (clear none) := by
  have hq : ∀ {p : Act Unit}, (discipline sid).wp p (fun _ l => l = clear none)
      (fun _ l => l = clear none) (clear none) →
        (discipline sid).wp p (fun _ => Duty.Done) (fun _ => Duty.Done) (clear none) := fun hp =>
    Discipline.wp_mono (fun _ _ => done_of_clear) (fun _ _ => done_of_clear) hp
  cases e with
  | worker => exact wp_worker hsid
  | startup => exact h.elim
  | webhook ev => exact hq (wp_handleWebhook h)
  | submit r => exact hq (wp_submit h)
  | retry i => exact hq (wp_retryJob i)
  | refresh s =>
    obtain rfl : s = sid := h
    exact hq (wp_of_plain plain_enqueueIfStale none)
  | rebuild => exact h.elim

end Programs

/-! ### Runs -/

lemma kept {sid : String} (hsid : sid ≠ "") : Kept (M := machine) (D := discipline sid)
    (Backing sid) Duty.Done (Inv sid) where
  main _ _ _ hc := wp_main hsid hc
  start s t e _ h ht := by
    have hcov : ∀ {i k}, Covered s.records i k →
        Covered (Function.update s.records t (some (clear none))) i k := by
      rintro i k ⟨u, l, hu, hl⟩
      have hut : u ≠ t := fun hut => by rw [hut, ht] at hu; cases hu
      exact ⟨u, l, by rw [Function.update_of_ne hut, hu], hl⟩
    refine ⟨h.source, h.pending, h.exclusive, fun u m i ids k hu hm => ?_, fun k j hj hs => ?_⟩
    · by_cases hut : u = t
      · subst hut
        rw [Function.update_self] at hu
        cases hu
        cases hm
      · rw [Function.update_of_ne hut] at hu
        exact h.held u m i ids k hu hm
    · obtain ⟨i, hi, hback⟩ := h.waits k j hj hs
      exact ⟨i, hi, hback.imp_right hcov⟩
  op s t env o l r st hc ho hl hm h he := h.op hl hm he (hc o ho)
  stop s t env l _ hl hE h := by
    obtain ⟨ho, htx⟩ := hE
    refine ⟨h.source, h.pending, h.exclusive, fun u m i ids k hu hm => ?_, fun k j hj hs => ?_⟩
    · by_cases hut : u = t
      · subst hut
        rw [Function.update_self] at hu
        cases hu
      · rw [Function.update_of_ne hut] at hu
        exact h.held u m i ids k hu hm
    · obtain ⟨i, hi, hback⟩ := h.waits k j hj hs
      refine ⟨i, hi, hback.imp_right fun hcov => ?_⟩
      rcases others_of_covered hl hcov with (h' | ⟨ids, h', -⟩) | hcov
      · rw [ho] at h'
        cases h'
      · rw [htx] at h'
        cases h'
      · exact hcov
  kill _ _ hc := hc.elim
  own s x st hc h he := by
    cases x with
    | land n => exact h.land he hc
    | flush n =>
      obtain ⟨-, w, -, rfl⟩ := own_flush he
      cases w <;> exact ⟨h.source, h.pending, h.exclusive, h.held, h.waits⟩
    | deleteSource s' =>
      cases he
      exact ⟨h.source, h.pending, h.exclusive, h.held, h.waits⟩

/-- Nothing is in progress on the source, and every waiting job waits on a live one. -/
structure Settled (sid : String) (db : Db) : Prop where
  source : ∀ i j, db.row i = some j → j.sourceId = sid
  background : db.background = []
  rowLocks : db.rowLocks = []
  live : ∀ k j, db.row k = some j → j.status = .waiting →
    ∃ i, j.payload.afterJob = some i ∧ Live db i

/-- **No stranded waiting job**: in a run whose steps all leave each waiting job with a promoter,
every quiescent state has each waiting job behind one that is queued, running or waiting. -/
theorem no_stranded_waiter (sid : String) (hsid : sid ≠ "") (db : Db) (hdb : Settled sid db)
    (s : Sys sid) (hr : Run (Backing sid) (initial db) s) (hq : s.Quiescent) (k : ℕ) (j : Job)
    (hj : Db.row s.store k = some j) (hw : j.status = .waiting) :
    ∃ i, j.payload.afterJob = some i ∧ Live s.store i := by
  have hinit : Inv sid db fun _ => none := by
    refine ⟨hdb.source, fun x hx => ?_, fun t u k ht => ?_, fun t l i ids k ht => (by cases ht),
      fun k j hj hs => ?_⟩
    · rw [hdb.background] at hx
      cases hx
    · rw [hdb.rowLocks] at ht
      cases ht
    · obtain ⟨i, hi, hlive⟩ := hdb.live k j hj hs
      exact ⟨i, hi, .inl hlive⟩
  obtain ⟨i, hi, hlive | ⟨t, l, ht, -⟩⟩ := ((kept hsid).run_initial hr hinit).1.waits k j hj hw
  · exact ⟨i, hi, hlive⟩
  · rw [Machine.records_of_quiescent hq] at ht
    cases ht

def repoRequest : Submission := ⟨.repo, "s", "", "https://git/s", "main"⟩

/-- A refresh is running, and `n` requests wait for it. -/
def preempted (n : ℕ) : List (Label machine) :=
  .start ⟨0, 0⟩ (.refresh "s") :: steps ⟨0, 0⟩ 8 ++
    .start ⟨0, 1⟩ .worker :: steps ⟨0, 1⟩ 8 ++
    (List.range n).flatMap fun k => .start ⟨1, k⟩ (.submit repoRequest) :: steps ⟨1, k⟩ 8

/-- The refresh ends, and its worker is about to promote. -/
def ended (n : ℕ) : List (Label machine) := preempted n ++ steps ⟨0, 1⟩ 9

/-- A sufficient condition that can be run: nothing is cancelled or handed on, and no slot lost. -/
def smooth {sid : String} (s : Sys sid) : Label machine → Bool
  | .start _ e => decide (Concerns sid e)
  | .run t _ => match s.nextOp t with
    | some (.upsert j) => !Db.conflicts s.store j
    | some (.cancelIfQueued i) => decide (i ∉ (Db.queue s.store).rows)
    | some (.relink _ _) => false
    | some (.promote n _ _) => n = 0
    | _ => true
  | .kill _ => false
  | .own _ => false

lemma backing_of_smooth {sid : String} (s : Sys sid) (l : Label machine) (h : smooth s l = true) :
    Backing sid s l := by
  cases l with
  | start t e =>
    have h : Concerns sid e := of_decide_eq_true h
    exact h
  | kill p => cases h
  | own x => cases h
  | run t n =>
    intro o ho
    rw [smooth, ho] at h
    cases o <;> first | trivial | skip
    case upsert j =>
      intro _ hc
      have h : (!Db.conflicts s.store j) = true := h
      rw [hc] at h
      cases h
    case cancelIfQueued i =>
      have hi : i ∉ (Db.queue s.store).rows := of_decide_eq_true h
      exact fun j hj => absurd hj hi
    case promote n first rest => exact fun hn => absurd (of_decide_eq_true h) hn

/-- The promoted one of two requests is queued, and the other waits behind it. -/
theorem second_waiter_waits_behind_first :
    ∃ (s : Sys "s") (j : Job), Run (Backing "s") (initial empty) s ∧ s.Quiescent ∧
      Db.row s.store 2 = some j ∧ j.status = .waiting ∧
      ∃ i, j.payload.afterJob = some i ∧ Live s.store i := by
  have h : (((initial empty : Sys "s").runChecked smooth (ended 2 ++ steps ⟨0, 1⟩ 6)).map fun s =>
      (decide s.Quiescent, (Db.row s.store 2).map Job.status)) = some (true, some .waiting) := by
    decide
  obtain ⟨s, hs, hx⟩ := Option.map_eq_some_iff.1 h
  obtain ⟨hq, hrow⟩ := Prod.mk.inj hx
  obtain ⟨j, hj, hw⟩ := Option.map_eq_some_iff.1 hrow
  have hr := Machine.run_of_runChecked backing_of_smooth hs
  have hdb : Settled "s" empty :=
    ⟨fun _ _ h => (by cases h), rfl, rfl, fun _ _ h => (by cases h)⟩
  exact ⟨s, j, hr, of_decide_eq_true hq, hj, hw, no_stranded_waiter "s" (by decide) empty hdb s hr
    (of_decide_eq_true hq) 2 j hj hw⟩

/-- The requests and the work of one source, in any order. -/
def Interleaved (sid : String) (_ : Sys sid) : Label machine → Prop
  | .start _ e => Concerns sid e
  | .kill _ => False
  | _ => True

def interleaved {sid : String} (_ : Sys sid) : Label machine → Bool
  | .start _ e => decide (Concerns sid e)
  | .kill _ => false
  | _ => true

lemma interleaved_iff {sid : String} (s : Sys sid) (l : Label machine)
    (h : interleaved s l = true) : Interleaved sid s l := by
  cases l with
  | start t e =>
    have h : Concerns sid e := of_decide_eq_true h
    exact h
  | kill p => cases h
  | run t n => trivial
  | own x => trivial

/-- A new refresh takes the source before the old one's waiter is promoted, the waiter is handed
to it, and the next request cancels it. -/
theorem waiter_of_cancelled_refresh :
    ¬∀ (sid : String) (s : Sys sid), Run (Interleaved sid) (initial empty) s → s.Quiescent →
      ∀ k j, Db.row s.store k = some j → j.status = .waiting →
        ∃ i, j.payload.afterJob = some i ∧ Live s.store i := by
  intro hclaim
  have h : (((initial empty : Sys "s").runChecked interleaved (ended 1 ++
      .start ⟨0, 2⟩ (.refresh "s") :: steps ⟨0, 2⟩ 8 ++ steps ⟨0, 1⟩ 6 ++
      .start ⟨0, 3⟩ (.submit repoRequest) :: steps ⟨0, 3⟩ 8)).map fun s =>
        (decide s.Quiescent, (Db.row s.store 1).map fun j => (j.status, j.payload.afterJob),
          (Db.row s.store 2).map Job.status)) =
      some (true, some (.waiting, some 2), some .done) := by decide
  obtain ⟨s, hs, hx⟩ := Option.map_eq_some_iff.1 h
  simp only [Prod.mk.injEq] at hx
  obtain ⟨hq, hrow, hdone⟩ := hx
  obtain ⟨j, hj, hw⟩ := Option.map_eq_some_iff.1 hrow
  obtain ⟨k, hk, hd⟩ := Option.map_eq_some_iff.1 hdone
  obtain ⟨hst, hafter⟩ := Prod.mk.inj hw
  obtain ⟨i, hi, k', hk', hlive⟩ := hclaim "s" s (Machine.run_of_runChecked interleaved_iff hs)
    (of_decide_eq_true hq) 1 j hj hst
  rw [hafter] at hi
  cases hi
  rw [hk] at hk'
  cases hk'
  rw [hd] at hlive
  simp [JobStatus.active] at hlive

end Treeweft.Waiting
