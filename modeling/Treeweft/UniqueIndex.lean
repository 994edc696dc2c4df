import Treeweft.Jobs

/-!
The partial unique index: one queued or running job per source, whatever the operations and their
order.
-/

namespace Treeweft.UniqueIndex

open Treeweft.Jobs

/-- The unique index. -/
def Single (db : Db) : Prop :=
  ∀ i k j r, db.row i = some j → db.row k = some r → j.status.active = true →
    r.status.active = true → j.sourceId = r.sourceId → j.sourceId ≠ "" → i = k

/-- Rows that are rewritten keep their source, and none becomes active. -/
def Calms (db db' : Db) : Prop :=
  ∀ i r', db'.row i = some r' → ∃ r, db.row i = some r ∧ r'.sourceId = r.sourceId ∧
    (r'.status.active = true → r.status.active = true)

section Rows
variable {db db' : Db}

/-- One row is rewritten by `f`. -/
lemma row_of_modify {f : Job → Job} {hf : ∀ j, (f j).id = j.id} {k i : ℕ} {r' : Job}
    (h : (db.modify k f hf).row i = some r') :
    ∃ r, db.row i = some r ∧ (i ≠ k ∧ r' = r ∨ i = k ∧ r' = f r) := by
  rw [row_modify] at h
  split at h
  · rename_i hik
    obtain ⟨r, hr, rfl⟩ := Option.map_eq_some_iff.1 h
    exact ⟨r, hr, .inr ⟨hik, rfl⟩⟩
  · rename_i hik
    exact ⟨r', h, .inl ⟨hik, rfl⟩⟩

lemma modify_of_row {f : Job → Job} {i : ℕ} {r : Job} (k : ℕ) (hf : ∀ j, (f j).id = j.id)
    (hs : ∀ j, (f j).sourceId = j.sourceId) (h : db.row i = some r) :
    ∃ r', (db.modify k f hf).row i = some r' ∧ r'.sourceId = r.sourceId := by
  rw [row_modify, h]
  split
  · exact ⟨f r, rfl, hs r⟩
  · exact ⟨r, rfl, rfl⟩

lemma row_of_setAfter {ids : List ℕ} {target i : ℕ} {r' : Job}
    (h : (db.setAfter ids target).row i = some r') :
    ∃ r, db.row i = some r ∧ (r' = r ∨ r' = r.behind target) := by
  rw [row_setAfter] at h
  split at h
  · obtain ⟨r, hr, rfl⟩ := Option.map_eq_some_iff.1 h
    exact ⟨r, hr, .inr rfl⟩
  · exact ⟨r', h, .inl rfl⟩

lemma setAfter_of_row {i : ℕ} {r : Job} (ids : List ℕ) (target : ℕ) (h : db.row i = some r) :
    ∃ r', (db.setAfter ids target).row i = some r' ∧ r'.sourceId = r.sourceId := by
  rw [row_setAfter, h]
  split
  · exact ⟨r.behind target, rfl, rfl⟩
  · exact ⟨r, rfl, rfl⟩

lemma sourceId_cancelled (j : Job) : j.cancelled.sourceId = j.sourceId := by
  unfold Job.cancelled
  split <;> rfl

lemma active_of_cancelled {j : Job} (h : j.cancelled.status.active = true) :
    j.status.active = true := by
  unfold Job.cancelled at h
  split at h
  · cases h
  · exact h

end Rows

/-! ### One operation -/

section Single
variable {db db' : Db}

lemma Calms.single (hc : Calms db db') (h : Single db) : Single db' := by
  intro i k r' x' hi hk ha hxa hs hne
  obtain ⟨r, hr, hrs, hra⟩ := hc i r' hi
  obtain ⟨x, hx, hxs, hxx⟩ := hc k x' hk
  exact h i k r x hr hx (hra ha) (hxx hxa) (hrs.symm.trans (hs.trans hxs)) (hrs ▸ hne)

lemma calms_of_jobs (hj : db'.jobs = db.jobs) : Calms db db' := fun i r hr =>
  ⟨r, row_congr hj i ▸ hr, rfl, id⟩

lemma calms_modify {f : Job → Job} (k : ℕ) (hf : ∀ j, (f j).id = j.id)
    (hs : ∀ j, (f j).sourceId = j.sourceId)
    (ha : ∀ j, (f j).status.active = true → j.status.active = true) :
    Calms db (db.modify k f hf) := by
  intro i r' hi
  obtain ⟨r, hr, ⟨-, rfl⟩ | ⟨-, rfl⟩⟩ := row_of_modify hi
  · exact ⟨r', hr, rfl, id⟩
  · exact ⟨r, hr, hs r, ha r⟩

lemma calms_setAfter (ids : List ℕ) (target : ℕ) : Calms db (db.setAfter ids target) := by
  intro i r' hi
  obtain ⟨r, hr, rfl | rfl⟩ := row_of_setAfter hi <;> exact ⟨_, hr, rfl, id⟩

lemma single_put (h : Single db) {j : Job} (hc : db.conflicts j = false) : Single (db.put j) := by
  have hother : ∀ k r, k ≠ j.id → db.row k = some r → j.status.active = true →
      r.status.active = true → j.sourceId = r.sourceId → j.sourceId ≠ "" → False := by
    intro k r hk hr ha hra hs hne
    have hmem : r ∈ db.jobs.rows := Keyed.mem_of_get? hr
    have hid : r.id ≠ j.id := by rwa [id_of_row hr]
    have hconf : db.conflicts j = true := by
      simp only [Db.conflicts, Bool.and_eq_true, decide_eq_true_eq, List.any_eq_true]
      exact ⟨⟨ha, hne⟩, r, hmem, ⟨hid, hra⟩, hs.symm⟩
    rw [hc] at hconf
    cases hconf
  intro i k r r' hi hk ha ha' hs hne
  rw [row_put] at hi hk
  split at hi <;> split at hk
  · rename_i hi' hk'
    rw [hi', hk']
  · rename_i hk'
    cases hi
    exact (hother k r' hk' hk ha ha' hs hne).elim
  · rename_i hi' _
    cases hk
    exact (hother i r hi' hi ha' ha hs.symm (hs ▸ hne)).elim
  · exact h i k r r' hi hk ha ha' hs hne

/-- A promotion writes the row it found waiting as queued. -/
lemma calms_promoted {first : ℕ} {j : Job} (rest : List ℕ) (hj : db.row first = some j) :
    Calms (db.put j.promoted)
      ((db.modify first Job.promoted Job.promoted_id).setAfter rest first) := by
  intro i r' hi
  obtain ⟨x, hx, hrx⟩ := row_of_setAfter hi
  have hid : j.promoted.id = first := (Job.promoted_id j).trans (id_of_row hj)
  rw [row_put, hid]
  obtain ⟨r, hr, ⟨hne, rfl⟩ | ⟨rfl, rfl⟩⟩ := row_of_modify hx
  · refine ⟨x, (if_neg hne).trans hr, ?_⟩
    rcases hrx with rfl | rfl <;> exact ⟨rfl, id⟩
  · rw [hj] at hr
    cases hr
    refine ⟨_, if_pos rfl, ?_⟩
    rcases hrx with rfl | rfl <;> exact ⟨rfl, fun _ => rfl⟩

/-- Every operation of a task keeps the index. -/
lemma single_of_exec {t : Tid} {env : ℕ} {o : Op} {r : o.Answer} (h : Single db)
    (he : exec db t env o = some (r, db')) : Single db' := by
  cases o with
  | upsert j =>
    rcases (exec_upsert he).2 with ⟨-, hc, rfl⟩ | ⟨-, -, rfl⟩
    · exact single_put h hc
    · exact h
  | incrementAttempts i =>
    obtain ⟨-, rfl⟩ := exec_increment he
    exact (calms_modify i Job.tried_id (fun _ => rfl) fun _ ha => ha).single h
  | cancelIfQueued i =>
    rcases (exec_cancel he).2 with ⟨-, -, rfl⟩ | ⟨-, -, rfl⟩
    · exact (calms_modify i Job.cancelled_id sourceId_cancelled
        fun _ => active_of_cancelled).single h
    · exact h
  | relink ids target =>
    cases he
    exact (calms_setAfter ids target).single h
  | promote n first rest =>
    rcases exec_promote he with ⟨-, -, rfl⟩ | ⟨j, hj, -, ⟨-, -, rfl⟩ | ⟨-, hc, rfl⟩⟩
    · exact h
    · exact h
    · exact (calms_promoted rest hj).single (single_put h hc)
  | _ => exact (calms_of_jobs (jobs_of_exec he rfl)).single h

lemma single_of_own {x : Own} (h : Single db) (he : own db x = some db') : Single db' := by
  cases x with
  | deleteSource sid =>
    cases he
    exact h
  | land n =>
    obtain ⟨t, j, -, -, ⟨-, rfl⟩ | ⟨hc, rfl⟩⟩ := own_land he
    · exact h
    · have hless : Single { db with background := db.background.eraseIdx n } := h
      exact single_put hless hc
  | flush n =>
    obtain ⟨-, w, -, rfl⟩ := own_flush he
    exact (calms_of_jobs (write_jobs w)).single h

end Single

end Treeweft.UniqueIndex
