import Treeweft.Service

/-!
Whether a terminal status is the last one of a run.

The upserts a run starts in the background are not waited for, and each writes the job as it was
when it was started. One of them may still be on its way when the terminal status is stored;
after that the run starts no other that would say `running`.
-/

namespace Treeweft.TerminalStatus

open Treeweft.Jobs Treeweft.JobStore Treeweft.Runners Treeweft.PromptRefresh Treeweft.Queue
open Treeweft.Service Treeweft.IndexGuard
open Machine (State Label Run Kept initial)

/-- The record says whether the task has stored a terminal status. -/
def after (ended : Bool) : (o : Op) → o.Answer → Bool
  | .upsert j, r => ended || (r && j.status.terminal)
  | _, _ => ended

/-- The end of a run is the end of its progress. -/
def may (ended : Bool) : Op → Prop
  | .background j => ended = true → j.status.terminal = true
  | _ => True

def discipline : Discipline sig := ⟨Bool, false, may, fun _ _ _ => True, after⟩

abbrev Sys := State machine discipline

section Any
variable {D : Discipline sig}

/-- The terminal state of a job that a task is about to store. -/
def ending (s : State machine D) (t : Tid) : Option Job :=
  match s.nextOp t with
  | some (.upsert j) => if j.status.terminal then some j else none
  | _ => none

/-- Where a run stores a terminal status, all that it has left in the background has landed, or
is terminal too. -/
def LandsFirst (s : State machine D) : Label machine → Prop
  | .run t _ => (ending s t).isSome →
      ∀ k, (t, k) ∈ Db.background s.store → k.status.terminal = true
  | _ => True

/-- Every terminal status of the first state is a terminal status in the second. -/
def StaysTerminal (db db' : Db) : Prop :=
  ∀ i j, db.row i = some j → j.status.terminal = true →
    ∃ j', db'.row i = some j' ∧ j'.status.terminal = true

lemma ending_eq_some {s : State machine D} {t : Tid} {j : Job} :
    ending s t = some j ↔ s.nextOp t = some (.upsert j) ∧ j.status.terminal = true := by
  unfold ending
  split
  · rename_i k hk
    rw [hk]
    constructor
    · intro h
      split at h
      · rename_i hterm
        obtain rfl := Option.some.inj h
        exact ⟨rfl, hterm⟩
      · cases h
    · rintro ⟨h, hterm⟩
      obtain rfl : k = j := by simpa using h
      exact if_pos hterm
  · rename_i hnone
    constructor
    · exact fun h => by cases h
    · exact fun h => absurd h.1 (hnone j)

end Any

/-- No other task takes the name. -/
def NotReused (t : Tid) (_ : Sys) (l : Label machine) : Prop := ∀ e, l ≠ .start t e

/-! ### Every task keeps to the discipline -/

section Wp
variable {α : Type} {j : Job} {ended : Bool}

lemma wp_of_quiet {p : Act α} (h : Uses Quiet p) :
    discipline.wp p (fun _ _ => True) (fun _ _ => True) ended := by
  refine h.wp (D := discipline) (I := fun _ => True) (fun o ho l _ => ⟨?_, fun _ _ => trivial⟩)
    trivial
  cases o <;> first | trivial

lemma wp_runner {p : Act Unit} (h : IsRunner j p) :
    discipline.wp p (fun _ _ => True) (fun _ _ => True) false := by
  refine h.phased.wp (D := discipline) (I := fun l => l = false) (J := fun _ => True)
    (fun o ho l hl => ?_) (fun o ho l _ => ⟨?_, fun _ _ => trivial⟩) (fun _ _ => trivial) rfl
  · subst hl
    cases o with
    | upsert k =>
      refine ⟨trivial, fun (r : Bool) _ => ?_⟩
      simp [discipline, after, ho.status, JobStatus.terminal]
    | background k => exact ⟨fun h => (by cases h), fun _ _ => rfl⟩
    | _ => exact ⟨trivial, fun _ _ => rfl⟩
  · cases o with
    | background k => exact fun _ => by rw [ho.2.1]; rfl
    | _ => trivial

lemma wp_runCoroutine {p : Act Unit} (h : IsRunner j p) :
    discipline.wp (runCoroutine j p) (fun _ _ => True) (fun _ _ => True) false := by
  unfold runCoroutine
  simp only [Discipline.wp_bind, Discipline.wp_attempt, Discipline.wp_op, Discipline.wp_ret]
  refine ⟨trivial, fun _ _ => Discipline.wp_mono ?_ ?_ (wp_runner h)⟩
  · exact fun _ l _ => ⟨trivial, fun _ _ => wp_of_quiet (quiet_maybeEnqueueRefresh j)⟩
  · exact fun e l _ => ⟨trivial, fun _ _ => wp_of_quiet (quiet_afterRaise j e)⟩

lemma wp_runClaimed (j : Job) :
    discipline.wp (runClaimed j) (fun _ _ => True) (fun _ _ => True) false := by
  have hend : ∀ error, discipline.wp (persistJob (j.failed error) >>= fun _ =>
      maybeEnqueueRefresh j) (fun _ _ => True) (fun _ _ => True) false := fun _ =>
    wp_of_quiet (quiet_persist.bind fun _ => quiet_maybeEnqueueRefresh j)
  unfold runClaimed
  rw [Discipline.wp_bind]
  refine ⟨trivial, fun (r : Bool) _ => ?_⟩
  have hrecord : discipline.after false (.upsert { j with status := .running }) r = false := by
    simp [discipline, after, JobStatus.terminal]
  rw [hrecord]
  change discipline.wp (if r = true then pure () else .raise Exc.uniqueViolation) _ _ false
  split
  · change discipline.wp (dispatchAllowed j >>= _) _ _ false
    rw [Discipline.wp_bind]
    refine wp_dispatchAllowed (fun o ho => ?_) fun b => ?_
    · cases o <;> first | exact ho.elim | exact ⟨trivial, fun _ _ => rfl⟩
    · split
      · rw [Discipline.wp_bind]
        exact wp_dispatchJob (fun q => ⟨trivial, fun _ => rfl⟩) (hend _) fun p hp =>
          wp_runCoroutine hp
      · exact hend _
  · trivial

lemma wp_worker : discipline.wp worker (fun _ _ => True) (fun _ _ => True) false := by
  refine ⟨trivial, fun (r : Option ℕ) _ => ?_⟩
  cases r with
  | none => trivial
  | some i =>
    refine ⟨trivial, fun (row : Option Job) _ => ?_⟩
    cases row with
    | none => trivial
    | some j =>
      change discipline.wp (if j.status.terminal = true then pure () else runClaimed j) _ _ false
      split
      · trivial
      · exact wp_runClaimed j

lemma wp_main (e : Entry) : discipline.wp e.main (fun _ _ => True) (fun _ _ => True) false := by
  cases e with
  | worker => exact wp_worker
  | startup => exact wp_of_quiet quiet_startup
  | webhook ev => exact wp_of_quiet (quiet_handleWebhook ev)
  | submit r => exact wp_of_quiet (quiet_submit r)
  | retry i => exact wp_of_quiet (quiet_retryJob i)
  | refresh sid => exact wp_of_quiet (quiet_enqueueIfStale sid)
  | rebuild => exact wp_of_quiet quiet_rebuild

end Wp

/-! ### What is left in the background -/

/-- What the task has left in the background is terminal. -/
def Clean (db : Db) (t : Tid) : Prop := ∀ k, (t, k) ∈ db.background → k.status.terminal = true

section Clean
variable {db db' : Db} {t u : Tid}

lemma Clean.of_subset (h : Clean db u) (hb : ∀ x ∈ db'.background, x ∈ db.background) :
    Clean db' u := fun k hk => h k (hb (u, k) hk)

/-- An operation of one task leaves what is clean as it is, unless it starts an upsert. -/
lemma Clean.exec {env : ℕ} {o : Op} {r : o.Answer} (h : Clean db u)
    (he : exec db t env o = some (r, db'))
    (ho : ∀ j, o = .background j → t = u → j.status.terminal = true) : Clean db' u := by
  intro k hk
  rcases background_of_exec he hk with hk | ⟨j, rfl, hj⟩
  · exact h k hk
  · obtain ⟨rfl, rfl⟩ := Prod.mk.inj hj
    exact ho _ rfl rfl

lemma Clean.own {x : Own} (h : Clean db u) (he : own db x = some db') : Clean db' u := by
  cases x with
  | deleteSource sid =>
    cases he
    exact h
  | land n =>
    obtain ⟨-, -, -, -, ⟨-, rfl⟩ | ⟨-, rfl⟩⟩ := own_land he <;>
      exact h.of_subset fun x hx => List.mem_of_mem_eraseIdx hx
  | flush n =>
    obtain ⟨-, w, -, rfl⟩ := own_flush he
    exact h.of_subset fun x hx => write_background w ▸ hx

lemma Clean.kill {p : ℕ} (h : Clean db u) : Clean (kill p db) u :=
  h.of_subset fun _ hx => (List.mem_filter.1 hx).1

end Clean

/-- Until it has ended a task may leave progress behind; from then on it has not. -/
lemma kept_landsFirst : Kept (D := discipline) LandsFirst (fun _ => True)
    (fun db (L : Tid → Option Bool) => ∀ u, L u = some true → Clean db u) where
  main s t e _ := wp_main e
  start s t e _ h _ u hu := by
    by_cases hut : u = t
    · rw [hut, Function.update_self] at hu
      cases hu
    · rw [Function.update_of_ne hut] at hu
      exact h u hu
  op s t env o l r db' hc ho hl hm h he := by
    refine ⟨trivial, fun u hu => ?_⟩
    by_cases hut : u = t
    · subst hut
      rw [Function.update_self] at hu
      have hafter : after l o r = true := Option.some.inj hu
      cases hl' : l with
      | true =>
        subst hl'
        refine (h u hl).exec he ?_
        rintro j rfl -
        exact hm rfl
      | false =>
        subst hl'
        cases o with
        | upsert j =>
          have hj : j.status.terminal = true := by
            simp only [after, Bool.false_or, Bool.and_eq_true] at hafter
            exact hafter.2
          have he : exec s.store u env (.upsert j) = some (r, db') := he
          have hfirst : Clean s.store u :=
            hc (Option.isSome_iff_exists.2 ⟨j, ending_eq_some.2 ⟨ho, hj⟩⟩)
          exact hfirst.exec he fun k hk => by cases hk
        | _ => cases hafter
    · rw [Function.update_of_ne hut] at hu
      exact (h u hu).exec he fun j _ htu => absurd htu.symm hut
  stop s t env l _ _ _ h u hu := by
    by_cases hut : u = t
    · rw [hut, Function.update_self] at hu
      cases hu
    · rw [Function.update_of_ne hut] at hu
      exact h u hu
  kill s p _ h u hu := by
    dsimp only at hu
    split at hu
    · cases hu
    · exact (h u hu).kill
  own s x st _ h he u hu := (h u hu).own he

/-- A task that has ended leaves nothing behind but terminal states, as long as it is that task. -/
lemma kept_ended (t : Tid) : Kept (NotReused t) (fun _ => True)
    (fun db (L : Tid → Option Bool) => (∀ l, L t = some l → l = true) ∧ Clean db t) where
  main s u e _ := wp_main e
  start s u e hc h _ := by
    refine ⟨?_, h.2⟩
    rw [Function.update_of_ne fun htu => hc e (by rw [htu])]
    exact h.1
  op s u env o l r db' _ ho hl hm h he := by
    refine ⟨trivial, ?_, h.2.exec he ?_⟩
    · by_cases htu : t = u
      · subst htu
        rw [Function.update_self]
        intro l' hl'
        obtain rfl := Option.some.inj hl'
        obtain rfl := h.1 l hl
        cases o <;> rfl
      · rw [Function.update_of_ne htu]
        exact h.1
    · rintro j rfl rfl
      exact hm (h.1 l hl)
  stop s u env l _ _ _ h := by
    refine ⟨?_, h.2⟩
    by_cases htu : t = u
    · rw [htu, Function.update_self]
      exact fun l hl => by cases hl
    · rw [Function.update_of_ne htu]
      exact h.1
  kill s p _ h := by
    refine ⟨fun l hl => ?_, h.2.kill⟩
    dsimp only at hl
    split at hl
    · cases hl
    · exact h.1 l hl
  own s x st _ h he := ⟨h.1, h.2.own he⟩

/-! ### Upserts that land late -/

/-- A terminal state that lands takes no terminal status away. -/
lemma staysTerminal_land {db db' : Db} {n : ℕ} {t : Tid} {k : Job}
    (hk : db.background[n]? = some (t, k)) (hterm : k.status.terminal = true)
    (he : own db (.land n) = some db') : StaysTerminal db db' := by
  intro i j hj hjterm
  obtain ⟨u, k', hk', -, ⟨-, rfl⟩ | ⟨-, rfl⟩⟩ := own_land he
  · exact ⟨j, hj, hjterm⟩
  · obtain ⟨rfl, rfl⟩ := Prod.mk.inj (Option.some.inj (hk.symm.trans hk'))
    rw [row_put]
    split
    · exact ⟨_, rfl, hterm⟩
    · exact ⟨j, hj, hjterm⟩

/-- A terminal status is never refused, and the task has then ended. -/
lemma records_of_ended {s s' : Sys} {t : Tid} {env : ℕ} {j : Job}
    (hend : ending s t = some j) (hs : s.step (.run t env) = some s') :
    s'.records t = some true := by
  obtain ⟨hop, hj⟩ := ending_eq_some.1 hend
  obtain ⟨k, l, hk⟩ := Machine.nextOp_eq_some.1 hop
  simp only [State.step, hk] at hs
  split at hs
  · cases hs
  · rename_i r db' he
    cases hs
    rw [Machine.records_put, Function.update_self]
    have hconf : Db.conflicts s.store j = false := not_conflicts (inactive_of_terminal hj)
    rcases (exec_upsert he).2 with ⟨hr, -, -⟩ | ⟨-, hc, -⟩
    · have hr : (r : Bool) = true := hr
      change some (l || ((r : Bool) && j.status.terminal)) = some true
      rw [hr, hj]
      exact congrArg some (Bool.or_true l)
    · rw [hconf] at hc
      cases hc

/-- **A terminal status is final**: where a run that has nothing else under way stores it, no
upsert that the run has started and that lands at any later time takes it back. -/
theorem terminal_is_final (db : Db) (s s' s'' : Sys) (hrun : Run LandsFirst (initial db) s)
    (t : Tid) (env : ℕ) (j : Job) (hend : ending s t = some j) (hc : LandsFirst s (.run t env))
    (hs : s.step (.run t env) = some s') (hrest : Run (NotReused t) s' s'') (n : ℕ) (k : Job)
    (hk : (Db.background s''.store)[n]? = some (t, k)) (db' : Db)
    (hland : own s''.store (.land n) = some db') : StaysTerminal s''.store db' := by
  obtain ⟨hclean, hwp⟩ := kept_landsFirst.run_initial hrun fun u hu => by cases hu
  obtain ⟨hclean, hwp⟩ := kept_landsFirst.step hc hs hclean hwp
  have hended : s'.records t = some true := records_of_ended hend hs
  have hstart : (∀ l, s'.records t = some l → l = true) ∧ Clean s'.store t := by
    refine ⟨fun l hl => ?_, hclean t hended⟩
    rw [hended] at hl
    exact (Option.some.inj hl).symm
  obtain ⟨⟨-, hlate⟩, -⟩ := (kept_ended t).run hrest hstart hwp
  exact staysTerminal_land hk (hlate k (List.mem_of_getElem? hk)) hland

/-! ### Progress that lands late -/

def landsFirst (s : Sys) : Label machine → Bool
  | .run t _ => (ending s t).isNone ||
      (Db.background s.store).all fun x => x.1 ≠ t || x.2.status.terminal
  | _ => true

lemma landsFirst_iff (s : Sys) (l : Label machine) (h : landsFirst s l = true) : LandsFirst s l := by
  cases l with
  | run t env =>
    intro hend k hk
    have h : ((ending s t).isNone ||
        (Db.background s.store).all fun x => x.1 ≠ t || x.2.status.terminal) = true := h
    rw [Option.isNone_eq_false_iff.2 hend, Bool.false_or, List.all_eq_true] at h
    simpa using h (t, k) hk
  | _ => trivial

/-- A worker is about to store that it is done with the job that the request has made. -/
def aboutToEnd (e : Entry) (m n : ℕ) : List (Label machine) :=
  .start ⟨0, 0⟩ e :: steps ⟨0, 0⟩ m ++ .start ⟨0, 1⟩ .worker :: steps ⟨0, 1⟩ n

/-- What the worker stores, what it has left behind, and the status before and after that lands. -/
def endAndLand (s : Sys) : Option (Bool × Option Tid × Option JobStatus × Option JobStatus) :=
  (s.step (.run ⟨0, 1⟩ 0)).bind fun s' => (own s'.store (.land 0)).map fun db' =>
    ((ending s ⟨0, 1⟩).isSome, (Db.background s'.store).head?.map Prod.fst,
      (Db.row s'.store 0).map Job.status, (db'.row 0).map Job.status)

lemma endAndLand_eq_some {s : Sys} {t : Option Tid} {st st' : Option JobStatus}
    (h : endAndLand s = some (true, t, st, st')) :
    ∃ j s' db', ending s ⟨0, 1⟩ = some j ∧ s.step (.run ⟨0, 1⟩ 0) = some s' ∧
      own s'.store (.land 0) = some db' ∧ (Db.background s'.store).head?.map Prod.fst = t ∧
      (Db.row s'.store 0).map Job.status = st ∧ (db'.row 0).map Job.status = st' := by
  obtain ⟨s', hs, h⟩ := Option.bind_eq_some_iff.1 h
  obtain ⟨db', hland, h⟩ := Option.map_eq_some_iff.1 h
  obtain ⟨hend, hfst, hst, hst'⟩ := by simpa only [Prod.mk.injEq] using h
  obtain ⟨j, hj⟩ := Option.isSome_iff_exists.1 hend
  exact ⟨j, s', db', hj, hs, hland, hfst, hst, hst'⟩

/-- A repository's run publishes `done` in the background before it stores it. -/
theorem done_lands_on_done : ∃ (s s' : Sys) (db' : Db), Run LandsFirst (initial empty) s ∧
    s.step (.run ⟨0, 1⟩ 0) = some s' ∧ own s'.store (.land 0) = some db' ∧
    (Db.row s'.store 0).map Job.status = some .done ∧ StaysTerminal s'.store db' := by
  let ls := aboutToEnd (.submit ⟨.repo, "s", "", "https://git/s", "main"⟩) 6 21
  have h : ((initial empty : Sys).runChecked landsFirst ls).map endAndLand =
      some (some (true, some ⟨0, 1⟩, some .done, some .done)) := by decide
  have hnext : ((initial empty : Sys).runChecked landsFirst ls).all fun s =>
      landsFirst s (.run ⟨0, 1⟩ 0) := by decide
  obtain ⟨s, hrun, h⟩ := Option.map_eq_some_iff.1 h
  have hfirst : landsFirst s (.run ⟨0, 1⟩ 0) = true := by simpa [hrun] using hnext
  obtain ⟨j, s', db', hend, hs, hland, hfst, hst, -⟩ := endAndLand_eq_some h
  have hrun := Machine.run_of_runChecked landsFirst_iff hrun
  obtain ⟨⟨u, k⟩, hk, rfl⟩ := Option.map_eq_some_iff.1 hfst
  rw [List.head?_eq_getElem?] at hk
  exact ⟨s, s', db', hrun, hs, hland, hst, terminal_is_final empty s s' s' hrun ⟨0, 1⟩ 0 j hend
    (landsFirst_iff s _ hfirst) hs (.refl s') 0 k hk db' hland⟩

def registered : Db :=
  { empty with sources := Keyed.empty.put ⟨"s", .repo, "", "https://git/s", "main"⟩ }

/-- A push that removes two files. -/
def push : Event :=
  ⟨"https://git/s", "main", "s", [⟨.rel ["a.py"], .removed⟩, ⟨.rel ["b.py"], .removed⟩]⟩

/-- The progress of the first file lands after the end, and the job is running again. -/
theorem done_job_is_running_again : ¬∀ (s s' s'' : Sys), Run (fun _ _ => True) (initial registered) s →
    ∀ (t : Tid) (env : ℕ) (j : Job), ending s t = some j → s.step (.run t env) = some s' →
      Run (NotReused t) s' s'' → ∀ (n : ℕ) (k : Job), (Db.background s''.store)[n]? = some (t, k) →
        ∀ db', own s''.store (.land n) = some db' → StaysTerminal s''.store db' := by
  intro hclaim
  have h : ((initial registered : Sys).runChecked (fun _ _ => true)
      (aboutToEnd (.webhook push) 10 14)).map endAndLand =
      some (some (true, some ⟨0, 1⟩, some .done, some .running)) := by decide
  obtain ⟨s, hrun, h⟩ := Option.map_eq_some_iff.1 h
  obtain ⟨j, s', db', hend, hs, hland, hfst, hst, hst'⟩ := endAndLand_eq_some h
  have hrun := Machine.run_of_runChecked (fun _ _ _ => trivial) hrun
  obtain ⟨⟨u, k⟩, hk, rfl⟩ := Option.map_eq_some_iff.1 hfst
  rw [List.head?_eq_getElem?] at hk
  have hstays := hclaim s s' s' hrun ⟨0, 1⟩ 0 j hend hs (.refl s') 0 k hk db' hland
  obtain ⟨r, hr, hdone⟩ := Option.map_eq_some_iff.1 hst
  obtain ⟨r', hr', hterm⟩ := hstays 0 r hr (by rw [hdone]; rfl)
  rw [hr', Option.map_some, Option.some.injEq] at hst'
  rw [hst'] at hterm
  cases hterm

end Treeweft.TerminalStatus
