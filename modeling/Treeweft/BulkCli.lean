import Treeweft.Jobs
import Mathlib.Data.List.Dedup

/-!
The bulk commands: what they submit, the loop that waits for the jobs, and the exit code.

A job is polled once a round until a poll reports a status that the command takes for terminal.
The rounds are counted by fuel, and the indexer answers each poll of each round as it likes.
-/

namespace Treeweft.BulkCli

open Treeweft.Jobs

/-- What comes of a request: an answer, an error of the HTTP client with the status of the answer
if there was one, or another exception. -/
inductive Reply (α : Type)
  | ok (a : α)
  | httpError (status : Option ℕ)
  | raises

/-! ### Waiting for the jobs -/

inductive Report
  | ended (status : String)
  | unknown
  | raised

section Poll
variable (terminal : List String)

def report : Reply String → Report
  | .ok status => if status ∈ terminal then .ended status else .unknown
  | .httpError _ => .unknown
  | .raises => .raised

/-- One round: the jobs that stay pending, and the ones that have ended. -/
def pollOnce (answer : String → Reply String) :
    List String → Option (List String × List (String × String))
  | [] => some ([], [])
  | jid :: jids =>
    match report terminal (answer jid) with
    | .raised => none
    | .unknown => (pollOnce answer jids).map fun r => (jid :: r.1, r.2)
    | .ended status => (pollOnce answer jids).map fun r => (r.1, (jid, status) :: r.2)

inductive Poll
  | ended (final : List (String × String))
  | raised
  | polling

def pollLoop : ℕ → (ℕ → String → Reply String) → List String → List (String × String) → Poll
  | _, _, [], final => .ended final
  | 0, _, _ :: _, _ => .polling
  | n + 1, answers, jid :: jids, final =>
    match pollOnce terminal (answers 0) (jid :: jids) with
    | none => .raised
    | some (pending, ended) => pollLoop n (fun k => answers (k + 1)) pending (final ++ ended)

def pollUntilTerminal (n : ℕ) (answers : ℕ → String → Reply String) (jobIds : List String) : Poll :=
  pollLoop terminal n answers jobIds.dedup []

end Poll

/-! ### The entries -/

/-- The answer to a submission; an id that is missing is empty. -/
structure Ack where
  status : String
  jobId : String

inductive Fate
  | enqueued (label jobId : String)
  | upToDate
  | failed
  /-- Nothing is counted. -/
  | ignored
  | raised
  deriving DecidableEq

structure Tally where
  enqueued : List (String × String)
  upToDate : ℕ
  failed : ℕ

def Tally.add (t : Tally) : Fate → Option Tally
  | .enqueued label jobId => some { t with enqueued := t.enqueued ++ [(label, jobId)] }
  | .upToDate => some { t with upToDate := t.upToDate + 1 }
  | .failed => some { t with failed := t.failed + 1 }
  | .ignored => some t
  | .raised => none

def tally (fates : List Fate) : Option Tally := fates.foldlM Tally.add ⟨[], 0, 0⟩

/-- Each entry with the answer to its submission. -/
def answered {α : Type} (replies : ℕ → Reply Ack) (l : List α) : List (α × Reply Ack) :=
  l.zipIdx.map fun p => (p.1, replies p.2)

/-! ### The exit code -/

inductive Outcome
  | exit (code : ℕ)
  | raised
  | polling
  deriving DecidableEq

def finish (terminal : List String) (wait : Bool) (t : Tally)
    (answers : ℕ → String → Reply String) (n : ℕ) : Outcome :=
  if wait = true ∧ t.enqueued ≠ [] then
    let jobIds := (t.enqueued.map Prod.snd).filter fun jid => jid ≠ ""
    match pollUntilTerminal terminal n answers jobIds with
    | .ended final =>
      let nFailed := (final.filter fun p => p.2 ≠ "done").length
      .exit (if nFailed ≠ 0 then 2 else 0)
    | .raised => .raised
    | .polling => .polling
  else .exit (if t.failed ≠ 0 then 1 else 0)

/-- From the entries on. -/
def conclude (terminal : List String) (dryRun wait : Bool) (fates : List Fate)
    (answers : ℕ → String → Reply String) (n : ℕ) : Outcome :=
  match tally fates with
  | none => .raised
  | some t => if dryRun then .exit 0 else finish terminal wait t answers n

/-! ### `fleet onboard` -/

/-- A manifest that cannot be read or parsed is none; otherwise it has the labels of its entries. -/
structure Onboard where
  manifest : Option (List String)
  dryRun : Bool
  wait : Bool
  group : Reply (Option String)
  replies : ℕ → Reply Ack
  answers : ℕ → String → Reply String

def onboardTerminal : List String := ["done", "failed", "cancelled", "dead_letter"]

def onboardFate (dryRun : Bool) (p : String × Reply Ack) : Fate :=
  if dryRun then .ignored
  else
    match p.2 with
    | .ok ack => if ack.status = "done" then .upToDate else .enqueued p.1 ack.jobId
    | .httpError _ => .failed
    | .raises => .raised

def Onboard.fates (r : Onboard) : List Fate :=
  (answered r.replies (r.manifest.getD [])).map (onboardFate r.dryRun)

/-- A group that could not be created is done without. -/
def Onboard.groupRaises (r : Onboard) : Bool :=
  match r.group with
  | .raises => !r.dryRun
  | _ => false

def runOnboard (r : Onboard) (n : ℕ) : Outcome :=
  match r.manifest with
  | none => .exit 1
  | some entries =>
    if entries = [] then .exit 0
    else if r.groupRaises then .raised
    else conclude onboardTerminal r.dryRun r.wait r.fates r.answers n

/-! ### `rebuild_graphs` -/

structure Target where
  id : String
  sourceId : String
  graphIndexed : Bool

structure Rebuild where
  sourceIds : List String
  listing : Reply (List Target)
  onlyMissing : Bool
  dryRun : Bool
  wait : Bool
  replies : ℕ → Reply Ack
  answers : ℕ → String → Reply String

def rebuildTerminal : List String := ["done", "failed", "cancelled"]

def Rebuild.targets (r : Rebuild) : Reply (List Target) :=
  if r.sourceIds ≠ [] then .ok (r.sourceIds.map fun s => ⟨s, "", false⟩) else r.listing

def rebuildFate (onlyMissing dryRun : Bool) (p : Target × Reply Ack) : Fate :=
  let sourceId := if p.1.id ≠ "" then p.1.id else p.1.sourceId
  if sourceId = "" then .ignored
  else if onlyMissing && p.1.graphIndexed then .upToDate
  else if dryRun then .enqueued sourceId ""
  else
    match p.2 with
    | .ok ack => .enqueued sourceId ack.jobId
    | .httpError _ => .failed
    | .raises => .raised

def Rebuild.fates (r : Rebuild) : List Fate :=
  match r.targets with
  | .ok targets => (answered r.replies targets).map (rebuildFate r.onlyMissing r.dryRun)
  | _ => []

def runRebuild (r : Rebuild) (n : ℕ) : Outcome :=
  match r.targets with
  | .httpError _ => .exit 1
  | .raises => .raised
  | .ok targets =>
    if targets = [] then .exit 0
    else conclude rebuildTerminal r.dryRun r.wait r.fates r.answers n

/-! ### What the exit code should tell -/

def Fate.Accepted (dryRun : Bool) : Fate → Prop
  | .upToDate => True
  | .enqueued _ _ => dryRun = false
  | _ => False

/-- The ids of the jobs that were enqueued. -/
def jobs (fates : List Fate) : List String :=
  fates.filterMap fun
    | .enqueued _ jobId => some jobId
    | _ => none

/-- After `n` rounds without one, the job's first report is this. -/
def Reports (terminal : List String) (answers : ℕ → String → Reply String) (jid : String) (n : ℕ)
    (r : Report) : Prop :=
  report terminal (answers n jid) = r ∧ ∀ m < n, report terminal (answers m jid) = .unknown

def EndedDone (terminal : List String) (answers : ℕ → String → Reply String) (jid : String) :
    Prop :=
  ∃ n, Reports terminal answers jid n (.ended "done")

def statusText : JobStatus → String
  | .queued => "queued"
  | .running => "running"
  | .done => "done"
  | .failed => "failed"
  | .deadLetter => "dead_letter"
  | .waiting => "waiting"

/-- The job has reached a terminal status of the indexer, or is no more. -/
def Settled : Reply String → Prop
  | .ok status => ∃ s : JobStatus, s.terminal = true ∧ status = statusText s
  | .httpError status => status = some 404
  | .raises => False

def SettledFrom (answers : ℕ → String → Reply String) (fates : List Fate) (n : ℕ) : Prop :=
  ∀ m, n ≤ m → ∀ jid ∈ jobs fates, jid ≠ "" → Settled (answers m jid)

structure Honest (terminal : List String) (dryRun wait : Bool) (fates : List Fate)
    (answers : ℕ → String → Reply String) (outcome : ℕ → Outcome) : Prop where
  success : ∀ n, outcome n = .exit 0 → (∀ f ∈ fates, f.Accepted dryRun) ∧
    (wait = true → ∀ jid ∈ jobs fates, jid ≠ "" ∧ EndedDone terminal answers jid)
  ends : ∀ n, SettledFrom answers fates n → outcome (n + 1) ≠ .polling

def Onboard.Honest (r : Onboard) : Prop :=
  BulkCli.Honest onboardTerminal r.dryRun r.wait r.fates r.answers (runOnboard r)

def Rebuild.Honest (r : Rebuild) : Prop :=
  BulkCli.Honest rebuildTerminal r.dryRun r.wait r.fates r.answers (runRebuild r)

/-- By round `n`, each of the jobs was seen in a status the command knows, or a poll raised. -/
def SeenBy (terminal : List String) (answers : ℕ → String → Reply String) (fates : List Fate)
    (n : ℕ) : Prop :=
  (∀ jid ∈ jobs fates, jid ≠ "" → ∃ m < n, ∃ s, Reports terminal answers jid m (.ended s)) ∨
    ∃ jid ∈ jobs fates, jid ≠ "" ∧ ∃ m < n, Reports terminal answers jid m .raised

/-- What the exit code depends on. -/
def Sound (terminal : List String) (dryRun wait : Bool) (fates : List Fate)
    (answers : ℕ → String → Reply String) : Prop :=
  .raised ∈ fates ∨
    if dryRun = true then ∀ f ∈ fates, f = .upToDate
    else if wait = true ∧ jobs fates ≠ [] then
      ((.failed ∉ fates ∧ .ignored ∉ fates ∧ "" ∉ jobs fates) ∨
        ∃ jid ∈ jobs fates, jid ≠ "" ∧ ¬EndedDone terminal answers jid) ∧
      ∀ n, SettledFrom answers fates n → SeenBy terminal answers fates (n + 1)
    else .failed ∈ fates ∨ .ignored ∉ fates

/-! ### The loop -/

section Loop
variable {terminal : List String} {answer : String → Reply String}
variable {answers : ℕ → String → Reply String} {jid : String} {r : Report}

lemma reports_zero (h : report terminal (answers 0 jid) = r) : Reports terminal answers jid 0 r :=
  ⟨h, fun _ hm => absurd hm (Nat.not_lt_zero _)⟩

lemma reports_succ {n : ℕ} : Reports terminal answers jid (n + 1) r ↔
    report terminal (answers 0 jid) = .unknown ∧
      Reports terminal (fun k => answers (k + 1)) jid n r := by
  constructor
  · rintro ⟨h, hbefore⟩
    exact ⟨hbefore 0 n.succ_pos, h, fun m hm => hbefore (m + 1) (Nat.succ_lt_succ hm)⟩
  · rintro ⟨h0, h, hbefore⟩
    refine ⟨h, fun m hm => ?_⟩
    cases m with
    | zero => exact h0
    | succ m => exact hbefore m (Nat.lt_of_succ_lt_succ hm)

/-- There is one first report. -/
lemma reports_unique {n m : ℕ} {r' : Report} (h : Reports terminal answers jid n r)
    (h' : Reports terminal answers jid m r') (hr : r ≠ .unknown) (hr' : r' ≠ .unknown) :
    n = m ∧ r = r' := by
  rcases Nat.lt_trichotomy n m with hlt | rfl | hlt
  · exact absurd (h.1.symm.trans (h'.2 n hlt)) hr
  · exact ⟨rfl, h.1.symm.trans h'.1⟩
  · exact absurd (h'.1.symm.trans (h.2 m hlt)) hr'

/-- A round without an exception parts the jobs. -/
structure Parts (terminal : List String) (answer : String → Reply String)
    (jids pending : List String) (ended : List (String × String)) : Prop where
  parted : ∀ j ∈ jids, report terminal (answer j) = .unknown ∧ j ∈ pending ∨
    ∃ s, report terminal (answer j) = .ended s ∧ (j, s) ∈ ended
  pending : ∀ j ∈ pending, j ∈ jids ∧ report terminal (answer j) = .unknown
  ended : ∀ p ∈ ended, p.1 ∈ jids ∧ report terminal (answer p.1) = .ended p.2

lemma pollOnce_eq_some {jids : List String} : ∀ {pending ended},
    pollOnce terminal answer jids = some (pending, ended) →
      Parts terminal answer jids pending ended := by
  induction jids with
  | nil =>
    rintro pending ended h
    cases h
    exact ⟨nofun, nofun, nofun⟩
  | cons jid jids ih =>
    rintro pending ended h
    unfold pollOnce at h
    split at h
    · cases h
    · rename_i hr
      obtain ⟨⟨pending', ended'⟩, h', he⟩ := Option.map_eq_some_iff.1 h
      cases he
      have hp := ih h'
      refine ⟨List.forall_mem_cons.2 ⟨.inl ⟨hr, List.mem_cons_self⟩, fun j hj => ?_⟩,
        List.forall_mem_cons.2 ⟨⟨List.mem_cons_self, hr⟩, fun j hj => ?_⟩, fun p hm => ?_⟩
      · rcases hp.parted j hj with ⟨hu, hm⟩ | hs
        · exact .inl ⟨hu, List.mem_cons_of_mem _ hm⟩
        · exact .inr hs
      · exact ⟨List.mem_cons_of_mem _ (hp.pending j hj).1, (hp.pending j hj).2⟩
      · exact ⟨List.mem_cons_of_mem _ (hp.ended p hm).1, (hp.ended p hm).2⟩
    · rename_i s hr
      obtain ⟨⟨pending', ended'⟩, h', he⟩ := Option.map_eq_some_iff.1 h
      cases he
      have hp := ih h'
      refine ⟨List.forall_mem_cons.2 ⟨.inr ⟨s, hr, List.mem_cons_self⟩, fun j hj => ?_⟩,
        fun j hj => ?_, List.forall_mem_cons.2 ⟨⟨List.mem_cons_self, hr⟩, fun p hm => ?_⟩⟩
      · rcases hp.parted j hj with hu | ⟨s', hs, hm⟩
        · exact .inl hu
        · exact .inr ⟨s', hs, List.mem_cons_of_mem _ hm⟩
      · exact ⟨List.mem_cons_of_mem _ (hp.pending j hj).1, (hp.pending j hj).2⟩
      · exact ⟨List.mem_cons_of_mem _ (hp.ended p hm).1, (hp.ended p hm).2⟩

lemma pollOnce_eq_none {jids : List String} (h : pollOnce terminal answer jids = none) :
    ∃ j ∈ jids, report terminal (answer j) = .raised := by
  induction jids with
  | nil => cases h
  | cons jid jids ih =>
    unfold pollOnce at h
    split at h
    · rename_i hr
      exact ⟨jid, List.mem_cons_self, hr⟩
    · obtain ⟨j, hj, hr⟩ := ih (Option.map_eq_none_iff.1 h)
      exact ⟨j, List.mem_cons_of_mem _ hj, hr⟩
    · obtain ⟨j, hj, hr⟩ := ih (Option.map_eq_none_iff.1 h)
      exact ⟨j, List.mem_cons_of_mem _ hj, hr⟩

lemma pollLoop_nil (n : ℕ) (final : List (String × String)) :
    pollLoop terminal n answers [] final = .ended final := by
  cases n <;> rfl

/-- Where the loop ends, each job has its first report among the final ones. -/
lemma pollLoop_ended {n : ℕ} : ∀ {answers : ℕ → String → Reply String} {pending final f},
    pollLoop terminal n answers pending final = .ended f →
      (∀ p ∈ final, p ∈ f) ∧
      (∀ j ∈ pending, ∃ m < n, ∃ s, Reports terminal answers j m (.ended s) ∧ (j, s) ∈ f) ∧
      ∀ p ∈ f, p ∈ final ∨ p.1 ∈ pending ∧ ∃ m, Reports terminal answers p.1 m (.ended p.2) := by
  induction n with
  | zero =>
    rintro answers (_ | ⟨j, pending⟩) final f h
    · cases h
      exact ⟨fun _ hp => hp, nofun, fun _ hp => .inl hp⟩
    · cases h
  | succ n ih =>
    rintro answers (_ | ⟨jid, jids⟩) final f h
    · cases h
      exact ⟨fun _ hp => hp, nofun, fun _ hp => .inl hp⟩
    · unfold pollLoop at h
      split at h
      · cases h
      · rename_i pending ended hsplit
        have hp := pollOnce_eq_some hsplit
        obtain ⟨hfinal, hpending, hf⟩ := ih h
        refine ⟨fun p hm => hfinal p (List.mem_append_left _ hm), fun j hj => ?_, fun p hm => ?_⟩
        · rcases hp.parted j hj with ⟨hu, hjp⟩ | ⟨s, hs, hmem⟩
          · obtain ⟨m, hm, s, hrep, hmem⟩ := hpending j hjp
            exact ⟨m + 1, Nat.succ_lt_succ hm, s, reports_succ.2 ⟨hu, hrep⟩, hmem⟩
          · exact ⟨0, n.succ_pos, s, reports_zero hs, hfinal _ (List.mem_append_right _ hmem)⟩
        · rcases hf p hm with hmem | ⟨hjp, m, hrep⟩
          · rcases List.mem_append.1 hmem with hmem | hmem
            · exact .inl hmem
            · exact .inr ⟨(hp.ended p hmem).1, 0, reports_zero (hp.ended p hmem).2⟩
          · exact .inr ⟨(hp.pending _ hjp).1, m + 1,
              reports_succ.2 ⟨(hp.pending _ hjp).2, hrep⟩⟩

lemma pollLoop_raised {n : ℕ} : ∀ {answers : ℕ → String → Reply String} {pending final},
    pollLoop terminal n answers pending final = .raised →
      ∃ j ∈ pending, ∃ m < n, Reports terminal answers j m .raised := by
  induction n with
  | zero =>
    rintro answers (_ | ⟨j, pending⟩) final h
    · cases h
    · cases h
  | succ n ih =>
    rintro answers (_ | ⟨jid, jids⟩) final h
    · cases h
    · unfold pollLoop at h
      split at h
      · rename_i hnone
        obtain ⟨j, hj, hr⟩ := pollOnce_eq_none hnone
        exact ⟨j, hj, 0, n.succ_pos, reports_zero hr⟩
      · rename_i pending ended hsplit
        have hp := pollOnce_eq_some hsplit
        obtain ⟨j, hj, m, hm, hrep⟩ := ih h
        exact ⟨j, (hp.pending j hj).1, m + 1, Nat.succ_lt_succ hm,
          reports_succ.2 ⟨(hp.pending j hj).2, hrep⟩⟩

/-- Where the fuel is out, some job had no report, and none raised. -/
lemma pollLoop_polling {n : ℕ} : ∀ {answers : ℕ → String → Reply String} {pending final},
    pollLoop terminal n answers pending final = .polling →
      (∃ j ∈ pending, ∀ m < n, report terminal (answers m j) = .unknown) ∧
      ∀ j ∈ pending, ∀ m < n, ¬Reports terminal answers j m .raised := by
  induction n with
  | zero =>
    rintro answers (_ | ⟨j, pending⟩) final h
    · cases h
    · exact ⟨⟨j, List.mem_cons_self, fun m hm => absurd hm m.not_lt_zero⟩,
        fun _ _ m hm => absurd hm m.not_lt_zero⟩
  | succ n ih =>
    rintro answers (_ | ⟨jid, jids⟩) final h
    · cases h
    · unfold pollLoop at h
      split at h
      · cases h
      · rename_i pending ended hsplit
        have hp := pollOnce_eq_some hsplit
        obtain ⟨⟨j, hj, hu⟩, hno⟩ := ih h
        refine ⟨⟨j, (hp.pending j hj).1, fun m hm => ?_⟩, fun k hk m hm hrep => ?_⟩
        · cases m with
          | zero => exact (hp.pending j hj).2
          | succ m => exact hu m (Nat.lt_of_succ_lt_succ hm)
        · cases m with
          | zero =>
            rcases hp.parted k hk with ⟨hku, -⟩ | ⟨s, hs, -⟩
            · cases hku.symm.trans hrep.1
            · cases hs.symm.trans hrep.1
          | succ m =>
            obtain ⟨hku, hrep'⟩ := reports_succ.1 hrep
            rcases hp.parted k hk with ⟨-, hkp⟩ | ⟨s, hs, -⟩
            · exact hno k hkp m (Nat.lt_of_succ_lt_succ hm) hrep'
            · cases hs.symm.trans hku

end Loop

lemma exists_bound {α : Type} {P : α → ℕ → Prop} (l : List α) (h : ∀ a ∈ l, ∃ m, P a m) :
    ∃ n, ∀ a ∈ l, ∃ m < n, P a m := by
  induction l with
  | nil => exact ⟨0, nofun⟩
  | cons a l ih =>
    obtain ⟨m, hm⟩ := h a List.mem_cons_self
    obtain ⟨n, hn⟩ := ih fun b hb => h b (List.mem_cons_of_mem _ hb)
    refine ⟨max (m + 1) n, List.forall_mem_cons.2 ⟨⟨m, by omega, hm⟩, fun b hb => ?_⟩⟩
    obtain ⟨k, hk, hb⟩ := hn b hb
    exact ⟨k, by omega, hb⟩

/-! ### The tally and the exit code -/

section Finish
variable {terminal : List String} {answers : ℕ → String → Reply String} {fates : List Fate}
variable {wait dryRun : Bool}

lemma foldlM_add_raised (h : .raised ∈ fates) : ∀ t, fates.foldlM Tally.add t = none := by
  induction fates with
  | nil => cases h
  | cons f fates ih =>
    intro t
    rw [List.foldlM_cons]
    cases hf : t.add f with
    | none => rfl
    | some t' =>
      rcases List.mem_cons.1 h with rfl | h
      · cases hf
      · exact ih h t'

lemma foldlM_add (h : .raised ∉ fates) : ∀ t, ∃ t', fates.foldlM Tally.add t = some t' ∧
    t'.enqueued.map Prod.snd = t.enqueued.map Prod.snd ++ jobs fates ∧
    t'.failed = t.failed + fates.count .failed := by
  induction fates with
  | nil => exact fun t => ⟨t, rfl, (List.append_nil _).symm, rfl⟩
  | cons f fates ih =>
    intro t
    have hrest := ih fun hm => h (List.mem_cons_of_mem _ hm)
    cases f with
    | enqueued label jobId =>
      obtain ⟨t', ht, hj, hn⟩ := hrest { t with enqueued := t.enqueued ++ [(label, jobId)] }
      exact ⟨t', ht, by simpa [jobs] using hj, by simpa using hn⟩
    | upToDate =>
      obtain ⟨t', ht, hj, hn⟩ := hrest { t with upToDate := t.upToDate + 1 }
      exact ⟨t', ht, by simpa [jobs] using hj, by simpa using hn⟩
    | failed =>
      obtain ⟨t', ht, hj, hn⟩ := hrest { t with failed := t.failed + 1 }
      exact ⟨t', ht, by simpa [jobs] using hj, by simp [hn]; omega⟩
    | ignored =>
      obtain ⟨t', ht, hj, hn⟩ := hrest t
      exact ⟨t', ht, by simpa [jobs] using hj, by simpa using hn⟩
    | raised => exact absurd List.mem_cons_self h

lemma tally_of_no_raise (h : .raised ∉ fates) : ∃ t, tally fates = some t ∧
    t.enqueued.map Prod.snd = jobs fates ∧ t.failed = fates.count .failed := by
  obtain ⟨t, ht, hj, hn⟩ := foldlM_add h ⟨[], 0, 0⟩
  exact ⟨t, ht, hj, by simpa using hn⟩

/-- The jobs that are polled. -/
lemma mem_polled {js : List String} {jid : String} :
    jid ∈ (js.filter fun j => j ≠ "").dedup ↔ jid ∈ js ∧ jid ≠ "" := by
  rw [List.mem_dedup, List.mem_filter, decide_eq_true_iff]

section Waits
variable {t : Tally}

lemma finish_of_wait (ht : t.enqueued.map Prod.snd = jobs fates) (hw : wait = true)
    (hj : jobs fates ≠ []) (n : ℕ) :
    finish terminal wait t answers n =
      match pollUntilTerminal terminal n answers ((jobs fates).filter fun j => j ≠ "") with
      | .ended final =>
        .exit (if (final.filter fun p => p.2 ≠ "done").length ≠ 0 then 2 else 0)
      | .raised => .raised
      | .polling => .polling := by
  have he : t.enqueued ≠ [] := by
    intro he
    rw [he] at ht
    exact hj ht.symm
  unfold finish
  rw [if_pos ⟨hw, he⟩, ht]

lemma seenBy_iff_not_polling (ht : t.enqueued.map Prod.snd = jobs fates) (hw : wait = true)
    (hj : jobs fates ≠ []) (n : ℕ) :
    finish terminal wait t answers n ≠ .polling ↔ SeenBy terminal answers fates n := by
  rw [finish_of_wait ht hw hj]
  unfold pollUntilTerminal
  cases hp : pollLoop terminal n answers ((jobs fates).filter fun j => j ≠ "").dedup [] with
  | ended f =>
    refine iff_of_true nofun (.inl fun jid hjid hne => ?_)
    obtain ⟨m, hm, s, hrep, -⟩ := (pollLoop_ended hp).2.1 jid (mem_polled.2 ⟨hjid, hne⟩)
    exact ⟨m, hm, s, hrep⟩
  | raised =>
    obtain ⟨jid, hmem, m, hm, hrep⟩ := pollLoop_raised hp
    obtain ⟨hjid, hne⟩ := mem_polled.1 hmem
    exact iff_of_true nofun (.inr ⟨jid, hjid, hne, m, hm, hrep⟩)
  | polling =>
    refine iff_of_false (fun h => h rfl) ?_
    obtain ⟨⟨jid, hmem, hu⟩, hno⟩ := pollLoop_polling hp
    obtain ⟨hjid, hne⟩ := mem_polled.1 hmem
    rintro (hall | ⟨k, hk, hkne, m, hm, hrep⟩)
    · obtain ⟨m, hm, s, hrep⟩ := hall jid hjid hne
      cases (hu m hm).symm.trans hrep.1
    · exact hno k (mem_polled.2 ⟨hk, hkne⟩) m hm hrep

/-- The exit code is 0 exactly where the jobs that are polled end done. -/
lemma finish_eq_zero_iff (ht : t.enqueued.map Prod.snd = jobs fates) (hw : wait = true)
    (hj : jobs fates ≠ []) :
    (∃ n, finish terminal wait t answers n = .exit 0) ↔
      ∀ jid ∈ jobs fates, jid ≠ "" → EndedDone terminal answers jid := by
  constructor
  · rintro ⟨n, h⟩ jid hjid hne
    rw [finish_of_wait ht hw hj] at h
    split at h
    · rename_i f hp
      have hdone : (f.filter fun p => p.2 ≠ "done").length = 0 := by
        by_contra hlen
        rw [if_pos hlen] at h
        cases h
      obtain ⟨m, -, s, hrep, hmem⟩ := (pollLoop_ended hp).2.1 jid (mem_polled.2 ⟨hjid, hne⟩)
      have hs : s = "done" := by
        by_contra hs
        have hin : (jid, s) ∈ f.filter fun p => p.2 ≠ "done" :=
          List.mem_filter.2 ⟨hmem, by simpa using hs⟩
        rw [List.length_eq_zero_iff.1 hdone] at hin
        cases hin
      exact ⟨m, hs ▸ hrep⟩
    · cases h
    · cases h
  · intro hdone
    obtain ⟨n, hn⟩ := exists_bound (P := fun jid m => jid ≠ "" →
      Reports terminal answers jid m (.ended "done")) (jobs fates) fun jid hjid => by
        by_cases hne : jid = ""
        · exact ⟨0, fun h => absurd hne h⟩
        · obtain ⟨m, hm⟩ := hdone jid hjid hne
          exact ⟨m, fun _ => hm⟩
    have hseen : SeenBy terminal answers fates n := by
      refine .inl fun jid hjid hne => ?_
      obtain ⟨m, hm, hrep⟩ := hn jid hjid
      exact ⟨m, hm, "done", hrep hne⟩
    refine ⟨n, ?_⟩
    have hpoll := (seenBy_iff_not_polling ht hw hj n).2 hseen
    rw [finish_of_wait ht hw hj] at hpoll ⊢
    cases hp : pollUntilTerminal terminal n answers ((jobs fates).filter fun j => j ≠ "") with
    | ended f =>
      have hnil : (f.filter fun p => p.2 ≠ "done") = [] := by
        rw [List.filter_eq_nil_iff]
        intro p hpf
        rcases (pollLoop_ended hp).2.2 p hpf with hmem | ⟨hmem, m, hrep⟩
        · cases hmem
        · obtain ⟨hjid, hne⟩ := mem_polled.1 hmem
          obtain ⟨k, hk⟩ := hdone p.1 hjid hne
          have hs := (reports_unique hrep hk nofun nofun).2
          injection hs with hs
          simp [hs]
      simp only [hnil]
      rfl
    | raised =>
      obtain ⟨jid, hmem, m, -, hrep⟩ := pollLoop_raised hp
      obtain ⟨hjid, hne⟩ := mem_polled.1 hmem
      obtain ⟨k, hk⟩ := hdone jid hjid hne
      cases (reports_unique hrep hk nofun nofun).2
    | polling =>
      rw [hp] at hpoll
      exact absurd rfl hpoll

lemma finish_of_no_wait (ht : t.enqueued.map Prod.snd = jobs fates)
    (hw : ¬(wait = true ∧ jobs fates ≠ [])) (n : ℕ) :
    finish terminal wait t answers n = .exit (if t.failed ≠ 0 then 1 else 0) := by
  unfold finish
  refine if_neg fun h => hw ⟨h.1, fun hj => h.2 ?_⟩
  rw [hj] at ht
  exact List.map_eq_nil_iff.1 ht

end Waits

lemma mem_jobs {jid : String} : jid ∈ jobs fates ↔ ∃ label, .enqueued label jid ∈ fates := by
  unfold jobs
  rw [List.mem_filterMap]
  constructor
  · rintro ⟨f, hf, hj⟩
    cases f <;> cases hj
    exact ⟨_, hf⟩
  · rintro ⟨label, hf⟩
    exact ⟨_, hf, rfl⟩

lemma accepted_iff : (∀ f ∈ fates, f.Accepted false) ↔
    .failed ∉ fates ∧ .ignored ∉ fates ∧ .raised ∉ fates := by
  constructor
  · intro h
    exact ⟨fun hf => h _ hf, fun hf => h _ hf, fun hf => h _ hf⟩
  · rintro ⟨hfailed, hignored, hraised⟩ f hf
    cases f with
    | enqueued => exact rfl
    | upToDate => trivial
    | failed => exact absurd hf hfailed
    | ignored => exact absurd hf hignored
    | raised => exact absurd hf hraised

lemma honest_of_raise (h : .raised ∈ fates) :
    Honest terminal dryRun wait fates answers (conclude terminal dryRun wait fates answers) := by
  have hc : ∀ n, conclude terminal dryRun wait fates answers n = .raised := by
    intro n
    unfold conclude tally
    rw [foldlM_add_raised h]
  refine ⟨fun n h0 => ?_, fun n _ => ?_⟩
  · rw [hc] at h0
    cases h0
  · rw [hc]
    exact nofun

/-- A dry run submits nothing. -/
lemma honest_dry_iff (h : .raised ∉ fates) :
    Honest terminal true wait fates answers (conclude terminal true wait fates answers) ↔
      ∀ f ∈ fates, f = .upToDate := by
  obtain ⟨t, ht, -⟩ := tally_of_no_raise h
  have hc : ∀ n, conclude terminal true wait fates answers n = .exit 0 := by
    intro n
    unfold conclude
    rw [ht]
    rfl
  constructor
  · intro hh f hf
    have ha := (hh.success 0 (hc 0)).1 f hf
    cases f with
    | upToDate => rfl
    | enqueued => cases ha
    | failed => exact ha.elim
    | ignored => exact ha.elim
    | raised => exact ha.elim
  · intro hup
    refine ⟨fun n _ => ⟨fun f hf => ?_, fun _ jid hj => ?_⟩, fun n _ => ?_⟩
    · rw [hup f hf]
      trivial
    · obtain ⟨label, hf⟩ := mem_jobs.1 hj
      cases hup _ hf
    · rw [hc]
      exact nofun

lemma honest_wait_iff (h : .raised ∉ fates) (hw : wait = true) (hj : jobs fates ≠ []) :
    Honest terminal false wait fates answers (conclude terminal false wait fates answers) ↔
      ((.failed ∉ fates ∧ .ignored ∉ fates ∧ "" ∉ jobs fates) ∨
        ∃ jid ∈ jobs fates, jid ≠ "" ∧ ¬EndedDone terminal answers jid) ∧
      ∀ n, SettledFrom answers fates n → SeenBy terminal answers fates (n + 1) := by
  obtain ⟨t, ht, htj, -⟩ := tally_of_no_raise h
  have hc : conclude terminal false wait fates answers = finish terminal wait t answers := by
    funext n
    unfold conclude
    rw [ht]
    rfl
  rw [hc]
  constructor
  · intro hh
    refine ⟨?_, fun n hn => (seenBy_iff_not_polling htj hw hj _).1 (hh.ends n hn)⟩
    by_cases hall : ∀ jid ∈ jobs fates, jid ≠ "" → EndedDone terminal answers jid
    · obtain ⟨n, hn⟩ := (finish_eq_zero_iff htj hw hj).2 hall
      obtain ⟨hacc, hdone⟩ := hh.success n hn
      obtain ⟨hfailed, hignored, -⟩ := accepted_iff.1 hacc
      exact .inl ⟨hfailed, hignored, fun hmem => (hdone hw "" hmem).1 rfl⟩
    · push Not at hall
      exact .inr hall
  · rintro ⟨hs, he⟩
    refine ⟨fun n hn => ?_, fun n hn => (seenBy_iff_not_polling htj hw hj _).2 (he n hn)⟩
    have hall := (finish_eq_zero_iff htj hw hj).1 ⟨n, hn⟩
    rcases hs with ⟨hfailed, hignored, hempty⟩ | ⟨jid, hmem, hne, hno⟩
    · refine ⟨accepted_iff.2 ⟨hfailed, hignored, h⟩, fun _ jid hmem => ?_⟩
      have hne : jid ≠ "" := fun h => hempty (h ▸ hmem)
      exact ⟨hne, hall jid hmem hne⟩
    · exact absurd (hall jid hmem hne) hno

lemma honest_no_wait_iff (h : .raised ∉ fates) (hw : ¬(wait = true ∧ jobs fates ≠ [])) :
    Honest terminal false wait fates answers (conclude terminal false wait fates answers) ↔
      .failed ∈ fates ∨ .ignored ∉ fates := by
  obtain ⟨t, ht, htj, htf⟩ := tally_of_no_raise h
  have hc : ∀ n, conclude terminal false wait fates answers n =
      .exit (if fates.count .failed ≠ 0 then 1 else 0) := by
    intro n
    unfold conclude
    rw [ht]
    exact (finish_of_no_wait htj hw n).trans (by rw [htf])
  by_cases hf : .failed ∈ fates
  · have hcount : fates.count .failed ≠ 0 := (List.count_pos_iff.2 hf).ne'
    refine iff_of_true ⟨fun n h0 => ?_, fun n _ => ?_⟩ (.inl hf)
    · rw [hc, if_pos hcount] at h0
      cases h0
    · rw [hc]
      exact nofun
  · have hcount : ¬fates.count .failed ≠ 0 := fun h => h (List.count_eq_zero.2 hf)
    constructor
    · intro hh
      have h0 : conclude terminal false wait fates answers 0 = .exit 0 := by
        rw [hc, if_neg hcount]
      exact .inr (accepted_iff.1 (hh.success 0 h0).1).2.1
    · intro hi
      have hi := hi.resolve_left hf
      refine ⟨fun n _ => ⟨accepted_iff.2 ⟨hf, hi, h⟩, fun hwt jid hmem => ?_⟩, fun n _ => ?_⟩
      · exact absurd ⟨hwt, List.ne_nil_of_mem hmem⟩ hw
      · rw [hc]
        exact nofun

/-- What both commands do once they have their entries. -/
theorem conclude_honest_iff :
    Honest terminal dryRun wait fates answers (conclude terminal dryRun wait fates answers) ↔
      Sound terminal dryRun wait fates answers := by
  unfold Sound
  by_cases hr : .raised ∈ fates
  · exact iff_of_true (honest_of_raise hr) (.inl hr)
  · rw [or_iff_right hr]
    cases dryRun with
    | true => exact honest_dry_iff hr
    | false =>
      rw [if_neg Bool.false_ne_true]
      split_ifs with hw
      · exact honest_wait_iff hr hw.1 hw.2
      · exact honest_no_wait_iff hr hw

/-- Without an entry there is nothing to be dishonest about. -/
lemma honest_nil {outcome : ℕ → Outcome} (h : ∀ n, outcome n ≠ .polling) :
    Honest terminal dryRun wait [] answers outcome :=
  ⟨fun _ _ => ⟨nofun, fun _ => nofun⟩, fun n _ => h (n + 1)⟩

lemma sound_nil : Sound terminal dryRun wait [] answers := by
  unfold Sound
  refine .inr ?_
  split_ifs with hd hw
  · exact nofun
  · exact absurd rfl hw.2
  · exact .inr nofun

/-- Where the command knows the status that each job is in, the loop has seen it. -/
theorem seenBy_of_known {n : ℕ} (h : ∀ jid ∈ jobs fates, jid ≠ "" →
    ∃ s ∈ terminal, answers n jid = .ok s) : SeenBy terminal answers fates (n + 1) := by
  have hfirst : ∀ jid ∈ jobs fates, jid ≠ "" → ∃ m < n + 1, ∃ r, r ≠ .unknown ∧
      Reports terminal answers jid m r := by
    intro jid hj hne
    obtain ⟨s, hs, ha⟩ := h jid hj hne
    have hex : ∃ m, report terminal (answers m jid) ≠ .unknown := by
      refine ⟨n, ?_⟩
      rw [ha, report, if_pos hs]
      exact nofun
    classical
    have hle : Nat.find hex ≤ n := Nat.find_min' hex (by rw [ha, report, if_pos hs]; exact nofun)
    refine ⟨Nat.find hex, Nat.lt_succ_of_le hle, _, Nat.find_spec hex, rfl, fun m hm => ?_⟩
    exact not_not.1 (Nat.find_min hex hm)
  by_cases hraise : ∃ jid ∈ jobs fates, jid ≠ "" ∧ ∃ m < n + 1,
      Reports terminal answers jid m .raised
  · exact .inr hraise
  · refine .inl fun jid hj hne => ?_
    obtain ⟨m, hm, r, hr, hrep⟩ := hfirst jid hj hne
    cases r with
    | ended s => exact ⟨m, hm, s, hrep⟩
    | unknown => exact absurd rfl hr
    | raised => exact absurd ⟨jid, hj, hne, m, hm, hrep⟩ hraise

/-- A job that no poll reports on keeps the loop going, however long it has settled. -/
theorem polls_for_ever (hr : .raised ∉ fates) (hw : wait = true) {jid : String}
    (hj : jid ∈ jobs fates) (hne : jid ≠ "")
    (hunknown : ∀ n, report terminal (answers n jid) = .unknown)
    (hraise : ∀ n k, report terminal (answers n k) ≠ .raised) (n : ℕ) :
    conclude terminal false wait fates answers n = .polling := by
  obtain ⟨t, ht, htj, -⟩ := tally_of_no_raise hr
  have hc : conclude terminal false wait fates answers n = finish terminal wait t answers n := by
    unfold conclude
    rw [ht]
    rfl
  rw [hc]
  by_contra hend
  rcases (seenBy_iff_not_polling htj hw (List.ne_nil_of_mem hj) n).1 hend with hall | hsome
  · obtain ⟨m, -, s, hrep⟩ := hall jid hj hne
    cases (hunknown m).symm.trans hrep.1
  · obtain ⟨k, -, -, m, -, hrep⟩ := hsome
    exact hraise m k hrep.1

end Finish

/-- No status that `rebuild_graphs` knows is that of a dead letter. -/
lemma rebuild_report_deadLetter :
    report rebuildTerminal (.ok (statusText .deadLetter)) = .unknown := by
  rw [report, if_neg (by decide)]

/-- It waits for a dead letter as it would for a running job. -/
theorem rebuild_waits_for_dead_letter {wait : Bool} {fates : List Fate}
    {answers : ℕ → String → Reply String} (hr : .raised ∉ fates) (hw : wait = true) {jid : String}
    (hj : jid ∈ jobs fates) (hne : jid ≠ "")
    (h : ∀ n, answers n jid = .ok (statusText .deadLetter))
    (hraise : ∀ n k, report rebuildTerminal (answers n k) ≠ .raised) (n : ℕ) :
    conclude rebuildTerminal false wait fates answers n = .polling := by
  refine polls_for_ever hr hw hj hne (fun n => ?_) hraise n
  rw [h]
  exact rebuild_report_deadLetter

/-- `fleet onboard` knows the indexer's terminal statuses: it waits for no job that still exists. -/
theorem onboard_sees_terminal (r : Onboard) (n : ℕ) (h : ∀ jid ∈ jobs r.fates, jid ≠ "" →
    ∃ s : JobStatus, s.terminal = true ∧ r.answers n jid = .ok (statusText s)) :
    SeenBy onboardTerminal r.answers r.fates (n + 1) := by
  refine seenBy_of_known fun jid hj hne => ?_
  obtain ⟨s, hs, ha⟩ := h jid hj hne
  refine ⟨statusText s, ?_, ha⟩
  cases s with
  | done | failed | deadLetter => decide
  | queued | running | waiting => cases hs

lemma onboard_honest_iff (r : Onboard) : r.Honest ↔ r.groupRaises = true ∨
    Sound onboardTerminal r.dryRun r.wait r.fates r.answers := by
  unfold Onboard.Honest
  cases hm : r.manifest with
  | none =>
    have hf : r.fates = [] := by
      unfold Onboard.fates
      rw [hm]
      rfl
    have ho : runOnboard r = fun _ => .exit 1 := by
      funext n
      unfold runOnboard
      rw [hm]
    rw [hf, ho]
    exact iff_of_true (honest_nil fun _ => nofun) (.inr sound_nil)
  | some entries =>
    by_cases he : entries = []
    · have hf : r.fates = [] := by
        unfold Onboard.fates
        rw [hm, he]
        rfl
      have ho : runOnboard r = fun _ => .exit 0 := by
        funext n
        unfold runOnboard
        rw [hm]
        exact if_pos he
      rw [hf, ho]
      exact iff_of_true (honest_nil fun _ => nofun) (.inr sound_nil)
    · cases hg : r.groupRaises with
      | true =>
        have ho : runOnboard r = fun _ => .raised := by
          funext n
          unfold runOnboard
          rw [hm, hg]
          exact if_neg he
        rw [ho]
        exact iff_of_true ⟨fun _ => nofun, fun _ _ => nofun⟩ (.inl rfl)
      | false =>
        have ho : runOnboard r =
            conclude onboardTerminal r.dryRun r.wait r.fates r.answers := by
          funext n
          unfold runOnboard
          rw [hm, hg]
          exact if_neg he
        rw [ho, or_iff_right Bool.false_ne_true]
        exact conclude_honest_iff

lemma rebuild_honest_iff (r : Rebuild) :
    r.Honest ↔ Sound rebuildTerminal r.dryRun r.wait r.fates r.answers := by
  unfold Rebuild.Honest
  cases ht : r.targets with
  | httpError status =>
    have hf : r.fates = [] := by
      unfold Rebuild.fates
      rw [ht]
    have ho : runRebuild r = fun _ => .exit 1 := by
      funext n
      unfold runRebuild
      rw [ht]
    rw [hf, ho]
    exact iff_of_true (honest_nil fun _ => nofun) sound_nil
  | raises =>
    have hf : r.fates = [] := by
      unfold Rebuild.fates
      rw [ht]
    have ho : runRebuild r = fun _ => .raised := by
      funext n
      unfold runRebuild
      rw [ht]
    rw [hf, ho]
    exact iff_of_true (honest_nil fun _ => nofun) sound_nil
  | ok targets =>
    by_cases he : targets = []
    · have hf : r.fates = [] := by
        unfold Rebuild.fates
        rw [ht, he]
        rfl
      have ho : runRebuild r = fun _ => .exit 0 := by
        funext n
        unfold runRebuild
        rw [ht]
        exact if_pos he
      rw [hf, ho]
      exact iff_of_true (honest_nil fun _ => nofun) sound_nil
    · have ho : runRebuild r = conclude rebuildTerminal r.dryRun r.wait r.fates r.answers := by
        funext n
        unfold runRebuild
        rw [ht]
        exact if_neg he
      rw [ho]
      exact conclude_honest_iff

/-- **The exit code is honest and the loop ends** exactly where what failed, what was passed over
and what has no job id do not stand beside jobs that end done, and where each job is seen in a
status that the command knows. -/
theorem bulk_honest_iff (o : Onboard) (r : Rebuild) :
    (o.Honest ↔ o.groupRaises = true ∨
      Sound onboardTerminal o.dryRun o.wait o.fates o.answers) ∧
    (r.Honest ↔ Sound rebuildTerminal r.dryRun r.wait r.fates r.answers) :=
  ⟨onboard_honest_iff o, rebuild_honest_iff r⟩

/-! ### Two entries, one of them rejected -/

/-- The first entry's job ends done; the second entry is answered with a server error. -/
def halfRejected : Onboard where
  manifest := some ["a", "b"]
  dryRun := false
  wait := true
  group := .ok none
  replies i := if i = 0 then .ok ⟨"queued", "j"⟩ else .httpError (some 500)
  answers _ _ := .ok "done"

/-- The exit code is 0 all the same. -/
theorem rejected_entry_exits_zero : ¬((∀ r : Onboard, r.Honest) ∧ ∀ r : Rebuild, r.Honest) := by
  rintro ⟨h, -⟩
  have hzero : runOnboard halfRejected 1 = .exit 0 := by decide
  have hfailed : Fate.failed ∈ halfRejected.fates := by decide
  exact ((h halfRejected).success 1 hzero).1 _ hfailed

end Treeweft.BulkCli
