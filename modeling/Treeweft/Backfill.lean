import Treeweft.Dispatch
import Treeweft.Guarded

/-!
The backfill of git provenance, next to index jobs that finish and sources that are deleted.

The run lists the registry once and asks git about each record in turn. What it then saves is the
row it listed, with another commit, URL and branch. Its effect is confined to the three columns
exactly when every row it saves is still as it was listed: `only_provenance_iff`.
-/

namespace Treeweft.Backfill

open Treeweft.Dispatch

/-- A row of `source_records`. -/
structure Record extends SourceRecord where
  indexedAt : ℕ
  fileCount : ℕ
  chunkCount : ℕ
  graphIndexed : Bool
  graphIndexedAt : Option ℕ
  summaryPromptVersion : Option ℕ
  summaryRefreshTarget : Option ℕ
  deriving DecidableEq, Repr

abbrev Registry := Keyed fun r : Record => r.id

/-! ### The Repository -/

/-- `save`: every column but those of the summaries, which a new row leaves null. -/
def save (r : Record) (t : Registry) : Registry :=
  let stored := t.get? r.id
  t.put { r with
    summaryPromptVersion := stored.bind Record.summaryPromptVersion
    summaryRefreshTarget := stored.bind Record.summaryRefreshTarget }

/-- The end of a graph job: a record that is there stays. -/
def saveNew (r : Record) (t : Registry) : Registry :=
  t.insertNew { r with summaryPromptVersion := none, summaryRefreshTarget := none }

/-- An `UPDATE .. WHERE id = sid`. -/
def update (sid : String) (f : Record → Record) (hf : ∀ r, (f r).id = r.id) (t : Registry) :
    Registry :=
  t.map (fun r => if r.id = sid then f r else r) fun r => by split <;> simp [hf]

/-- `SELECT * .. ORDER BY indexed_at DESC LIMIT cap`. -/
def listAll (cap : ℕ) (t : Registry) : List Record :=
  (t.rows.insertionSort fun a b => b.indexedAt ≤ a.indexedAt).take cap

/-- What index jobs, refreshes and deletions do to the registry, one statement each. -/
inductive Write
  | save (r : Record)
  | saveNew (r : Record)
  | setGraphIndexed (sid : String) (indexed : Bool) (now : ℕ)
  | markSummaryRefresh (sid : String) (target : Option ℕ)
  | recordSummaryVersion (sid : String) (version : Option ℕ)
  | delete (sid : String)

def Write.apply : Write → Registry → Registry
  | .save r => Backfill.save r
  | .saveNew r => Backfill.saveNew r
  | .setGraphIndexed sid indexed now =>
    update sid (fun r => { r with
      graphIndexed := indexed
      graphIndexedAt := if indexed then some now else none }) fun _ => rfl
  | .markSummaryRefresh sid target =>
    update sid (fun r => { r with summaryRefreshTarget := target }) fun _ => rfl
  | .recordSummaryVersion sid version =>
    update sid (fun r => { r with summaryPromptVersion := version, summaryRefreshTarget := none })
      fun _ => rfl
  | .delete sid => fun t => t.erase sid

/-! ### The Run -/

structure Options where
  force : Bool
  dryRun : Bool
  sourceListMax : ℕ

/-- `todo` is what is left of the listing, once there is one. -/
structure State where
  registry : Registry
  todo : Option (List Record)
  updated : List String

inductive Event
  | write (w : Write)
  | list
  /-- The next record of the listing, with git's answer at its path; `stored` is false when the
  statement failed, which `save` only logs. -/
  | next (answer : Provenance) (stored : Bool)

/-- The row with the columns that are resolved anew. -/
def resolved (record : Record) (outcome : Provenance) : Record :=
  { record with toSourceRecord := applyUpdate record.toSourceRecord outcome }

def step (o : Options) (s : State) : Event → State
  | .write w => { s with registry := w.apply s.registry }
  | .list =>
    match s.todo with
    | none => { s with todo := some (listAll o.sourceListMax s.registry) }
    | some _ => s
  | .next answer stored =>
    match s.todo with
    | some (record :: rest) =>
      match planSource (fun _ => answer) o.force record.toSourceRecord with
      | none => { s with todo := some rest }
      | some outcome =>
        if o.dryRun then { s with todo := some rest }
        else
          ⟨if stored then save (resolved record outcome) s.registry else s.registry, some rest,
            s.updated ++ [record.id]⟩
    | _ => s

def start (t : Registry) : State := ⟨t, none, []⟩

def exec (o : Options) (t : Registry) (es : List Event) : State := es.foldl (step o) (start t)

def aside (t : Registry) : Event → Registry
  | .write w => w.apply t
  | _ => t

/-- The registry after the same statements of the others, had the backfill not been run. -/
def withoutRun (t : Registry) (es : List Event) : Registry := es.foldl aside t

/-! ### What the Run May Change -/

/-- The row less its provenance. -/
def Record.unproven (r : Record) : Record :=
  { r with toSourceRecord := { r.toSourceRecord with url := "", branch := "", commitSha := "" } }

/-- Nothing but the provenance of the rows that the run reports as updated. -/
def OnlyProvenance (updated : List String) (expected actual : Registry) : Prop :=
  ∀ i, actual.get? i = expected.get? i ∨
    (i ∈ updated ∧ (actual.get? i).map Record.unproven = (expected.get? i).map Record.unproven)

/-- The row less its provenance and less what `save` leaves alone. -/
def Record.carried (r : Record) : Record :=
  { r.unproven with summaryPromptVersion := none, summaryRefreshTarget := none }

/-- The row of the record is there and is as listed, in all columns that `save` carries over. -/
def AsListed (record : Record) (t : Registry) : Prop :=
  (t.get? record.id).map Record.carried = some record.carried

/-- The record that the event stores, if any. -/
def storedBy (o : Options) (s : State) : Event → Option Record
  | .next answer true =>
    match s.todo with
    | some (record :: _) =>
      if o.dryRun then none
      else (planSource (fun _ => answer) o.force record.toSourceRecord).map fun _ => record
    | _ => none
  | _ => none

/-! ### The Statements Act Row by Row -/

/-- What a statement makes of the row with identifier `i`. -/
def Write.row : Write → String → Option Record → Option Record
  | .save r, i, stored =>
    if i = r.id then some { r with
      summaryPromptVersion := stored.bind Record.summaryPromptVersion
      summaryRefreshTarget := stored.bind Record.summaryRefreshTarget }
    else stored
  | .saveNew r, i, stored =>
    if i = r.id then
      some (stored.getD { r with summaryPromptVersion := none, summaryRefreshTarget := none })
    else stored
  | .setGraphIndexed sid indexed now, i, stored =>
    if i = sid then stored.map fun r => { r with
      graphIndexed := indexed
      graphIndexedAt := if indexed then some now else none }
    else stored
  | .markSummaryRefresh sid target, i, stored =>
    if i = sid then stored.map fun r => { r with summaryRefreshTarget := target } else stored
  | .recordSummaryVersion sid version, i, stored =>
    if i = sid then
      stored.map fun r => { r with summaryPromptVersion := version, summaryRefreshTarget := none }
    else stored
  | .delete sid, i, stored => if i = sid then none else stored

lemma get?_update {sid : String} {f : Record → Record} (hf : ∀ r, (f r).id = r.id) (t : Registry)
    (i : String) :
    (update sid f hf t).get? i = if i = sid then (t.get? i).map f else t.get? i := by
  unfold update
  rw [Keyed.get?_map]
  cases hrow : t.get? i with
  | none => simp
  | some row =>
    have hid : row.id = i := (Keyed.get?_eq_some |>.mp hrow).2
    rw [Option.map_some, hid]
    split <;> rfl

lemma get?_save (r : Record) (t : Registry) (i : String) :
    (save r t).get? i = (Write.save r).row i (t.get? i) := by
  unfold save Write.row
  dsimp only
  rw [Keyed.get?_put]
  split
  · rename_i hi
    rw [hi]
  · rfl

lemma get?_apply (w : Write) (t : Registry) (i : String) :
    (w.apply t).get? i = w.row i (t.get? i) := by
  cases w with
  | save r => exact get?_save r t i
  | saveNew r => exact Keyed.get?_insertNew _ t i
  | setGraphIndexed sid indexed now =>
    refine get?_update ?_ t i
    exact fun _ => rfl
  | markSummaryRefresh sid target =>
    refine get?_update ?_ t i
    exact fun _ => rfl
  | recordSummaryVersion sid version =>
    refine get?_update ?_ t i
    exact fun _ => rfl
  | delete sid => exact Keyed.get?_erase t sid i

/-- No statement reads the provenance of the row it finds. -/
lemma row_unproven (w : Write) (i : String) {a b : Option Record}
    (h : a.map Record.unproven = b.map Record.unproven) :
    (w.row i a).map Record.unproven = (w.row i b).map Record.unproven := by
  cases a with
  | none =>
    obtain rfl : b = none := by simpa using h.symm
    rfl
  | some a =>
    obtain ⟨b, rfl, hb⟩ := Option.map_eq_some_iff.mp h.symm
    have hver : b.unproven.summaryPromptVersion = a.unproven.summaryPromptVersion := by rw [hb]
    have htar : b.unproven.summaryRefreshTarget = a.unproven.summaryRefreshTarget := by rw [hb]
    change b.summaryPromptVersion = a.summaryPromptVersion at hver
    change b.summaryRefreshTarget = a.summaryRefreshTarget at htar
    have hmap : ∀ (sid : String) (f : Record → Record),
        (f a).unproven = (f b).unproven →
        (if i = sid then (some a).map f else some a).map Record.unproven =
          (if i = sid then (some b).map f else some b).map Record.unproven := by
      intro sid f hf
      split
      · exact congrArg some hf
      · exact h
    cases w with
    | save r =>
      simp only [Write.row, Option.bind_some, hver, htar]
      split
      · rfl
      · exact h
    | saveNew r =>
      simp only [Write.row, Option.getD_some]
      split
      · exact h
      · exact h
    | setGraphIndexed sid indexed now =>
      exact hmap sid _ (congrArg (fun u : Record => { u with
        graphIndexed := indexed
        graphIndexedAt := if indexed then some now else none }) hb.symm)
    | markSummaryRefresh sid target =>
      exact hmap sid _ (congrArg (fun u : Record => { u with summaryRefreshTarget := target })
        hb.symm)
    | recordSummaryVersion sid version =>
      exact hmap sid _ (congrArg (fun u : Record => { u with
        summaryPromptVersion := version, summaryRefreshTarget := none }) hb.symm)
    | delete sid =>
      simp only [Write.row]
      split
      · rfl
      · exact h

/-! ### One Step -/

lemma carried_eq_of_unproven {a b : Record} (h : a.unproven = b.unproven) :
    a.carried = b.carried :=
  congrArg (fun u : Record =>
    { u with summaryPromptVersion := none, summaryRefreshTarget := none }) h

/-- What is stored for a record, where the row is `row`. -/
def storedRow (record : Record) (outcome : Provenance) (row : Record) : Record :=
  { resolved record outcome with
    summaryPromptVersion := row.summaryPromptVersion
    summaryRefreshTarget := row.summaryRefreshTarget }

/-- It is the row up to its provenance when the record is the row in what is carried over. -/
lemma storedRow_unproven {record row : Record} {outcome : Provenance} :
    (storedRow record outcome row).unproven = row.unproven ↔ row.carried = record.carried := by
  constructor
  · intro h
    have hcarried := carried_eq_of_unproven h
    exact hcarried.symm
  · intro h
    have hback := congrArg (fun u : Record =>
      { u with
        summaryPromptVersion := row.summaryPromptVersion
        summaryRefreshTarget := row.summaryRefreshTarget }) h
    exact hback.symm

section Step
variable {o : Options} {s : State} {t : Registry}

lemma OnlyProvenance.unproven {updated : List String} {expected actual : Registry}
    (h : OnlyProvenance updated expected actual) (i : String) :
    (actual.get? i).map Record.unproven = (expected.get? i).map Record.unproven := by
  rcases h i with he | ⟨-, he⟩
  · rw [he]
  · exact he

lemma only_write (w : Write) (h : OnlyProvenance s.updated t s.registry) :
    OnlyProvenance s.updated (w.apply t) (w.apply s.registry) := by
  intro i
  rw [get?_apply, get?_apply]
  rcases h i with he | ⟨hi, he⟩
  · exact .inl (congrArg (w.row i) he)
  · exact .inr ⟨hi, row_unproven w i he⟩

/-- The row of the record is changed in its provenance alone if and only if it was as listed. -/
lemma only_save {record : Record} {outcome : Provenance}
    (h : OnlyProvenance s.updated t s.registry) :
    AsListed record s.registry ↔ OnlyProvenance (s.updated ++ [record.id]) t
      (save (resolved record outcome) s.registry) := by
  have hid : (resolved record outcome).id = record.id := rfl
  have hunproven := h.unproven record.id
  constructor
  · intro hlisted i
    rw [get?_save, Write.row, hid]
    split
    · rename_i hi
      subst hi
      obtain ⟨row, hrow, hcarried⟩ := Option.map_eq_some_iff.mp hlisted
      refine .inr ⟨List.mem_append_right _ List.mem_cons_self, ?_⟩
      rw [← hunproven, hrow]
      exact congrArg some (storedRow_unproven.mpr hcarried)
    · exact (h i).imp_right (And.imp_left (List.mem_append_left _))
  · intro hafter
    have hstored := hafter.unproven record.id
    rw [get?_save, Write.row, hid, if_pos rfl, ← hunproven] at hstored
    obtain ⟨row, hrow, he⟩ := Option.map_eq_some_iff.mp hstored.symm
    rw [hrow] at he
    unfold AsListed
    rw [hrow]
    exact congrArg some (storedRow_unproven.mp he.symm)

lemma only_step (e : Event) (h : OnlyProvenance s.updated t s.registry) :
    (∀ record ∈ storedBy o s e, AsListed record s.registry) ↔
      OnlyProvenance (step o s e).updated (aside t e) (step o s e).registry := by
  have hnone : ∀ {P : Prop}, P → ((∀ record ∈ (none : Option Record), AsListed record s.registry) ↔
      P) := fun hP => ⟨fun _ => hP, fun _ record hr => absurd hr (by simp)⟩
  cases e with
  | write w => exact hnone (only_write w h)
  | list =>
    refine hnone ?_
    simp only [step]
    split
    · exact h
    · exact h
  | next answer stored =>
    match htodo : s.todo with
    | none =>
      simp only [step, storedBy, htodo]
      cases stored <;> exact hnone h
    | some [] =>
      simp only [step, storedBy, htodo]
      cases stored <;> exact hnone h
    | some (record :: rest) =>
      cases hplan : planSource (fun _ => answer) o.force record.toSourceRecord with
      | none =>
        cases stored <;> cases hdry : o.dryRun <;>
          simp only [step, storedBy, htodo, hplan, hdry] <;> exact hnone h
      | some outcome =>
        cases hdry : o.dryRun with
        | true =>
          cases stored <;> simp only [step, storedBy, htodo, hplan, hdry, if_true] <;>
            exact hnone h
        | false =>
          cases stored with
          | false =>
            simp only [step, storedBy, htodo, hplan, hdry]
            exact hnone fun i =>
              (h i).imp_right fun ⟨hi, he⟩ => ⟨List.mem_append_left _ hi, he⟩
          | true =>
            have honly : AsListed record s.registry ↔ OnlyProvenance (s.updated ++ [record.id]) t
                (save (resolved record outcome) s.registry) := only_save h
            simpa [step, storedBy, htodo, hplan, hdry, aside] using honly

end Step

/-! ### Runs -/

lemma only_start (t : Registry) : OnlyProvenance (start t).updated t (start t).registry :=
  fun _ => .inl rfl

/-- **The run touches provenance only**, in every state of every interleaving, if and only if every
row it stores is there and, outside the provenance, as it was listed. -/
theorem only_provenance_iff (o : Options) (t : Registry) (es : List Event) :
    (∀ pre post, es = pre ++ post →
      OnlyProvenance (exec o t pre).updated (withoutRun t pre) (exec o t pre).registry) ↔
    ∀ pre e post, es = pre ++ e :: post →
      ∀ record ∈ storedBy o (exec o t pre) e, AsListed record (exec o t pre).registry := by
  let both : State × Registry → Event → State × Registry := fun p e => (step o p.1 e, aside p.2 e)
  let may : State × Registry → Event → Prop :=
    fun p e => ∀ record ∈ storedBy o p.1 e, AsListed record p.1.registry
  let good : State × Registry → Prop := fun p => OnlyProvenance p.1.updated p.2 p.1.registry
  have hpair : ∀ pre : List Event, pre.foldl both (start t, t) = (exec o t pre, withoutRun t pre) :=
    fun pre => Guarded.foldl_pair (start t) t pre
  have hstep : ∀ p e, good p → (may p e ↔ good (both p e)) := fun p e hp => only_step e hp
  have hruns := @Guarded.good_iff_along _ _ both may good hstep (start t, t) es (only_start t)
  rw [Guarded.along_iff] at hruns
  simp only [hpair] at hruns
  exact hruns

/-! ### A Job that Finishes During the Run -/

/-- A directory with a working tree, indexed at time 1 before commits were recorded. -/
def listed : Record :=
  ⟨⟨"s", "/repo", "", "", some .directory, "", some "alice"⟩, 1, 3, 9, true, some 1, none, none⟩

def registry : Registry := ⟨[listed], by simp⟩

/-- The same source, indexed again at time 2 with more files and without a graph. -/
def reindexed : Record :=
  { listed with commitSha := "b2", indexedAt := 2, fileCount := 4, graphIndexed := false }

def answer : Provenance := ⟨"a1", "https://host/repo", "main"⟩

def writing : Options := ⟨false, false, 10000⟩

/-- The finished job's counts are gone, and a source deleted during the run is back. -/
theorem backfill_overwrites :
    ¬OnlyProvenance (exec writing registry [.list, .write (.save reindexed), .next answer true]).updated
      (withoutRun registry [.list, .write (.save reindexed), .next answer true])
      (exec writing registry [.list, .write (.save reindexed), .next answer true]).registry ∧
    ¬OnlyProvenance (exec writing registry [.list, .write (.delete "s"), .next answer true]).updated
      (withoutRun registry [.list, .write (.delete "s"), .next answer true])
      (exec writing registry [.list, .write (.delete "s"), .next answer true]).registry := by
  constructor
  · intro h
    have hs := h.unproven "s"
    revert hs
    decide +kernel
  · intro h
    have hs := h.unproven "s"
    revert hs
    decide +kernel

end Treeweft.Backfill
