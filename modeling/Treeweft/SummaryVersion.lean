import Treeweft.FileIndex
import Treeweft.Interleaving
import Treeweft.SourceListing

/-!
The prompt version recorded for a source, and the summaries its rows carry.

The record is written apart from the rows: by a full run at its end, by a refresh before its first
write and after its last. Everything is about one source; of a file, a chunk or an answer of the
model only what decides the summary is kept.
-/

namespace Treeweft.SummaryVersion

open Treeweft.FileIndex (terminalStatusForIndex)
open Treeweft.Paths (FilePath)
open Treeweft.SourceListing (PinView resolve isStale)
open Machine (State Label Run Kept initial)

/-! ### Summaries -/

inductive Strategy
  | cached | generated | rejected | error
  deriving DecidableEq, Repr

/-- The cache at two moments, and the model. An empty text in the cache marks a rejection. -/
structure Llm where
  cache : String → ℕ → Option String
  later : String → ℕ → Option String
  generate : String → ℕ → Option String × Strategy

def orNone (s : String) : Option String := if s = "" then none else some s

/-- `_generate_summary` is taken as it answers. -/
def summarizeWithCache (llm : Llm) (text : String) (version : ℕ) : Option String × Strategy :=
  match llm.later text version with
  | some s => (orNone s, .cached)
  | none =>
    match llm.generate text version with
    | (some s, st) =>
      if s ≠ "" then (some s, .generated)
      else if st = .rejected then (none, .rejected) else (none, .error)
    | (none, st) => if st = .rejected then (none, .rejected) else (none, .error)

def summaryFor (llm : Llm) (version : ℕ) (text : String) : Option String × Strategy :=
  match llm.cache text version with
  | some s => if s = "" then (none, .rejected) else (some s, .cached)
  | none => summarizeWithCache llm text version

def summariesForChunks (llm : Llm) (version : ℕ) (texts : List String) :
    List (Option String × Strategy) := texts.map (summaryFor llm version)

/-! ### The Store -/

inductive Kind
  | file | directory | repo | incremental
  deriving DecidableEq, Repr

/-- `_SUMMARIZING_KINDS`. -/
def Kind.summarizes : Kind → Bool
  | .repo => true
  | .directory => true
  | _ => false

/-- A row of the vector store. Of the summary vector the text is kept that was embedded. The last
two fields are history: the version under which the summary was produced or rejected, and the run
that has inserted the row since a version was last recorded. -/
structure Row where
  id : ℕ
  path : FilePath
  text : String
  vector : Option String
  under : Option ℕ
  since : Option Kind
  deriving DecidableEq, Repr

structure Record where
  version : Option ℕ
  target : Option ℕ
  deriving DecidableEq, Repr

/-- The rows of the source, its record and the pins. A store `rekeys` that gives a row a new id
when it is written again. -/
structure Store where
  rows : List Row
  nextRow : ℕ
  record : Option Record
  pins : PinView
  sourceId : String
  rekeys : Bool

inductive Op
  | begin
  | effective
  | dropSource
  | dropFile (path : FilePath)
  | insert (kind : Kind) (rows : List Row)
  | save
  | getById
  | recordVersion (version : Option ℕ)
  | markRefresh (target : ℕ)
  | snapshot
  | fetch (ids : List ℕ)
  | rewrite (rows : List Row)
  | count
  | waiters
  | delete
  | setPins (view : PinView)

@[reducible] def Op.Answer : Op → Type
  | .effective => Option ℕ
  | .dropSource => Bool
  | .insert _ _ => Bool
  | .getById => Option Record
  | .markRefresh _ => Bool
  | .snapshot => Option (List ℕ)
  | .fetch _ => Option (List Row)
  | .rewrite _ => Bool
  | .count => Option ℕ
  | .waiters => Bool
  | _ => Unit

@[reducible] def sig : Signature := ⟨Op, Op.Answer⟩

namespace Store

variable (st : Store)

def dropSource : Store := { st with rows := [] }

def dropFile (path : FilePath) : Store := { st with rows := st.rows.filter fun r => r.path ≠ path }

def numbered (rows : List Row) : List Row :=
  rows.mapIdx fun k r => { r with id := st.nextRow + k }

def insert (kind : Kind) (rows : List Row) : Store :=
  { st with
    rows := st.rows ++ st.numbered (rows.map fun r => { r with since := some kind })
    nextRow := st.nextRow + rows.length }

/-- `save` leaves both columns alone; a new row has neither. -/
def save : Store := { st with record := some (st.record.getD ⟨none, none⟩) }

/-- One `UPDATE`: it does nothing where the source is not registered. -/
def recordVersion (version : Option ℕ) : Store :=
  match st.record with
  | none => st
  | some _ =>
    { st with
      record := some ⟨version, none⟩
      rows := st.rows.map fun r => { r with since := none } }

def markRefresh (target : ℕ) : Store :=
  { st with record := st.record.map fun r => { r with target := some target } }

/-- A store that rekeys upserts full rows, and rows that are gone come back; another updates the
rows that are there. -/
def rewrite (rows : List Row) : Store :=
  { st with
    rows := (st.rows.filter fun r => r.id ∉ rows.map Row.id) ++
      if st.rekeys then st.numbered rows else rows.filter fun r => r.id ∈ st.rows.map Row.id
    nextRow := st.nextRow + rows.length }

end Store

/-- One operation. It goes well where `env` is zero; an insert that raises may have stored its
rows, a rewrite the first of them. A failure to record, to save or to delete is only logged. -/
def exec (st : Store) (_ : Tid) (env : ℕ) : (o : Op) → Option (o.Answer × Store)
  | .begin => some ((), st)
  | .effective => some (resolve st.pins "chunk_summary" (some st.sourceId), st)
  | .dropSource => if env = 0 then some (true, st.dropSource) else some (false, st)
  | .dropFile path => some ((), if env = 0 then st.dropFile path else st)
  | .insert kind rows =>
    some ((env = 0 : Bool), if env = 1 then st else st.insert kind rows)
  | .save => some ((), if env = 0 then st.save else st)
  | .getById => some (if env = 0 then st.record else none, st)
  | .recordVersion version => some ((), if env = 0 then st.recordVersion version else st)
  | .markRefresh target => if env = 0 then some (true, st.markRefresh target) else some (false, st)
  | .snapshot => some (if env = 0 then some (st.rows.map Row.id) else none, st)
  | .fetch ids => some (if env = 0 then some (st.rows.filter fun r => r.id ∈ ids) else none, st)
  | .rewrite rows =>
    if env = 0 then some (true, st.rewrite rows) else some (false, st.rewrite (rows.take (env - 1)))
  | .count => some (if env = 0 then some st.rows.length else none, st)
  | .waiters => some ((env ≠ 0 : Bool), st)
  | .delete => some ((), if env = 0 then { st with record := none } else st)
  | .setPins view => some ((), { st with pins := view })

/-! ### The Runs -/

inductive Exc
  | fault
  deriving DecidableEq, Repr

abbrev Act := Prog sig Exc

@[simp] def begin : Act Unit := .op Op.begin .ret
@[simp] def effective : Act (Option ℕ) := .op Op.effective .ret
@[simp] def dropSource : Act Bool := .op Op.dropSource .ret
@[simp] def dropFile (path : FilePath) : Act Unit := .op (Op.dropFile path) .ret
@[simp] def insert (kind : Kind) (rows : List Row) : Act Bool := .op (Op.insert kind rows) .ret
@[simp] def save : Act Unit := .op Op.save .ret
@[simp] def getById : Act (Option Record) := .op Op.getById .ret
@[simp] def recordVersion (version : Option ℕ) : Act Unit := .op (Op.recordVersion version) .ret
@[simp] def markRefresh (target : ℕ) : Act Bool := .op (Op.markRefresh target) .ret
@[simp] def snapshot : Act (Option (List ℕ)) := .op Op.snapshot .ret
@[simp] def fetch (ids : List ℕ) : Act (Option (List Row)) := .op (Op.fetch ids) .ret
@[simp] def rewrite (rows : List Row) : Act Bool := .op (Op.rewrite rows) .ret
@[simp] def count : Act (Option ℕ) := .op Op.count .ret
@[simp] def waiters : Act Bool := .op Op.waiters .ret

/-- What the deployment is set to. -/
structure Config where
  useSummaryVector : Bool
  supported : Bool
  embedBatchSize : ℕ
  pos : 0 < embedBatchSize

/-- The step at which a file raises, or is timed out. -/
inductive Stage
  | parse | embed | summaries | collection | graph
  deriving DecidableEq, Repr

/-- A file as a run finds it, and how it goes. -/
structure File where
  path : FilePath
  chunks : List String
  llm : Llm
  fault : Option Stage

/-- Chunks without summary vectors. -/
def plainRows (f : File) : List Row :=
  f.chunks.map fun text => ⟨0, f.path, text, none, none, none⟩

/-- Chunks with what became of their summaries. -/
def summarizedRows (f : File) (version : ℕ) : List Row :=
  (f.chunks.zip (summariesForChunks f.llm version f.chunks)).map fun x =>
    ⟨0, f.path, x.1, x.2.1, if x.2.2 = .error then none else some version, none⟩

def errorCount (outcomes : List (Option String × Strategy)) : ℕ :=
  (outcomes.filter fun x => x.2 = .error).length

/-- The counters of a full run. -/
structure Tally where
  chunks : ℕ
  errors : ℕ
  summaryErrors : ℕ
  deriving DecidableEq, Repr

/-- `_process_file`, and what the walk counts of it. -/
def processFile (cfg : Config) (kind : Kind) (version : ℕ) (t : Tally) (f : File) : Act Tally :=
  let raised : Tally := { t with errors := t.errors + 1 }
  if f.fault = some .parse then pure raised
  else if f.chunks = [] then pure t
  else if f.fault = some .embed then pure raised
  else do
    let summaryErrors := if cfg.useSummaryVector then
      t.summaryErrors + errorCount (summariesForChunks f.llm version f.chunks) else t.summaryErrors
    let raised : Tally := { raised with summaryErrors := summaryErrors }
    if f.fault = some .summaries ∨ f.fault = some .collection then pure raised
    else
      let ok ← insert kind (if cfg.useSummaryVector then summarizedRows f version else plainRows f)
      if ok = false ∨ f.fault = some .graph then pure raised
      else pure ⟨t.chunks + f.chunks.length, t.errors, summaryErrors⟩

/-- The files in the order in which they complete. -/
def walkAndIndex (cfg : Config) (kind : Kind) (version : ℕ) : Tally → List File → Act Tally
  | t, [] => pure t
  | t, f :: fs => do
    let t ← processFile cfg kind version t f
    walkAndIndex cfg kind version t fs

/-- A job as a worker finds it. What an earlier attempt counted is in its row. -/
structure Job where
  summaryVersion : Option ℕ
  errors : ℕ
  summaryErrors : ℕ
  deriving DecidableEq, Repr

/-- What goes wrong around the files: the pins cannot be stored with the job, the tree cannot be
opened, the walk raises, the graph refuses the source. -/
structure Faults where
  persist : Bool
  opens : Bool
  walk : Bool
  graph : Bool
  deriving DecidableEq, Repr

def resolveSummaryVersion (job : Job) (w : Faults) : Act ℕ :=
  match job.summaryVersion with
  | some v => pure v
  | none => do
    match ← effective with
    | none => .raise .fault
    | some v => if w.persist then .raise .fault else pure v

/-- Graph and incremental runs never come here. -/
def finalizeJob (cfg : Config) (kind : Kind) (version : ℕ) (t : Tally) (totalFiles : ℕ)
    (w : Faults) : Act Unit :=
  if terminalStatusForIndex t.chunks totalFiles t.errors = .failed then pure ()
  else if w.graph then .raise .fault
  else do
    save
    if kind.summarizes ∧ cfg.useSummaryVector ∧ cfg.supported then
      if t.errors = 0 ∧ t.summaryErrors = 0 then recordVersion (some version) else pure ()
    else recordVersion none

/-- `_fail_job` writes neither rows nor the record. -/
def failJob (_ : Exc) : Act Unit := pure ()

def runIndexFileJob (cfg : Config) (job : Job) (f : File) (w : Faults) : Act Unit := do
  begin
  Prog.catching (do
    let version ← resolveSummaryVersion job w
    let _ ← dropSource
    let t : Tally := ⟨0, job.errors, job.summaryErrors⟩
    if f.fault = some .parse then .raise .fault
    else if f.chunks = [] then finalizeJob cfg .file version t 0 w
    else if f.fault ≠ none ∧ f.fault ≠ some .graph then .raise .fault
    else do
      if ← insert .file (plainRows f) then
        if f.fault = some .graph then .raise .fault
        else finalizeJob cfg .file version { t with chunks := f.chunks.length } 1 w
      else .raise .fault) failJob

/-- A directory, or the clone of a repository. -/
def runTreeJob (cfg : Config) (kind : Kind) (job : Job) (fs : List File) (w : Faults) :
    Act Unit := do
  begin
  Prog.catching (do
    let version ← resolveSummaryVersion job w
    let _ ← dropSource
    if w.opens then .raise .fault
    else do
      let t ← walkAndIndex cfg kind version ⟨0, job.errors, job.summaryErrors⟩ fs
      if w.walk then .raise .fault
      else finalizeJob cfg kind version t fs.length w) failJob

def runIndexDirectoryJob (cfg : Config) (job : Job) (fs : List File) (w : Faults) : Act Unit :=
  runTreeJob cfg .directory job fs w

def runIndexRepoJob (cfg : Config) (job : Job) (fs : List File) (w : Faults) : Act Unit :=
  runTreeJob cfg .repo job fs w

/-- Of the record it writes neither column. -/
def runIndexGraphJob (w : Faults) : Act Unit := do
  begin
  Prog.catching (do
    match ← getById with
    | none => .raise .fault
    | some _ =>
      if w.opens ∨ w.walk ∨ w.graph then .raise .fault
      else
        match ← getById with
        | none => save
        | some _ => pure ()) failJob

/-- A changed file, as the clone has it. -/
structure Changed where
  file : File
  inside : Bool
  isFile : Bool

def processChange (c : Changed) : Act Unit :=
  if c.inside then do
    dropFile c.file.path
    if c.isFile = false ∨ c.file.fault = some .parse ∨ c.file.chunks = [] then pure ()
    else if c.file.fault ≠ none ∧ c.file.fault ≠ some .graph then pure ()
    else do
      let _ ← insert .incremental (plainRows c.file)
      pure ()
  else pure ()

def runIncrementalIndex (removed : List FilePath) (cs : List Changed) (w : Faults) : Act Unit := do
  begin
  Prog.forEach removed dropFile
  if cs = [] then pure ()
  else if w.opens then .raise .fault
  else Prog.forEach cs processChange

/-- A batch of a refresh: the answers of the model, and whether embedding them raises. -/
structure Batch where
  llm : Llm
  raises : Bool

/-- A transient failure keeps the vector that is there. -/
def resummarized (target : ℕ) (r : Row) (x : Option String × Strategy) : Row :=
  if x.2 = .error then r else { r with vector := x.1, under := some target }

/-- The batches of a refresh, and the errors counted; `none` where it ends before the last. -/
def refreshBatches (cfg : Config) (target : ℕ) (b : ℕ → Batch) :
    ℕ → List ℕ → ℕ → Act (Option ℕ)
  | 0, _, errors => pure (some errors)
  | _ + 1, [], errors => pure (some errors)
  | n + 1, ids, errors => do
    if ← waiters then pure none
    else
      match ← getById with
      | none => pure none
      | some _ =>
        match ← fetch (ids.take cfg.embedBatchSize) with
        | none => .raise .fault
        | some rows => do
          let outcomes := summariesForChunks (b n).llm target (rows.map Row.text)
          if (b n).raises then .raise .fault
          else
            match ← getById with
            | none => pure none
            | some _ => do
              if ← rewrite (List.zipWith (resummarized target) rows outcomes) then
                match ← getById with
                | none => do
                  let _ ← dropSource
                  pure none
                | some _ =>
                  refreshBatches cfg target b n (ids.drop cfg.embedBatchSize)
                    (errors + errorCount outcomes)
              else .raise .fault

def refreshRows (cfg : Config) (target : ℕ) (b : ℕ → Batch) : Act Unit := do
  if ← markRefresh target then
    match ← snapshot with
    | none => .raise .fault
    | some ids => do
      match ← refreshBatches cfg target b ids.length ids 0 with
      | none => pure ()
      | some errors =>
        if 0 < ids.length ∧ errors = ids.length then pure ()
        else do
          match ← count with
          | none => .raise .fault
          | some n =>
            if n ≠ ids.length then .raise .fault
            else if errors = 0 then recordVersion (some target) else pure ()
  else .raise .fault

/-- The version asked for gives way to the one that is current. -/
def runResummarizeJob (cfg : Config) (b : ℕ → Batch) (w : Faults) : Act Unit := do
  begin
  Prog.catching (do
    match ← effective with
    | none => .raise .fault
    | some target =>
      if w.persist then .raise .fault
      else if cfg.useSummaryVector ∧ cfg.supported then do
        let source ← getById
        if source = some ⟨some target, none⟩ then pure () else refreshRows cfg target b
      else pure ()) failJob

/-- `DELETE /sources/{id}`. -/
def handleDeleteSource (w : Faults) : Act Unit := do
  let _ ← dropSource
  if w.graph then .raise .fault else .op Op.delete .ret

def setPins (view : PinView) : Act Unit := .op (Op.setPins view) .ret

inductive Entry
  | file (cfg : Config) (job : Job) (f : File) (w : Faults)
  | directory (cfg : Config) (job : Job) (fs : List File) (w : Faults)
  | repo (cfg : Config) (job : Job) (fs : List File) (w : Faults)
  | graph (w : Faults)
  | incremental (removed : List FilePath) (cs : List Changed) (w : Faults)
  | resummarize (cfg : Config) (b : ℕ → Batch) (w : Faults)
  | delete (w : Faults)
  | setPins (view : PinView)

def Entry.main : Entry → Act Unit
  | .file cfg job f w => runIndexFileJob cfg job f w
  | .directory cfg job fs w => runIndexDirectoryJob cfg job fs w
  | .repo cfg job fs w => runIndexRepoJob cfg job fs w
  | .graph w => runIndexGraphJob w
  | .incremental removed cs w => runIncrementalIndex removed cs w
  | .resummarize cfg b w => runResummarizeJob cfg b w
  | .delete w => handleDeleteSource w
  | .setPins view => SummaryVersion.setPins view

/-- The source, any number of processes, and the requests they serve. -/
abbrev machine : Machine sig Exc where
  Store := Store
  exec := exec
  Entry := Entry
  main := Entry.main
  kill := fun _ st => st
  Own := Empty
  own := fun _ x => x.elim

/-! ### What a run may do -/

/-- A refresh in its batches: the ids it has not come to, whether every row it wrote carries its
target, and the batch it has read, as ids asked for and ids found. -/
structure Going where
  remaining : List ℕ
  clean : Bool
  batch : Option (List ℕ × List ℕ)
  deriving DecidableEq, Repr

/-- Whether a task is a run of the source, whether it has dropped the rows, under what it has
inserted since, the target it has marked, and where it is in its batches. -/
structure Ledger where
  working : Bool
  dropped : Bool
  wrote : List (Option ℕ)
  marked : Option ℕ
  going : Option Going
  deriving DecidableEq, Repr

def Going.afterRewrite (g : Going) (target : Option ℕ) (rows : List Row) (ok : Bool) : Going where
  remaining :=
    if ok then g.remaining.filter fun i => i ∉ (g.batch.elim [] Prod.fst) else g.remaining
  clean := g.clean && rows.all fun r => r.under = target
  batch := none

def after (l : Ledger) : (o : Op) → o.Answer → Ledger
  | .begin, _ => { l with working := true }
  | .dropSource, r => { l with dropped := r, wrote := [] }
  | .insert _ rows, _ => { l with wrote := rows.map Row.under ++ l.wrote }
  | .markRefresh t, r => if r then { l with marked := some t } else l
  | .snapshot, r => { l with going := (r : Option (List ℕ)).map fun ids => ⟨ids, true, none⟩ }
  | .fetch ids, r =>
    { l with
      going := l.going.map fun g =>
        { g with batch := (r : Option (List Row)).map fun rows => (ids, rows.map Row.id) } }
  | .rewrite rows, r =>
    { l with going := l.going.map fun g => g.afterRewrite l.marked rows r }
  | .recordVersion _, _ => { l with marked := none, going := none }
  | _, _ => l

/-- The rows of the source all carry the version, by what the task has done. -/
def Ledger.Vouches (l : Ledger) (v : ℕ) : Prop :=
  (l.dropped = true ∧ ∀ u ∈ l.wrote, u = some v) ∨
    (l.marked = some v ∧ ∃ g, l.going = some g ∧ g.remaining = [] ∧ g.clean = true)

/-- Only runs write, and a version is recorded by a run that vouches for it. -/
def may (l : Ledger) : Op → Prop
  | .begin => l.dropped = false ∧ l.marked = none
  | .insert _ _ => l.working = true ∧ l.marked = none
  | .save => l.working = true ∧ l.marked = none
  | .recordVersion version => l.working = true ∧ ∀ v, version = some v → l.Vouches v
  | .markRefresh _ => l.working = true ∧ l.marked = none
  | .snapshot => l.working = true ∧ l.marked ≠ none
  | .rewrite rows => l.working = true ∧ l.dropped = false ∧ l.marked ≠ none ∧
      ∃ g ids, l.going = some g ∧ g.batch = some (ids, rows.map Row.id)
  | _ => True

/-- Dropping the rows goes well, and a batch is as many rows as were found. -/
def admits : (o : Op) → o.Answer → Prop
  | .dropSource, r => r = true
  | _, _ => True

abbrev discipline : Discipline sig :=
  ⟨Ledger, ⟨false, false, [], none, none⟩, may, fun _ => admits, after⟩

abbrev Sys := State machine discipline

/-- Runs of the source do not overlap, and dropping its rows does not fail. -/
def Apart (s : Sys) : Label machine → Prop
  | .run t env => (s.nextOp t = some .begin →
      ∀ u l, u ≠ t → s.records u = some l → l.working = false) ∧
        (s.nextOp t = some .dropSource → env = 0)
  | _ => True

/-! ### The invariant -/

structure Inv (st : Store) (L : Tid → Option Ledger) : Prop where
  alone : ∀ t u l m, L t = some l → L u = some m → l.working = true → m.working = true → t = u
  carried : ∀ rec v, st.record = some rec → rec.version = some v → rec.target = none →
    ∀ r ∈ st.rows, r.since = none → r.under = some v
  wrote : ∀ t l, L t = some l → l.working = true → l.dropped = true →
    ∀ r ∈ st.rows, r.under ∈ l.wrote
  works : ∀ t l, L t = some l → l.marked ≠ none → l.working = true
  going : ∀ t l g, L t = some l → l.going = some g → l.marked ≠ none
  marked : ∀ t l rec, L t = some l → l.marked ≠ none → st.record = some rec → rec.target ≠ none
  covered : ∀ t l g, L t = some l → l.going = some g → ∀ r ∈ st.rows,
    r.id ∈ g.remaining ∨ r.under = l.marked ∨ g.clean = false
  batch : ∀ t l g ids found, L t = some l → l.going = some g → g.batch = some (ids, found) →
    ∀ r ∈ st.rows, r.id ∈ ids → r.id ∈ found

section Inv
variable {st st' : Store} {L : Tid → Option Ledger} {t : Tid} {l l' : Ledger}

/-- Rows and the record may go; none is written. -/
lemma Inv.shrink (h : Inv st L) (hsub : ∀ r ∈ st'.rows, r ∈ st.rows)
    (hrec : ∀ rec, st'.record = some rec → st.record = some rec) : Inv st' L where
  alone := h.alone
  carried rec v hr hv ht r hmem := h.carried rec v (hrec rec hr) hv ht r (hsub r hmem)
  wrote t l hl hw hd r hmem := h.wrote t l hl hw hd r (hsub r hmem)
  works := h.works
  going := h.going
  marked t l rec hl hm hr := h.marked t l rec hl hm (hrec rec hr)
  covered t l g hl hg r hmem := h.covered t l g hl hg r (hsub r hmem)
  batch t l g ids found hl hg hb r hmem := h.batch t l g ids found hl hg hb r (hsub r hmem)

/-- The record of a task changes, and the store stays. -/
lemma Inv.turn (h : Inv st L) (hl : L t = some l) (hw : l'.working = l.working)
    (hm : l'.marked = l.marked)
    (hdrop : l'.working = true → l'.dropped = true → ∀ r ∈ st.rows, r.under ∈ l'.wrote)
    (hgo : ∀ g, l'.going = some g → l.marked ≠ none ∧ (∀ r ∈ st.rows,
      r.id ∈ g.remaining ∨ r.under = l.marked ∨ g.clean = false) ∧
      ∀ ids found, g.batch = some (ids, found) → ∀ r ∈ st.rows, r.id ∈ ids → r.id ∈ found) :
    Inv st (Function.update L t (some l')) where
  alone u v m m' hu hv hmw hmw' := by
    have hold : ∀ {w k}, Function.update L t (some l') w = some k → k.working = true →
        ∃ k', L w = some k' ∧ k'.working = true := by
      intro w k hk hkw
      rcases update_cases hk with ⟨rfl, hx⟩ | ⟨-, hk⟩
      · cases hx
        exact ⟨l, hl, hw ▸ hkw⟩
      · exact ⟨k, hk, hkw⟩
    obtain ⟨k, hk, hkw⟩ := hold hu hmw
    obtain ⟨k', hk', hkw'⟩ := hold hv hmw'
    exact h.alone u v k k' hk hk' hkw hkw'
  carried := h.carried
  wrote u m hu hmw hmd := by
    rcases update_cases hu with ⟨rfl, hx⟩ | ⟨-, hu⟩
    · cases hx
      exact hdrop hmw hmd
    · exact h.wrote u m hu hmw hmd
  works u m hu hmm := by
    rcases update_cases hu with ⟨rfl, hx⟩ | ⟨-, hu⟩
    · cases hx
      rw [hw]
      exact h.works u l hl (hm ▸ hmm)
    · exact h.works u m hu hmm
  going u m g hu hg := by
    rcases update_cases hu with ⟨rfl, hx⟩ | ⟨-, hu⟩
    · cases hx
      rw [hm]
      exact (hgo g hg).1
    · exact h.going u m g hu hg
  marked u m rec hu hmm := by
    rcases update_cases hu with ⟨rfl, hx⟩ | ⟨-, hu⟩
    · cases hx
      exact h.marked u l rec hl (hm ▸ hmm)
    · exact h.marked u m rec hu hmm
  covered u m g hu hg := by
    rcases update_cases hu with ⟨rfl, hx⟩ | ⟨-, hu⟩
    · cases hx
      rw [hm]
      exact (hgo g hg).2.1
    · exact h.covered u m g hu hg
  batch u m g ids found hu hg hb := by
    rcases update_cases hu with ⟨rfl, hx⟩ | ⟨-, hu⟩
    · cases hx
      exact (hgo g hg).2.2 ids found hb
    · exact h.batch u m g ids found hu hg hb

lemma Inv.idle (h : Inv st L) (hl : L t = some l) (hw : l.working = true) :
    ∀ u m, u ≠ t → L u = some m → m.working = false := by
  intro u m hut hu
  rw [Bool.eq_false_iff]
  exact fun hm => hut (h.alone u t m l hu hl hm hw)

/-- Tasks go. -/
lemma Inv.fewer (h : Inv st L) {L' : Tid → Option Ledger}
    (hold : ∀ {u m}, L' u = some m → L u = some m) : Inv st L' where
  alone t u l m hl hm := h.alone t u l m (hold hl) (hold hm)
  carried := h.carried
  wrote t l hl := h.wrote t l (hold hl)
  works t l hl := h.works t l (hold hl)
  going t l g hl := h.going t l g (hold hl)
  marked t l rec hl := h.marked t l rec (hold hl)
  covered t l g hl := h.covered t l g (hold hl)
  batch t l g ids found hl := h.batch t l g ids found (hold hl)

/-- A run writes: no other task has anything to say of the rows or the record. -/
lemma Inv.write (h : Inv st L) (hothers : ∀ u m, u ≠ t → L u = some m → m.working = false)
    (hw' : l'.working = true)
    (hcarried : ∀ rec v, st'.record = some rec → rec.version = some v → rec.target = none →
      ∀ r ∈ st'.rows, r.since = none → r.under = some v)
    (hdrop : l'.dropped = true → ∀ r ∈ st'.rows, r.under ∈ l'.wrote)
    (hmark : l'.marked ≠ none → ∀ rec, st'.record = some rec → rec.target ≠ none)
    (hgo : ∀ g, l'.going = some g → l'.marked ≠ none ∧ (∀ r ∈ st'.rows,
      r.id ∈ g.remaining ∨ r.under = l'.marked ∨ g.clean = false) ∧
      ∀ ids found, g.batch = some (ids, found) → ∀ r ∈ st'.rows, r.id ∈ ids → r.id ∈ found) :
    Inv st' (Function.update L t (some l')) := by
  have hidle : ∀ {u m}, u ≠ t → L u = some m → m.working = true → False := fun hut hu hm => by
    rw [hothers _ _ hut hu] at hm
    cases hm
  refine ⟨fun u v m m' hu hv hm hm' => ?_, hcarried, fun u m hu hm hd => ?_, fun u m hu hm => ?_,
    fun u m g hu hg => ?_, fun u m rec hu hm => ?_, fun u m g hu hg => ?_,
    fun u m g ids found hu hg => ?_⟩
  · rcases update_cases hu with ⟨hut, -⟩ | ⟨hut, hLu⟩
    · rcases update_cases hv with ⟨hvt, -⟩ | ⟨hvt, hLv⟩
      · exact hut.trans hvt.symm
      · exact (hidle hvt hLv hm').elim
    · exact (hidle hut hLu hm).elim
  · rcases update_cases hu with ⟨rfl, hx⟩ | ⟨hut, hu⟩
    · cases hx
      exact hdrop hd
    · exact (hidle hut hu hm).elim
  · rcases update_cases hu with ⟨rfl, hx⟩ | ⟨hut, hu⟩
    · cases hx
      exact hw'
    · exact h.works u m hu hm
  · rcases update_cases hu with ⟨rfl, hx⟩ | ⟨hut, hu⟩
    · cases hx
      exact (hgo g hg).1
    · exact h.going u m g hu hg
  · rcases update_cases hu with ⟨rfl, hx⟩ | ⟨hut, hu⟩
    · cases hx
      exact hmark hm rec
    · exact (hidle hut hu (h.works u m hu hm)).elim
  · rcases update_cases hu with ⟨rfl, hx⟩ | ⟨hut, hu⟩
    · cases hx
      exact (hgo g hg).2.1
    · exact (hidle hut hu (h.works u m hu (h.going u m g hu hg))).elim
  · rcases update_cases hu with ⟨rfl, hx⟩ | ⟨hut, hu⟩
    · cases hx
      exact (hgo g hg).2.2 ids found
    · exact (hidle hut hu (h.works u m hu (h.going u m g hu hg))).elim

lemma mem_numbered {rows : List Row} {r : Row} (h : r ∈ st.numbered rows) :
    ∃ x ∈ rows, r.under = x.under ∧ r.since = x.since := by
  obtain ⟨k, hk, rfl⟩ := List.mem_mapIdx.1 h
  exact ⟨rows[k], List.getElem_mem hk, rfl, rfl⟩

lemma mem_insert {kind : Kind} {rows : List Row} {r : Row} (h : r ∈ (st.insert kind rows).rows) :
    r ∈ st.rows ∨ r.since = some kind ∧ r.under ∈ rows.map Row.under := by
  rcases List.mem_append.1 h with h | h
  · exact .inl h
  · obtain ⟨x, hx, hu, hs⟩ := mem_numbered h
    obtain ⟨y, hy, rfl⟩ := List.mem_map.1 hx
    exact .inr ⟨hs, hu ▸ List.mem_map.2 ⟨y, hy, rfl⟩⟩

/-- A row after a rewrite is one that was not written, or is as it was written. -/
lemma mem_rewrite {rows : List Row} {r : Row} (h : r ∈ (st.rewrite rows).rows) :
    (r ∈ st.rows ∧ r.id ∉ rows.map Row.id) ∨ r.under ∈ rows.map Row.under := by
  rcases List.mem_append.1 h with h | h
  · obtain ⟨hmem, hid⟩ := List.mem_filter.1 h
    exact .inl ⟨hmem, of_decide_eq_true hid⟩
  · split at h
    · obtain ⟨x, hx, hu, -⟩ := mem_numbered h
      exact .inr (hu ▸ List.mem_map.2 ⟨x, hx, rfl⟩)
    · exact .inr (List.mem_map.2 ⟨r, (List.mem_filter.1 h).1, rfl⟩)

lemma update_same (hl : L t = some l) : Function.update L t (some l) = L := by
  rw [← hl, Function.update_eq_self]

lemma Inv.insert (h : Inv st L) (hl : L t = some l) (hw : l.working = true)
    (hm : l.marked = none) (kind : Kind) (rows : List Row) :
    Inv (st.insert kind rows)
      (Function.update L t (some { l with wrote := rows.map Row.under ++ l.wrote })) := by
  refine h.write (h.idle hl hw) hw (fun rec v hr hv ht r hmem hs => ?_) (fun hd r hmem => ?_)
    (fun hmark => absurd hm hmark) fun g hg => absurd hm (h.going t l g hl hg)
  · rcases mem_insert hmem with hmem | ⟨hsome, -⟩
    · exact h.carried rec v hr hv ht r hmem hs
    · rw [hsome] at hs
      cases hs
  · rcases mem_insert hmem with hmem | ⟨-, hu⟩
    · exact List.mem_append.2 (.inr (h.wrote t l hl hw hd r hmem))
    · exact List.mem_append.2 (.inl hu)

/-- What a run vouches for is so. -/
lemma Inv.vouched (h : Inv st L) (hl : L t = some l) (hw : l.working = true) {v : ℕ}
    (hv : l.Vouches v) : ∀ r ∈ st.rows, r.under = some v := by
  intro r hr
  rcases hv with ⟨hd, hall⟩ | ⟨hm, g, hg, hrem, hclean⟩
  · exact hall _ (h.wrote t l hl hw hd r hr)
  · rcases h.covered t l g hl hg r hr with hmem | hu | hdirty
    · rw [hrem] at hmem
      cases hmem
    · rw [hu, hm]
    · rw [hclean] at hdirty
      cases hdirty

lemma Inv.recordVersion (h : Inv st L) (hl : L t = some l) (hw : l.working = true)
    {version : Option ℕ} (hv : ∀ v, version = some v → l.Vouches v)
    (hst : st' = st ∨ st' = st.recordVersion version) :
    Inv st' (Function.update L t (some { l with marked := none, going := none })) := by
  have hrows : ∀ r ∈ st'.rows, ∃ r₀ ∈ st.rows, r₀.under = r.under := by
    intro r hr
    rcases hst with rfl | rfl
    · exact ⟨r, hr, rfl⟩
    · unfold Store.recordVersion at hr
      split at hr
      · exact ⟨r, hr, rfl⟩
      · obtain ⟨r₀, hr₀, rfl⟩ := List.mem_map.1 hr
        exact ⟨r₀, hr₀, rfl⟩
  refine h.write (h.idle hl hw) hw (fun rec v hr hrv ht r hmem hs => ?_) (fun hd r hmem => ?_)
    (fun hmark => absurd rfl hmark) fun g hg => by cases hg
  · rcases hst with rfl | rfl
    · exact h.carried rec v hr hrv ht r hmem hs
    · unfold Store.recordVersion at hr
      split at hr
      · rename_i hnone
        rw [hnone] at hr
        cases hr
      · cases hr
        obtain ⟨r₀, hr₀, hu⟩ := hrows r hmem
        exact hu ▸ h.vouched hl hw (hv v hrv) r₀ hr₀
  · obtain ⟨r₀, hr₀, hu⟩ := hrows r hmem
    exact hu ▸ h.wrote t l hl hw hd r₀ hr₀

/-- A refresh writes a batch, or as much of it as it gets to. -/
lemma Inv.rewrite (h : Inv st L) (hl : L t = some l) {rows part : List Row}
    (hm : may l (.rewrite rows)) (ok : Bool) (hpart : ∀ r ∈ part, r ∈ rows)
    (hok : ok = true → part = rows) :
    Inv (st.rewrite part) (Function.update L t (some (after l (.rewrite rows) ok))) := by
  obtain ⟨hw, hd, hmark, g, ids, hg, hb⟩ := hm
  have hcarried := h.marked t l
  refine h.write (h.idle hl hw) hw (fun rec v hr _ ht => absurd ht (hcarried rec hl hmark hr))
    (fun hdrop => ?_) (fun _ rec hr => hcarried rec hl hmark hr) fun g' hg' => ?_
  · have hdrop : l.dropped = true := hdrop
    rw [hd] at hdrop
    cases hdrop
  · have hg' : l.going.map (fun g => g.afterRewrite l.marked rows ok) = some g' := hg'
    rw [hg] at hg'
    cases hg'
    refine ⟨hmark, fun r hr => ?_, fun _ _ hbatch => by cases hbatch⟩
    rcases mem_rewrite hr with ⟨hold, hid⟩ | hu
    · rcases h.covered t l g hl hg r hold with hrem | hu | hdirty
      · left
        unfold Going.afterRewrite
        cases ok with
        | false => exact hrem
        | true =>
          obtain rfl := hok rfl
          refine List.mem_filter.2 ⟨hrem, ?_⟩
          simp only [hb, Option.elim_some, decide_eq_true_eq]
          exact fun hmem => hid (h.batch t l g ids _ hl hg hb r hold hmem)
      · exact .inr (.inl hu)
      · exact .inr (.inr (by simp [Going.afterRewrite, hdirty]))
    · obtain ⟨x, hx, hxu⟩ := List.mem_map.1 hu
      by_cases hall : (rows.all fun r => r.under = l.marked) = true
      · have hux := of_decide_eq_true (List.all_eq_true.1 hall x (hpart x hx))
        exact .inr (.inl (hxu ▸ hux))
      · exact .inr (.inr (by simp [Going.afterRewrite, Bool.eq_false_iff.2 hall]))

/-- Every operation of a disciplined task keeps the invariant. -/
lemma Inv.op (h : Inv st L) (hl : L t = some l) {env : ℕ} {o : Op} {r : o.Answer} (hm : may l o)
    (hbegin : o = .begin → ∀ u m, u ≠ t → L u = some m → m.working = false)
    (hdrop : o = .dropSource → env = 0) (he : exec st t env o = some (r, st')) :
    admits o r ∧ Inv st' (Function.update L t (some (after l o r))) := by
  have hkeep : Inv st (Function.update L t (some l)) := by rwa [update_same hl]
  cases o with
  | begin =>
    cases he
    obtain ⟨hd, hmark⟩ := hm
    refine ⟨trivial, h.write (hbegin rfl) rfl h.carried (fun hdrop => ?_)
      (fun hmk => absurd hmark hmk) fun g hg => absurd hmark (h.going t l g hl hg)⟩
    have hdrop : l.dropped = true := hdrop
    rw [hd] at hdrop
    cases hdrop
  | dropSource =>
    obtain rfl := hdrop rfl
    cases he
    have hempty : Inv st.dropSource L :=
      h.shrink (fun _ hr => by cases hr) fun _ hr => hr
    exact ⟨rfl, hempty.turn hl rfl rfl (fun _ _ _ hr => by cases hr) fun g hg =>
      ⟨h.going t l g hl hg, fun _ hr => (by cases hr), fun _ _ _ _ hr => (by cases hr)⟩⟩
  | dropFile path =>
    cases he
    refine ⟨trivial, ?_⟩
    change Inv _ (Function.update L t (some l))
    split
    · exact hkeep.shrink (fun _ hr => (List.mem_filter.1 hr).1) fun _ hr => hr
    · exact hkeep
  | insert kind rows =>
    obtain ⟨hw, hmark⟩ := hm
    cases he
    refine ⟨trivial, ?_⟩
    split
    · -- nothing was stored, whatever the task thinks it wrote
      refine h.turn hl rfl rfl (fun _ hd r hr => List.mem_append.2 (.inr ?_)) fun g hg =>
        absurd hmark (h.going t l g hl hg)
      exact h.wrote t l hl hw hd r hr
    · exact h.insert hl hw hmark kind rows
  | save =>
    obtain ⟨hw, hmark⟩ := hm
    cases he
    refine ⟨trivial, ?_⟩
    change Inv _ (Function.update L t (some l))
    split
    · refine h.write (h.idle hl hw) hw (fun rec v hr hv ht r hmem hs => ?_)
        (fun hd => h.wrote t l hl hw hd) (fun hmk => absurd hmark hmk) fun g hg =>
          absurd hmark (h.going t l g hl hg)
      cases hrec : st.record with
      | none =>
        simp only [Store.save, hrec, Option.getD_none, Option.some.injEq] at hr
        rw [← hr] at hv
        cases hv
      | some rec' =>
        simp only [Store.save, hrec, Option.getD_some, Option.some.injEq] at hr
        subst hr
        exact h.carried rec' v hrec hv ht r hmem hs
    · exact hkeep
  | recordVersion version =>
    obtain ⟨hw, hv⟩ := hm
    cases he
    refine ⟨trivial, h.recordVersion hl hw hv ?_⟩
    split
    · exact .inr rfl
    · exact .inl rfl
  | markRefresh target =>
    obtain ⟨hw, hmark⟩ := hm
    simp only [exec] at he
    split at he
    · cases he
      have htarget : ∀ rec, (st.markRefresh target).record = some rec → rec.target ≠ none := by
        intro rec hr
        obtain ⟨rec', -, rfl⟩ := Option.map_eq_some_iff.1 hr
        exact fun h => by cases h
      exact ⟨trivial, h.write (h.idle hl hw) hw (fun rec v hr _ ht => absurd ht (htarget rec hr))
        (fun hd => h.wrote t l hl hw hd) (fun _ => htarget) fun g hg =>
          absurd hmark (h.going t l g hl hg)⟩
    · cases he
      exact ⟨trivial, hkeep⟩
  | snapshot =>
    obtain ⟨hw, hmark⟩ := hm
    cases he
    refine ⟨trivial, h.turn hl rfl rfl (fun hw hd => h.wrote t l hl hw hd) fun g hg => ?_⟩
    obtain ⟨ids, hids, rfl⟩ := Option.map_eq_some_iff.1 hg
    split at hids
    · cases hids
      exact ⟨hmark, fun r hr => .inl (List.mem_map.2 ⟨r, hr, rfl⟩), fun _ _ hb => by cases hb⟩
    · cases hids
  | fetch ids =>
    cases he
    refine ⟨trivial, h.turn hl rfl rfl (fun hw hd => h.wrote t l hl hw hd) fun g hg => ?_⟩
    obtain ⟨g₀, hg₀, rfl⟩ := Option.map_eq_some_iff.1 hg
    refine ⟨h.going t l g₀ hl hg₀, h.covered t l g₀ hl hg₀, fun ids' found hb r hr hid => ?_⟩
    obtain ⟨rows, hrows, hb⟩ := Option.map_eq_some_iff.1 hb
    cases hb
    split at hrows
    · cases hrows
      exact List.mem_map.2 ⟨r, List.mem_filter.2 ⟨hr, decide_eq_true hid⟩, rfl⟩
    · cases hrows
  | rewrite rows =>
    simp only [exec] at he
    split at he
    · cases he
      exact ⟨trivial, h.rewrite hl hm true (fun _ hr => hr) fun _ => rfl⟩
    · cases he
      exact ⟨trivial, h.rewrite hl hm false (fun _ hr => List.mem_of_mem_take hr)
        fun hfalse => by cases hfalse⟩
  | delete =>
    cases he
    refine ⟨trivial, ?_⟩
    change Inv _ (Function.update L t (some l))
    split
    · exact hkeep.shrink (fun _ hr => hr) fun _ hr => by cases hr
    · exact hkeep
  | setPins view =>
    cases he
    exact ⟨trivial, hkeep.shrink (fun _ hr => hr) fun _ hr => hr⟩
  | _ =>
    cases he
    exact ⟨trivial, hkeep⟩

end Inv

/-! ### Every run keeps to the discipline -/

def Any (_ : Ledger) : Prop := True

/-- A run that writes rows, and no refresh. -/
structure Ledger.Indexing (l : Ledger) : Prop where
  working : l.working = true
  marked : l.marked = none

/-- A full run that has dropped the rows. As long as it has counted no error, all rows it has
inserted carry its version. -/
structure Tallies (cfg : Config) (version : ℕ) (t : Tally) (l : Ledger) : Prop where
  indexing : l.Indexing
  dropped : l.dropped = true
  wrote : cfg.useSummaryVector = true → t.errors = 0 → t.summaryErrors = 0 →
    ∀ u ∈ l.wrote, u = some version

section Programs
variable {cfg : Config} {kind : Kind} {version : ℕ} {t : Tally} {l : Ledger} {w : Faults}

lemma under_summarizedRows {f : File}
    (h : errorCount (summariesForChunks f.llm version f.chunks) = 0) :
    ∀ u ∈ (summarizedRows f version).map Row.under, u = some version := by
  intro u hu
  obtain ⟨r, hr, rfl⟩ := List.mem_map.1 hu
  obtain ⟨x, hx, rfl⟩ := List.mem_map.1 hr
  have hnone := List.filter_eq_nil_iff.1 (List.length_eq_zero_iff.1 h) x.2 (List.of_mem_zip hx).2
  exact if_neg fun he => hnone (decide_eq_true he)

lemma Tallies.raised (h : Tallies cfg version t l) (chunks errors summaryErrors : ℕ) :
    Tallies cfg version ⟨chunks, errors + 1, summaryErrors⟩ l :=
  ⟨h.indexing, h.dropped, fun _ he => absurd he (Nat.succ_ne_zero errors)⟩

lemma wp_processFile (h : Tallies cfg version t l) (f : File) :
    discipline.wp (processFile cfg kind version t f) (fun t => Tallies cfg version t)
      (fun _ => Any) l := by
  unfold processFile
  dsimp only
  split
  · exact h.raised ..
  · split
    · exact h
    · split
      · exact h.raised ..
      · split
        · exact h.raised ..
        · refine ⟨⟨h.indexing.working, h.indexing.marked⟩, fun (ok : Bool) _ => ?_⟩
          have hind : Ledger.Indexing (after l (.insert kind
              (if cfg.useSummaryVector then summarizedRows f version else plainRows f)) ok) :=
            ⟨h.indexing.working, h.indexing.marked⟩
          change discipline.wp (if ok = false ∨ f.fault = some .graph then _ else _) _ _ _
          split
          · exact ⟨hind, h.dropped, fun _ he => absurd he (Nat.succ_ne_zero _)⟩
          · refine ⟨hind, h.dropped, fun huse he hs u hu => ?_⟩
            change u ∈ List.map Row.under (if cfg.useSummaryVector = true then
              summarizedRows f version else plainRows f) ++ l.wrote at hu
            rw [if_pos huse] at hu
            have hs : (if cfg.useSummaryVector = true then t.summaryErrors +
              errorCount (summariesForChunks f.llm version f.chunks) else t.summaryErrors) = 0 := hs
            rw [if_pos huse] at hs
            rcases List.mem_append.1 hu with hu | hu
            · exact under_summarizedRows (by omega) u hu
            · exact h.wrote huse he (by omega) u hu

lemma wp_walkAndIndex (fs : List File) : ∀ {t l}, Tallies cfg version t l →
    discipline.wp (walkAndIndex cfg kind version t fs) (fun t => Tallies cfg version t)
      (fun _ => Any) l := by
  induction fs with
  | nil => exact fun h => h
  | cons f fs ih =>
    intro t l h
    unfold walkAndIndex
    rw [Discipline.wp_bind]
    exact Discipline.wp_mono (fun _ _ h => ih h) (fun _ _ h => h) (wp_processFile h f)

lemma wp_finalizeJob (h : Tallies cfg version t l) (totalFiles : ℕ) :
    discipline.wp (finalizeJob cfg kind version t totalFiles w) (fun _ => Any) (fun _ => Any)
      l := by
  unfold finalizeJob
  split
  · exact trivial
  · split
    · exact trivial
    · refine ⟨⟨h.indexing.working, h.indexing.marked⟩, fun _ _ => ?_⟩
      change discipline.wp (if _ then if _ then recordVersion (some version) else pure ()
        else recordVersion none) _ _ l
      split
      · rename_i hsum
        split
        · rename_i hclean
          refine ⟨⟨h.indexing.working, fun v hv => ?_⟩, fun _ _ => trivial⟩
          obtain rfl := Option.some.inj hv
          exact .inl ⟨h.dropped, h.wrote hsum.2.1 hclean.1 hclean.2⟩
        · exact trivial
      · exact ⟨⟨h.indexing.working, fun v hv => by cases hv⟩, fun _ _ => trivial⟩

lemma wp_resolveSummaryVersion {job : Job} {Q : ℕ → Ledger → Prop} (h : ∀ v, Q v l) :
    discipline.wp (resolveSummaryVersion job w) Q (fun _ => Any) l := by
  unfold resolveSummaryVersion
  split
  · exact h _
  · refine ⟨trivial, fun (v : Option ℕ) _ => ?_⟩
    cases v with
    | none => exact trivial
    | some v =>
      change discipline.wp (if w.persist = true then .raise Exc.fault else pure v) _ _ l
      split
      · exact trivial
      · exact h v

/-- A run that raises has failed, and writes nothing more. -/
lemma wp_failing {p : Act Unit}
    (h : discipline.wp p (fun _ => Any) (fun _ => Any) { discipline.init with working := true }) :
    discipline.wp (begin >>= fun _ => Prog.catching p failJob) (fun _ => Any) (fun _ => Any)
      discipline.init := by
  refine ⟨⟨rfl, rfl⟩, fun _ _ => ?_⟩
  change discipline.wp (Prog.catching p failJob) _ _ _
  rw [Discipline.wp_catching]
  exact h

/-- What a full run goes on to after it has dropped the rows. -/
lemma wp_reset {job : Job} {p : ℕ → Act Unit}
    (h : ∀ version, discipline.wp (p version) (fun _ => Any) (fun _ => Any)
      ⟨true, true, [], none, none⟩) :
    discipline.wp (resolveSummaryVersion job w >>= fun version => dropSource >>= fun _ => p version)
      (fun _ => Any) (fun _ => Any) { discipline.init with working := true } := by
  rw [Discipline.wp_bind]
  refine wp_resolveSummaryVersion fun version => ⟨trivial, fun (ok : Bool) hok => ?_⟩
  obtain rfl : ok = true := hok
  exact h version

lemma tallies_reset (t : Tally) : Tallies cfg version t ⟨true, true, [], none, none⟩ :=
  ⟨⟨rfl, rfl⟩, rfl, fun _ _ _ _ hu => by cases hu⟩

lemma wp_runTreeJob (job : Job) (fs : List File) :
    discipline.wp (runTreeJob cfg kind job fs w) (fun _ => Any) (fun _ => Any)
      discipline.init := by
  refine wp_failing (wp_reset fun version => ?_)
  split
  · exact trivial
  · rw [Discipline.wp_bind]
    refine Discipline.wp_mono (fun t l h => ?_) (fun _ _ h => h)
      (wp_walkAndIndex fs (tallies_reset _))
    split
    · exact trivial
    · exact wp_finalizeJob h _

lemma wp_runIndexFileJob (job : Job) (f : File) :
    discipline.wp (runIndexFileJob cfg job f w) (fun _ => Any) (fun _ => Any)
      discipline.init := by
  refine wp_failing (wp_reset fun version => ?_)
  dsimp only
  split
  · exact trivial
  · split
    · exact wp_finalizeJob (tallies_reset _) _
    · split
      · exact trivial
      · refine ⟨⟨rfl, rfl⟩, fun (ok : Bool) _ => ?_⟩
        change discipline.wp (if ok = true then if f.fault = some .graph then .raise Exc.fault
          else finalizeJob cfg .file version _ 1 w else .raise Exc.fault) _ _ _
        split
        · split
          · exact trivial
          · -- a file job records no version
            unfold finalizeJob
            split
            · exact trivial
            · split
              · exact trivial
              · exact ⟨⟨rfl, rfl⟩, fun _ _ => ⟨⟨rfl, fun v hv => by cases hv⟩, fun _ _ => trivial⟩⟩
        · exact trivial

lemma wp_runIndexGraphJob :
    discipline.wp (runIndexGraphJob w) (fun _ => Any) (fun _ => Any) discipline.init := by
  refine wp_failing ⟨trivial, fun (rec : Option Record) _ => ?_⟩
  cases rec with
  | none => exact trivial
  | some rec =>
    change discipline.wp (if w.opens = true ∨ w.walk = true ∨ w.graph = true then
      .raise Exc.fault else _) _ _ _
    split
    · exact trivial
    · refine ⟨trivial, fun (rec : Option Record) _ => ?_⟩
      cases rec with
      | none => exact ⟨⟨rfl, rfl⟩, fun _ _ => trivial⟩
      | some rec => exact trivial

/-- The operations of an incremental run. -/
def IncrementalOp : Op → Prop
  | .dropFile _ => True
  | .insert _ _ => True
  | _ => False

lemma uses_processChange (c : Changed) : Uses IncrementalOp (processChange c) := by
  unfold processChange
  split
  · refine Uses.bind ⟨trivial, fun _ => trivial⟩ fun _ => ?_
    split
    · trivial
    · split
      · trivial
      · exact Uses.bind ⟨trivial, fun _ => trivial⟩ fun _ => trivial
  · trivial

lemma wp_runIncrementalIndex (removed : List FilePath) (cs : List Changed) :
    discipline.wp (runIncrementalIndex removed cs w) (fun _ => Any) (fun _ => Any)
      discipline.init := by
  have huses : Uses IncrementalOp (Prog.forEach removed dropFile >>= fun _ =>
      if cs = [] then pure () else if w.opens then .raise .fault
        else Prog.forEach cs processChange) := by
    refine Uses.bind (Uses.forEach fun _ _ => ⟨trivial, fun _ => trivial⟩) fun _ => ?_
    split
    · trivial
    · split
      · trivial
      · exact Uses.forEach fun c _ => uses_processChange c
  refine ⟨⟨rfl, rfl⟩, fun _ _ => ?_⟩
  refine Discipline.wp_mono (fun _ _ _ => trivial) (fun _ _ _ => trivial)
    (huses.wp (D := discipline) (I := Ledger.Indexing) (fun o ho l hl => ?_) ⟨rfl, rfl⟩)
  cases o <;> first
    | exact ho.elim
    | exact ⟨trivial, fun _ _ => hl⟩
    | exact ⟨⟨hl.working, hl.marked⟩, fun _ _ => ⟨hl.working, hl.marked⟩⟩

/-! #### Refreshes -/

/-- A refresh that has `ids` before it. As long as it has counted no error, every row it has
written carries its target. -/
structure Refreshing (target : ℕ) (ids : List ℕ) (errors : ℕ) (l : Ledger) : Prop where
  working : l.working = true
  dropped : l.dropped = false
  marked : l.marked = some target
  going : ∃ g, l.going = some g ∧ (∀ i ∈ g.remaining, i ∈ ids) ∧ (errors = 0 → g.clean = true)

lemma resummarized_id (target : ℕ) (r : Row) (x : Option String × Strategy) :
    (resummarized target r x).id = r.id := by
  unfold resummarized
  split <;> rfl

/-- A batch is written under the ids it was read by. -/
lemma ids_resummarized (target : ℕ) (llm : Llm) (rows : List Row) :
    (List.zipWith (resummarized target) rows
      (summariesForChunks llm target (rows.map Row.text))).map Row.id = rows.map Row.id := by
  induction rows with
  | nil => rfl
  | cons r rows ih =>
    simp only [summariesForChunks, List.map_cons, List.zipWith_cons_cons, resummarized_id] at ih ⊢
    rw [ih]

lemma under_resummarized {target : ℕ} {llm : Llm} {rows : List Row}
    (h : errorCount (summariesForChunks llm target (rows.map Row.text)) = 0) :
    ((List.zipWith (resummarized target) rows
      (summariesForChunks llm target (rows.map Row.text))).all
        fun r => r.under = some target) = true := by
  have hnone := List.filter_eq_nil_iff.1 (List.length_eq_zero_iff.1 h)
  rw [List.all_eq_true]
  intro r hr
  rw [← List.map_uncurry_zip_eq_zipWith] at hr
  obtain ⟨x, hx, rfl⟩ := List.mem_map.1 hr
  have hne : x.2.2 ≠ .error := fun he => hnone x.2 (List.of_mem_zip hx).2 (decide_eq_true he)
  change decide ((resummarized target x.1 x.2).under = some target) = true
  simp only [resummarized, if_neg hne, decide_true]

lemma Refreshing.afterRewrite {target errors : ℕ} {ids : List ℕ} (cfg : Config) (llm : Llm)
    (rows : List Row) (h : Refreshing target ids errors l) :
    may (after l (.fetch (ids.take cfg.embedBatchSize)) (some rows)) (.rewrite
        (List.zipWith (resummarized target) rows
          (summariesForChunks llm target (rows.map Row.text)))) ∧
      Refreshing target (ids.drop cfg.embedBatchSize)
        (errors + errorCount (summariesForChunks llm target (rows.map Row.text)))
        (after (after l (.fetch (ids.take cfg.embedBatchSize)) (some rows)) (.rewrite
          (List.zipWith (resummarized target) rows
            (summariesForChunks llm target (rows.map Row.text)))) true) := by
  obtain ⟨hw, hd, hm, g, hg, hrem, hclean⟩ := h
  have hfetched : (after l (.fetch (ids.take cfg.embedBatchSize)) (some rows)).going =
      some { g with batch := some (ids.take cfg.embedBatchSize, rows.map Row.id) } := by
    change l.going.map _ = _
    rw [hg]
    rfl
  constructor
  · refine ⟨hw, hd, by rw [show (after l _ _).marked = l.marked from rfl, hm]; simp, _,
      ids.take cfg.embedBatchSize, hfetched, ?_⟩
    rw [ids_resummarized]
  · refine ⟨hw, hd, hm, _, congrArg (Option.map _) hfetched, fun i hi => ?_, fun he => ?_⟩
    · -- what is left was not in the batch
      obtain ⟨hmem, hnot⟩ := List.mem_filter.1 hi
      have hi' := hrem i hmem
      rw [← List.take_append_drop cfg.embedBatchSize ids] at hi'
      exact (List.mem_append.1 hi').resolve_left (of_decide_eq_true hnot)
    · have hold : g.clean = true := hclean (by omega)
      simp only [Going.afterRewrite, hold, Bool.true_and]
      change (List.all _ fun r : Row => decide (r.under = l.marked)) = true
      rw [hm]
      exact under_resummarized (by omega)

lemma wp_refreshBatches {target : ℕ} {b : ℕ → Batch} (n : ℕ) : ∀ {ids errors l},
    ids.length ≤ n → Refreshing target ids errors l →
      discipline.wp (refreshBatches cfg target b n ids errors)
        (fun r l => ∀ errors, r = some errors → Refreshing target [] errors l) (fun _ => Any) l := by
  induction n with
  | zero =>
    intro ids errors l hn h
    obtain rfl := List.length_eq_zero_iff.1 (Nat.le_zero.1 hn)
    rintro e ⟨⟩
    exact h
  | succ n ih =>
    intro ids errors l hn h
    cases ids with
    | nil =>
      rintro e ⟨⟩
      exact h
    | cons i ids =>
      refine ⟨trivial, fun (waiting : Bool) _ => ?_⟩
      cases waiting with
      | true => exact fun _ he => by cases he
      | false =>
        refine ⟨trivial, fun (source : Option Record) _ => ?_⟩
        cases source with
        | none => exact fun _ he => by cases he
        | some source =>
          refine ⟨trivial, fun (rows : Option (List Row)) _ => ?_⟩
          cases rows with
          | none => exact trivial
          | some rows =>
            change discipline.wp (if (b n).raises = true then .raise Exc.fault else _) _ _ _
            split
            · exact trivial
            · refine ⟨trivial, fun (source : Option Record) _ => ?_⟩
              cases source with
              | none => exact fun _ he => by cases he
              | some source =>
                obtain ⟨hmay, hnext⟩ := h.afterRewrite cfg (b n).llm rows
                refine ⟨hmay, fun (ok : Bool) _ => ?_⟩
                cases ok with
                | false => exact trivial
                | true =>
                  refine ⟨trivial, fun (source : Option Record) _ => ?_⟩
                  cases source with
                  | none => exact ⟨trivial, fun _ _ _ he => by cases he⟩
                  | some source =>
                    refine ih ?_ hnext
                    have hpos := cfg.pos
                    simp only [List.length_drop, List.length_cons] at hn ⊢
                    omega

lemma wp_refreshRows {target : ℕ} {b : ℕ → Batch} :
    discipline.wp (refreshRows cfg target b) (fun _ => Any) (fun _ => Any)
      { discipline.init with working := true } := by
  refine ⟨⟨rfl, rfl⟩, fun (ok : Bool) _ => ?_⟩
  cases ok with
  | false => exact trivial
  | true =>
    refine ⟨⟨rfl, by simp [after]⟩, fun (ids : Option (List ℕ)) _ => ?_⟩
    cases ids with
    | none => exact trivial
    | some ids =>
      change discipline.wp (refreshBatches cfg target b ids.length ids 0 >>= _) _ _ _
      rw [Discipline.wp_bind]
      refine Discipline.wp_mono (fun r l h => ?_) (fun _ _ h => h)
        (wp_refreshBatches ids.length le_rfl
          ⟨rfl, rfl, rfl, ⟨ids, true, none⟩, rfl, fun _ hi => hi, fun _ => rfl⟩)
      cases r with
      | none => exact trivial
      | some errors =>
        obtain ⟨hw, -, hm, g, hg, hrem, hclean⟩ := h errors rfl
        change discipline.wp (if 0 < ids.length ∧ errors = ids.length then pure () else _) _ _ l
        split
        · exact trivial
        · refine ⟨trivial, fun (n : Option ℕ) _ => ?_⟩
          cases n with
          | none => exact trivial
          | some n =>
            change discipline.wp (if n ≠ ids.length then .raise Exc.fault
              else if errors = 0 then recordVersion (some target) else pure ()) _ _ l
            split
            · exact trivial
            · split
              · rename_i he
                refine ⟨⟨hw, fun v hv => ?_⟩, fun _ _ => trivial⟩
                obtain rfl := Option.some.inj hv
                exact .inr ⟨hm, g, hg, List.eq_nil_iff_forall_not_mem.2 fun i hi =>
                  List.not_mem_nil (hrem i hi), hclean he⟩
              · exact trivial

lemma wp_runResummarizeJob {b : ℕ → Batch} :
    discipline.wp (runResummarizeJob cfg b w) (fun _ => Any) (fun _ => Any)
      discipline.init := by
  refine wp_failing ⟨trivial, fun (target : Option ℕ) _ => ?_⟩
  cases target with
  | none => exact trivial
  | some target =>
    change discipline.wp (if w.persist = true then .raise Exc.fault else
      if cfg.useSummaryVector = true ∧ cfg.supported = true then _ else pure ()) _ _ _
    split
    · exact trivial
    · split
      · refine ⟨trivial, fun (source : Option Record) _ => ?_⟩
        change discipline.wp (if source = some ⟨some target, none⟩ then pure () else _) _ _ _
        split
        · exact trivial
        · exact wp_refreshRows
      · exact trivial

lemma wp_main (e : Entry) :
    discipline.wp e.main (fun _ => Any) (fun _ => Any) discipline.init := by
  cases e with
  | file cfg job f w => exact wp_runIndexFileJob job f
  | directory cfg job fs w => exact wp_runTreeJob job fs
  | repo cfg job fs w => exact wp_runTreeJob job fs
  | graph w => exact wp_runIndexGraphJob
  | incremental removed cs w => exact wp_runIncrementalIndex removed cs
  | resummarize cfg b w => exact wp_runResummarizeJob
  | delete w =>
    refine ⟨trivial, fun _ _ => ?_⟩
    change discipline.wp (if w.graph = true then .raise Exc.fault else _) _ _ _
    split
    · exact trivial
    · exact ⟨trivial, fun _ _ => trivial⟩
  | setPins view => exact ⟨trivial, fun _ _ => trivial⟩

end Programs

/-! ### Runs -/

lemma kept : Kept (M := machine) (D := discipline) Apart Any Inv where
  main _ _ e _ := wp_main e
  start s t e _ h ht := by
    have hold : ∀ {u m}, Function.update s.records t (some discipline.init) u = some m →
        m = discipline.init ∨ s.records u = some m := by
      intro u m hu
      rcases update_cases hu with ⟨-, hx⟩ | ⟨-, hu⟩
      · exact .inl (Option.some.inj hx).symm
      · exact .inr hu
    refine ⟨fun u v m m' hu hv hm hm' => ?_, h.carried, fun u m hu hm => ?_, fun u m hu hm => ?_,
      fun u m g hu hg => ?_, fun u m rec hu hm => ?_, fun u m g hu hg => ?_,
      fun u m g ids found hu hg => ?_⟩
    · rcases hold hu with rfl | hu
      · cases hm
      · rcases hold hv with rfl | hv
        · cases hm'
        · exact h.alone u v m m' hu hv hm hm'
    · rcases hold hu with rfl | hu
      · cases hm
      · exact h.wrote u m hu hm
    · rcases hold hu with rfl | hu
      · exact absurd rfl hm
      · exact h.works u m hu hm
    · rcases hold hu with rfl | hu
      · cases hg
      · exact h.going u m g hu hg
    · rcases hold hu with rfl | hu
      · exact absurd rfl hm
      · exact h.marked u m rec hu hm
    · rcases hold hu with rfl | hu
      · cases hg
      · exact h.covered u m g hu hg
    · rcases hold hu with rfl | hu
      · cases hg
      · exact h.batch u m g ids found hu hg
  op s t env o l r st hc ho hl hm h he :=
    h.op hl hm (fun hb => hc.1 (hb ▸ ho)) (fun hd => hc.2 (hd ▸ ho)) he
  stop s t env l _ _ _ h := by
    have hold : ∀ {u m}, Function.update s.records t none u = some m → s.records u = some m := by
      intro u m hu
      exact (update_cases hu).elim (fun hx => by cases hx.2) And.right
    exact h.fewer hold
  kill s p _ h := by
    have hold : ∀ {u : Tid} {m : Ledger},
        (if u.proc = p then none else s.records u) = some m → s.records u = some m := by
      intro u m hu
      split at hu
      · cases hu
      · exact hu
    exact h.fewer hold
  own _ x := x.elim

/-- Every row that was there when the version was recorded carries it. -/
def Sound (st : Store) : Prop :=
  ∀ rec v, st.record = some rec → rec.version = some v → rec.target = none →
    ∀ r ∈ st.rows, r.since = none → r.under = some v

/-- Nothing is indexed, and the pin is at version 3. -/
def unindexed : Store := ⟨[], 0, none, ⟨fun _ => some 3, fun _ => none⟩, "s", false⟩

def config : Config := ⟨true, true, 32, by decide⟩

/-- A file of one chunk, which the model summarizes. -/
def sourceFile (name : String) : File :=
  ⟨.rel [name], [name], ⟨fun _ _ => none, fun _ _ => none, fun s _ => (some s, .generated)⟩, none⟩

def steps (t : Tid) (n : ℕ) : List (Label machine) := List.replicate n (.run t 0)

/-- A repository is indexed. -/
def indexed : List (Label machine) :=
  .start ⟨0, 0⟩ (.repo config ⟨none, 0, 0⟩ [sourceFile "a.py"] ⟨false, false, false, false⟩) ::
    steps ⟨0, 0⟩ 7

/-- And then a file is pushed. -/
def pushed : List (Label machine) :=
  indexed ++ .start ⟨0, 1⟩ (.incremental [] [⟨sourceFile "b.py", true, true⟩]
    ⟨false, false, false, false⟩) :: steps ⟨0, 1⟩ 4

def apart (s : Sys) : Label machine → Bool
  | .run t env => match s.nextOp t with
    | some .begin => s.tasks.rows.all fun k => k.tid = t || k.record.working = false
    | some .dropSource => env = 0
    | _ => true
  | _ => true

lemma apart_of (s : Sys) (l : Label machine) (h : apart s l = true) : Apart s l := by
  cases l with
  | run t env =>
    refine ⟨fun ho u m hu hm => ?_, fun ho => ?_⟩
    · simp only [apart, ho, List.all_eq_true, Bool.or_eq_true, decide_eq_true_eq] at h
      obtain ⟨k, hk, rfl⟩ := Option.map_eq_some_iff.1 hm
      obtain ⟨hmem, rfl⟩ := Keyed.get?_eq_some.1 hk
      exact (h k hmem).resolve_left hu
    · rw [apart, ho] at h
      exact of_decide_eq_true h
  | _ => trivial

end Treeweft.SummaryVersion
