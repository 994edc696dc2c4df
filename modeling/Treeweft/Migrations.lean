import Treeweft.Mutex
import Treeweft.Indexer
import Mathlib.Data.List.Sort
import Mathlib.Data.String.Basic

/-!
Processes that start together and bring the schema up to date.

A script runs in one transaction with its row in the tracking table, behind a lock that the
transaction keeps to its end. What a process knows to be recorded it has read from the table or
has committed itself; a script runs only after all before it are known to be.
-/

namespace Treeweft.Migrations

open Machine (State Label Run Kept initial)
open Mutex (Held)
open Indexer (isSpace)

/-! ### Transaction control -/

section Statements

/-- From the first place where `sub` stands, what follows it. -/
def afterSub (sub : List Char) : List Char → Option (List Char)
  | [] => if sub = [] then some [] else none
  | c :: cs => if sub.isPrefixOf (c :: cs) then some ((c :: cs).drop sub.length) else afterSub sub cs

/-- What follows a quoted text, whose quote is read already. A doubled quote does not end it. -/
def afterQuote (q : Char) : List Char → List Char
  | [] => []
  | [_] => []
  | c :: d :: cs =>
    if c = q then if d = q then afterQuote q cs else d :: cs
    else afterQuote q (d :: cs)

/-- The tag of a dollar-quoted body, `word` being `\w`. -/
def dollarTag (word : Char → Bool) : List Char → Option (List Char)
  | '$' :: cs =>
    match cs.dropWhile word with
    | '$' :: _ => some ('$' :: cs.takeWhile word ++ ['$'])
    | _ => none
  | _ => none

def strip (cs : List Char) : List Char := Indexer.rstrip (cs.dropWhile isSpace)

lemma length_afterSub {sub cs rest : List Char} (h : afterSub sub cs = some rest) :
    rest.length ≤ cs.length := by
  induction cs with
  | nil =>
    rw [afterSub] at h
    split at h <;> cases h
    rfl
  | cons c cs ih =>
    rw [afterSub] at h
    split at h
    · cases h
      rw [List.length_drop]
      exact Nat.sub_le _ _
    · exact (ih h).trans (Nat.le_succ _)

lemma length_afterQuote (q : Char) (cs : List Char) : (afterQuote q cs).length ≤ cs.length := by
  fun_induction afterQuote q cs with
  | case1 => rfl
  | case2 => simp
  | case3 cs ih => simp; omega
  | case4 => simp
  | case5 c d cs _ ih => simp at ih ⊢; omega

lemma length_afterSub_getD (sub cs : List Char) :
    ((afterSub sub cs).getD []).length ≤ cs.length := by
  cases h : afterSub sub cs with
  | none => simp
  | some rest => exact length_afterSub h

/-- `_statements`, from the text read so far, last character first. -/
def statementsFrom (word : Char → Bool) (current : List Char) : List Char → List (List Char)
  | [] => [strip current.reverse]
  | '-' :: '-' :: cs => statementsFrom word current (cs.dropWhile (· ≠ '\n'))
  | '/' :: '*' :: cs => statementsFrom word (' ' :: current) ((afterSub ['*', '/'] cs).getD [])
  | c :: cs =>
    if c = '\'' ∨ c = '"' then statementsFrom word (' ' :: current) (afterQuote c cs)
    else
      match dollarTag word (c :: cs) with
      | some tag => statementsFrom word (' ' :: current)
          ((afterSub tag (cs.drop (tag.length - 1))).getD [])
      | none =>
        if c = ';' then strip current.reverse :: statementsFrom word [] cs
        else statementsFrom word (c :: current) cs
  termination_by cs => cs.length
  decreasing_by
    · have := (List.dropWhile_sublist (fun c => c ≠ '\n') (l := cs)).length_le
      simp only [List.length_cons]
      omega
    · have := length_afterSub_getD ['*', '/'] cs
      simp only [List.length_cons]
      omega
    · have := length_afterQuote c cs
      simp only [List.length_cons]
      omega
    · have := length_afterSub_getD tag (cs.drop (tag.length - 1))
      simp only [List.length_cons, List.length_drop] at this ⊢
      omega
    · simp
    · simp

/-- The statements of a script, without comments and quoted texts. -/
def statements (word : Char → Bool) (sql : String) : List String :=
  ((statementsFrom word [] sql.toList).filter (· ≠ [])).map String.ofList

/-- A letter as `re.IGNORECASE` sees it. -/
def fold : Char → Char
  | '\u0130' | '\u0131' => 'I'
  | '\u017F' => 'S'
  | '\u212A' => 'K'
  | c => c.toUpper

/-- What follows a keyword at the beginning. -/
def keyword (kw : String) (cs : List Char) : Option (List Char) :=
  if (cs.take kw.length).map fold = kw.toList then some (cs.drop kw.length) else none

def boundary (word : Char → Bool) : List Char → Bool
  | [] => true
  | c :: _ => !word c

/-- Two keywords with whitespace between them. -/
def keywords (kw kw' : String) (cs : List Char) : Option (List Char) :=
  match keyword kw cs with
  | some (c :: cs) => if isSpace c then keyword kw' (cs.dropWhile isSpace) else none
  | _ => none

/-- `_TRANSACTION_CONTROL.match`. -/
def controls (word : Char → Bool) (s : String) : Bool :=
  let cs := s.toList
  [keyword "BEGIN" cs, keywords "START" "TRANSACTION" cs, keyword "COMMIT" cs, keyword "END" cs,
    keyword "ROLLBACK" cs, keyword "ABORT" cs, keywords "PREPARE" "TRANSACTION" cs].any fun rest =>
    rest.any (boundary word)

def transactionControl (word : Char → Bool) (sql : String) : List String :=
  (statements word sql).filter (controls word)

end Statements

/-! ### A process -/

/-- An exception of the database or of the file system. -/
structure Fault where
  type_name : String
  detail : String
  is_timeout : Bool
  deriving DecidableEq, Repr

inductive Exc
  | migration (message : String)
  | fault (f : Fault)
  deriving DecidableEq, Repr

/-- `_failed`. -/
def failed (what : String) : Exc → Exc
  | .migration message => .migration message
  | .fault f =>
    let detail := if f.detail = "" ∧ f.is_timeout then
      "a statement, or the wait for the migrations lock, exceeded its time limit" else f.detail
    .migration (what ++ " failed: " ++ f.type_name ++ ": " ++ detail)

inductive Reply (α : Type)
  | ok (a : α)
  | raised (f : Fault)

inductive Op
  /-- Whether there is a pool. -/
  | getPool
  | acquire
  | begin
  /-- `_LOCK_SQL`. -/
  | lock
  | tableExists
  | createTable
  | commit
  | rollback
  /-- `SELECT name`, of all rows. -/
  | names
  | listdir
  | readText (fname : String)
  /-- `SELECT name`, of one row. -/
  | recorded (fname : String)
  /-- The script `sql`, which is that of `fname`. -/
  | execute (fname sql : String)
  | isInTransaction
  | insert (fname : String)

def Op.Answer : Op → Type
  | .getPool => Reply Bool
  | .acquire => Reply Unit
  | .begin => Reply Unit
  | .lock => Reply Unit
  | .tableExists => Reply Bool
  | .createTable => Reply Unit
  | .commit => Reply Unit
  | .rollback => Unit
  | .names => Reply (List String)
  | .listdir => Reply (List String)
  | .readText _ => Reply String
  | .recorded _ => Reply Bool
  | .execute .. => Reply Unit
  | .isInTransaction => Bool
  | .insert _ => Reply Unit

abbrev signature : Signature := ⟨Op, Op.Answer⟩

abbrev P := Prog signature Exc

def Reply.isOk {α : Type} : Reply α → Bool
  | .ok _ => true
  | .raised _ => false

def Reply.get {α : Type} : Reply α → P α
  | .ok a => .ret a
  | .raised f => .raise (.fault f)

/-- `async with conn.transaction(isolation=_ISOLATION)`. -/
def transaction {α : Type} (body : P α) : P α :=
  .op .begin fun (r : Reply Unit) => r.get.bind fun _ =>
    Prog.transact (.op .commit fun (r : Reply Unit) => r.get) (.op .rollback fun _ => .ret ()) body

/-- The tracking table is there, and its rows are read. -/
def prepare : P (List String) :=
  (transaction (.op .lock fun (r : Reply Unit) => r.get.bind fun _ =>
    .op .tableExists fun (r : Reply Bool) => r.get.bind fun there =>
      if there then .ret () else .op .createTable fun (r : Reply Unit) => r.get)).bind fun _ =>
  .op .names fun (r : Reply (List String)) => r.get

/-- `_migration_files`. -/
def migrationFiles (listing : List String) : List String :=
  (listing.filter fun f => f.endsWith ".sql").insertionSort (· ≤ ·)

def containsControl (fname : String) (found : List String) : String :=
  "Migration " ++ fname ++ " contains transaction control (" ++ "; ".intercalate found ++
    "). Remove it: every migration already runs in one transaction with its tracking row. Nothing " ++
    "in the file was run."

def endedTransaction (fname : String) : String :=
  "Migration " ++ fname ++ " ended the transaction it runs in. It has no tracking row, and " ++
    "whatever it committed before that point is still in the database."

/-- One file, in its transaction: whether it was applied. -/
def applyOne (fname sql : String) : P Bool :=
  transaction (.op .lock fun (r : Reply Unit) => r.get.bind fun _ =>
    .op (.recorded fname) fun (r : Reply Bool) => r.get.bind fun there =>
      if there then .ret false
      else .op (.execute fname sql) fun (r : Reply Unit) => r.get.bind fun _ =>
        .op .isInTransaction fun inside =>
          match inside with
          | false => .raise (.migration (endedTransaction fname))
          | true => .op (.insert fname) fun (r : Reply Unit) => r.get.bind fun _ => .ret true)

def migrate (word : Char → Bool) (fname : String) : P Bool :=
  Prog.catching (.op (.readText fname) fun (r : Reply String) => r.get.bind fun sql =>
    match transactionControl word sql with
    | [] => applyOne fname sql
    | found => .raise (.migration (containsControl fname found)))
    fun e => .raise (failed ("Migration " ++ fname) e)

def migrateAll (word : Char → Bool) (done : List String) : List String → P (List String)
  | [] => .ret []
  | fname :: rest =>
    if done.contains fname then migrateAll word done rest
    else (migrate word fname).bind fun applied =>
      (migrateAll word done rest).bind fun more =>
        .ret (if applied then fname :: more else more)

def runMigrations (word : Char → Bool) : P (List String) :=
  .op .getPool fun (r : Reply Bool) => r.get.bind fun pool =>
    if !pool then .ret []
    else .op .acquire fun (r : Reply Unit) => r.get.bind fun _ =>
      (Prog.catching prepare fun e =>
        .raise (failed "Preparing the treeweft_migrations table" e)).bind fun done =>
      .op .listdir fun (r : Reply (List String)) => r.get.bind fun listing =>
        migrateAll word done (migrationFiles listing)

/-! ### The database -/

/-- What a transaction has done and not committed. -/
structure Pending where
  effects : List String
  rows : List String
  table : Bool

/-- The tracking table and its rows, the scripts whose effects are committed, the lock, and what
is left of the transaction of each process. -/
structure Store where
  table : Bool
  rows : List String
  effects : List String
  lock : Option Tid
  pending : Tid → Pending
  inside : Tid → Bool

/-- The scripts of the release, which of them end the transaction they run in, and what can go
wrong outside. -/
structure Release where
  listing : List String
  text : String → String
  ends : String → Bool
  fault : ℕ → Fault

def Release.files (rel : Release) : List String := migrationFiles rel.listing

def Store.flush (st : Store) (t : Tid) : Store :=
  { st with
    table := st.table || (st.pending t).table
    rows := st.rows ++ (st.pending t).rows
    effects := st.effects ++ (st.pending t).effects }

def Store.close (st : Store) (t : Tid) : Store :=
  { st with
    lock := if st.lock = some t then none else st.lock
    pending := Function.update st.pending t ⟨[], [], false⟩
    inside := Function.update st.inside t false }

def Store.hold (st : Store) (t : Tid) (p : Pending) : Store :=
  { st with pending := Function.update st.pending t p }

section Exec
variable (rel : Release)

def reply {α : Type} (env : ℕ) (a : α) : Reply α :=
  if env = 0 then .ok a else .raised (rel.fault env)

/-- A statement that needs the tracking table. -/
def ofTable {α : Type} (st : Store) (env : ℕ) (a : α) : Reply α :=
  if st.table then reply rel env a else .raised ⟨"UndefinedTableError", "", false⟩

variable {rel} in
lemma eq_of_reply {α : Type} {env : ℕ} {a b : α} (h : reply rel env a = .ok b) : b = a := by
  unfold reply at h
  split at h <;> cases h
  rfl

variable {rel} in
lemma eq_of_ofTable {α : Type} {st : Store} {env : ℕ} {a b : α}
    (h : ofTable rel st env a = .ok b) : b = a := by
  unfold ofTable at h
  split at h
  · exact eq_of_reply h
  · cases h

def exec (st : Store) (t : Tid) (env : ℕ) : (o : Op) → Option (o.Answer × Store)
  | .getPool => some (if env = 1 then .ok false else reply rel env true, st)
  | .acquire => some (reply rel env (), st)
  | .begin => some (reply rel env (),
      { st.hold t ⟨[], [], false⟩ with inside := Function.update st.inside t true })
  | .lock =>
    if env = 0 then if st.lock = none then some (Reply.ok (), { st with lock := some t }) else none
    else some (Reply.raised (rel.fault env), st)
  | .tableExists => some (reply rel env st.table, st)
  | .createTable => some (reply rel env (),
      if env = 0 then st.hold t { st.pending t with table := true } else st)
  | .commit =>
    -- the answer to a commit may be lost, whether it was made or not
    some (reply rel env (), (if env = 1 then st else st.flush t).close t)
  | .rollback => some ((), st.close t)
  | .names => some (ofTable rel st env st.rows, st)
  | .listdir => some (reply rel env rel.listing, st)
  | .readText fname => some (reply rel env (rel.text fname), st)
  | .recorded fname => some (ofTable rel st env (st.rows.contains fname), st)
  | .execute fname _ => some (reply rel env (),
      -- a script that ends the transaction has committed what it did
      if rel.ends fname then { st.close t with effects := st.effects ++ [fname] }
      else if env = 0 then
        st.hold t { st.pending t with effects := (st.pending t).effects ++ [fname] }
      else st)
  | .isInTransaction => some (st.inside t, st)
  | .insert fname =>
    if st.rows.contains fname then some (Reply.raised ⟨"UniqueViolationError", "", false⟩, st)
    else some (ofTable rel st env (),
      if (ofTable rel st env ()).isOk then
        st.hold t { st.pending t with rows := (st.pending t).rows ++ [fname] }
      else st)

def machine (word : Char → Bool) : Machine signature Exc where
  Store := Store
  exec := exec rel
  Entry := Unit
  main _ := (runMigrations word).bind fun _ => .ret ()
  kill p st := { st with lock := st.lock.filter fun t => t.proc ≠ p }
  Own := Empty
  own _ x := x.elim

end Exec

/-! ### What a process does and knows -/

inductive Phase
  | idle
  | begun
  | held
  | absent (fname : String)
  | executed (fname : String)
  | inserted (fname : String)

/-- It has the lock. -/
def Phase.holds : Phase → Bool
  | .idle | .begun => false
  | _ => true

/-- Where a process is, and what it knows to be recorded. -/
structure Progress where
  known : List String
  phase : Phase

def Progress.holds (l : Progress) : Bool := l.phase.holds

def Progress.at_ (l : Progress) (ph : Phase) : Progress := { l with phase := ph }

def may (files : List String) (l : Progress) : Op → Prop
  | .getPool | .acquire | .begin | .names | .listdir | .readText _ => l.phase = .idle
  | .lock => l.phase = .begun
  | .tableExists | .createTable | .recorded _ => l.phase = .held
  | .execute fname _ =>
    l.phase = .absent fname ∧ fname ∈ files ∧ ∀ g ∈ files, g < fname → g ∈ l.known
  | .isInTransaction => ∃ fname, l.phase = .executed fname
  | .insert fname => l.phase = .executed fname
  | .commit => l.phase = .held ∨ ∃ fname, l.phase = .inserted fname
  | .rollback => l.phase ≠ .idle

def after (l : Progress) : (o : Op) → o.Answer → Progress
  | .begin, .ok _ => l.at_ .begun
  | .lock, .ok _ => l.at_ .held
  | .names, .ok rows => { l with known := rows }
  | .recorded fname, .ok true => { l with known := fname :: l.known }
  | .recorded fname, .ok false => l.at_ (.absent fname)
  | .execute fname _, .ok _ => l.at_ (.executed fname)
  | .insert fname, .ok _ => l.at_ (.inserted fname)
  | .commit, .ok _ =>
    match l.phase with
    | .inserted fname => ⟨fname :: l.known, .idle⟩
    | _ => l.at_ .idle
  | .commit, .raised _ => l.at_ .idle
  | .rollback, _ => l.at_ .idle
  | _, _ => l

/-- All processes have the scripts of one release, and none of these ends its transaction. -/
def admits (listing : List String) : (o : Op) → o.Answer → Prop
  | .listdir, .ok l => l = listing
  | .isInTransaction, inside => inside = true
  | _, _ => True

abbrev discipline (rel : Release) : Discipline signature where
  Local := Progress
  init := ⟨[], .idle⟩
  may := may rel.files
  admits _ := admits rel.listing
  after := after

def Idle (l : Progress) : Prop := l.phase = .idle

section Wp
variable (rel : Release) (word : Char → Bool)

lemma wp_rollback {l : Progress} (h : l.phase ≠ .idle) :
    (discipline rel).wp (.op .rollback fun _ => .ret () : P Unit) (fun _ => Idle) (fun _ => Idle) l :=
  ⟨h, fun _ _ => rfl⟩

/-- The end of a transaction that has run no script. -/
lemma wp_commit {known : List String} {Q : Progress → Prop} (h : Q ⟨known, .idle⟩) :
    (discipline rel).wp (.op .commit fun (r : Reply Unit) => r.get) (fun _ => Q) (fun _ => Idle)
      ⟨known, .held⟩ := by
  refine ⟨.inl rfl, fun (r : Reply Unit) _ => ?_⟩
  cases r with
  | raised f => rfl
  | ok _ => exact h

lemma wp_names {l : Progress} (hl : Idle l) :
    (discipline rel).wp (.op .names fun (r : Reply (List String)) => r.get)
      (fun done l => l = ⟨done, .idle⟩) (fun _ => Idle) l := by
  refine ⟨hl, fun (r : Reply (List String)) _ => ?_⟩
  cases r with
  | raised f => exact hl
  | ok rows => exact congrArg (Progress.mk rows) hl

lemma wp_prepare {l : Progress} (hl : Idle l) :
    (discipline rel).wp prepare (fun done l => l = ⟨done, .idle⟩) (fun _ => Idle) l := by
  obtain ⟨known, ph⟩ := l
  obtain rfl : ph = .idle := hl
  unfold prepare transaction
  refine ⟨rfl, fun (r : Reply Unit) _ => ?_⟩
  cases r with
  | raised f => rfl
  | ok _ =>
    change (discipline rel).wp ((Prog.transact _ _ _).bind _) _ _ ⟨known, .begun⟩
    rw [Discipline.wp_bind', Discipline.wp_transact]
    refine ⟨rfl, fun (r : Reply Unit) _ => ?_⟩
    cases r with
    | raised f => exact wp_rollback rel nofun
    | ok _ =>
      refine ⟨rfl, fun (r : Reply Bool) _ => ?_⟩
      cases r with
      | raised f => exact wp_rollback rel nofun
      | ok there =>
        cases there with
        | true => exact wp_commit rel (wp_names rel rfl)
        | false =>
          refine ⟨rfl, fun (r : Reply Unit) _ => ?_⟩
          cases r with
          | raised f => exact wp_rollback rel nofun
          | ok _ => exact wp_commit rel (wp_names rel rfl)

/-- Everything known stays known, and the file is known now. -/
def Learnt (known : List String) (fname : String) (l : Progress) : Prop :=
  Idle l ∧ fname ∈ l.known ∧ ∀ g ∈ known, g ∈ l.known

variable {rel word} {fname : String} {known : List String}

lemma wp_applyOne (sql : String) (hf : fname ∈ rel.files)
    (hbefore : ∀ g ∈ rel.files, g < fname → g ∈ known) :
    (discipline rel).wp (applyOne fname sql) (fun _ => Learnt known fname) (fun _ => Idle)
      ⟨known, .idle⟩ := by
  unfold applyOne transaction
  refine ⟨rfl, fun (r : Reply Unit) _ => ?_⟩
  cases r with
  | raised f => rfl
  | ok _ =>
    change (discipline rel).wp (Prog.transact _ _ _) _ _ ⟨known, .begun⟩
    rw [Discipline.wp_transact]
    refine ⟨rfl, fun (r : Reply Unit) _ => ?_⟩
    cases r with
    | raised f => exact wp_rollback rel nofun
    | ok _ =>
      refine ⟨rfl, fun (r : Reply Bool) _ => ?_⟩
      cases r with
      | raised f => exact wp_rollback rel nofun
      | ok there =>
        cases there with
        | true =>
          exact wp_commit rel ⟨rfl, List.mem_cons_self, fun g hg => List.mem_cons_of_mem _ hg⟩
        | false =>
          refine ⟨⟨rfl, hf, hbefore⟩, fun (r : Reply Unit) _ => ?_⟩
          cases r with
          | raised f => exact wp_rollback rel nofun
          | ok _ =>
            refine ⟨⟨fname, rfl⟩, fun (inside : Bool) hin => ?_⟩
            obtain rfl : inside = true := hin
            refine ⟨rfl, fun (r : Reply Unit) _ => ?_⟩
            cases r with
            | raised f => exact wp_rollback rel nofun
            | ok _ =>
              refine ⟨.inr ⟨fname, rfl⟩, fun (r : Reply Unit) _ => ?_⟩
              cases r with
              | raised f => rfl
              | ok _ => exact ⟨rfl, List.mem_cons_self, fun g hg => List.mem_cons_of_mem _ hg⟩

lemma wp_migrate (hf : fname ∈ rel.files) (hbefore : ∀ g ∈ rel.files, g < fname → g ∈ known) :
    (discipline rel).wp (migrate word fname) (fun _ => Learnt known fname) (fun _ => Idle)
      ⟨known, .idle⟩ := by
  unfold migrate
  rw [Discipline.wp_catching]
  refine ⟨rfl, fun (r : Reply String) _ => ?_⟩
  cases r with
  | raised f => rfl
  | ok sql =>
    change (discipline rel).wp (match transactionControl word sql with
      | [] => applyOne fname sql
      | found => .raise (.migration (containsControl fname found))) _ _ ⟨known, .idle⟩
    split
    · exact Discipline.wp_mono (fun _ _ h => h) (fun _ _ h => h) (wp_applyOne sql hf hbefore)
    · rfl

/-- The files before one of them in the sorted list are those with an earlier name. -/
lemma mem_of_lt {pre rest : List String} (h : rel.files = pre ++ fname :: rest) {g : String}
    (hg : g ∈ rel.files) (hlt : g < fname) : g ∈ pre := by
  have hsorted : rel.files.Pairwise (· ≤ ·) := List.pairwise_insertionSort _ _
  rw [h] at hg hsorted
  rcases List.mem_append.1 hg with hg | hg
  · exact hg
  · have hle : fname ≤ g := by
      rcases List.mem_cons.1 hg with rfl | hg
      · exact le_rfl
      · exact List.rel_of_pairwise_cons (List.pairwise_append.1 hsorted).2.1 hg
    exact absurd hlt (not_lt_of_ge hle)

/-- The files before those that are left are known to be recorded. -/
lemma wp_migrateAll {done : List String} (rest : List String) :
    ∀ (pre : List String) (l : Progress), rel.files = pre ++ rest → Idle l →
      (∀ g ∈ done, g ∈ l.known) → (∀ g ∈ pre, g ∈ l.known) →
      (discipline rel).wp (migrateAll word done rest) (fun _ => Idle) (fun _ => Idle) l := by
  induction rest with
  | nil => exact fun _ _ _ hl _ _ => hl
  | cons fname rest ih =>
    intro pre l hfiles hl hdone hpre
    have hfiles' : rel.files = (pre ++ [fname]) ++ rest := by simp [hfiles]
    have hpre' : ∀ {l' : Progress}, fname ∈ l'.known → (∀ g ∈ pre, g ∈ l'.known) →
        ∀ g ∈ pre ++ [fname], g ∈ l'.known := by
      intro l' hf hp g hg
      rcases List.mem_append.1 hg with hg | hg
      · exact hp g hg
      · exact List.mem_singleton.1 hg ▸ hf
    rw [migrateAll]
    split
    · rename_i hin
      exact ih _ l hfiles' hl hdone (hpre' (hdone fname (by simpa using hin)) hpre)
    · have hmem : fname ∈ rel.files := by simp [hfiles]
      have hone : (discipline rel).wp (migrate word fname) (fun _ => Learnt l.known fname)
          (fun _ => Idle) ⟨l.known, .idle⟩ :=
        wp_migrate hmem fun g hg hlt => hpre g (mem_of_lt hfiles hg hlt)
      obtain ⟨known, ph⟩ := l
      obtain rfl : ph = .idle := hl
      rw [Discipline.wp_bind']
      refine Discipline.wp_mono (fun applied l' hl' => ?_) (fun _ _ h => h) hone
      obtain ⟨hidle, hf, hknown⟩ := hl'
      rw [Discipline.wp_bind']
      exact ih _ l' hfiles' hidle (fun g hg => hknown g (hdone g hg))
        (hpre' hf fun g hg => hknown g (hpre g hg))

variable (rel word)

lemma wp_runMigrations :
    (discipline rel).wp (runMigrations word) (fun _ => Idle) (fun _ => Idle) ⟨[], .idle⟩ := by
  refine ⟨rfl, fun (r : Reply Bool) _ => ?_⟩
  cases r with
  | raised f => rfl
  | ok pool =>
    cases pool with
    | false => rfl
    | true =>
      refine ⟨rfl, fun (r : Reply Unit) _ => ?_⟩
      cases r with
      | raised f => rfl
      | ok _ =>
        change (discipline rel).wp (Prog.bind (Prog.catching prepare _) _) _ _ ⟨[], .idle⟩
        rw [Discipline.wp_bind', Discipline.wp_catching]
        refine Discipline.wp_mono (fun done l hl => ?_) (fun _ _ h => h) (wp_prepare rel rfl)
        subst hl
        refine ⟨rfl, fun (r : Reply (List String)) hr => ?_⟩
        cases r with
        | raised f => rfl
        | ok listing =>
          obtain rfl : listing = rel.listing := hr
          exact wp_migrateAll _ [] _ rfl rfl (fun _ h => h) fun _ h => by cases h

end Wp

/-! ### What holds of the database -/

section Know
variable (files recorded : List String)

/-- The scripts whose effects are committed are those recorded since the beginning, each one
recorded after all those before it. -/
structure Sound (st : Store) : Prop where
  rows : st.rows = recorded ++ st.effects
  nodup : st.effects.Nodup
  new : ∀ f ∈ st.effects, f ∉ recorded
  ordered : ∀ pre f post, st.effects = pre ++ f :: post →
    f ∈ files ∧ ∀ g ∈ files, g < f → g ∈ recorded ++ pre

/-- The next script that may run. -/
def Next (st : Store) (fname : String) : Prop :=
  fname ∉ st.rows ∧ fname ∈ files ∧ ∀ g ∈ files, g < fname → g ∈ st.rows

/-- What is the case where a process is. -/
def At (st : Store) (t : Tid) : Phase → Prop
  | .idle => True
  | .begun => st.pending t = ⟨[], [], false⟩ ∧ st.inside t = true
  | .held => ((st.pending t).effects = [] ∧ (st.pending t).rows = []) ∧ st.inside t = true
  | .absent f => ((st.pending t).effects = [] ∧ (st.pending t).rows = []) ∧ st.inside t = true ∧
      f ∉ st.rows
  | .executed f => ((st.pending t).effects = [f] ∧ (st.pending t).rows = []) ∧
      st.inside t = true ∧ Next files st f
  | .inserted f => ((st.pending t).effects = [f] ∧ (st.pending t).rows = [f]) ∧ Next files st f

structure Inv (st : Store) (L : Tid → Option Progress) : Prop extends Sound files recorded st where
  held : Held Progress.holds st.lock L
  known : ∀ t l, L t = some l → ∀ g ∈ l.known, g ∈ st.rows
  at_ : ∀ t l, L t = some l → At files st t l.phase

end Know

section Steps
variable {rel : Release} {recorded : List String} {st st' : Store} {L : Tid → Option Progress}
  {t u : Tid} {l l' : Progress} {ph : Phase}

lemma At.frame (h : At rel.files st t ph) (hpending : st'.pending t = st.pending t)
    (hinside : st'.inside t = st.inside t) (hrows : st'.rows = st.rows) :
    At rel.files st' t ph := by
  cases ph with
  | idle => trivial
  | _ => simpa only [At, Next, hpending, hinside, hrows] using h

/-- More rows are nothing to a process that does not have the lock. -/
lemma At.grow (h : At rel.files st t ph) (hh : ph.holds = false)
    (hpending : st'.pending t = st.pending t) (hinside : st'.inside t = st.inside t) :
    At rel.files st' t ph := by
  cases ph with
  | idle => trivial
  | begun => simpa only [At, hpending, hinside] using h
  | held | absent | executed | inserted => cases hh

lemma inv_put (hs : Sound rel.files recorded st')
    (hheld : Held Progress.holds st'.lock (Function.update L t (some l')))
    (hknown : ∀ g ∈ l'.known, g ∈ st'.rows) (hat : At rel.files st' t l'.phase)
    (hothers : ∀ u m, u ≠ t → L u = some m →
      (∀ g ∈ m.known, g ∈ st'.rows) ∧ At rel.files st' u m.phase) :
    Inv rel.files recorded st' (Function.update L t (some l')) where
  toSound := hs
  held := hheld
  known u m hu := by
    rcases update_cases hu with ⟨rfl, hm⟩ | ⟨hut, hu⟩
    · exact Option.some.inj hm ▸ hknown
    · exact (hothers u m hut hu).1
  at_ u m hu := by
    rcases update_cases hu with ⟨rfl, hm⟩ | ⟨hut, hu⟩
    · exact Option.some.inj hm ▸ hat
    · exact (hothers u m hut hu).2

/-- Only what the process keeps of its own transaction has changed. -/
structure Quiet (st st' : Store) (t : Tid) : Prop where
  rows : st'.rows = st.rows
  effects : st'.effects = st.effects
  pending : ∀ u, u ≠ t → st'.pending u = st.pending u
  inside : ∀ u, u ≠ t → st'.inside u = st.inside u

lemma Quiet.refl (st : Store) (t : Tid) : Quiet st st t :=
  ⟨rfl, rfl, fun _ _ => rfl, fun _ _ => rfl⟩

lemma quiet_hold (st : Store) (t : Tid) (p : Pending) : Quiet st (st.hold t p) t :=
  ⟨rfl, rfl, fun _ hu => Function.update_of_ne hu .., fun _ _ => rfl⟩

lemma quiet_close (st : Store) (t : Tid) : Quiet st (st.close t) t :=
  ⟨rfl, rfl, fun _ hu => Function.update_of_ne hu .., fun _ hu => Function.update_of_ne hu ..⟩

lemma Quiet.sound (hq : Quiet st st' t) (h : Sound rel.files recorded st) :
    Sound rel.files recorded st' := by
  refine ⟨?_, ?_, ?_, ?_⟩
  · rw [hq.rows, hq.effects]
    exact h.rows
  · exact hq.effects ▸ h.nodup
  · exact hq.effects ▸ h.new
  · exact hq.effects ▸ h.ordered

lemma Inv.quiet (h : Inv rel.files recorded st L) (hq : Quiet st st' t)
    (hheld : Held Progress.holds st'.lock (Function.update L t (some l')))
    (hknown : ∀ g ∈ l'.known, g ∈ st.rows) (hat : At rel.files st' t l'.phase) :
    Inv rel.files recorded st' (Function.update L t (some l')) :=
  inv_put (hq.sound h.toSound) hheld (hq.rows ▸ hknown) hat fun u m hut hu =>
    ⟨hq.rows ▸ h.known u m hu, (h.at_ u m hu).frame (hq.pending u hut) (hq.inside u hut) hq.rows⟩

/-- The same, with the store as it was. -/
lemma Inv.stay (h : Inv rel.files recorded st L) (hl : L t = some l)
    (hholds : l'.holds = l.holds) (hknown : ∀ g ∈ l'.known, g ∈ st.rows)
    (hat : At rel.files st t l'.phase) :
    Inv rel.files recorded st (Function.update L t (some l')) :=
  h.quiet (.refl st t) (h.held.keep hl hholds) hknown hat

lemma Inv.same (h : Inv rel.files recorded st L) (hl : L t = some l) :
    Inv rel.files recorded st (Function.update L t (some l)) :=
  h.stay hl rfl (h.known t l hl) (h.at_ t l hl)

lemma Inv.close (h : Inv rel.files recorded st L) (hl : L t = some l) :
    Inv rel.files recorded (st.close t) (Function.update L t (some (l.at_ .idle))) :=
  h.quiet (quiet_close st t) (h.held.release rfl) (h.known t l hl) trivial

/-- The next script is recorded, and its effects are committed with its row. -/
lemma sound_flush (h : Sound rel.files recorded st) {f : String}
    (hat : At rel.files st t (.inserted f)) : Sound rel.files recorded (st.flush t) := by
  obtain ⟨⟨he, hr⟩, hnew, hf, hbefore⟩ := hat
  have heffects : (st.flush t).effects = st.effects ++ [f] := congrArg (st.effects ++ ·) he
  have hrows : (st.flush t).rows = st.rows ++ [f] := congrArg (st.rows ++ ·) hr
  have hnew : f ∉ recorded ∧ f ∉ st.effects := by simpa [h.rows] using hnew
  refine ⟨?_, ?_, fun g hg => ?_, fun pre g post heq => ?_⟩
  · rw [hrows, heffects, h.rows, List.append_assoc]
  · rw [heffects, List.nodup_append]
    refine ⟨h.nodup, List.nodup_singleton f, fun a ha b hb => ?_⟩
    rintro rfl
    exact hnew.2 (List.mem_singleton.1 hb ▸ ha)
  · rw [heffects] at hg
    rcases List.mem_append.1 hg with hg | hg
    · exact h.new g hg
    · exact List.mem_singleton.1 hg ▸ hnew.1
  · rw [heffects] at heq
    rcases List.eq_nil_or_concat post with rfl | ⟨post, x, rfl⟩
    · obtain ⟨rfl, hfg⟩ := List.append_inj' heq rfl
      obtain rfl : f = g := by simpa using hfg
      exact ⟨hf, h.rows ▸ hbefore⟩
    · have heq : st.effects ++ [f] = (pre ++ g :: post) ++ [x] := by simpa using heq
      obtain ⟨heq, -⟩ := List.append_inj' heq rfl
      exact h.ordered pre g post heq

lemma Inv.commit (h : Inv rel.files recorded st L) (hl : L t = some l)
    (hs : Sound rel.files recorded (st.flush t)) (hh : l.holds = true)
    (hout : l'.phase = .idle) (hknown : ∀ g ∈ l'.known, g ∈ (st.flush t).rows) :
    Inv rel.files recorded ((st.flush t).close t) (Function.update L t (some l')) := by
  have hq := quiet_close (st.flush t) t
  have hholds : l'.holds = false := by rw [Progress.holds, hout]; rfl
  refine inv_put (hq.sound hs) (h.held.release hholds) hknown (hout ▸ trivial)
    fun u m hut hu => ⟨fun g hg => List.mem_append_left _ (h.known u m hu g hg), ?_⟩
  exact (h.at_ u m hu).grow (h.held.exclusive hl hh hu hut) (hq.pending u hut) (hq.inside u hut)

theorem Inv.op (hplain : ∀ f ∈ rel.files, rel.ends f = false) (h : Inv rel.files recorded st L)
    (hl : L t = some l) {o : Op} {env : ℕ} {r : o.Answer} (hm : may rel.files l o)
    (he : exec rel st t env o = some (r, st')) :
    admits rel.listing o r ∧ Inv rel.files recorded st' (Function.update L t (some (after l o r))) := by
  obtain ⟨known, ph⟩ := l
  have hat := h.at_ t _ hl
  have hk : ∀ g ∈ known, g ∈ st.rows := h.known t _ hl
  cases o with
  | getPool | acquire | readText fname =>
    cases he
    exact ⟨trivial, h.same hl⟩
  | begin =>
    obtain rfl : ph = .idle := hm
    cases he
    refine ⟨trivial, ?_⟩
    have hq : Quiet st { st.hold t ⟨[], [], false⟩ with
        inside := Function.update st.inside t true } t :=
      ⟨rfl, rfl, (quiet_hold st t _).pending, fun u hu => Function.update_of_ne hu ..⟩
    cases reply rel env () with
    | ok _ => exact h.quiet hq (h.held.keep hl rfl) hk ⟨Function.update_self .., Function.update_self ..⟩
    | raised f => exact h.quiet hq (h.held.keep hl rfl) hk trivial
  | lock =>
    obtain rfl : ph = .begun := hm
    simp only [exec] at he
    split at he
    · split at he
      · rename_i hfree
        cases he
        refine ⟨trivial, h.quiet ⟨rfl, rfl, fun _ _ => rfl, fun _ _ => rfl⟩
          ((hfree ▸ h.held).acquire rfl) hk ?_⟩
        obtain ⟨hp, hin⟩ := hat
        exact ⟨⟨congrArg Pending.effects hp, congrArg Pending.rows hp⟩, hin⟩
      · cases he
    · cases he
      exact ⟨trivial, h.same hl⟩
  | tableExists =>
    cases he
    exact ⟨trivial, h.same hl⟩
  | createTable =>
    obtain rfl : ph = .held := hm
    cases he
    refine ⟨trivial, ?_⟩
    by_cases h0 : env = 0
    · rw [if_pos h0]
      refine h.quiet (quiet_hold st t _) (h.held.keep hl rfl) hk ⟨?_, hat.2⟩
      simpa [Store.hold] using hat.1
    · rw [if_neg h0]
      exact h.same hl
  | commit =>
    cases he
    refine ⟨trivial, ?_⟩
    rcases hm with hm | ⟨f, hm⟩
    · obtain rfl : ph = .held := hm
      have hafter : after ⟨known, .held⟩ .commit (reply rel env ()) = ⟨known, .idle⟩ := by
        cases reply rel env () <;> rfl
      rw [hafter]
      by_cases h1 : env = 1
      · rw [if_pos h1]
        exact h.close hl
      · rw [if_neg h1]
        have hrows : (st.flush t).rows = st.rows := by simp [Store.flush, hat.1.2]
        refine h.commit hl ?_ rfl rfl fun g hg => hrows ▸ hk g hg
        refine Quiet.sound ⟨hrows, ?_, fun _ _ => rfl, fun _ _ => rfl⟩ (t := t) h.toSound
        simp [Store.flush, hat.1.1]
    · obtain rfl : ph = .inserted f := hm
      have hmem : f ∈ (st.flush t).rows := by simp [Store.flush, hat.1.2]
      have hk' : ∀ g ∈ known, g ∈ (st.flush t).rows := fun g hg => List.mem_append_left _ (hk g hg)
      by_cases h1 : env = 1
      · subst h1
        exact h.close hl
      · rw [if_neg h1]
        cases reply rel env () with
        | ok _ =>
          exact h.commit hl (sound_flush h.toSound hat) rfl rfl (List.forall_mem_cons.2 ⟨hmem, hk'⟩)
        | raised e => exact h.commit hl (sound_flush h.toSound hat) rfl rfl hk'
  | rollback =>
    cases he
    exact ⟨trivial, h.close hl⟩
  | names =>
    obtain rfl : ph = .idle := hm
    cases he
    refine ⟨trivial, ?_⟩
    cases hr : ofTable rel st env st.rows with
    | ok rows =>
      obtain rfl := eq_of_ofTable hr
      exact h.stay hl rfl (fun _ hg => hg) trivial
    | raised f => exact h.same hl
  | listdir =>
    cases he
    refine ⟨?_, h.same hl⟩
    cases hr : reply rel env rel.listing with
    | ok listing => exact eq_of_reply hr
    | raised f => trivial
  | recorded fname =>
    obtain rfl : ph = .held := hm
    cases he
    refine ⟨trivial, ?_⟩
    cases hr : ofTable rel st env (st.rows.contains fname) with
    | ok there =>
      have hthere := eq_of_ofTable hr
      cases there with
      | true =>
        have hmem : fname ∈ st.rows := by simpa using hthere.symm
        exact h.stay hl rfl (List.forall_mem_cons.2 ⟨hmem, hk⟩) hat
      | false =>
        have hnew : fname ∉ st.rows := by simpa using hthere.symm
        exact h.stay hl rfl hk ⟨hat.1, hat.2, hnew⟩
    | raised f => exact h.same hl
  | execute fname sql =>
    obtain ⟨hph, hf, hbefore⟩ := hm
    obtain rfl : ph = .absent fname := hph
    cases he
    refine ⟨trivial, ?_⟩
    obtain ⟨⟨heff, hrows⟩, hin, hnew⟩ := hat
    by_cases h0 : env = 0
    · simp only [hplain fname hf, reply, if_pos h0]
      refine h.quiet (quiet_hold st t _) (h.held.keep hl rfl) hk ⟨?_, hin, hnew, hf, ?_⟩
      · simpa [Store.hold, heff] using hrows
      · exact fun g hg hlt => hk g (hbefore g hg hlt)
    · simp only [hplain fname hf, reply, if_neg h0]
      exact h.same hl
  | isInTransaction =>
    obtain ⟨f, hph⟩ := hm
    obtain rfl : ph = .executed f := hph
    cases he
    exact ⟨hat.2.1, h.same hl⟩
  | insert fname =>
    obtain rfl : ph = .executed fname := hm
    obtain ⟨⟨heff, hrows⟩, hin, hnext⟩ := hat
    have hcontains : st.rows.contains fname = false := by simpa using hnext.1
    simp only [exec, hcontains, Bool.false_eq_true, if_false] at he
    cases he
    refine ⟨trivial, ?_⟩
    cases ofTable rel st env () with
    | ok _ =>
      refine h.quiet (quiet_hold st t _) (h.held.keep hl rfl) hk ⟨?_, hnext⟩
      simp [Store.hold, Reply.isOk, heff, hrows]
    | raised f => exact h.same hl

end Steps

/-! ### Runs -/

section Runs
variable {rel : Release} {word : Char → Bool} {recorded : List String}

theorem kept (hplain : ∀ f ∈ rel.files, rel.ends f = false) :
    Kept (M := machine rel word) (D := discipline rel) (fun _ _ => True) Idle
      (Inv rel.files recorded) where
  main s t e _ := by
    change (discipline rel).wp (Prog.bind _ _) _ _ _
    rw [Discipline.wp_bind']
    exact wp_runMigrations rel word
  start s t e _ hI hn :=
    inv_put hI.toSound (hI.held.start hn rfl) (fun _ hg => by cases hg) trivial fun u m _ hu =>
      ⟨hI.known u m hu, hI.at_ u m hu⟩
  op s t env o l r st _ _ hl hm hI he := hI.op hplain hl hm he
  stop s t env l _ hl hE hI := by
    have hh : l.holds = false := congrArg Phase.holds hE
    refine ⟨hI.toSound, hI.held.stop hl hh, fun u m hu => ?_, fun u m hu => ?_⟩
    · rcases update_cases hu with ⟨-, hm⟩ | ⟨-, hu⟩
      · cases hm
      · exact hI.known u m hu
    · rcases update_cases hu with ⟨-, hm⟩ | ⟨-, hu⟩
      · cases hm
      · exact hI.at_ u m hu
  kill s p _ hI := by
    refine ⟨⟨hI.rows, hI.nodup, hI.new, hI.ordered⟩, hI.held.kill p, fun u m hu => ?_,
      fun u m hu => ?_⟩
    · obtain ⟨-, hu⟩ := Option.ite_none_left_eq_some.1 hu
      exact hI.known u m hu
    · obtain ⟨-, hu⟩ := Option.ite_none_left_eq_some.1 hu
      exact (hI.at_ u m hu).frame rfl rfl rfl
  own s x := x.elim

lemma inv_initial {st : Store} (he : st.effects = []) (hl : st.lock = none) :
    Inv rel.files st.rows st fun _ => none where
  rows := by rw [he, List.append_nil]
  nodup := he ▸ List.nodup_nil
  new := by simp [he]
  ordered := by simp [he]
  held := hl ▸ .nobody
  known _ _ h := by cases h
  at_ _ _ h := by cases h

end Runs

/-- Three scripts, the first of which is recorded. -/
def three : Release :=
  ⟨["003.sql", "README", "001.sql", "002.sql"], fun _ => "SELECT 1;", fun _ => false,
    fun _ => ⟨"OSError", "", false⟩⟩

def recordedOne : Store :=
  ⟨true, ["001.sql"], [], none, fun _ => ⟨[], [], false⟩, fun _ => false⟩

def ascii (c : Char) : Bool := c.isAlphanum || c = '_'

end Treeweft.Migrations
