import Treeweft.JsonText
import Treeweft.Rounding
import Treeweft.PromptBuilder

/-!
The audit log: a file of one JSON object a line that is only appended to, and an index in memory
that is built from the file at every start.

A crash cuts the last line of the file at any character. Latencies are exact, and a record's fields
have the types that the logger writes.
-/

namespace Treeweft.AuditLog

open JsonText (Text Value Number dumps loads)
open Rounding PromptBuilder

/-! ### Records -/

inductive FailureMode
  | none
  | schemaViolation
  | constraintViolation
  | tokenOverflow
  | timeout
  | circuitOpen
  | llmError
  | emptyResponse
  | promptInjection
  | unknown
  deriving DecidableEq, Inhabited

def FailureMode.value : FailureMode → Text
  | .none => "none".toList
  | .schemaViolation => "schema_violation".toList
  | .constraintViolation => "constraint_violation".toList
  | .tokenOverflow => "token_overflow".toList
  | .timeout => "timeout".toList
  | .circuitOpen => "circuit_open".toList
  | .llmError => "llm_error".toList
  | .emptyResponse => "empty_response".toList
  | .promptInjection => "prompt_injection".toList
  | .unknown => "unknown".toList

def failureModes : List FailureMode :=
  [.none, .schemaViolation, .constraintViolation, .tokenOverflow, .timeout, .circuitOpen,
    .llmError, .emptyResponse, .promptInjection, .unknown]

inductive Operation
  | hyde
  | chunkSummary
  | communitySummary
  | benchmarkQuery
  deriving DecidableEq, Inhabited

def Operation.value : Operation → Text
  | .hyde => "hyde".toList
  | .chunkSummary => "chunk_summary".toList
  | .communitySummary => "community_summary".toList
  | .benchmarkQuery => "benchmark_query".toList

def operations : List Operation := [.hyde, .chunkSummary, .communitySummary, .benchmarkQuery]

structure AuditRecord where
  auditId : Text
  timestamp : Text
  attempt : ℤ
  operation : Operation
  model : Text
  failureMode : FailureMode
  latencyMs : ℚ
  passed : Bool
  inputHash : Text
  tokenCount : ℤ
  deriving DecidableEq, Inhabited

/-- The latency is written with one decimal place. -/
def AuditRecord.toDict (r : AuditRecord) : List (Text × Value) :=
  [("audit_id".toList, .str r.auditId), ("timestamp".toList, .str r.timestamp),
    ("attempt".toList, .num (.ofInt r.attempt)), ("operation".toList, .str r.operation.value),
    ("model".toList, .str r.model), ("failure_mode".toList, .str r.failureMode.value),
    ("latency_ms".toList, .num (.ofTenths (roundHalfEven (r.latencyMs * 10)))),
    ("passed".toList, .word (if r.passed then .true else .false)),
    ("input_hash".toList, .str r.inputHash), ("token_count".toList, .num (.ofInt r.tokenCount))]

/-! ### Lines -/

def line (r : AuditRecord) : Text := dumps (.obj (JsonText.sortKeys r.toDict))

/-- What one call of `log` adds to the file. -/
def record (r : AuditRecord) : Text := line r ++ ['\n']

section Fields
variable (fields : List (Text × Value))

def getText (key default : String) : Option Text :=
  match fields.lookup key.toList with
  | none => some default.toList
  | some (.str s) => some s
  | some _ => none

def getNumber (key : String) (default : ℚ) : Option ℚ :=
  match fields.lookup key.toList with
  | none => some default
  | some (.num n) => some n.value
  | some _ => none

def getBool (key : String) (default : Bool) : Option Bool :=
  match fields.lookup key.toList with
  | none => some default
  | some (.word .true) => some true
  | some (.word .false) => some false
  | some _ => none

/-- No record if a name of an operation or a failure mode is not known. -/
def dictToRecord : Option AuditRecord := do
  let operation ← getText fields "operation" "hyde"
  let failureMode ← getText fields "failure_mode" "none"
  some
    { auditId := ← getText fields "audit_id" ""
      timestamp := ← getText fields "timestamp" ""
      attempt := ⌊← getNumber fields "attempt" 1⌋
      operation := ← operations.find? (·.value = operation)
      model := ← getText fields "model" "unknown"
      failureMode := ← failureModes.find? (·.value = failureMode)
      latencyMs := ← getNumber fields "latency_ms" 0
      passed := ← getBool fields "passed" false
      inputHash := ← getText fields "input_hash" ""
      tokenCount := ⌊← getNumber fields "token_count" 0⌋ }

end Fields

/-- What a line adds to the records; `none` is the error of a value that is no object, which
nothing catches. -/
def readLine (l : Text) : Option (List AuditRecord) :=
  if strip l = [] then some []
  else
    match loads (strip l) with
    | none => some []
    | some (.obj fields) => some (dictToRecord fields).toList
    | some _ => none

def readAll (file : Text) : Option (List AuditRecord) :=
  ((file.splitOn '\n').mapM readLine).map List.flatten

/-! ### The Index -/

structure Index where
  latencies : List ℚ
  failureCounts : List (FailureMode × ℕ)
  passed : ℕ
  total : ℕ

def Index.empty : Index := ⟨[], [], 0, 0⟩

def count (counts : List (FailureMode × ℕ)) (m : FailureMode) : List (FailureMode × ℕ) :=
  if m ∈ counts.map Prod.fst then
    counts.map fun c => if c.1 = m then (c.1, c.2 + 1) else c
  else counts ++ [(m, 1)]

def Index.ingest (i : Index) (r : AuditRecord) : Index where
  total := i.total + 1
  passed := if r.passed then i.passed + 1 else i.passed
  latencies := i.latencies ++ [r.latencyMs]
  failureCounts :=
    if r.failureMode ≠ .none ∨ r.passed = false then count i.failureCounts r.failureMode
    else i.failureCounts

/-- The value at the nearest rank, with one decimal place. -/
def percentile (sorted : List ℚ) (pct : ℕ) : ℚ :=
  if sorted = [] then 0
  else roundDigits 1 (sorted.getD (min (sorted.length - 1) (sorted.length * pct / 100)) 0)

structure Stats where
  totalAttempts : ℕ
  passRate : ℚ
  failureDistribution : List (Text × ℕ)
  latencyP50 : ℚ
  latencyP90 : ℚ
  latencyP99 : ℚ
  deriving DecidableEq

def Index.stats (i : Index) : Stats where
  totalAttempts := i.total
  passRate := if i.total = 0 then 0 else i.passed / i.total
  failureDistribution := i.failureCounts.map fun c => (c.1.value, c.2)
  latencyP50 := percentile (i.latencies.mergeSort (· ≤ ·)) 50
  latencyP90 := percentile (i.latencies.mergeSort (· ≤ ·)) 90
  latencyP99 := percentile (i.latencies.mergeSort (· ≤ ·)) 99

def indexOf (rs : List AuditRecord) : Index := rs.foldl Index.ingest .empty

/-! ### Reading What Was Written -/

/-- The record as a line keeps it. -/
def AuditRecord.rounded (r : AuditRecord) : AuditRecord :=
  { r with latencyMs := roundDigits 1 r.latencyMs }

/-- The fields in the order in which they are written. -/
def AuditRecord.fields (r : AuditRecord) : List (Text × Value) :=
  [("attempt".toList, .num (.ofInt r.attempt)), ("audit_id".toList, .str r.auditId),
    ("failure_mode".toList, .str r.failureMode.value), ("input_hash".toList, .str r.inputHash),
    ("latency_ms".toList, .num (.ofTenths (roundHalfEven (r.latencyMs * 10)))),
    ("model".toList, .str r.model), ("operation".toList, .str r.operation.value),
    ("passed".toList, .word (if r.passed then .true else .false)),
    ("timestamp".toList, .str r.timestamp),
    ("token_count".toList, .num (.ofInt r.tokenCount))]

lemma sortKeys_toDict (r : AuditRecord) : JsonText.sortKeys r.toDict = r.fields := rfl

lemma keyed_fields (r : AuditRecord) : (Value.obj r.fields).Keyed := by
  have hkeys : r.fields.map Prod.fst = ["attempt", "audit_id", "failure_mode", "input_hash",
      "latency_ms", "model", "operation", "passed", "timestamp", "token_count"].map String.toList :=
    rfl
  refine ⟨?_, ?_⟩
  · rw [hkeys]
    decide
  · simp only [AuditRecord.fields, JsonText.FieldsKeyed, Value.Keyed, and_self]

lemma loads_line (r : AuditRecord) : loads (line r) = some (.obj r.fields) := by
  unfold line
  rw [sortKeys_toDict]
  exact JsonText.loads_dumps (keyed_fields r)

/-- A record comes back with its latency rounded. -/
lemma dictToRecord_fields (r : AuditRecord) : dictToRecord r.fields = some r.rounded := by
  have hoperation : operations.find? (·.value = r.operation.value) = some r.operation := by
    cases r.operation <;> rfl
  have hmode : failureModes.find? (·.value = r.failureMode.value) = some r.failureMode := by
    cases r.failureMode <;> rfl
  have h1 : getText r.fields "operation" "hyde" = some r.operation.value := rfl
  have h2 : getText r.fields "failure_mode" "none" = some r.failureMode.value := rfl
  have h3 : getText r.fields "audit_id" "" = some r.auditId := rfl
  have h4 : getText r.fields "timestamp" "" = some r.timestamp := rfl
  have h5 : getText r.fields "model" "unknown" = some r.model := rfl
  have h6 : getText r.fields "input_hash" "" = some r.inputHash := rfl
  have h7 : getNumber r.fields "attempt" 1 = some (Number.ofInt r.attempt).value := rfl
  have h8 : getNumber r.fields "token_count" 0 = some (Number.ofInt r.tokenCount).value := rfl
  have h9 : getNumber r.fields "latency_ms" 0 =
      some (Number.ofTenths (roundHalfEven (r.latencyMs * 10))).value := rfl
  have h10 : getBool r.fields "passed" false = some r.passed := by
    have hlookup : r.fields.lookup "passed".toList =
        some (.word (if r.passed then .true else .false)) := rfl
    unfold getBool
    rw [hlookup]
    cases r.passed <;> rfl
  have hlatency : roundDigits 1 r.latencyMs = (roundHalfEven (r.latencyMs * 10) : ℤ) / 10 := by
    simp [roundDigits]
  unfold dictToRecord AuditRecord.rounded
  rw [h1, h2, h3, h4, h5, h6, h7, h8, h9, h10]
  simp only [Option.bind_eq_bind, Option.bind_some, hoperation, hmode, JsonText.value_ofInt,
    JsonText.value_ofTenths, Int.floor_intCast, hlatency]

/-! ### Lines and Torn Lines -/

lemma line_cons (r : AuditRecord) : ∃ t, line r = '{' :: (t ++ ['}']) := by
  have hmembers : ∀ fields, ∃ t, JsonText.dumpsMembers fields = t ++ ['}'] := by
    intro fields
    induction fields with
    | nil => exact ⟨[], rfl⟩
    | cons f fields ih =>
      obtain ⟨t, ht⟩ := ih
      obtain ⟨k, v⟩ := f
      rw [JsonText.dumpsMembers, ht]
      exact ⟨',' :: ' ' :: (JsonText.quote k ++ ':' :: ' ' :: (dumps v ++ t)), by simp⟩
  unfold line
  rw [sortKeys_toDict, AuditRecord.fields, dumps]
  obtain ⟨t, ht⟩ := hmembers r.fields.tail
  rw [AuditRecord.fields, List.tail_cons] at ht
  rw [ht]
  exact ⟨JsonText.quote "attempt".toList ++
    ':' :: ' ' :: (dumps (.num (.ofInt r.attempt)) ++ t), by simp⟩

lemma printable_line (r : AuditRecord) : JsonText.Printable (line r) :=
  JsonText.printable_dumps _

lemma lf_not_mem_line (r : AuditRecord) : '\n' ∉ line r := fun h =>
  absurd (printable_line r _ h).1 (by decide)

/-- White space is cut only from the end of a text that begins with a brace. -/
lemma strip_brace (t : Text) : ∃ u, strip ('{' :: t) = '{' :: u ∧ '{' :: u <+: '{' :: t := by
  have hdrop : ('{' :: t).dropWhile Indexer.isSpace = '{' :: t :=
    List.dropWhile_cons_of_neg (by decide)
  have hpre : strip ('{' :: t) <+: '{' :: t := by
    unfold strip Indexer.rstrip
    rw [hdrop]
    have hsuffix := List.dropWhile_suffix Indexer.isSpace (l := ('{' :: t).reverse)
    have hrev := List.reverse_prefix.mpr hsuffix
    rwa [List.reverse_reverse] at hrev
  have hne : strip ('{' :: t) ≠ [] := strip_ne_nil List.mem_cons_self (by decide)
  obtain ⟨c, u, hu⟩ := List.exists_cons_of_ne_nil hne
  rw [hu, List.cons_prefix_cons] at hpre
  obtain ⟨rfl, hpre⟩ := hpre
  exact ⟨u, hu, List.cons_prefix_cons.mpr ⟨rfl, hpre⟩⟩

lemma strip_line (r : AuditRecord) : strip (line r) = line r := by
  obtain ⟨t, ht⟩ := line_cons r
  have hdrop : (line r).dropWhile Indexer.isSpace = line r := by
    rw [ht]
    exact List.dropWhile_cons_of_neg (by decide)
  have hrev : (line r).reverse.dropWhile Indexer.isSpace = (line r).reverse := by
    rw [ht, List.reverse_cons, List.reverse_append]
    exact List.dropWhile_cons_of_neg (by decide)
  unfold strip Indexer.rstrip
  rw [hdrop, hrev, List.reverse_reverse]

lemma readLine_line (r : AuditRecord) : readLine (line r) = some [r.rounded] := by
  obtain ⟨t, ht⟩ := line_cons r
  have hne : line r ≠ [] := by
    rw [ht]
    exact nofun
  unfold readLine
  rw [strip_line, if_neg hne, loads_line]
  dsimp only
  rw [dictToRecord_fields]
  rfl

/-- The beginning of a line that was cut is skipped. -/
lemma readLine_torn {r : AuditRecord} {p : Text} (hp : p <+: line r) (hne : p ≠ line r) :
    readLine p = some [] := by
  obtain ⟨t, ht⟩ := line_cons r
  cases p with
  | nil => rfl
  | cons c p =>
    obtain rfl : c = '{' := by
      rw [ht, List.cons_prefix_cons] at hp
      exact hp.1
    obtain ⟨u, hstrip, hu⟩ := strip_brace p
    have hcut : ('{' :: u) ≠ line r := by
      intro heq
      rw [heq] at hu
      exact hne (hp.eq_of_length_le hu.length_le)
    have hloads : loads ('{' :: u) = none := by
      by_contra hsome
      obtain ⟨v, hv⟩ := Option.ne_none_iff_exists'.mp hsome
      obtain ⟨q, hq⟩ := hu.trans hp
      have hline := loads_line r
      rw [← hq] at hline
      have hskip := JsonText.skip_of_loads_append hv hline
      -- the line ends with a brace, so what is missing does
      have hlast : q.getLast? = some '}' := by
        have hne' : q ≠ [] := by
          rintro rfl
          exact hcut ((List.append_nil _).symm.trans hq)
        have hend : (line r).getLast? = some '}' := by
          rw [ht, ← List.cons_append, List.getLast?_concat]
        rwa [← hq, List.getLast?_append_of_ne_nil _ hne'] at hend
      have hmem := List.dropWhile_eq_nil_iff.mp hskip _ (List.mem_of_getLast? hlast)
      cases hmem
    unfold readLine
    rw [hstrip, if_neg nofun, hloads]

/-! ### Files -/

lemma readAll_cons (r : AuditRecord) (rest : Text) :
    readAll (record r ++ rest) = (readAll rest).map (r.rounded :: ·) := by
  have hsplit : (record r ++ rest).splitOn '\n' = line r :: rest.splitOn '\n' := by
    rw [record, List.append_assoc, List.singleton_append]
    exact List.splitOn_append_cons_self_of_not_mem (lf_not_mem_line r) rest
  unfold readAll
  rw [hsplit, List.mapM_cons, readLine_line]
  cases (rest.splitOn '\n').mapM readLine <;> rfl

/-- A file of whole lines and perhaps a torn one is read as the records of the whole lines. -/
lemma readAll_records (rs : List AuditRecord) {torn : Text} (h : readLine torn = some [])
    (hlf : '\n' ∉ torn) :
    readAll (rs.flatMap record ++ torn) = some (rs.map AuditRecord.rounded) := by
  induction rs with
  | nil =>
    unfold readAll
    rw [List.flatMap_nil, List.nil_append, List.splitOn_eq_singleton hlf, List.mapM_cons, h]
    rfl
  | cons r rs ih =>
    rw [List.flatMap_cons, List.append_assoc, readAll_cons, ih]
    rfl

/-! ### Statistics -/

/-- The values of a sorted list can be rounded before it is sorted. -/
lemma mergeSort_map_roundDigits (latencies : List ℚ) :
    (latencies.map (roundDigits 1)).mergeSort (· ≤ ·) =
      (latencies.mergeSort (· ≤ ·)).map (roundDigits 1) := by
  have hsorted : ∀ l : List ℚ, (l.mergeSort (· ≤ ·)).Pairwise (· ≤ ·) := by
    intro l
    have htrans : ∀ a b c : ℚ, decide (a ≤ b) = true → decide (b ≤ c) = true →
        decide (a ≤ c) = true := by
      intro a b c hab hbc
      exact decide_eq_true ((of_decide_eq_true hab).trans (of_decide_eq_true hbc))
    have htotal : ∀ a b : ℚ, (decide (a ≤ b) || decide (b ≤ a)) = true := by
      intro a b
      simpa using le_total a b
    exact (List.pairwise_mergeSort htrans htotal l).imp of_decide_eq_true
  refine List.Perm.eq_of_pairwise (fun a b _ _ => le_antisymm) (hsorted _) ?_ ?_
  · exact (hsorted latencies).map _ fun a b hab => roundDigits_mono 1 hab
  · exact (List.mergeSort_perm _ _).trans ((List.mergeSort_perm latencies _).map _).symm

lemma percentile_map (latencies : List ℚ) (pct : ℕ) :
    percentile ((latencies.map (roundDigits 1)).mergeSort (· ≤ ·)) pct =
      percentile (latencies.mergeSort (· ≤ ·)) pct := by
  rw [mergeSort_map_roundDigits]
  generalize latencies.mergeSort (· ≤ ·) = sorted
  have hzero : roundDigits 1 (0 : ℚ) = 0 := by simp [roundDigits, roundHalfEven]
  unfold percentile
  split_ifs with h1 h2 h2
  · rfl
  · exact absurd (List.map_eq_nil_iff.mp h1) h2
  · exact absurd (by rw [h2]; rfl) h1
  · rw [List.length_map, List.getD_eq_getElem?_getD, List.getD_eq_getElem?_getD, List.getElem?_map]
    cases sorted[min (sorted.length - 1) (sorted.length * pct / 100)]? with
    | none => exact congrArg _ rfl
    | some x => exact roundDigits_roundDigits 1 x

def Index.rounded (i : Index) : Index := { i with latencies := i.latencies.map (roundDigits 1) }

lemma Index.stats_rounded (i : Index) : i.rounded.stats = i.stats := by
  simp only [Index.stats, Index.rounded, percentile_map]
  rfl

lemma indexOf_rounded (rs : List AuditRecord) :
    indexOf (rs.map AuditRecord.rounded) = (indexOf rs).rounded := by
  have hfold : ∀ i : Index, (rs.map AuditRecord.rounded).foldl Index.ingest i.rounded =
      (rs.foldl Index.ingest i).rounded := by
    induction rs with
    | nil => exact fun _ => rfl
    | cons r rs ih =>
      intro i
      have hstep : i.rounded.ingest r.rounded = (i.ingest r).rounded := by
        simp only [Index.rounded, Index.ingest, AuditRecord.rounded, List.map_append,
          List.map_cons, List.map_nil]
        rfl
      rw [List.map_cons, List.foldl_cons, List.foldl_cons, hstep, ih]
  exact hfold .empty

/-- Statistics do not tell records from the records a file keeps of them. -/
lemma stats_congr {rs rs' : List AuditRecord}
    (h : rs.map AuditRecord.rounded = rs'.map AuditRecord.rounded) :
    (indexOf rs).stats = (indexOf rs').stats := by
  rw [← Index.stats_rounded, ← indexOf_rounded, h, indexOf_rounded, Index.stats_rounded]

lemma rounded_rounded (r : AuditRecord) : r.rounded.rounded = r.rounded := by
  simp only [AuditRecord.rounded, roundDigits_roundDigits]

/-! ### Runs -/

/-- A call of `log` by a process that is up, a crash that leaves some characters of the last line,
and a start that reads the file. -/
inductive Event
  | log (r : AuditRecord)
  | crash (left : ℕ)
  | restart

/-- The file, the index of the process if one is up, and the records whose lines are whole. -/
structure State where
  file : Text
  index : Option Index
  completed : List AuditRecord

def State.empty : State := ⟨[], none, []⟩

/-- The last line of a file, with its line feed if it has one. -/
def lastLine (file : Text) : Text :=
  (file.dropLast.reverse.takeWhile (· ≠ '\n')).reverse ++ file.getLast?.toList

/-- No event follows from a state in which it is not possible. -/
def step (s : State) : Event → Option State
  | .log r => s.index.map fun i =>
    { file := s.file ++ record r, index := some (i.ingest r),
      completed := s.completed ++ [r] }
  | .crash left =>
    some
      { file := s.file.take (s.file.length - (lastLine s.file).length + left), index := none,
        completed :=
          if s.file.getLast? = some '\n' ∧ left < (lastLine s.file).length then
            s.completed.dropLast
          else s.completed }
  | .restart => some { s with index := (readAll s.file).map indexOf }

def run (s : State) (es : List Event) : Option State := es.foldlM step s

/-- The file ends where a line may begin. -/
def atLineStart (file : Text) : Prop := file = [] ∨ file.getLast? = some '\n'

/-- A line is added only where one may begin, and no crash takes away a line feed alone. -/
def Clean (s : State) : Event → Prop
  | .log _ => atLineStart s.file
  | .crash left => s.file.getLast? = some '\n' → left + 1 ≠ (lastLine s.file).length
  | .restart => True

/-- Every event of the run finds a state that it is clean in. -/
def CleanRun (s : State) : List Event → Prop
  | [] => True
  | e :: es => Clean s e ∧ ∀ s', step s e = some s' → CleanRun s' es

lemma lastLine_append {before l : Text} (hstart : atLineStart before) (hne : l ≠ [])
    (hlf : '\n' ∉ l.dropLast) : lastLine (before ++ l) = l := by
  have hall : ∀ c ∈ l.dropLast.reverse, decide (c ≠ '\n') = true := by
    intro c hc
    refine decide_eq_true fun heq => hlf ?_
    rw [← heq]
    exact List.mem_reverse.mp hc
  have hbefore : before.reverse.takeWhile (· ≠ '\n') = [] := by
    rcases hstart with rfl | hlast
    · rfl
    · obtain ⟨u, rfl⟩ := List.getLast?_eq_some_iff.mp hlast
      rw [List.reverse_append]
      rfl
  unfold lastLine
  rw [List.dropLast_append_of_ne_nil hne, List.reverse_append, List.takeWhile_append_of_pos hall,
    hbefore, List.append_nil, List.reverse_reverse, List.getLast?_append_of_ne_nil _ hne,
    List.getLast?_eq_some_getLast hne]
  exact List.dropLast_append_getLast hne

lemma atLineStart_records (rs : List AuditRecord) : atLineStart (rs.flatMap record) := by
  rcases List.eq_nil_or_concat rs with rfl | ⟨rs, r, rfl⟩
  · exact .inl rfl
  · right
    rw [List.concat_eq_append, List.flatMap_append, List.flatMap_singleton, record,
      ← List.append_assoc, List.getLast?_concat]

/-- A proper beginning of a line. -/
def Torn (t : Text) : Prop := ∃ r, t <+: line r ∧ t ≠ line r

lemma torn_nil : Torn [] := by
  obtain ⟨t, ht⟩ := line_cons default
  exact ⟨default, List.nil_prefix, by rw [ht]; exact nofun⟩

lemma Torn.lf_not_mem {t : Text} (h : Torn t) : '\n' ∉ t := by
  obtain ⟨r, hpre, -⟩ := h
  exact fun hmem => lf_not_mem_line r (hpre.subset hmem)

lemma Torn.readLine {t : Text} (h : Torn t) : readLine t = some [] := by
  obtain ⟨r, hpre, hne⟩ := h
  exact readLine_torn hpre hne

lemma Torn.prefix {t u : Text} (h : Torn t) (hu : u <+: t) : Torn u := by
  obtain ⟨r, hpre, hne⟩ := h
  refine ⟨r, hu.trans hpre, fun heq => hne ?_⟩
  rw [heq] at hu
  exact hpre.eq_of_length_le hu.length_le

lemma torn_take {r : AuditRecord} {left : ℕ} (h : left < (line r).length) :
    Torn ((record r).take left) := by
  refine ⟨r, ?_, fun heq => ?_⟩
  · rw [record, List.take_append_of_le_length h.le]
    exact List.take_prefix _ _
  · have hlen := congrArg List.length heq
    rw [List.length_take] at hlen
    omega

/-- The file holds the whole lines and perhaps a torn one, and the index of a process that is up
holds the records of the whole lines, exact or as the file keeps them. -/
structure Good (s : State) : Prop where
  file : ∃ torn, s.file = s.completed.flatMap record ++ torn ∧ Torn torn
  index : ∀ i, s.index = some i →
    ∃ rs, i = indexOf rs ∧ rs.map AuditRecord.rounded = s.completed.map AuditRecord.rounded

lemma good_empty : Good .empty := ⟨⟨[], rfl, torn_nil⟩, nofun⟩

/-- Where a line may begin, no torn line stands. -/
lemma torn_eq_nil {rs : List AuditRecord} {torn : Text} (h : Torn torn)
    (hstart : atLineStart (rs.flatMap record ++ torn)) : torn = [] := by
  by_contra hne
  rcases hstart with hnil | hlast
  · exact hne (List.append_eq_nil_iff.mp hnil).2
  · rw [List.getLast?_append_of_ne_nil _ hne] at hlast
    exact h.lf_not_mem (List.mem_of_getLast? hlast)

lemma Good.log {s s' : State} {r : AuditRecord} (hs : Good s) (hclean : atLineStart s.file)
    (h : step s (.log r) = some s') : Good s' := by
  obtain ⟨⟨torn, hfile, htorn⟩, hindex⟩ := hs
  obtain ⟨i, hi, rfl⟩ := Option.map_eq_some_iff.mp h
  rw [hfile] at hclean
  obtain rfl := torn_eq_nil htorn hclean
  refine ⟨⟨[], ?_, torn_nil⟩, fun j hj => ?_⟩
  · simp [hfile]
  · obtain ⟨rs, rfl, hrs⟩ := hindex i hi
    refine ⟨rs ++ [r], ?_, ?_⟩
    · rw [← Option.some.inj hj, indexOf, indexOf, List.foldl_append]
      rfl
    · rw [List.map_append, List.map_append, hrs]

/-- A crash leaves some beginning of the last line. -/
lemma take_lastLine {before l : Text} (hstart : atLineStart before) (hne : l ≠ [])
    (hlf : '\n' ∉ l.dropLast) (left : ℕ) :
    (before ++ l).take ((before ++ l).length - (lastLine (before ++ l)).length + left) =
      before ++ l.take left := by
  rw [lastLine_append hstart hne hlf, List.length_append, Nat.add_sub_cancel,
    List.take_length_add_append]

lemma Good.crash {s s' : State} {left : ℕ} (hs : Good s) (hclean : Clean s (.crash left))
    (h : step s (.crash left) = some s') : Good s' := by
  obtain ⟨⟨torn, hfile, htorn⟩, -⟩ := hs
  obtain rfl := Option.some.inj h
  refine ⟨?_, nofun⟩
  have hstart := atLineStart_records s.completed
  by_cases hne : torn = []
  · subst hne
    rw [List.append_nil] at hfile
    rcases List.eq_nil_or_concat s.completed with hnil | ⟨rs, r, hconcat⟩
    · rw [hnil] at hfile
      exact ⟨[], by simp [hfile, hnil], torn_nil⟩
    · -- the last line is whole
      rw [List.concat_eq_append] at hconcat
      have hrecord : record r ≠ [] := by simp [record]
      have hlf : '\n' ∉ (record r).dropLast := by
        rw [record, List.dropLast_concat]
        exact lf_not_mem_line r
      have hsplit : s.file = rs.flatMap record ++ record r := by
        rw [hfile, hconcat, List.flatMap_append, List.flatMap_singleton]
      have hlast : s.file.getLast? = some '\n' := by
        rw [hsplit, record, ← List.append_assoc, List.getLast?_concat]
      have hlen : (lastLine s.file).length = (line r).length + 1 := by
        rw [hsplit, lastLine_append (atLineStart_records rs) hrecord hlf, record,
          List.length_append, List.length_singleton]
      have hlf' := hclean hlast
      have htake := take_lastLine (atLineStart_records rs) hrecord hlf left
      rw [← hsplit] at htake
      dsimp only
      rw [htake]
      by_cases hcut : left < (lastLine s.file).length
      · rw [if_pos ⟨hlast, hcut⟩, hconcat, List.dropLast_concat]
        exact ⟨_, rfl, torn_take (by omega)⟩
      · have hall : (record r).take left = record r := by
          refine List.take_of_length_le ?_
          rw [record, List.length_append, List.length_singleton]
          omega
        rw [if_neg fun hboth => hcut hboth.2, hall, ← hsplit, hfile]
        exact ⟨[], (List.append_nil _).symm, torn_nil⟩
  · have hlf : '\n' ∉ torn.dropLast := fun hmem =>
      htorn.lf_not_mem ((List.dropLast_prefix torn).subset hmem)
    have hlast : s.file.getLast? ≠ some '\n' := by
      rw [hfile, List.getLast?_append_of_ne_nil _ hne]
      exact fun hl => htorn.lf_not_mem (List.mem_of_getLast? hl)
    dsimp only
    rw [if_neg fun hboth => hlast hboth.1, hfile, take_lastLine hstart hne hlf]
    exact ⟨_, rfl, htorn.prefix (List.take_prefix _ _)⟩

lemma Good.restart {s s' : State} (hs : Good s) (h : step s .restart = some s') : Good s' := by
  obtain ⟨⟨torn, hfile, htorn⟩, -⟩ := hs
  obtain rfl := Option.some.inj h
  refine ⟨⟨torn, hfile, htorn⟩, fun i hi => ?_⟩
  dsimp only at hi
  rw [hfile, readAll_records _ htorn.readLine htorn.lf_not_mem] at hi
  refine ⟨_, (Option.some.inj hi).symm, ?_⟩
  rw [List.map_map]
  exact List.map_congr_left fun r _ => rounded_rounded r

lemma Good.step {s s' : State} {e : Event} (hs : Good s) (hclean : Clean s e)
    (h : step s e = some s') : Good s' := by
  cases e with
  | log r => exact hs.log hclean h
  | crash left => exact hs.crash hclean h
  | restart => exact hs.restart h

lemma Good.run {s s' : State} {es : List Event} (hs : Good s) (hclean : CleanRun s es)
    (h : run s es = some s') : Good s' := by
  induction es generalizing s with
  | nil =>
    obtain rfl := Option.some.inj h
    exact hs
  | cons e es ih =>
    obtain ⟨s₁, hstep, hrest⟩ := Option.bind_eq_some_iff.mp h
    exact ih (hs.step hclean.1 hstep) (hclean.2 s₁ hstep) hrest

/-- In a run that adds no line behind a torn one and loses no line feed alone, a start always
succeeds, and the statistics after it, and as long as the process is up, are those of the records
whose lines were written whole. -/
theorem stats_of_completed {es : List Event} (hclean : CleanRun .empty es) {s : State}
    (h : run .empty es = some s) :
    (∃ s', step s .restart = some s' ∧
        s'.index.map Index.stats = some (indexOf s'.completed).stats ∧ s'.completed = s.completed) ∧
      ∀ i, s.index = some i → i.stats = (indexOf s.completed).stats := by
  have hgood := good_empty.run hclean h
  refine ⟨?_, fun i hi => ?_⟩
  · obtain ⟨torn, hfile, htorn⟩ := hgood.file
    refine ⟨_, rfl, ?_, rfl⟩
    dsimp only
    rw [hfile, readAll_records _ htorn.readLine htorn.lf_not_mem, Option.map_some, Option.map_some,
      indexOf_rounded, Index.stats_rounded]
  · obtain ⟨rs, rfl, hrs⟩ := hgood.index i hi
    exact stats_congr hrs

/-- A crash in the second of two calls loses the second record only. -/
theorem torn_line_skipped :
    ∃ s, run .empty [.restart, .log default, .log default, .crash 1] = some s ∧
      s.completed = [default] ∧ ∃ s', step s .restart = some s' ∧
        s'.index.map Index.stats = some (indexOf [default]).stats := by
  have hclean : CleanRun .empty [.restart, .log default, .log default, .crash 1] := by
    refine ⟨trivial, fun s₁ h₁ => ?_⟩
    obtain rfl := Option.some.inj h₁
    refine ⟨.inl rfl, fun s₂ h₂ => ?_⟩
    obtain rfl := Option.some.inj h₂
    refine ⟨.inr (by decide +kernel), fun s₃ h₃ => ?_⟩
    obtain rfl := Option.some.inj h₃
    exact ⟨fun _ => by decide +kernel, fun _ _ => trivial⟩
  obtain ⟨s', hs', hstats, hcompleted⟩ := (stats_of_completed hclean rfl).1
  refine ⟨_, rfl, by decide +kernel, s', hs', ?_⟩
  rw [hstats, hcompleted]
  decide +kernel

/-- The line behind a torn one is read with it as one line, and lost. -/
theorem next_line_swallowed :
    ∃ s, run .empty [.restart, .log default, .crash 3, .restart, .log default, .restart] = some s ∧
      s.index.map Index.stats ≠ some (indexOf s.completed).stats := by
  have hlost : (run .empty [.restart, .log default, .crash 3, .restart, .log default,
      .restart]).any fun s => s.index.map Index.stats ≠ some (indexOf s.completed).stats := by
    decide +kernel
  exact ((Option.any_eq_true _ _).mp hlost).imp fun _ h => ⟨h.1, of_decide_eq_true h.2⟩

end Treeweft.AuditLog
