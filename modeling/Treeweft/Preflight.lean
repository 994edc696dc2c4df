import Mathlib.Data.List.Dedup
import Mathlib.Data.List.Sort
import Treeweft.JsonText
import Treeweft.Rounding
import Mathlib.Data.List.Infix

/-!
The preflight report on a repository: what the files and the estimates warn of, and the verdict.
-/

namespace Treeweft.Preflight

open JsonText (Text)
open Rounding (roundHalfEven roundDigits)

/-! ### Data -/

inductive Severity
  | low
  | medium
  | high
  deriving DecidableEq

inductive Verdict
  | green
  | yellow
  | red
  deriving DecidableEq

/-- Green before yellow before red. -/
def Verdict.rank : Verdict → ℕ
  | .green => 0
  | .yellow => 1
  | .red => 2

structure Warning where
  code : Text
  severity : Severity
  message : Text

structure FileStat where
  relPath : Text
  sizeBytes : ℕ
  loc : ℕ
  language : Text
  maxLineLength : ℕ

structure FileEstimate where
  relPath : Text
  secondsSummaryOn : ℚ

structure TotalEstimate where
  wallSecondsSummaryOn : ℚ
  wallSecondsSummaryOff : ℚ
  files : ℕ
  fileConcurrency : ℕ

def filesPerMin (files : ℕ) (wall : ℚ) : ℚ := if 0 < wall then files / (wall / 60) else 0

structure HotFile where
  path : Text
  sizeBytes : ℕ
  loc : ℕ
  language : Text
  estimatedSecondsSummaryOn : ℚ

structure FilesSummary where
  totalSupported : ℕ := 0
  totalUnsupported : ℕ
  byLanguage : List (Text × ℕ) := []
  sizeTotalBytes : ℕ := 0
  maxFileBytes : ℕ := 0
  longTailCount100kb : ℕ := 0
  hotFiles : List HotFile := []

structure Estimate where
  wallTimeS : ℤ := 0
  filesPerMin : ℚ := 0

structure Recommendations where
  env : List (Text × Text) := []
  skipPatterns : List Text := []

structure PreflightReport where
  path : Text
  filesSummary : FilesSummary
  summaryOn : Estimate
  summaryOff : Estimate
  warnings : List Warning
  recommendations : Recommendations
  verdict : Verdict

/-! ### Texts -/

def natText (n : ℕ) : Text := Nat.toDigits 10 n

/-- A number with `k` decimal places. -/
def fixed (k : ℕ) (x : ℚ) : Text :=
  let z := roundHalfEven (x * 10 ^ k)
  let places := natText (z.natAbs % 10 ^ k)
  JsonText.sign z ++ natText (z.natAbs / 10 ^ k) ++
    if k = 0 then [] else '.' :: (List.replicate (k - places.length) '0' ++ places)

def formatDuration (seconds : ℚ) : Text :=
  if seconds < 60 then fixed 0 seconds ++ ['s']
  else if seconds < 3600 then fixed 1 (seconds / 60) ++ ['m']
  else if seconds < 86400 then fixed 1 (seconds / 3600) ++ ['h']
  else fixed 1 (seconds / 86400) ++ ['d']

/-- Toward zero. -/
def truncate (x : ℚ) : ℤ := if 0 ≤ x then ⌊x⌋ else ⌈x⌉

def commaJoin (l : List Text) : Text := ", ".toList.intercalate l

/-! ### Rules on the Estimates -/

def redWall : ℚ := 24 * 3600

def yellowWall : ℚ := 6 * 3600

section Time
variable (total : TotalEstimate)

/-- Chunks and graph alone take long: index in two passes. -/
def strategyWarnings : List Warning :=
  if yellowWall < total.wallSecondsSummaryOff then
    [{ code := "STRATEGY_TWO_PASS".toList
       severity := .high
       message := "Even chunks+graph alone takes ".toList ++
         formatDuration total.wallSecondsSummaryOff ++
         (". Split into two passes: 1) /index-repo with skip_graph=true, " ++
           "2) /index-graph with the resulting source_id during off-hours.").toList }]
  else []

def timeWarnings : List Warning :=
  let on := formatDuration total.wallSecondsSummaryOn
  let off := formatDuration total.wallSecondsSummaryOff
  if redWall < total.wallSecondsSummaryOn ∧ total.wallSecondsSummaryOff < yellowWall then
    [{ code := "SUMMARY_VECTOR_BLOWS_BUDGET".toList
       severity := .high
       message := "Estimated ".toList ++ on ++
         " with USE_SUMMARY_VECTOR=1; setting it to 0 drops the estimate to ".toList ++ off ++
         ". Strongly recommended.".toList }]
  else if redWall < total.wallSecondsSummaryOff then
    [{ code := "ESTIMATED_TIME_OVER_24H".toList
       severity := .high
       message := "Estimated ".toList ++ off ++ (" even without summary vectors. " ++
         "Consider splitting the source or reducing scope.").toList }]
  else if yellowWall < total.wallSecondsSummaryOn then
    [{ code := "LONG_INDEX_TIME".toList
       severity := .medium
       message := "Estimated ".toList ++ on ++ " with summaries; ".toList ++ off ++
         " without.".toList }]
  else []

def timeEnv : List (Text × Text) :=
  (if yellowWall < total.wallSecondsSummaryOff then
    [("strategy".toList, "two_pass".toList)] else []) ++
  (if redWall < total.wallSecondsSummaryOn ∧ total.wallSecondsSummaryOff < yellowWall then
    [("USE_SUMMARY_VECTOR".toList, ['0'])] else []) ++
  [("INDEX_FILE_CONCURRENCY".toList, natText total.fileConcurrency)]

end Time

/-! ### Rules on the Files -/

def noisyPatterns : List Text :=
  ["*.min.js", "*.bundle.js", "*.min.css", "package-lock.json", "yarn.lock", "Cargo.lock",
    "Gemfile.lock", "poetry.lock", "pnpm-lock.yaml", "*.map"].map String.toList

section Files
variable (stats : List FileStat)

/-- Languages in the order of their first file, with the number of their files. -/
def byLanguage : List (Text × ℕ) :=
  let languages := stats.map FileStat.language
  languages.reverse.dedup.reverse.map fun l => (l, languages.count l)

def maxSize : ℕ := (stats.map FileStat.sizeBytes).foldl max 0

def longTail : ℕ := stats.countP fun s => 100 * 1024 < s.sizeBytes

/-- The ten files that take longest; of two files with one path the later is shown. -/
def hotFiles (perFile : List FileEstimate) : List HotFile :=
  ((perFile.mergeSort fun e f => f.secondsSummaryOn ≤ e.secondsSummaryOn).take 10).filterMap
    fun est => (stats.reverse.find? fun s => s.relPath = est.relPath).map fun s =>
      { path := s.relPath
        sizeBytes := s.sizeBytes
        loc := s.loc
        language := s.language
        estimatedSecondsSummaryOn := roundDigits 1 est.secondsSummaryOn }

def sizeWarnings : List Warning :=
  (if 1000000 < maxSize stats then
    [{ code := "HOT_FILES".toList
       severity := .medium
       message := natText (stats.countP fun s => 1000000 < s.sizeBytes) ++
         " file(s) > 1 MB — these dominate runtime. See \x60hot_files\x60 in the report.".toList }]
  else []) ++
  if 20 < longTail stats then
    [{ code := "LONG_TAIL".toList
       severity := .medium
       message := natText (longTail stats) ++
         " files > 100 KB — long tail will dominate even with concurrency.".toList }]
  else []

def crashWarnings (lineBytes : ℕ) : List Warning :=
  let risks := stats.filter fun s => lineBytes < s.maxLineLength
  if risks = [] then []
  else
    let paths := ((risks.take 5).map FileStat.relPath).mergeSort (· ≤ ·)
    let tail := if 5 < risks.length then
      " (+".toList ++ natText (risks.length - 5) ++ " more)".toList else []
    [{ code := "TREE_SITTER_CRASH_RISK".toList
       severity := .medium
       message := natText risks.length ++ " file(s) have lines >".toList ++
         natText (lineBytes / 1024) ++
         "KB — tree-sitter may crash on these (falls back to character chunking): ".toList ++
         commaJoin paths ++ tail }]

def suggestedPatterns : List Text :=
  (noisyPatterns.filter fun pat => stats.any fun s =>
    pat.dropWhile (· = '*') <:+ s.relPath || s.relPath = pat) ++
  if stats.any fun s => ".d.ts".toList <:+ s.relPath &&
      ("/lib/lib.".toList <:+: s.relPath || "/lib.dom".toList <:+: s.relPath) then
    ["**/lib.*.d.ts".toList]
  else []

def noisyWarnings : List Warning :=
  if suggestedPatterns stats = [] then []
  else
    [{ code := "NOISY_FILES_DETECTED".toList
       severity := .medium
       message := "Generated/bundle files detected. Suggest skipping: ".toList ++
         commaJoin (suggestedPatterns stats) ++ ['.'] }]

/-- The first of the largest counts. -/
def dominant (counts : List (Text × ℕ)) : Option (Text × ℕ) :=
  counts.find? fun c => c.2 = (counts.map Prod.snd).foldl max 0

def repoWarnings (files : ℕ) : List Warning :=
  (if 20000 < files then
    [{ code := "LARGE_REPO".toList
       severity := .low
       message := natText files ++
         " files — plan to run overnight; resume works on crash.".toList }]
  else []) ++
  match dominant (byLanguage stats) with
  | some (language, n) =>
    if (9 / 10 : ℚ) < n / files then
      [{ code := "SINGLE_LANGUAGE_DOMINANT".toList
         severity := .low
         message := natText n ++ '/' :: natText files ++ " files are ".toList ++ language ++
           ['.'] }]
    else []
  | none => []

def fileWarnings (lineBytes files : ℕ) : List Warning :=
  sizeWarnings stats ++ crashWarnings stats lineBytes ++ noisyWarnings stats ++
    repoWarnings stats files

end Files

/-! ### The Report -/

def decideVerdict (warnings : List Warning) (total : TotalEstimate) : Verdict :=
  if (warnings.any fun w => w.severity = .high) ∨ redWall < total.wallSecondsSummaryOff then .red
  else if (warnings.any fun w => w.severity = .medium) ∨
      yellowWall < total.wallSecondsSummaryOn then .yellow
  else .green

/-- Nothing comes of files that are counted as none: the share of a language divides by them. -/
def buildReport (repr : Text → Text) (path : Text) (stats : List FileStat) (unsupportedCount : ℕ)
    (perFile : List FileEstimate) (total : TotalEstimate) (featureSkipPatterns : Bool)
    (lineBytes : ℕ) : Option PreflightReport :=
  if stats = [] then
    some
      { path := path
        filesSummary := { totalUnsupported := unsupportedCount }
        summaryOn := {}
        summaryOff := {}
        warnings :=
          [{ code := "NO_SUPPORTED_FILES".toList
             severity := .high
             message := "No supported files found at ".toList ++ repr path ++
               " — nothing to index.".toList }]
        recommendations := {}
        verdict := .red }
  else if total.files = 0 then none
  else
    let warnings := strategyWarnings total ++ timeWarnings total ++
      fileWarnings stats lineBytes total.files
    some
      { path := path
        filesSummary :=
          { totalSupported := stats.length
            totalUnsupported := unsupportedCount
            byLanguage := byLanguage stats
            sizeTotalBytes := (stats.map FileStat.sizeBytes).sum
            maxFileBytes := maxSize stats
            longTailCount100kb := longTail stats
            hotFiles := hotFiles stats perFile }
        summaryOn :=
          { wallTimeS := truncate total.wallSecondsSummaryOn
            filesPerMin := roundDigits 2 (filesPerMin total.files total.wallSecondsSummaryOn) }
        summaryOff :=
          { wallTimeS := truncate total.wallSecondsSummaryOff
            filesPerMin := roundDigits 2 (filesPerMin total.files total.wallSecondsSummaryOff) }
        warnings := warnings
        recommendations :=
          { env := timeEnv total
            skipPatterns := if featureSkipPatterns then suggestedPatterns stats else [] }
        verdict := decideVerdict warnings total }

/-! ### The Verdict -/

section Verdict
variable {stats : List FileStat} {lineBytes files : ℕ} {total total' : TotalEstimate}

variable (stats lineBytes files) in
lemma fileWarnings_not_high : ∀ w ∈ fileWarnings stats lineBytes files, w.severity ≠ .high := by
  have hif : ∀ {p : Prop} [Decidable p] {code message : Text} {s : Severity}, s ≠ .high →
      ∀ w ∈ if p then [Warning.mk code s message] else [], w.severity ≠ .high := by
    intro p _ code message s hs w hw
    split_ifs at hw
    · rwa [List.mem_singleton.mp hw]
    · cases hw
  have hifnot : ∀ {p : Prop} [Decidable p] {code message : Text} {s : Severity}, s ≠ .high →
      ∀ w ∈ if p then [] else [Warning.mk code s message], w.severity ≠ .high := by
    intro p _ code message s hs w hw
    split_ifs at hw
    · cases hw
    · rwa [List.mem_singleton.mp hw]
  intro w hw
  simp only [fileWarnings, List.mem_append] at hw
  rcases hw with ((hw | hw) | hw) | hw
  · rcases List.mem_append.mp hw with hw | hw
    · exact hif (by decide) w hw
    · exact hif (by decide) w hw
  · exact hifnot (by decide) w hw
  · exact hifnot (by decide) w hw
  · rcases List.mem_append.mp hw with hw | hw
    · exact hif (by decide) w hw
    · split at hw
      · exact hif (by decide) w hw
      · cases hw

/-- What the estimates make red. -/
def Overrun (total : TotalEstimate) : Prop :=
  yellowWall < total.wallSecondsSummaryOff ∨
    redWall < total.wallSecondsSummaryOn ∧ total.wallSecondsSummaryOff < yellowWall

lemma yellowWall_lt_redWall : yellowWall < redWall := by
  norm_num [yellowWall, redWall]

lemma any_severity_iff (ws : List Warning) (s : Severity) :
    (ws.any fun w => w.severity = s) = true ↔ ∃ w ∈ ws, w.severity = s := by
  simp only [List.any_eq_true, decide_eq_true_eq]

variable (total) in
lemma exists_high_iff {ws : List Warning} (hws : ∀ w ∈ ws, w.severity ≠ .high) :
    (∃ w ∈ strategyWarnings total ++ timeWarnings total ++ ws, w.severity = .high) ↔
      Overrun total := by
  have hwalls := yellowWall_lt_redWall
  unfold Overrun strategyWarnings timeWarnings
  constructor
  · rintro ⟨w, hw, hhigh⟩
    rcases List.mem_append.mp hw with hw | hw
    · rcases List.mem_append.mp hw with hw | hw
      · split_ifs at hw with hoff
        · exact .inl hoff
        · cases hw
      · split_ifs at hw with hbudget hred hlong
        · exact .inr hbudget
        · exact .inl (hwalls.trans hred)
        · rw [List.mem_singleton.mp hw] at hhigh
          cases hhigh
        · cases hw
    · exact absurd hhigh (hws w hw)
  · rintro (hoff | hbudget)
    · rw [if_pos hoff]
      exact ⟨_, List.mem_cons_self, rfl⟩
    · rw [if_pos hbudget]
      exact ⟨_, List.mem_append_left _ (List.mem_append_right _ List.mem_cons_self), rfl⟩

lemma exists_medium_iff (ws : List Warning) (hcalm : ¬Overrun total) :
    (∃ w ∈ strategyWarnings total ++ timeWarnings total ++ ws, w.severity = .medium) ↔
      yellowWall < total.wallSecondsSummaryOn ∨ ∃ w ∈ ws, w.severity = .medium := by
  have hwalls := yellowWall_lt_redWall
  unfold Overrun at hcalm
  obtain ⟨hoff, hbudget⟩ := not_or.mp hcalm
  have hred : ¬redWall < total.wallSecondsSummaryOff := fun h => hoff (hwalls.trans h)
  unfold strategyWarnings timeWarnings
  rw [if_neg hoff, if_neg hbudget, if_neg hred, List.nil_append]
  split_ifs with hlong
  · exact iff_of_true ⟨_, List.mem_cons_self, rfl⟩ (.inl hlong)
  · rw [List.nil_append]
    exact (or_iff_right hlong).symm

variable (total) in
lemma decideVerdict_red_iff {ws : List Warning} (hws : ∀ w ∈ ws, w.severity ≠ .high) :
    decideVerdict (strategyWarnings total ++ timeWarnings total ++ ws) total = .red ↔
      Overrun total := by
  have hhigh := (any_severity_iff _ _).trans (exists_high_iff total hws)
  have hwalls := yellowWall_lt_redWall
  unfold decideVerdict
  split_ifs with hred hmedium
  · exact iff_of_true rfl (hred.elim hhigh.mp fun hoff => .inl (hwalls.trans hoff))
  · exact iff_of_false nofun fun h => hred (.inl (hhigh.mpr h))
  · exact iff_of_false nofun fun h => hred (.inl (hhigh.mpr h))

variable (total) in
lemma decideVerdict_green_iff {ws : List Warning} (hws : ∀ w ∈ ws, w.severity ≠ .high) :
    decideVerdict (strategyWarnings total ++ timeWarnings total ++ ws) total = .green ↔
      ¬Overrun total ∧ ¬yellowWall < total.wallSecondsSummaryOn ∧
        ¬∃ w ∈ ws, w.severity = .medium := by
  by_cases hover : Overrun total
  · refine iff_of_false (fun hgreen => ?_) fun h => h.1 hover
    rw [(decideVerdict_red_iff total hws).mpr hover] at hgreen
    cases hgreen
  · have hnotred := mt (decideVerdict_red_iff total hws).mp hover
    have hmedium := (any_severity_iff _ _).trans (exists_medium_iff ws hover)
    unfold decideVerdict at hnotred ⊢
    split_ifs at hnotred ⊢ with hred hyellow
    · exact absurd rfl hnotred
    · refine iff_of_false nofun fun h => ?_
      exact hyellow.elim (fun hor => (hmedium.mp hor).elim h.2.1 h.2.2) h.2.1
    · obtain ⟨hor, hlong⟩ := not_or.mp hyellow
      exact iff_of_true rfl ⟨hover, hlong, fun h => hor (hmedium.mpr (.inr h))⟩

lemma rank_le_rank_iff {v v' : Verdict} (h : v' = .green → v ≠ .yellow) :
    v.rank ≤ v'.rank ↔ ¬(v = .red ∧ ¬v' = .red) := by
  cases v <;> cases v' <;> first | decide +revert | exact absurd rfl (h rfl)

/-- The verdict falls only where the estimate without summaries comes to be the threshold itself,
and the one with summaries is over a day: no rule is for that. -/
lemma rank_le_iff {ws : List Warning} (hws : ∀ w ∈ ws, w.severity ≠ .high)
    (hon : total.wallSecondsSummaryOn ≤ total'.wallSecondsSummaryOn)
    (hoff : total.wallSecondsSummaryOff ≤ total'.wallSecondsSummaryOff) :
    (decideVerdict (strategyWarnings total ++ timeWarnings total ++ ws) total).rank ≤
        (decideVerdict (strategyWarnings total' ++ timeWarnings total' ++ ws) total').rank ↔
      ¬(redWall < total.wallSecondsSummaryOn ∧ total.wallSecondsSummaryOff < yellowWall ∧
        total'.wallSecondsSummaryOff = yellowWall) := by
  have hred := decideVerdict_red_iff total hws
  have hred' := decideVerdict_red_iff total' hws
  have hgreen := decideVerdict_green_iff total hws
  have hgreen' := decideVerdict_green_iff total' hws
  have hfall : Overrun total ∧ ¬Overrun total' ↔ redWall < total.wallSecondsSummaryOn ∧
      total.wallSecondsSummaryOff < yellowWall ∧ total'.wallSecondsSummaryOff = yellowWall := by
    unfold Overrun
    constructor
    · rintro ⟨hover, hcalm⟩
      obtain ⟨hlow, hbudget⟩ := not_or.mp hcalm
      rcases hover with hover | ⟨hover, hlt⟩
      · exact absurd (hover.trans_le hoff) hlow
      · refine ⟨hover, hlt, le_antisymm (not_lt.mp hlow) (not_lt.mp fun h => ?_)⟩
        exact hbudget ⟨hover.trans_le hon, h⟩
    · rintro ⟨hover, hlt, heq⟩
      refine ⟨.inr ⟨hover, hlt⟩, not_or.mpr ⟨?_, ?_⟩⟩
      · rw [heq]
        exact lt_irrefl _
      · rw [heq]
        exact fun h => lt_irrefl _ h.2
  rw [← hfall, ← hred, ← hred']
  refine rank_le_rank_iff fun hgreens hyellow => ?_
  obtain ⟨-, hshort, hnone⟩ := hgreen'.mp hgreens
  have hover : ¬Overrun total := fun h => by
    rw [hred.mpr h] at hyellow
    cases hyellow
  rw [hgreen.mpr ⟨hover, fun h => hshort (h.trans_le hon), hnone⟩] at hyellow
  cases hyellow

end Verdict

/-- The verdict on the same files is monotone in the estimates but at the threshold. -/
theorem buildReport_mono_iff (repr : Text → Text) (path : Text) (stats : List FileStat)
    (unsupportedCount : ℕ) (perFile perFile' : List FileEstimate) {total total' : TotalEstimate}
    (featureSkipPatterns : Bool) (lineBytes : ℕ) (hfiles : total'.files = total.files)
    (hon : total.wallSecondsSummaryOn ≤ total'.wallSecondsSummaryOn)
    (hoff : total.wallSecondsSummaryOff ≤ total'.wallSecondsSummaryOff) :
    (∀ r ∈ buildReport repr path stats unsupportedCount perFile total featureSkipPatterns lineBytes,
      ∀ r' ∈ buildReport repr path stats unsupportedCount perFile' total' featureSkipPatterns
        lineBytes, r.verdict.rank ≤ r'.verdict.rank) ↔
      ¬(stats ≠ [] ∧ total.files ≠ 0 ∧ redWall < total.wallSecondsSummaryOn ∧
        total.wallSecondsSummaryOff < yellowWall ∧ total'.wallSecondsSummaryOff = yellowWall) := by
  unfold buildReport
  by_cases hstats : stats = []
  · rw [if_pos hstats, if_pos hstats]
    refine iff_of_true (fun r hr r' hr' => ?_) fun h => h.1 hstats
    rw [← Option.some.inj hr, ← Option.some.inj hr']
  · rw [if_neg hstats, if_neg hstats]
    by_cases hzero : total.files = 0
    · rw [if_pos hzero]
      exact iff_of_true nofun fun h => h.2.1 hzero
    · rw [hfiles, if_neg hzero, if_neg hzero]
      have hrank := rank_le_iff (fileWarnings_not_high stats lineBytes total.files) hon hoff
      simp only [Option.mem_def, Option.some.injEq, forall_eq']
      rw [hrank]
      simp only [hstats, hzero, ne_eq, not_false_eq_true, true_and]

/-- One small file. -/
def oneFile : List FileStat := [⟨"a.py".toList, 100, 10, "python".toList, 40⟩]

theorem oneFile_mono : ∃ r ∈ buildReport id [] oneFile 0 [] ⟨90000, 20000, 1, 8⟩ false 10240,
    ∃ r' ∈ buildReport id [] oneFile 0 [] ⟨90000, 22000, 1, 8⟩ false 10240,
      r.verdict.rank ≤ r'.verdict.rank := by
  have hwall : (22000 : ℚ) ≠ yellowWall := by norm_num [yellowWall]
  have hmono := @buildReport_mono_iff id [] oneFile 0 [] [] ⟨90000, 20000, 1, 8⟩
    ⟨90000, 22000, 1, 8⟩ false 10240 rfl (by norm_num) (by norm_num)
  have hle := hmono.mpr fun h => hwall h.2.2.2.2
  exact ⟨_, rfl, _, rfl, hle _ rfl _ rfl⟩

/-- Twenty-five hours with summaries; without, first five hours and then six. -/
theorem slower_is_better :
    ¬∀ r ∈ buildReport id [] oneFile 0 [] ⟨90000, 18000, 1, 8⟩ false 10240,
      ∀ r' ∈ buildReport id [] oneFile 0 [] ⟨90000, 21600, 1, 8⟩ false 10240,
        r.verdict.rank ≤ r'.verdict.rank := by
  intro h
  have hrank := h _ rfl _ rfl
  revert hrank
  decide +kernel

end Treeweft.Preflight
