import Treeweft.Scatter
import Treeweft.SourceListing
import Treeweft.SummaryCache

/-!
The summaries of the tail of a search.

The cache is asked once for each prompt version, at most twice: at the versions recorded for the
sources, and for what is missing there at the versions in effect. A rejection that is found in the
first round stands, and the second round does not see any.
-/

namespace Treeweft.TailSummaries

open Treeweft.SourceListing (PinView resolve)
open SummaryCache (Cache accepted rejectedSummary cacheGetMany cacheGetMany_false cacheGetMany_true)
open Scatter (group inGroup_group InGroup putAll setDefaults)

/-- The digest of a text and the source of its hit. -/
abbrev TailEntry := String × Option String

/-- A result is kept under the source and the digest. -/
abbrev Key := Option String × String

abbrev Summaries := Key → Option String

/-- What the search finds: the cache, the versions the registry has recorded, and the pins. There
is no pool where the first is `none`, and the lookup fails where the second is. -/
structure Found where
  pool : Option Cache
  registry : Option (String → Option ℕ)
  pins : PinView
  pinned : (pins.deployment "chunk_summary").isSome = true

/-! ### The Lookup -/

/-- `if source_id`. -/
def named (sourceId : Option String) : Option String := sourceId.filter (· ≠ "")

/-- `_recorded_versions`: a source without a record and a failed lookup are both unknown. -/
def recordedVersions (registry : Option (String → Option ℕ)) (sourceIds : List String) :
    String → Option ℕ := fun sourceId =>
  if sourceId ∈ sourceIds then registry.bind (· sourceId) else none

def versionOf (recorded : String → Option ℕ) (e : TailEntry) : Option ℕ :=
  (named e.2).bind recorded

/-- What the cache had for the digest at the version. -/
def rowsAt (rows : List (ℕ × (String → Option String))) (version : ℕ) (sha : String) :
    Option String := ((rows.lookup version).getD fun _ => none) sha

/-- The digests to ask for at each recorded version. -/
def byRecordedVersion (recorded : String → Option ℕ) (tailEntries : List TailEntry) :
    List (ℕ × List String) :=
  group (tailEntries.filterMap fun e => (versionOf recorded e).map (·, e.1))

def atRecorded (recorded : String → Option ℕ) (rows : List (ℕ × (String → Option String)))
    (tailEntries : List TailEntry) : Summaries :=
  putAll (fun _ => none) (tailEntries.filterMap fun e =>
    (versionOf recorded e).bind fun version => (rowsAt rows version e.1).map ((e.2, e.1), ·))

/-- The entries without a summary, with the versions in effect. -/
def missed (pins : PinView) (summaries : Summaries) (tailEntries : List TailEntry) :
    Option (List (ℕ × TailEntry)) :=
  (tailEntries.filter fun e => (summaries (e.2, e.1)).isNone).mapM fun e =>
    (resolve pins "chunk_summary" e.2).map (·, e)

/-- The entries of one effective version, which does not replace what is there. -/
def fallback (pool : Option Cache) (summaries : Summaries) (g : ℕ × List TailEntry) :
    Option Summaries := do
  let found ← cacheGetMany pool (g.2.map Prod.fst) g.1 false
  some (setDefaults summaries (g.2.filterMap fun e => (found e.1).map ((e.2, e.1), ·)))

/-- `none` where it raises. -/
def resolveTailSummaries (found : Found) (tailEntries : List TailEntry)
    (summaryPromptVersion : Option ℕ) : Option Summaries :=
  if tailEntries = [] then some fun _ => none
  else
    match summaryPromptVersion with
    | some version => do
      let bySha ← cacheGetMany found.pool (tailEntries.map Prod.fst) version false
      some (putAll (fun _ => none) (tailEntries.filterMap fun e =>
        (bySha e.1).map ((e.2, e.1), ·)))
    | none => do
      let recorded := recordedVersions found.registry (tailEntries.filterMap fun e => named e.2)
      let rows ← (byRecordedVersion recorded tailEntries).mapM fun g =>
        (cacheGetMany found.pool g.2 g.1 true).map (g.1, ·)
      let summaries := atRecorded recorded rows tailEntries
      let again ← missed found.pins summaries tailEntries
      (group again).foldlM (fallback found.pool) summaries

/-! ### An Entry Alone -/

section Alone
variable (found : Found) (cache : Cache)

def recordedVersion (e : TailEntry) : Option ℕ :=
  (named e.2).bind fun sourceId => found.registry.bind (· sourceId)

/-- What the cache has at the version in effect, rejections apart. -/
def atEffective (e : TailEntry) : Option String :=
  (resolve found.pins "chunk_summary" e.2).bind fun version => accepted (cache e.1 version)

/-- What is kept for an entry: at an explicit version what the cache has there; else what it has at
the recorded version, a rejection too, and only where that is nothing, what it has at the version
in effect. -/
def ownSummary (summaryPromptVersion : Option ℕ) (e : TailEntry) : Option String :=
  match summaryPromptVersion with
  | some version => accepted (cache e.1 version)
  | none => ((recordedVersion found e).bind (cache e.1)).or (atEffective found cache e)

end Alone

/-! ### The First Round -/

section Rounds
variable {found : Found} {cache : Cache} {entries : List TailEntry}

def keyOf (e : TailEntry) : Key := (e.2, e.1)

lemma mem_map_keyOf {k : Key} : k ∈ entries.map keyOf ↔ (k.2, k.1) ∈ entries := by
  constructor
  · intro h
    obtain ⟨e, he, rfl⟩ := List.mem_map.1 h
    exact he
  · exact fun h => List.mem_map.2 ⟨_, h, rfl⟩

/-- The lookup is made for the sources of the entries, so for an entry it is the registry's. -/
lemma versionOf_recordedVersions {e : TailEntry} (he : e ∈ entries) :
    versionOf (recordedVersions found.registry (entries.filterMap fun e => named e.2)) e =
      recordedVersion found e := by
  rw [versionOf, recordedVersion]
  cases hn : named e.2 with
  | none => rfl
  | some sourceId =>
    rw [Option.bind_some, Option.bind_some, recordedVersions,
      if_pos (List.mem_filterMap.2 ⟨e, he, hn⟩)]

/-- The answers to the groups, where there is a pool. -/
def answer (cache : Cache) (g : ℕ × List String) : ℕ × (String → Option String) :=
  (g.1, fun sha => if sha ∈ g.2 then cache sha g.1 else none)

lemma mapM_answer (gs : List (ℕ × List String)) :
    (gs.mapM fun g => (cacheGetMany (some cache) g.2 g.1 true).map (g.1, ·)) =
      some (gs.map (answer cache)) := by
  rw [Scatter.mapM_eq_some_iff, List.map_map]
  refine List.map_congr_left fun g _ => ?_
  rw [cacheGetMany_true]
  rfl

/-- A digest that stands in the group of a version is answered as the cache has it there. -/
lemma rowsAt_answer {gs : List (ℕ × List String)} (hnd : (gs.map Prod.fst).Nodup) {v : ℕ}
    {sha : String} (h : InGroup gs v sha) :
    rowsAt (gs.map (answer cache)) v sha = cache sha v := by
  induction gs with
  | nil => exact absurd h (by simp [InGroup])
  | cons g gs ih =>
    rw [List.map_cons, List.nodup_cons] at hnd
    rw [Scatter.inGroup_cons] at h
    rw [rowsAt, List.map_cons, List.lookup_cons]
    by_cases hv : g.1 = v
    · subst hv
      have hsha : sha ∈ g.2 := by
        rcases h with ⟨-, h⟩ | ⟨g', hg', hk, -⟩
        · exact h
        · exact absurd (List.mem_map.2 ⟨g', hg', hk⟩) hnd.1
      simp [answer, hsha]
    · have hne : (v == (answer cache g).1) = false := by
        simpa [answer] using Ne.symm hv
      rw [hne]
      exact ih hnd.2 (h.resolve_left fun h => hv h.1)

/-- After the first round an entry has what the cache has at its recorded version. -/
lemma atRecorded_apply {recorded : String → Option ℕ}
    (hrec : ∀ e ∈ entries, versionOf recorded e = recordedVersion found e) (k : Key) :
    atRecorded recorded ((byRecordedVersion recorded entries).map (answer cache)) entries k =
      if (k.2, k.1) ∈ entries then (recordedVersion found (k.2, k.1)).bind (cache k.2)
      else none := by
  have hwrites : ∀ e ∈ entries, ((versionOf recorded e).bind fun version =>
      (rowsAt ((byRecordedVersion recorded entries).map (answer cache)) version e.1).map
        ((e.2, e.1), ·)) =
      ((recordedVersion found ((keyOf e).2, (keyOf e).1)).bind (cache (keyOf e).2)).map
        (keyOf e, ·) := by
    intro e he
    cases hv : recordedVersion found e with
    | none => simp [hrec e he, hv, keyOf]
    | some v =>
      have hin : InGroup (byRecordedVersion recorded entries) v e.1 := by
        refine inGroup_group.2 (List.mem_filterMap.2 ⟨e, he, ?_⟩)
        rw [hrec e he, hv]
        rfl
      have hrows : rowsAt ((byRecordedVersion recorded entries).map (answer cache)) v e.1 =
          cache e.1 v := rowsAt_answer (Scatter.nodup_keys_group _) hin
      rw [hrec e he, hv, Option.bind_some, hrows]
      simp [keyOf, hv]
  rw [atRecorded, List.filterMap_congr hwrites, Scatter.putAll_filterMap keyOf
    (fun k => (recordedVersion found (k.2, k.1)).bind (cache k.2))]
  simp only [mem_map_keyOf, Option.or_none]

/-! ### The Second Round -/

lemma exists_effective (found : Found) (sourceId : Option String) :
    ∃ v, resolve found.pins "chunk_summary" sourceId = some v := by
  rw [resolve, if_neg (by decide)]
  cases sourceId.bind found.pins.overrides with
  | some v => exact ⟨v, rfl⟩
  | none => exact Option.isSome_iff_exists.1 found.pinned

/-- The entries that are looked up again, each at its own version. -/
lemma exists_missed (found : Found) (summaries : Summaries) (entries : List TailEntry) :
    ∃ again, missed found.pins summaries entries = some again ∧ ∀ v e, (v, e) ∈ again ↔
      e ∈ entries ∧ summaries (e.2, e.1) = none ∧
        resolve found.pins "chunk_summary" e.2 = some v := by
  obtain ⟨again, hagain⟩ : ∃ again, missed found.pins summaries entries = some again :=
    Scatter.exists_mapM fun e _ => by
      obtain ⟨v, hv⟩ := exists_effective found e.2
      exact ⟨(v, e), by rw [hv]; rfl⟩
  refine ⟨again, hagain, fun v e => ?_⟩
  rw [missed, Scatter.mapM_eq_some_iff] at hagain
  have hmem : (v, e) ∈ again ↔ some (v, e) ∈ again.map some := by simp
  rw [hmem, ← hagain, List.mem_map]
  constructor
  · rintro ⟨e', he', h⟩
    obtain ⟨v', hv', h⟩ := Option.map_eq_some_iff.1 h
    obtain ⟨rfl, rfl⟩ := Prod.ext_iff.1 h
    obtain ⟨he', hnone⟩ := List.mem_filter.1 he'
    exact ⟨he', Option.isNone_iff_eq_none.1 hnone, hv'⟩
  · rintro ⟨he, hnone, hv⟩
    exact ⟨e, List.mem_filter.2 ⟨he, Option.isNone_iff_eq_none.2 hnone⟩, by rw [hv]; rfl⟩

/-- A group fills in what its entries have at their version, where there is nothing yet. -/
lemma fallback_apply (cache : Cache) (summaries : Summaries) {g : ℕ × List TailEntry}
    (hg : ∀ e ∈ g.2, resolve found.pins "chunk_summary" e.2 = some g.1) :
    ∃ summaries', fallback (some cache) summaries g = some summaries' ∧ ∀ k, summaries' k =
      (summaries k).or (if (k.2, k.1) ∈ g.2 then atEffective found cache (k.2, k.1) else none) := by
  have hwrites : ∀ e ∈ g.2, ((if e.1 ∈ g.2.map Prod.fst then accepted (cache e.1 g.1)
      else none).map ((e.2, e.1), ·)) =
      (atEffective found cache ((keyOf e).2, (keyOf e).1)).map (keyOf e, ·) := by
    intro e he
    rw [if_pos (List.mem_map_of_mem he), atEffective]
    simp only [keyOf, hg e he, Option.bind_some]
  refine ⟨_, by rw [fallback, cacheGetMany_false]; rfl, fun k => ?_⟩
  rw [List.filterMap_congr hwrites, Scatter.setDefaults_filterMap keyOf
    (fun k => atEffective found cache (k.2, k.1))]
  simp only [mem_map_keyOf]

lemma foldlM_fallback (cache : Cache) {gs : List (ℕ × List TailEntry)} (summaries : Summaries)
    (hgs : ∀ g ∈ gs, ∀ e ∈ g.2, resolve found.pins "chunk_summary" e.2 = some g.1) :
    ∃ summaries', gs.foldlM (fallback (some cache)) summaries = some summaries' ∧
      ∀ k, summaries' k = (summaries k).or (if (k.2, k.1) ∈ gs.flatMap Prod.snd then
        atEffective found cache (k.2, k.1) else none) := by
  induction gs generalizing summaries with
  | nil => exact ⟨summaries, rfl, fun k => by simp⟩
  | cons g gs ih =>
    obtain ⟨m, hm, hk⟩ := fallback_apply cache summaries (hgs g List.mem_cons_self)
    obtain ⟨m', hm', hk'⟩ := ih m fun g' hg' => hgs g' (List.mem_cons_of_mem _ hg')
    refine ⟨m', by rw [List.foldlM_cons, hm]; exact hm', fun k => ?_⟩
    rw [hk', hk, Option.or_assoc]
    congr 1
    simp only [List.flatMap_cons, List.mem_append]
    by_cases h : (k.2, k.1) ∈ g.2
    · cases atEffective found cache (k.2, k.1) <;> simp [h]
    · simp only [h, false_or, if_false, Option.none_or]

/-! ### Both Rounds -/

lemma resolve_at (hpool : found.pool = some cache) (hne : entries ≠ []) (version : ℕ) :
    ∃ summaries, resolveTailSummaries found entries (some version) = some summaries ∧
      ∀ k, summaries k =
        if (k.2, k.1) ∈ entries then ownSummary found cache (some version) (k.2, k.1) else none := by
  have hwrites : ∀ e ∈ entries, ((if e.1 ∈ entries.map Prod.fst then accepted (cache e.1 version)
      else none).map ((e.2, e.1), ·)) =
      (accepted (cache (keyOf e).2 version)).map (keyOf e, ·) := by
    intro e he
    rw [if_pos (List.mem_map_of_mem he)]
    rfl
  refine ⟨_, by rw [resolveTailSummaries, if_neg hne, hpool, cacheGetMany_false]; rfl, fun k => ?_⟩
  rw [List.filterMap_congr hwrites, Scatter.putAll_filterMap keyOf
    (fun k => accepted (cache k.2 version))]
  simp only [mem_map_keyOf, Option.or_none, ownSummary]

lemma resolve_recorded (hpool : found.pool = some cache) (hne : entries ≠ []) :
    ∃ summaries, resolveTailSummaries found entries none = some summaries ∧ ∀ k, summaries k =
      if (k.2, k.1) ∈ entries then ownSummary found cache none (k.2, k.1) else none := by
  set recorded := recordedVersions found.registry (entries.filterMap fun e => named e.2)
  set summaries := atRecorded recorded
    ((byRecordedVersion recorded entries).map (answer cache)) entries
  have hfirst : ∀ k, summaries k = if (k.2, k.1) ∈ entries then
      (recordedVersion found (k.2, k.1)).bind (cache k.2) else none :=
    atRecorded_apply fun _ => versionOf_recordedVersions
  obtain ⟨again, hagain, hmem⟩ := exists_missed found summaries entries
  have hown : ∀ g ∈ group again, ∀ e ∈ g.2,
      resolve found.pins "chunk_summary" e.2 = some g.1 :=
    fun g hg e he => ((hmem g.1 e).1 (inGroup_group.1 ⟨g, hg, rfl, he⟩)).2.2
  obtain ⟨result, hresult, hk⟩ := foldlM_fallback cache summaries hown
  refine ⟨result, ?_, fun k => ?_⟩
  · rw [resolveTailSummaries, if_neg hne, hpool]
    simp only [mapM_answer, Option.bind_eq_bind, Option.bind_some]
    rw [hagain]
    exact hresult
  · have hin : (k.2, k.1) ∈ (group again).flatMap Prod.snd ↔
        (k.2, k.1) ∈ entries ∧ summaries k = none := by
      rw [List.mem_flatMap]
      constructor
      · rintro ⟨g, hg, he⟩
        obtain ⟨h1, h2, -⟩ := (hmem g.1 _).1 (inGroup_group.1 ⟨g, hg, rfl, he⟩)
        exact ⟨h1, h2⟩
      · rintro ⟨he, hnone⟩
        obtain ⟨v, hv⟩ := exists_effective found k.1
        obtain ⟨g, hg, -, hge⟩ := inGroup_group.2 ((hmem v (k.2, k.1)).2 ⟨he, hnone, hv⟩)
        exact ⟨g, hg, hge⟩
    rw [hk]
    by_cases he : (k.2, k.1) ∈ entries
    · have hs := (hfirst k).trans (if_pos he)
      rw [if_pos he, ownSummary, ← hs]
      cases hs' : summaries k with
      | some s => rfl
      | none => rw [if_pos (hin.2 ⟨he, hs'⟩)]
    · have hs : summaries k = none := (hfirst k).trans (if_neg he)
      rw [if_neg he, hs, if_neg fun h => he (hin.1 h).1]
      rfl

/-- Without a pool only nothing is answered. -/
lemma eq_nil_of_none {sha1s : List String} {v : ℕ} {r : Bool} {f : String → Option String}
    (h : cacheGetMany none sha1s v r = some f) : sha1s = [] := by
  by_contra hne
  rw [cacheGetMany, if_neg hne] at h
  cases h

lemma eq_nil_of_foldlM {gs : List (ℕ × List TailEntry)} {summaries result : Summaries}
    (h : gs.foldlM (fallback none) summaries = some result) : ∀ g ∈ gs, g.2 = [] := by
  induction gs generalizing summaries with
  | nil => exact fun _ hg => absurd hg List.not_mem_nil
  | cons g gs ih =>
    obtain ⟨m, hm, h⟩ := Option.bind_eq_some_iff.1 (List.foldlM_cons (m := Option) ▸ h)
    obtain ⟨f, hf, -⟩ := Option.bind_eq_some_iff.1 hm
    rintro g' (_ | ⟨_, hg'⟩)
    · exact List.map_eq_nil_iff.1 (eq_nil_of_none hf)
    · exact ih h g' hg'

/-- Without a pool an entry is asked for in the first round or in the second, and that raises. -/
lemma resolve_of_none (hpool : found.pool = none) (hne : entries ≠ []) (version : Option ℕ) :
    resolveTailSummaries found entries version = none := by
  rw [Option.eq_none_iff_forall_ne_some]
  intro result h
  unfold resolveTailSummaries at h
  rw [if_neg hne, hpool] at h
  cases version with
  | some v =>
    obtain ⟨f, hf, -⟩ := Option.bind_eq_some_iff.1 h
    exact hne (List.map_eq_nil_iff.1 (eq_nil_of_none hf))
  | none =>
    obtain ⟨rows, hrows, h⟩ := Option.bind_eq_some_iff.1 h
    obtain ⟨again, hagain, h⟩ := Option.bind_eq_some_iff.1 h
    set recorded := recordedVersions found.registry (entries.filterMap fun e => named e.2)
    have hgroups : ∀ g ∈ byRecordedVersion recorded entries, g.2 = [] := by
      intro g hg
      rw [Scatter.mapM_eq_some_iff] at hrows
      obtain ⟨row, -, hrow⟩ := List.mem_map.1 (hrows ▸ List.mem_map_of_mem hg)
      obtain ⟨f, hf, -⟩ := Option.map_eq_some_iff.1 hrow.symm
      exact eq_nil_of_none hf
    have hunknown : ∀ e ∈ entries, versionOf recorded e = none := by
      intro e he
      by_contra hsome
      obtain ⟨v, hv⟩ := Option.ne_none_iff_exists'.1 hsome
      have hmem : (v, e.1) ∈ entries.filterMap fun e => (versionOf recorded e).map (·, e.1) :=
        List.mem_filterMap.2 ⟨e, he, by rw [hv]; rfl⟩
      obtain ⟨g, hg, -, hge⟩ := inGroup_group.2 hmem
      exact absurd hge (hgroups g hg ▸ List.not_mem_nil)
    obtain ⟨e, he⟩ := List.exists_mem_of_ne_nil entries hne
    have hnothing : atRecorded recorded rows entries (e.2, e.1) = none := by
      rw [atRecorded, List.filterMap_eq_nil_iff.2 fun e he => by rw [hunknown e he]; rfl]
      rfl
    obtain ⟨again', hagain', hmem⟩ := exists_missed found (atRecorded recorded rows entries) entries
    obtain rfl := Option.some.inj (hagain.symm.trans hagain')
    obtain ⟨v, hv⟩ := exists_effective found e.2
    obtain ⟨g, hg, -, hge⟩ := inGroup_group.2 ((hmem v e).2 ⟨he, hnothing, hv⟩)
    exact absurd hge (eq_nil_of_foldlM h g hg ▸ List.not_mem_nil)

end Rounds

/-- Every entry has what it would have alone, and nobody else has anything. -/
lemma resolveTailSummaries_eq (found : Found) (entries : List TailEntry)
    (version : Option ℕ) :
    resolveTailSummaries found entries version =
      if entries = [] then some fun _ => none
      else found.pool.map fun cache k =>
        if (k.2, k.1) ∈ entries then ownSummary found cache version (k.2, k.1) else none := by
  split_ifs with hne
  · unfold resolveTailSummaries
    rw [if_pos hne]
  · cases hpool : found.pool with
    | none => exact resolve_of_none hpool hne version
    | some cache =>
      cases version with
      | some v =>
        obtain ⟨summaries, h, hk⟩ := resolve_at hpool hne v
        exact h.trans (congrArg some (funext hk))
      | none =>
        obtain ⟨summaries, h, hk⟩ := resolve_recorded hpool hne
        exact h.trans (congrArg some (funext hk))

/-- **Tail summaries resolve per source.** An entry has the summary of its text at the version
recorded for its source, none where that was rejected, and what there is at the version in effect
where there is nothing recorded; and it has this whatever the other entries are. -/
theorem tail_summaries_own (found : Found) (cache : Cache) (hpool : found.pool = some cache)
    (entries : List TailEntry) :
    ∃ result, resolveTailSummaries found entries none = some result ∧
      (∀ k, (k.2, k.1) ∉ entries → result k = none) ∧ ∀ e ∈ entries,
        (∀ v s, recordedVersion found e = some v → cache e.1 v = some s →
          (s ≠ rejectedSummary → result (e.2, e.1) = some s) ∧
            (s = rejectedSummary → accepted (result (e.2, e.1)) = none)) ∧
        ((∀ v, recordedVersion found e = some v → cache e.1 v = none) →
          result (e.2, e.1) = atEffective found cache e) ∧
        ∀ others alone, resolveTailSummaries found others none = some alone → e ∈ others →
          alone (e.2, e.1) = result (e.2, e.1) := by
  have hresult : ∀ es, resolveTailSummaries found es none = some fun k =>
      if (k.2, k.1) ∈ es then ownSummary found cache none (k.2, k.1) else none := by
    intro es
    rw [resolveTailSummaries_eq, hpool]
    split_ifs with hes
    · simp [hes]
    · rfl
  refine ⟨_, hresult entries, fun k hk => if_neg hk, fun e he => ?_⟩
  dsimp only
  rw [if_pos he, ownSummary]
  refine ⟨fun v s hv hs => ?_, fun hmiss => ?_, fun others alone halone hin => ?_⟩
  · rw [hv, Option.bind_some, hs]
    exact ⟨fun _ => rfl, fun hrej => by rw [hrej]; rfl⟩
  · cases hv : recordedVersion found e with
    | none => rfl
    | some v => rw [Option.bind_some, hmiss v hv]; rfl
  · obtain rfl := Option.some.inj ((hresult others).symm.trans halone)
    exact if_pos hin

/-! ### Three Sources of one Text -/

def cache : Cache := fun sha1 version =>
  if sha1 = "t" then [(1, "one"), (2, ""), (3, "three")].lookup version else none

def recordedAt : String → Option ℕ := fun sourceId => [("a", 1), ("b", 2), ("d", 4)].lookup sourceId

def found : Found := ⟨some cache, some recordedAt, ⟨fun _ => some 3, fun _ => none⟩, rfl⟩

def entries : List TailEntry := [("t", some "a"), ("t", some "b"), ("t", some "c"), ("t", some "d")]

/-- A hit, a rejection, a source without a record and a miss. -/
theorem tail_summaries_own_four : ∃ result, resolveTailSummaries found entries none = some result ∧
    result (some "a", "t") = some "one" ∧ accepted (result (some "b", "t")) = none ∧
      result (some "c", "t") = some "three" ∧ result (some "d", "t") = some "three" := by
  obtain ⟨result, h, -, hown⟩ := tail_summaries_own found cache rfl entries
  have ha := (hown ("t", some "a") (by decide)).1 1 "one" (by decide) (by decide)
  have hb := (hown ("t", some "b") (by decide)).1 2 "" (by decide) (by decide)
  have hc := (hown ("t", some "c") (by decide)).2.1 fun v hv => absurd hv (by decide +revert)
  have hd := (hown ("t", some "d") (by decide)).2.1 fun v hv => by
    obtain rfl := Option.some.inj (hv.symm.trans (by decide : _ = some 4))
    decide
  exact ⟨result, h, ha.1 (by decide), hb.2 rfl, hc.trans (by decide), hd.trans (by decide)⟩

end Treeweft.TailSummaries
