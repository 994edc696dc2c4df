import Treeweft.PlannedRefresh

/-!
Setting a pin and clearing an override, as a dry run or for real.

Both calls decide by the same pins and sources, and plan by the same tables; a real call then
writes the pin and makes the jobs. What a dry run plans, a real call does, as long as planning
itself changes nothing: the gate it asks may adopt an index.
-/

namespace Treeweft.PinChange

open Treeweft.Jobs Treeweft.WriteGate Treeweft.PlannedRefresh
open Treeweft.SourceListing (SourceRecord isStale)
open Treeweft.PromptPins (PinRow PinView)
open Treeweft.IndexStamp (IndexStatus ConfiguredIndex)
open Treeweft.IndexCheck (World CheckEnv computeStatus)

/-! ### The Pins -/

def isRegistered (registry : List (String × List ℕ)) (operation : String) (version : ℕ) : Bool :=
  registry.any fun (op, versions) => op = operation && version ∈ versions

/-- `none` raises. -/
def versions (registry : List (String × List ℕ)) (operation : String) : Option (List ℕ) :=
  (registry.find? fun (op, _) => op = operation).map fun (_, versions) =>
    versions.insertionSort fun a b => a ≤ b

def buildView (registry : List (String × List ℕ)) (rows : List PinRow) : Option PinView :=
  rows.foldlM (fun v row =>
      if isRegistered registry row.operation row.version then some (v.add row) else none)
    ⟨fun _ => none, fun _ => none⟩

lemma buildView_registry (rows : List PinRow) :
    buildView PromptPins.registry rows = PromptPins.buildView rows := rfl

def complete (registry : List (String × List ℕ)) (v : PinView) : Bool :=
  registry.all fun (op, _) => (v.deployment op).isSome

/-- Rows that make no view, or not a complete one, leave the view as it is. -/
def reload (env : Env) (st : St) : St :=
  let read := (buildView env.registry st.pins.rows).filter (complete env.registry)
  { st with view := read.getD st.view }

/-- Most recently indexed first, as many as a listing has. -/
def listAll (env : Env) (st : St) : List SourceRecord :=
  (st.sources.rows.insertionSort fun r s => s.indexedAt ≤ r.indexedAt).take env.sourceListMax

/-! ### The Calls -/

inductive Refusal
  | hydeOverride
  | unknownVersion (operation : String) (version : ℕ) (validVersions : List ℕ)
  | unknownSource (sourceId : String)
  | noOverride (sourceId : String)
  /-- Any exception that the routes do not translate. -/
  | raised
  deriving DecidableEq, Repr

structure Result where
  dryRun : Bool
  operation : String
  scope : String
  previousVersion : Option ℕ
  version : ℕ
  enqueued : List RefreshItem
  deferred : List RefreshItem
  notEnqueued : List RefreshItem
  groupId : Option ℕ
  totalChunks : ℕ
  effect : Option String
  deriving DecidableEq, Repr

def emptyResult (operation scope : String) (previous : Option ℕ) (version : ℕ) (dryRun : Bool) :
    Result :=
  ⟨dryRun, operation, scope, previous, version, [], [], [], none, 0,
    if operation = "hyde" then some "takes effect on the next query" else none⟩

/-- The end of both calls: the plan and, for real, the new pins and the jobs. -/
def change (env : Env) (dryRun : Bool) (updatedBy : Option String) (operation scope : String)
    (previous : Option ℕ) (version : ℕ) (sources : List SourceRecord)
    (write : Keyed PinKey → Keyed PinKey) (st : St) : Except Refusal Result × St :=
  match planRefreshes env sources (fun _ => some version) st with
  | (none, st) => (.error .raised, st)
  | (some plan, st) =>
    let (plan, st) :=
      if dryRun then (plan, st)
      else enqueueRefreshes env updatedBy plan (reload env { st with pins := write st.pins })
    (.ok ⟨dryRun, operation, scope, previous, version, plan.enqueued, plan.deferred,
      plan.notEnqueued, if dryRun then none else plan.groupId, plan.totalChunks, none⟩, st)

/-- The pin at a scope and the sources that it is for; `none` where the scope is no source. -/
def scoped? (env : Env) (operation scope : String) (st : St) :
    Option (Option ℕ × List SourceRecord) :=
  if scope = "deployment" then
    some (st.view.deployment operation,
      (listAll env st).filter fun s => (st.view.overrides s.id).isNone)
  else (st.sources.get? scope).map fun s => (st.view.overrides scope, [s])

/-- `versions` raises for an operation that nobody knows. -/
def unregistered (env : Env) (operation : String) (version : ℕ) : Refusal :=
  match versions env.registry operation with
  | none => .raised
  | some valid => .unknownVersion operation version valid

def setPin (env : Env) (dryRun : Bool) (updatedBy : Option String) (operation scope : String)
    (version : ℕ) (st : St) : Except Refusal Result × St :=
  if operation = "hyde" ∧ scope ≠ "deployment" then (.error .hydeOverride, st)
  else if !isRegistered env.registry operation version then
    (.error (unregistered env operation version), st)
  else
    let st := reload env st
    match scoped? env operation scope st with
    | none => (.error (.unknownSource scope), st)
    | some (previous, sources) =>
      if previous = some version then
        (.ok (emptyResult operation scope previous version dryRun), st)
      else if operation = "hyde" then
        (.ok (emptyResult operation scope previous version dryRun),
          if dryRun then st
          else reload env { st with pins := st.pins.put ⟨operation, scope, version⟩ })
      else
        change env dryRun updatedBy operation scope previous version sources
          (fun pins => pins.put ⟨operation, scope, version⟩) st

def clearOverride (env : Env) (dryRun : Bool) (updatedBy : Option String) (sourceId : String)
    (st : St) : Except Refusal Result × St :=
  match st.sources.get? sourceId with
  | none => (.error (.unknownSource sourceId), st)
  | some source =>
    let st := reload env st
    match st.view.overrides sourceId with
    | none => (.error (.noOverride sourceId), st)
    | some previous =>
      match st.view.deployment "chunk_summary" with
      | none => (.error .raised, st)
      | some version =>
        change env dryRun updatedBy "chunk_summary" sourceId (some previous) version [source]
          (fun pins => pins.erase ("chunk_summary", sourceId)) st

inductive Request
  | setPin (operation scope : String) (version : ℕ)
  | clearOverride (sourceId : String)
  deriving DecidableEq, Repr

def call (env : Env) (dryRun : Bool) (updatedBy : Option String) (req : Request) (st : St) :
    Except Refusal Result × St :=
  match req with
  | .setPin operation scope version => setPin env dryRun updatedBy operation scope version st
  | .clearOverride sourceId => clearOverride env dryRun updatedBy sourceId st

/-! ### What a Dry Run Promises -/

/-- The sources that a request moves, and the version it moves them to; none where it is refused
or moves no summaries. -/
def aim (env : Env) (req : Request) (st : St) : Option ((SourceRecord → Bool) × ℕ) :=
  let view := (reload env st).view
  match req with
  | .setPin operation scope version =>
    if operation = "hyde" ∨ isRegistered env.registry operation version = false then none
    else if scope = "deployment" then
      if view.deployment operation = some version then none
      else some (fun s => (view.overrides s.id).isNone, version)
    else if view.overrides scope = some version then none
    else some (fun s => s.id = scope, version)
  | .clearOverride sourceId =>
    if (view.overrides sourceId).isSome then
      (view.deployment "chunk_summary").map fun version => (fun s => s.id = sourceId, version)
    else none

/-- The stale ones among them. -/
def staleOf (env : Env) (req : Request) (st : St) (rows : List SourceRecord) :
    List SourceRecord :=
  match aim env req st with
  | none => []
  | some (moves, version) =>
    rows.filter fun s => moves s && isStale s.summaryPromptVersion s.summaryRefreshTarget version

/-- What a request finds of the registry: a listing, or any row by its id. -/
def visible (env : Env) (req : Request) (st : St) : List SourceRecord :=
  match req with
  | .setPin _ scope _ => if scope = "deployment" then listAll env st else st.sources.rows
  | .clearOverride _ => st.sources.rows

def Result.ids (r : Result) : List String :=
  (r.enqueued ++ r.deferred ++ r.notEnqueued).map RefreshItem.sourceId

/-- A result without what only a real call has: the jobs and their group. -/
def Result.bare (r : Result) : Result :=
  { r with dryRun := true, enqueued := r.enqueued.map RefreshItem.unmade, groupId := none }

/-- The dry run answers what the real call then answers, every plan has each stale source in one
bucket and once in it, and the dry run leaves the tables and the stores as they are. -/
structure Truthful (env : Env) (asker caller : Option String) (req : Request) (st : St) :
    Prop where
  same : (call env false caller req (call env true asker req st).2).1.map Result.bare =
    (call env true asker req st).1
  once : ∀ dryRun r, (call env dryRun caller req st).1 = .ok r →
    r.ids.Perm ((staleOf env req st st.sources.rows).map SourceRecord.id)
  pins : (call env true asker req st).2.pins = st.pins
  sources : (call env true asker req st).2.sources = st.sources
  jobs : (call env true asker req st).2.db = st.db
  groups : (call env true asker req st).2.groups = st.groups
  index : (call env true asker req st).2.index = st.index

/-- The gate is asked, and runs the check. -/
def Rechecks (env : Env) (req : Request) (st : St) : Prop :=
  staleOf env req st (visible env req st) ≠ [] ∧ Checks st.status

/-- The check of the gate stamps a store. -/
def Adopts (env : Env) (req : Request) (st : St) : Prop :=
  Rechecks env req st ∧
    (StampsVector env.configured env.check st.index ∨ StampsGraph env.configured env.check st.index)

/-- A stale source is beyond the limit of the listing, and nothing raises before the plan is
answered. -/
def CutOff (env : Env) (req : Request) (st : St) : Prop :=
  (∃ s ∈ staleOf env req st st.sources.rows, s ∉ visible env req st) ∧
    ¬ (Rechecks env req st ∧ (computeStatus env.configured true env.check st.index).2 = none)

/-! ### What a Request Comes To -/

/-- By the pins as they are and the sources. -/
inductive Verdict
  | refused (e : Refusal)
  | settled (operation scope : String) (previous : Option ℕ) (version : ℕ)
  | planned (operation scope : String) (previous : Option ℕ) (version : ℕ)
    (sources : List SourceRecord) (write : Keyed PinKey → Keyed PinKey)

def verdict (env : Env) (req : Request) (st : St) : Verdict :=
  let st := reload env st
  match req with
  | .setPin operation scope version =>
    if operation = "hyde" ∧ scope ≠ "deployment" then .refused .hydeOverride
    else if !isRegistered env.registry operation version then
      .refused (unregistered env operation version)
    else
      match scoped? env operation scope st with
      | none => .refused (.unknownSource scope)
      | some (previous, sources) =>
        if previous = some version ∨ operation = "hyde" then
          .settled operation scope previous version
        else
          .planned operation scope previous version sources
            fun pins => pins.put ⟨operation, scope, version⟩
  | .clearOverride sourceId =>
    match st.sources.get? sourceId with
    | none => .refused (.unknownSource sourceId)
    | some source =>
      match st.view.overrides sourceId with
      | none => .refused (.noOverride sourceId)
      | some previous =>
        match st.view.deployment "chunk_summary" with
        | none => .refused .raised
        | some version =>
          .planned "chunk_summary" sourceId (some previous) version [source]
            fun pins => pins.erase ("chunk_summary", sourceId)

/-- The sources that a verdict plans for, and that are stale. -/
def Verdict.stale : Verdict → List SourceRecord
  | .planned _ _ _ version sources _ =>
    sources.filter fun s => isStale s.summaryPromptVersion s.summaryRefreshTarget version
  | _ => []

section Verdict
variable {env : Env} {req : Request} {st : St}

@[simp] lemma reload_pins : (reload env st).pins = st.pins := rfl

@[simp] lemma reload_sources : (reload env st).sources = st.sources := rfl

@[simp] lemma reload_db : (reload env st).db = st.db := rfl

@[simp] lemma reload_groups : (reload env st).groups = st.groups := rfl

@[simp] lemma reload_index : (reload env st).index = st.index := rfl

@[simp] lemma reload_status : (reload env st).status = st.status := rfl

@[simp] lemma reload_reload : reload env (reload env st) = reload env st := by
  unfold reload
  cases (buildView env.registry st.pins.rows).filter (complete env.registry) <;> rfl

lemma reload_asked (a : Asked) : reload env (st.asked a) = (reload env st).asked a := rfl

/-- A verdict is of the view and the sources only. -/
lemma verdict_asked (a : Asked) :
    verdict env req ((reload env st).asked a) = verdict env req st := by
  have hview : (reload env ((reload env st).asked a)).view = (reload env st).view := by
    rw [reload_asked, reload_reload]
    rfl
  have hsources : (reload env ((reload env st).asked a)).sources = (reload env st).sources := rfl
  unfold verdict
  dsimp only [scoped?, listAll]
  rw [hview, hsources]

lemma verdict_reload : verdict env req (reload env st) = verdict env req st := by
  unfold verdict
  rw [reload_reload]

/-- What a call answers, and what a dry run leaves. -/
lemma call_eq (env : Env) (req : Request) (st : St) (dryRun : Bool) (caller : Option String) :
    match verdict env req st with
    | .refused e => (call env dryRun caller req st).1 = .error e ∧
        (dryRun = true → reload env (call env dryRun caller req st).2 = reload env st)
    | .settled operation scope previous version =>
        (call env dryRun caller req st).1 =
          .ok (emptyResult operation scope previous version dryRun) ∧
        (dryRun = true → reload env (call env dryRun caller req st).2 = reload env st)
    | .planned operation scope previous version sources write =>
        call env dryRun caller req st =
          change env dryRun caller operation scope previous version sources write
            (reload env st) := by
  unfold verdict call
  dsimp only
  cases req with
  | setPin operation scope version =>
    dsimp only
    unfold setPin
    by_cases hhyde : operation = "hyde" ∧ scope ≠ "deployment"
    · simp [hhyde]
    · rw [if_neg hhyde]
      by_cases hreg : (!isRegistered env.registry operation version) = true
      · simp [hhyde, hreg]
      · rw [if_neg hreg]
        simp only [if_neg hhyde, if_neg hreg]
        cases scoped? env operation scope (reload env st) with
        | none => exact ⟨rfl, fun _ => reload_reload⟩
        | some x =>
          obtain ⟨previous, sources⟩ := x
          dsimp only
          by_cases hsame : previous = some version
          · simp [hsame]
          · by_cases hop : operation = "hyde"
            · simp only [hsame, hop, or_true, if_true, if_false]
              exact ⟨trivial, fun hd => by simp [hd]⟩
            · simp [hsame, hop]
  | clearOverride sourceId =>
    dsimp only
    unfold clearOverride
    rw [reload_sources]
    cases st.sources.get? sourceId with
    | none => exact ⟨rfl, fun _ => rfl⟩
    | some source =>
      dsimp only
      cases (reload env st).view.overrides sourceId with
      | none => exact ⟨rfl, fun _ => reload_reload⟩
      | some previous =>
        dsimp only
        cases (reload env st).view.deployment "chunk_summary" with
        | none => exact ⟨rfl, fun _ => reload_reload⟩
        | some version => rfl

lemma rows_filter_key (id : String) (p : SourceRecord → Bool) :
    (st.sources.rows.filter fun s => decide (s.id = id) && p s) =
      (st.sources.get? id).toList.filter p := by
  rw [← Keyed.filter_key, List.filter_filter]
  exact List.filter_congr fun s _ => Bool.and_comm _ _

/-- **A call plans for the stale sources that it sees.** -/
lemma verdict_stale (env : Env) (req : Request) (st : St) :
    (verdict env req st).stale = staleOf env req st (visible env req st) := by
  unfold verdict staleOf aim visible
  dsimp only
  cases req with
  | setPin operation scope version =>
    dsimp only
    by_cases hop : operation = "hyde"
    · rw [if_pos (Or.inl hop)]
      split
      · rfl
      · split
        · rfl
        · split
          · rfl
          · simp [hop, Verdict.stale]
    · rw [if_neg fun h => hop h.1]
      cases hreg : isRegistered env.registry operation version
      · simp [Verdict.stale]
      · rw [if_neg (by simp), if_neg (by simp [hop])]
        unfold scoped?
        by_cases hscope : scope = "deployment"
        · simp only [if_pos hscope, hop, or_false]
          by_cases hsame : (reload env st).view.deployment operation = some version
          · rw [if_pos hsame, if_pos hsame]
            rfl
          · rw [if_neg hsame, if_neg hsame]
            simp only [Verdict.stale, List.filter_filter]
            exact List.filter_congr fun s _ => Bool.and_comm _ _
        · simp only [if_neg hscope, hop, or_false, reload_sources]
          by_cases hsame : (reload env st).view.overrides scope = some version
          · rw [if_pos hsame]
            cases st.sources.get? scope <;> simp [hsame, Verdict.stale]
          · rw [if_neg hsame]
            dsimp only
            rw [rows_filter_key]
            cases st.sources.get? scope <;> simp [hsame, Verdict.stale]
  | clearOverride sourceId =>
    dsimp only
    rw [reload_sources]
    cases (reload env st).view.overrides sourceId with
    | none => cases st.sources.get? sourceId <;> simp [Verdict.stale]
    | some previous =>
      cases (reload env st).view.deployment "chunk_summary" with
      | none => cases st.sources.get? sourceId <;> simp [Verdict.stale]
      | some version =>
        simp only [Option.isSome_some, if_true, Option.map_some]
        rw [rows_filter_key]
        cases st.sources.get? sourceId <;> rfl

end Verdict

/-! ### One Plan, Made or Not -/

section Change
variable {env : Env} {st : St}

lemma ids_bare (r : Result) : r.bare.ids = r.ids := by
  have hmap : RefreshItem.sourceId ∘ RefreshItem.unmade = RefreshItem.sourceId := rfl
  simp [Result.ids, Result.bare, hmap]

variable {operation scope : String} {previous : Option ℕ} {version : ℕ}
  {sources : List SourceRecord} {write : Keyed PinKey → Keyed PinKey}

/-- What a dry run answers with a plan, and without one. -/
def dryAnswer (operation scope : String) (previous : Option ℕ) (version : ℕ) :
    Option RefreshPlan → Except Refusal Result
  | none => .error .raised
  | some plan => .ok ⟨true, operation, scope, previous, version, plan.enqueued, plan.deferred,
      plan.notEnqueued, none, plan.totalChunks, none⟩

/-- **A dry run plans**, and that is all. -/
lemma change_dry (asker : Option String) :
    change env true asker operation scope previous version sources write st =
      (dryAnswer operation scope previous version
        (planRefreshes env sources (fun _ => some version) st).1,
        (planRefreshes env sources (fun _ => some version) st).2) := by
  unfold change
  split <;> rename_i h <;> rw [h] <;> rfl

lemma dryAnswer_ok_iff {o : Option RefreshPlan} :
    (∃ r, dryAnswer operation scope previous version o = .ok r) ↔ ¬ o = none := by
  cases o <;> simp [dryAnswer]

/-- **A real call does what a dry one plans.** -/
lemma change_bare (asker caller : Option String)
    (hnd : ((stalePairs sources fun _ => some version).map fun x => x.1.id).Nodup) :
    (change env false caller operation scope previous version sources write st).1.map
        Result.bare =
      (change env true asker operation scope previous version sources write st).1 := by
  have hdb : (planRefreshes env sources (fun _ => some version) st).2.db = st.db := by
    rw [planRefreshes_snd]
    split <;> rfl
  rw [change_dry]
  unfold change
  obtain ⟨⟨o, st'⟩, hp⟩ : ∃ x, planRefreshes env sources (fun _ => some version) st = x := ⟨_, rfl⟩
  rw [hp] at hdb ⊢
  cases o with
  | none => rfl
  | some plan =>
    obtain ⟨hready, hids⟩ := planRefreshes_spec (by rw [hp])
    have hready : Ready (reload env { st' with pins := write st'.pins }).db plan := by
      rw [reload_db]
      exact hdb ▸ hready
    have hbare := enqueueRefreshes_bare env caller hready (hids.nodup_iff.mpr hnd)
    obtain ⟨⟨plan', st''⟩, he⟩ : ∃ x, enqueueRefreshes env caller plan
        (reload env { st' with pins := write st'.pins }) = x := ⟨_, rfl⟩
    rw [he] at hbare
    obtain rfl : plan'.bare = plan := hbare
    dsimp only
    rw [he]
    simp only [Bool.false_eq_true, if_false, dryAnswer, totalChunks_bare]
    rfl

lemma change_ids {asker : Option String} {r : Result}
    (h : (change env true asker operation scope previous version sources write st).1 = .ok r) :
    r.ids.Perm ((stalePairs sources fun _ => some version).map fun x => x.1.id) := by
  rw [change_dry] at h
  cases ho : (planRefreshes env sources (fun _ => some version) st).1 with
  | none =>
    rw [ho] at h
    cases h
  | some plan =>
    rw [ho] at h
    cases h
    exact (planRefreshes_spec ho).2

end Change

/-! ### Both Calls -/

section Call
variable {env : Env} {req : Request} {st : St}

lemma visible_perm (env : Env) (req : Request) (st : St) :
    ∃ rest, (visible env req st ++ rest).Perm st.sources.rows := by
  have hlist : ∃ rest, (listAll env st ++ rest).Perm st.sources.rows := by
    refine ⟨(st.sources.rows.insertionSort fun r s => s.indexedAt ≤ r.indexedAt).drop
      env.sourceListMax, ?_⟩
    rw [listAll, List.take_append_drop]
    exact List.perm_insertionSort _ _
  have hall : ∃ rest, (st.sources.rows ++ rest).Perm st.sources.rows := ⟨[], by simp⟩
  unfold visible
  cases req with
  | setPin operation scope version =>
    dsimp only
    split
    · exact hlist
    · exact hall
  | clearOverride sourceId => exact hall

lemma staleOf_append (rows rest : List SourceRecord) :
    staleOf env req st (rows ++ rest) = staleOf env req st rows ++ staleOf env req st rest := by
  unfold staleOf
  cases aim env req st with
  | none => rfl
  | some x => exact List.filter_append ..

lemma staleOf_perm {rows rows' : List SourceRecord} (h : rows.Perm rows') :
    (staleOf env req st rows).Perm (staleOf env req st rows') := by
  unfold staleOf
  cases aim env req st with
  | none => exact .nil
  | some x => exact h.filter _

lemma mem_of_mem_staleOf {rows : List SourceRecord} {s : SourceRecord}
    (h : s ∈ staleOf env req st rows) : s ∈ rows := by
  unfold staleOf at h
  cases ha : aim env req st with
  | none => simp [ha] at h
  | some x =>
    rw [ha] at h
    exact (List.mem_filter.mp h).1

/-- The stale sources, with what a listing does not show. -/
lemma staleOf_visible_perm (env : Env) (req : Request) (st : St) :
    ∃ rest, (∀ s ∈ rest, s ∈ staleOf env req st st.sources.rows ∧ s ∉ visible env req st) ∧
      (staleOf env req st (visible env req st) ++ rest).Perm
        (staleOf env req st st.sources.rows) := by
  obtain ⟨rest, hrest⟩ := visible_perm env req st
  have hperm : (staleOf env req st (visible env req st) ++ staleOf env req st rest).Perm
      (staleOf env req st st.sources.rows) := by
    rw [← staleOf_append]
    exact staleOf_perm hrest
  refine ⟨staleOf env req st rest, fun s hs => ⟨?_, fun hv => ?_⟩, hperm⟩
  · exact hperm.subset (List.mem_append_right _ hs)
  · have hnd : (visible env req st ++ rest).Nodup :=
      hrest.nodup_iff.mpr (List.Nodup.of_map _ st.sources.uniq)
    exact (List.nodup_append.mp hnd).2.2 _ hv _ (mem_of_mem_staleOf hs) rfl

lemma nodup_staleOf : ((staleOf env req st st.sources.rows).map SourceRecord.id).Nodup := by
  unfold staleOf
  cases aim env req st with
  | none => exact List.nodup_nil
  | some x => exact (List.filter_sublist.map _).nodup st.sources.uniq

lemma nodup_visible :
    ((staleOf env req st (visible env req st)).map SourceRecord.id).Nodup := by
  obtain ⟨rest, -, hperm⟩ := staleOf_visible_perm env req st
  have := (hperm.map SourceRecord.id).nodup_iff.mpr nodup_staleOf
  rw [List.map_append] at this
  exact (List.nodup_append.mp this).1

/-- What a plan is made of, by what a verdict plans for. -/
lemma planned_pairs {operation scope : String} {previous : Option ℕ} {version : ℕ}
    {sources : List SourceRecord} {write : Keyed PinKey → Keyed PinKey}
    (h : verdict env req st = .planned operation scope previous version sources write) :
    stalePairs sources (fun _ => some version) =
      (staleOf env req st (visible env req st)).map fun s => (s, version) := by
  rw [stalePairs_const, ← verdict_stale, h]
  rfl

/-- What the planning of a request leaves. -/
def gate (env : Env) (req : Request) (st : St) : Asked :=
  if staleOf env req st (visible env req st) = [] then ⟨some none, st.index, st.status⟩
  else requireWritable env.configured env.check st.index st.status

/-- **A dry run leaves what the gate leaves**, and the view as it is read. -/
lemma reload_call_dry (env : Env) (req : Request) (st : St) (asker : Option String) :
    reload env (call env true asker req st).2 = (reload env st).asked (gate env req st) := by
  have heq := call_eq env req st true asker
  have hself : (reload env st).asked ⟨some none, st.index, st.status⟩ = reload env st := rfl
  have hstale := verdict_stale env req st
  cases hv : verdict env req st with
  | refused e =>
    rw [hv] at heq hstale
    have hnil : staleOf env req st (visible env req st) = [] := hstale.symm
    rw [gate, if_pos hnil, hself]
    exact heq.2 rfl
  | settled operation scope previous version =>
    rw [hv] at heq hstale
    have hnil : staleOf env req st (visible env req st) = [] := hstale.symm
    rw [gate, if_pos hnil, hself]
    exact heq.2 rfl
  | planned operation scope previous version sources write =>
    rw [hv] at heq
    dsimp only at heq
    rw [heq, change_dry, planRefreshes_snd, planned_pairs hv, gate]
    simp only [List.map_eq_nil_iff]
    split
    · rw [reload_reload, hself]
    · rw [reload_asked, reload_reload]
      rfl

/-- **The same request answers the same**, dry or real. -/
lemma call_bare (asker caller : Option String) :
    (call env false caller req st).1.map Result.bare = (call env true asker req st).1 := by
  have hreal := call_eq env req st false caller
  have hdry := call_eq env req st true asker
  cases hv : verdict env req st with
  | refused e =>
    rw [hv] at hreal hdry
    rw [hreal.1, hdry.1]
    rfl
  | settled operation scope previous version =>
    rw [hv] at hreal hdry
    rw [hreal.1, hdry.1]
    rfl
  | planned operation scope previous version sources write =>
    rw [hv] at hreal hdry
    dsimp only at hreal hdry
    rw [hreal, hdry]
    refine change_bare asker caller ?_
    rw [planned_pairs hv, List.map_map]
    exact nodup_visible

/-- **Asked again**, a dry run answers the same, where the gate left the stores alone. -/
lemma call_again {asker : Option String} (h : (gate env req st).index = st.index) :
    (call env true asker req (call env true asker req st).2).1 =
      (call env true asker req st).1 := by
  have hst := reload_call_dry env req st asker
  have hverdict : verdict env req (call env true asker req st).2 = verdict env req st := by
    rw [← verdict_reload, hst, verdict_asked]
  have hthen := call_eq env req (call env true asker req st).2 true asker
  have hnow := call_eq env req st true asker
  rw [hverdict] at hthen
  cases hv : verdict env req st with
  | refused e =>
    rw [hv] at hthen hnow
    rw [hthen.1, hnow.1]
  | settled operation scope previous version =>
    rw [hv] at hthen hnow
    rw [hthen.1, hnow.1]
  | planned operation scope previous version sources write =>
    rw [hv] at hthen hnow
    dsimp only at hthen hnow
    rw [hthen, hst, hnow, change_dry, change_dry]
    refine congrArg (dryAnswer operation scope previous version) ?_
    by_cases hnil : staleOf env req st (visible env req st) = []
    · rw [gate, if_pos hnil]
      rfl
    · rw [gate, if_neg hnil] at h ⊢
      exact planRefreshes_again h

/-- Where a call has an answer, a dry run has one, of the same sources. -/
lemma dry_answer {dryRun : Bool} {caller : Option String} {r : Result}
    (h : (call env dryRun caller req st).1 = .ok r) :
    ∃ r', (call env true caller req st).1 = .ok r' ∧ r'.ids = r.ids := by
  cases dryRun
  · refine ⟨r.bare, ?_, ids_bare r⟩
    rw [← call_bare caller caller, h]
    rfl
  · exact ⟨r, h, rfl⟩

/-- **A plan has the stale sources that the request sees.** -/
lemma ids_perm {dryRun : Bool} {caller : Option String} {r : Result}
    (h : (call env dryRun caller req st).1 = .ok r) :
    r.ids.Perm ((staleOf env req st (visible env req st)).map SourceRecord.id) := by
  obtain ⟨r', h', hids⟩ := dry_answer h
  rw [← hids]
  have heq := call_eq env req st true caller
  have hstale := verdict_stale env req st
  cases hv : verdict env req st with
  | refused e =>
    rw [hv] at heq
    rw [heq.1] at h'
    cases h'
  | settled operation scope previous version =>
    rw [hv] at heq hstale
    rw [heq.1] at h'
    cases h'
    have hnil : staleOf env req st (visible env req st) = [] := hstale.symm
    rw [hnil]
    exact .nil
  | planned operation scope previous version sources write =>
    rw [hv] at heq
    dsimp only at heq
    rw [heq] at h'
    have hperm := change_ids h'
    rw [planned_pairs hv, List.map_map] at hperm
    exact hperm

/-- A request with something to refresh is planned for. -/
lemma exists_planned (h : staleOf env req st st.sources.rows ≠ []) :
    ∃ operation scope previous version sources write,
      verdict env req st = .planned operation scope previous version sources write := by
  by_cases hvis : visible env req st = st.sources.rows
  · have hstale := verdict_stale env req st
    rw [hvis] at hstale
    cases hv : verdict env req st with
    | refused e =>
      rw [hv] at hstale
      exact absurd hstale.symm h
    | settled operation scope previous version =>
      rw [hv] at hstale
      exact absurd hstale.symm h
    | planned operation scope previous version sources write => exact ⟨_, _, _, _, _, _, rfl⟩
  · cases req with
    | clearOverride sourceId => exact absurd rfl hvis
    | setPin operation scope version =>
      obtain rfl : scope = "deployment" := by
        by_contra hne
        exact hvis (if_neg hne)
      unfold staleOf aim at h
      dsimp only at h
      by_cases hop : operation = "hyde" ∨ isRegistered env.registry operation version = false
      · rw [if_pos hop] at h
        exact absurd rfl h
      · rw [if_neg hop, if_pos rfl] at h
        obtain ⟨hhyde, hreg⟩ := not_or.mp hop
        by_cases hsame : (reload env st).view.deployment operation = some version
        · rw [if_pos hsame] at h
          exact absurd rfl h
        · have hv : verdict env (.setPin operation "deployment" version) st =
              .planned operation "deployment" ((reload env st).view.deployment operation) version
                ((listAll env st).filter fun s => ((reload env st).view.overrides s.id).isNone)
                fun pins => pins.put ⟨operation, "deployment", version⟩ := by
            unfold verdict
            dsimp only [scoped?]
            rw [if_neg fun h => hhyde h.1, Bool.eq_true_of_not_eq_false hreg, if_pos rfl]
            simp only [hhyde, hsame, Bool.not_true, Bool.false_eq_true, if_false, or_self]
            rfl
          exact ⟨_, _, _, _, _, _, hv⟩

/-- A dry run answers with a plan, where there is something to plan, unless the check raises. -/
lemma answers_iff {asker : Option String} (h : staleOf env req st st.sources.rows ≠ []) :
    (∃ r, (call env true asker req st).1 = .ok r) ↔
      ¬ (Rechecks env req st ∧
        (computeStatus env.configured true env.check st.index).2 = none) := by
  obtain ⟨operation, scope, previous, version, sources, write, hv⟩ := exists_planned h
  have heq := call_eq env req st true asker
  rw [hv] at heq
  dsimp only at heq
  rw [heq, change_dry, dryAnswer_ok_iff, planRefreshes_fst_eq_none, requireWritable_answer, planned_pairs hv]
  simp only [Rechecks, ne_eq, List.map_eq_nil_iff, reload_status, reload_index, and_assoc]

/-- The gate leaves the stores alone, unless its check stamps one. -/
lemma gate_index_iff : (gate env req st).index = st.index ↔ ¬ Adopts env req st := by
  unfold gate Adopts Rechecks
  split
  · rename_i hnil
    simp [hnil]
  · rename_i hne
    rw [requireWritable_index]
    split
    · rename_i hc
      rw [computeStatus_fst_eq_self]
      simp [hne, hc]
    · rename_i hc
      simp [hc]

/-- **A dry run tells the truth** exactly where the gate's check stamps no store, and no stale
source is beyond the limit of the listing. -/
theorem truthful_iff (env : Env) (asker caller : Option String) (req : Request) (st : St) :
    Truthful env asker caller req st ↔ ¬ Adopts env req st ∧ ¬ CutOff env req st := by
  have hst := reload_call_dry env req st asker
  obtain ⟨rest, hrest, hperm⟩ := staleOf_visible_perm env req st
  constructor
  · intro h
    refine ⟨?_, ?_⟩
    · rw [← gate_index_iff]
      have hindex := congrArg St.index hst
      exact hindex.symm.trans h.index
    · rintro ⟨⟨s, hs, hout⟩, hraise⟩
      obtain ⟨r, hr⟩ := (answers_iff (List.ne_nil_of_mem hs)).mpr hraise
      have hall := (h.once true r hr).symm.trans (ids_perm hr)
      obtain ⟨s', hs', hid⟩ := List.mem_map.mp (hall.subset (List.mem_map_of_mem hs))
      have hsame : s' = s := Keyed.eq_of_key
        (mem_of_mem_staleOf (hperm.subset (List.mem_append_left _ hs')))
        (mem_of_mem_staleOf hs) hid
      exact hout (mem_of_mem_staleOf (hsame ▸ hs'))
  · rintro ⟨hadopts, hcut⟩
    have hindex := gate_index_iff.mpr hadopts
    refine ⟨?_, ?_, ?_, ?_, ?_, ?_, ?_⟩
    · rw [call_bare asker caller, call_again hindex]
    · intro dryRun r hr
      refine (ids_perm hr).trans ?_
      have hnil : rest = [] := List.eq_nil_iff_forall_not_mem.mpr fun s hs => by
        obtain ⟨r', hr', -⟩ := dry_answer hr
        exact hcut ⟨⟨s, hrest s hs⟩,
          (answers_iff (List.ne_nil_of_mem (hrest s hs).1)).mp ⟨r', hr'⟩⟩
      rw [hnil, List.append_nil] at hperm
      exact hperm.map _
    · exact (congrArg St.pins hst :)
    · exact (congrArg St.sources hst :)
    · exact (congrArg St.db hst :)
    · exact (congrArg St.groups hst :)
    · exact (congrArg St.index hst).trans hindex

/-! ### An Index That Nobody Has Verified -/

/-- A source in the middle of a refresh. -/
def refreshing : SourceRecord :=
  ⟨"a", "/a", "", "", 1, 1, 5, "", none, true, some 3, some 3⟩

/-- Stores from before there were stamps, and nothing else going on. -/
def unstamped : St where
  pins := ⟨[⟨"chunk_summary", "deployment", 3⟩, ⟨"hyde", "deployment", 1⟩], by decide⟩
  view := ⟨fun _ => none, fun _ => none⟩
  sources := ⟨[refreshing], by decide⟩
  db := Jobs.empty
  groups := []
  index :=
    { vector := ⟨"milvus", true, 5, none, some 768⟩
      graph := ⟨"sqlite", true, 3, none, none⟩ }
  status := ⟨.unverified, some "not yet verified", none, false⟩

/-- The samples are what the configured model makes of them. -/
def verifying : Env where
  registry := PromptPins.registry
  sourceListMax := 10000
  configured := IndexCheck.configured
  check :=
    { vectorProbe := .answers
      graphProbe := .answers
      sampling := ⟨.ok 3, .ok 3, .answered [1, 1, 1] "1.0000"⟩
      vectorWrite := .done
      graphWrite := .done
      rebuild := some ⟨.none, 0, 0⟩ }
  now := 1

/-- The dry run of an override stamps both stores. -/
theorem dry_run_stamps : ¬ ∀ env asker caller req st, Truthful env asker caller req st := by
  intro h
  have hindex := (h verifying none none (.setPin "chunk_summary" "a" 3) unstamped).index
  exact absurd hindex (by decide +kernel)

end Call

end Treeweft.PinChange
