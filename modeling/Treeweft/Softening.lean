import Treeweft.IndexCheck

/-!
The guard over time: its cached status, the full checks that verify and the cheap ones that do
not.

A status is computed afresh by every check, so a verdict lasts only as long as each check comes to
it again. `Meets` says when one does.
-/

namespace Treeweft.Softening

open Treeweft.IndexStamp Treeweft.IndexCheck

/-- The stores, the cached status, and when it was last verified. -/
structure State where
  world : World
  status : IndexStatus
  lastVerifyAttempt : ℕ
  deriving DecidableEq, Repr

variable (cfg : ConfiguredIndex) (interval : ℕ)

/-- A check publishes its status, unless it raises. -/
def publish (verify : Bool) (env : CheckEnv) (verifiedAt : ℕ) (s : State) : State :=
  match computeStatus cfg verify env s.world with
  | (w, none) => { s with world := w }
  | (w, some status) => ⟨w, status, verifiedAt⟩

def runCheck (env : CheckEnv) (done : ℕ) (s : State) : State := publish cfg true env done s

/-- `rebuild` is the state of the rebuild as it is read first, `none` where that raises. -/
def refresh (rebuild : Option RebuildState) (env : CheckEnv) (now done : ℕ) (s : State) : State :=
  match rebuild with
  | none => s
  | some r =>
    if s.status.state = .ok ∧ (r.kind = .none ∨ r.kind = .complete) then s
    else if (s.status.state = .unverified ∨ s.status.state = .reindexRequired) ∧
        interval ≤ now - s.lastVerifyAttempt then publish cfg true env done s
    else publish cfg false env s.lastVerifyAttempt s

def recheckStampsCheap (env : CheckEnv) (s : State) : State :=
  publish cfg false env s.lastVerifyAttempt s

/-- What the gate does to the cached status, for a job of the latest rebuild or another one. -/
def dispatchAllowed (isRebuildJob : Bool) (rebuild : Option RebuildState) (env : CheckEnv)
    (s : State) : State :=
  match rebuild with
  | none => s
  | some r =>
    if isRebuildJob ∧ r.kind ≠ .interrupted then s
    else if r.kind = .preparing ∨ r.kind = .interrupted then s
    else if s.status.state = .reindexRequired ∨ s.status.state = .unverified then
      recheckStampsCheap cfg env s
    else s

/-- The gate of the writing routes checks again while unverified. -/
def requireWritable (env : CheckEnv) (done : ℕ) (s : State) : State :=
  if s.status.preparing then s
  else if s.status.state = .unverified then runCheck cfg env done s
  else s

/-- `require_searchable` lets a search pass. -/
def searchable (s : State) : Bool :=
  !s.status.preparing && s.status.state ≠ .reindexRequired

inductive Call
  | status
  | runCheck (env : CheckEnv) (done : ℕ)
  | refresh (rebuild : Option RebuildState) (env : CheckEnv) (now done : ℕ)
  | dispatchAllowed (isRebuildJob : Bool) (rebuild : Option RebuildState) (env : CheckEnv)
  | requireWritable (env : CheckEnv) (done : ℕ)

def step (s : State) : Call → State
  | .status => s
  | .runCheck env done => runCheck cfg env done s
  | .refresh rebuild env now done => refresh cfg interval rebuild env now done s
  | .dispatchAllowed own rebuild env => dispatchAllowed cfg own rebuild env s
  | .requireWritable env done => requireWritable cfg env done s

def run (s : State) (cs : List Call) : State := cs.foldl (step cfg interval) s

/-! ### When a Check Comes to the Same Verdict -/

/-- An unstamped store with data, from before there were stamps. -/
structure Legacy (w : World) : Prop where
  present : w.vector.present = true
  rows : 0 < w.vector.rows
  unstamped : w.vector.stamp = none

/-- The verification has a result: the dimension settles it, no chunk can be sampled, or the
samples are embedded. -/
def Conclusive (s : Sampling) (d : StoreData) : Prop :=
  (∃ n, d.schemaDim = some n ∧ n ≠ cfg.vectorDim) ∨ s.samples = .ok 0 ∨
    ∃ n cosines shown, s.samples = .ok (n + 1) ∧ s.embedding = .answered cosines shown

/-- The graph store needs a reindex by itself: its stamp is unreadable or another one, or its data
has none and the vector store's data can not be seen. -/
def GraphRefuses (env : CheckEnv) (w : World) : Prop :=
  env.graphProbe = .answers ∧ w.graph.present = true ∧
    ((∃ detail, w.graph.stamp = some (.unreadable detail)) ∨
      (∃ s, w.graph.stamp = some (.stamp s) ∧ s ≠ cfg) ∨
      w.graph.stamp = none ∧ 0 < w.graph.rows ∧ ∃ text, env.vectorProbe = .fails text)

/-- The check verifies the vector store and gets a result, or something else makes the same
verdict: an interrupted rebuild, the graph store, or an exception that leaves the status. -/
structure Meets (verify : Bool) (env : CheckEnv) (w : World) : Prop where
  told : env.vectorProbe ≠ .fails ""
  notPreparing : ∀ r, env.rebuild = some r → r.kind ≠ .preparing
  kept : env.vectorProbe = .raises ∨
    (∀ r, env.rebuild = some r → r.kind = .interrupted) ∨
    GraphRefuses cfg env w ∨
    verify = true ∧ env.vectorProbe = .answers ∧ Conclusive cfg env.sampling w.vector

/-- The full verification of the check passes. -/
def Passes (verify : Bool) (env : CheckEnv) (w : World) : Prop :=
  ∃ o, observe .vector w.vector env.vectorProbe = some o ∧
    verificationOf cfg verify env o = .passed

section Check
variable {cfg} {interval} {verify : Bool} {env : CheckEnv} {w : World}

lemma observe_legacy (hw : Legacy w) (hp : env.vectorProbe = .answers) :
    observe .vector w.vector env.vectorProbe =
      some ⟨.vector, w.vector.backend, true, true, none, w.vector.schemaDim, none⟩ := by
  simp [observe, hp, hw.present, hw.rows, hw.unstamped]

/-- A conclusive verification that does not pass fails. -/
lemma failed_of_conclusive {o : StoreObservation} (hdim : o.schemaDim = w.vector.schemaDim)
    (hc : Conclusive cfg env.sampling w.vector)
    (hnp : verifyVectorStore o cfg env.sampling ≠ .passed) :
    ∃ check detail, verifyVectorStore o cfg env.sampling = .failed check detail := by
  unfold verifyVectorStore at hnp ⊢
  rw [hdim] at hnp ⊢
  rcases hc with ⟨n, hn, hne⟩ | hzero | ⟨n, cosines, shown, hs, he⟩
  · exact ⟨_, _, by rw [if_pos (by simp [hn, hne])]⟩
  · split
    · exact ⟨_, _, rfl⟩
    · simp [hzero]
  · split
    · exact ⟨_, _, rfl⟩
    · rename_i hdim'
      simp only [if_neg hdim', hs, he] at hnp ⊢
      split
      · exact ⟨_, _, rfl⟩
      · rename_i hw
        rw [if_neg hw] at hnp
        exact absurd rfl hnp

lemma vector_refuses (hw : Legacy w) (hp : env.vectorProbe = .answers)
    (hc : Conclusive cfg env.sampling w.vector) (hnp : ¬Passes cfg true env w) {d : Decided}
    (hd : decideAll cfg true env w = some d) : d.vector.state = .reindexRequired := by
  obtain ⟨vo, go, hvo, -, rfl⟩ := decideAll_spec hd
  have hobs := observe_legacy hw hp
  rw [hvo, Option.some.injEq] at hobs
  subst hobs
  have hver : ∀ o : StoreObservation, o = ⟨.vector, w.vector.backend, true, true, none,
      w.vector.schemaDim, none⟩ → verificationOf cfg true env o =
        verifyVectorStore o cfg env.sampling := by
    rintro o rfl
    simp [verificationOf, needsVerification, StoreObservation.isUnreachable]
  obtain ⟨check, detail, hf⟩ := failed_of_conclusive rfl hc
    fun h => hnp ⟨_, hvo, (hver _ rfl).trans h⟩
  dsimp only
  rw [hver _ rfl, hf]
  simp [decideStore, StoreObservation.isUnreachable]

lemma graph_refuses (hg : GraphRefuses cfg env w) {d : Decided}
    (hd : decideAll cfg verify env w = some d) : d.graph.state = .reindexRequired := by
  obtain ⟨vo, go, hvo, hgo, rfl⟩ := decideAll_spec hd
  obtain ⟨hans, hpres, hcase⟩ := hg
  simp only [observe, hans, hpres, if_true, Option.some.injEq] at hgo
  subst hgo
  rcases hcase with ⟨detail, hs⟩ | ⟨s, hs, hne⟩ | ⟨hs, hrows, text, htext⟩
  · simp [decideStore, StoreObservation.isUnreachable, hs]
  · simp [decideStore, StoreObservation.isUnreachable, hs, compare_eq_nil, hne]
  · simp only [observe, htext, Option.some.injEq] at hvo
    subst hvo
    simp [decideStore, StoreObservation.isUnreachable, hs, hrows]

/-- **The verdict comes again.** -/
lemma state_of_meets (hw : Legacy w) (hm : Meets cfg verify env w)
    (hnp : ¬Passes cfg verify env w) {st : IndexStatus}
    (h : (computeStatus cfg verify env w).2 = some st) : st.state = .reindexRequired := by
  unfold computeStatus at h
  cases hd : decideAll cfg verify env w with
  | none => simp [hd] at h
  | some d =>
    rw [hd] at h
    dsimp only at h
    split at h
    · split at h
      · obtain ⟨r, hr, rfl⟩ := Option.map_eq_some_iff.mp h
        refine aggregate_reindex (hm.notPreparing r hr) ?_
        rcases hm.kept with hraise | hint | hg | ⟨rfl, hp, hc⟩
        · obtain ⟨vo, go, hvo, -⟩ := decideAll_spec hd
          simp [observe, hraise] at hvo
        · exact .inl (hint r hr)
        · exact .inr ⟨d.graph, by simp, graph_refuses hg hd⟩
        · exact .inr ⟨d.vector, by simp, vector_refuses hw hp hc hnp hd⟩
      · cases h
    · cases h

/-- The store stays as it was: what was not verified is not stamped. -/
lemma legacy_of_meets (hw : Legacy w) (hm : env.vectorProbe ≠ .fails "")
    (hnp : ¬Passes cfg verify env w) : Legacy (computeStatus cfg verify env w).1 := by
  have hvector : (computeStatus cfg verify env w).1.vector = w.vector := by
    unfold computeStatus
    cases hd : decideAll cfg verify env w with
    | none => rfl
    | some d =>
      obtain ⟨vo, go, hvo, hgo, rfl⟩ := decideAll_spec hd
      have hno : (decideStore vo cfg (verificationOf cfg verify env vo) none).writeStamp = false := by
        by_contra hws
        rw [Bool.not_eq_false] at hws
        obtain ⟨hu, hpres, -, hev⟩ := writeStamp_iff.mp hws
        have htold : env.vectorProbe.Told := by
          cases hp : env.vectorProbe with
          | fails text => exact fun h => hm (h ▸ hp)
          | answers => trivial
          | raises => trivial
        have hspec := observe_spec htold hvo hu hpres
        rcases hev with hempty | ⟨hpass, -⟩
        · rw [hspec] at hempty
          exact absurd hw.rows (of_decide_eq_false hempty)
        · exact hnp ⟨vo, hvo, hpass⟩
      simp only [writeStampIfNeeded_of_not hno, if_true]
      split <;> rfl
  exact ⟨by rw [hvector]; exact hw.present, by rw [hvector]; exact hw.rows,
    by rw [hvector]; exact hw.unstamped⟩

/-- A failed verdict on a legacy store. -/
structure Refused (s : State) : Prop where
  state : s.status.state = .reindexRequired
  legacy : Legacy s.world

/-- A check that comes to the verdict again leaves it, with its exceptions and its writes. -/
lemma refused_publish {s : State} (hs : Refused s) (hm : Meets cfg verify env s.world)
    (hnp : ¬Passes cfg verify env s.world) (at' : ℕ) : Refused (publish cfg verify env at' s) := by
  have hlegacy := legacy_of_meets hs.legacy hm.told hnp
  have hstate : ∀ st, (computeStatus cfg verify env s.world).2 = some st →
      st.state = .reindexRequired := fun _ => state_of_meets hs.legacy hm hnp
  unfold publish
  cases hc : computeStatus cfg verify env s.world with
  | mk w st =>
    rw [hc] at hlegacy hstate
    cases st with
    | none => exact ⟨hs.state, hlegacy⟩
    | some st => exact ⟨hstate st rfl, hlegacy⟩

end Check

/-! ### Runs -/

/-- The interval since the last verification has passed. -/
def elapsed (s : State) (now : ℕ) : Bool := interval ≤ now - s.lastVerifyAttempt

/-- The check that the call makes, if it makes one, comes to the same verdict. -/
def Steady (s : State) : Call → Prop
  | .status => True
  | .runCheck env _ => Meets cfg true env s.world
  | .refresh rebuild env now _ => rebuild = none ∨ Meets cfg (elapsed interval s now) env s.world
  | .dispatchAllowed own rebuild env =>
    (∀ r, rebuild = some r →
      own = true ∧ r.kind ≠ .interrupted ∨ r.kind = .preparing ∨ r.kind = .interrupted) ∨
    Meets cfg false env s.world
  | .requireWritable _ _ => True

/-- The call makes a full verification, and it passes. -/
def Clears (s : State) : Call → Prop
  | .runCheck env _ => Passes cfg true env s.world
  | .refresh rebuild env now _ =>
    rebuild ≠ none ∧ elapsed interval s now = true ∧ Passes cfg true env s.world
  | _ => False

def SteadyRun (s : State) : List Call → Prop
  | [] => True
  | c :: cs => Steady cfg interval s c ∧ SteadyRun (step cfg interval s c) cs

/-- No full verification passes in the run. -/
def Uncleared (s : State) : List Call → Prop
  | [] => True
  | c :: cs => ¬Clears cfg interval s c ∧ Uncleared (step cfg interval s c) cs

section Run
variable {cfg} {interval} {s : State}

/-- Without verification nothing passes. -/
lemma not_passes_cheap {env : CheckEnv} {w : World} : ¬Passes cfg false env w := by
  rintro ⟨o, -, h⟩
  simp [verificationOf, needsVerification] at h

lemma refused_step {c : Call} (hs : Refused s) (hc : Steady cfg interval s c)
    (hn : ¬Clears cfg interval s c) : Refused (step cfg interval s c) := by
  cases c with
  | status => exact hs
  | runCheck env done => exact refused_publish hs hc hn done
  | requireWritable env done =>
    simp only [step, requireWritable, hs.state, reduceCtorEq, if_false, ite_self]
    exact hs
  | dispatchAllowed own rebuild env =>
    simp only [step, dispatchAllowed]
    cases rebuild with
    | none => exact hs
    | some r =>
      dsimp only
      split
      · exact hs
      · rename_i hown
        split
        · exact hs
        · rename_i hkind
          rw [if_pos (.inl hs.state)]
          have hm : Meets cfg false env s.world := by
            refine hc.resolve_left fun h => ?_
            rcases h r rfl with h | h
            · exact hown h
            · exact hkind h
          exact refused_publish hs hm not_passes_cheap _
  | refresh rebuild env now done =>
    simp only [step, refresh]
    cases rebuild with
    | none => exact hs
    | some r =>
      have hm : Meets cfg (elapsed interval s now) env s.world := hc.resolve_left (by simp)
      dsimp only
      rw [if_neg (by simp [hs.state])]
      split
      · rename_i he
        have helapsed : elapsed interval s now = true := decide_eq_true he.2
        rw [helapsed] at hm
        exact refused_publish hs hm (fun hp => hn ⟨by simp, helapsed, hp⟩) _
      · rename_i he
        have hcheap : elapsed interval s now = false :=
          decide_eq_false fun h => he ⟨.inr hs.state, h⟩
        rw [hcheap] at hm
        exact refused_publish hs hm not_passes_cheap _

lemma refused_run {cs : List Call} (hs : Refused s) (hc : SteadyRun cfg interval s cs)
    (hn : Uncleared cfg interval s cs) : Refused (run cfg interval s cs) := by
  induction cs generalizing s with
  | nil => exact hs
  | cons c cs ih => exact ih (refused_step hs hc.1 hn.1) hc.2 hn.2

lemma steadyRun_append {pre post : List Call} (h : SteadyRun cfg interval s (pre ++ post)) :
    SteadyRun cfg interval s pre := by
  induction pre generalizing s with
  | nil => trivial
  | cons c pre ih => exact ⟨h.1, ih h.2⟩

lemma uncleared_append {pre post : List Call} (h : Uncleared cfg interval s (pre ++ post)) :
    Uncleared cfg interval s pre := by
  induction pre generalizing s with
  | nil => trivial
  | cons c pre ih => exact ⟨h.1, ih h.2⟩

end Run

/-- **A failed verification lasts** as long as every check that is made comes to it again: until a
full verification passes, the state is to reindex and no search is let in. -/
theorem never_softened (s : State) (cs : List Call) (hs : s.status.state = .reindexRequired)
    (hw : Legacy s.world) (hc : SteadyRun cfg interval s cs) (hn : Uncleared cfg interval s cs) :
    ∀ pre post, cs = pre ++ post →
      (run cfg interval s pre).status.state = .reindexRequired ∧
        searchable (run cfg interval s pre) = false := by
  rintro pre post rfl
  have h := refused_run ⟨hs, hw⟩ (steadyRun_append hc) (uncleared_append hn)
  exact ⟨h.state, by simp [searchable, h.state]⟩

/-! ### An Interval That Has Not Passed -/

/-- A store of another dimension, from before there were stamps. -/
def oldDimension : World where
  vector := ⟨"milvus", true, 5, none, some 512⟩
  graph := ⟨"sqlite", true, 0, some (.stamp configured), none⟩

def calm : CheckEnv where
  vectorProbe := .answers
  graphProbe := .answers
  sampling := ⟨.ok 3, .ok 3, .timeout⟩
  vectorWrite := .done
  graphWrite := .done
  rebuild := some ⟨.none, 0, 0⟩

def confirmed : State :=
  runCheck configured calm 100 ⟨oldDimension, ⟨.unverified, none, none, false⟩, 0⟩

lemma legacy_confirmed : Legacy confirmed.world := ⟨rfl, by decide, rfl⟩

lemma not_passes_calm {verify : Bool} : ¬Passes configured verify calm confirmed.world := by
  rintro ⟨o, ho, h⟩
  cases ho
  cases verify <;> cases h

/-- Once the interval has passed, a refresh verifies again, and the verdict stays. -/
theorem confirmed_again :
    (run configured 60 confirmed [.refresh (some ⟨.none, 0, 0⟩) calm 200 200]).status.state =
      .reindexRequired := by
  refine (never_softened configured 60 confirmed [.refresh (some ⟨.none, 0, 0⟩) calm 200 200]
    (by decide) legacy_confirmed ⟨.inr ⟨by decide, ?_, .inr (.inr (.inr ?_))⟩, trivial⟩
    ⟨fun h => not_passes_calm h.2.2, trivial⟩ _ [] rfl).1
  · rintro r ⟨⟩
    decide
  · exact ⟨by decide, rfl, .inl ⟨512, rfl, by decide⟩⟩

/-- The refresh right after the verification reports the store as not yet verified, and searches
are let in. -/
theorem refresh_softens :
    ¬ ∀ cfg interval s cs, s.status.state = .reindexRequired → Legacy s.world →
      Uncleared cfg interval s cs →
        (run cfg interval s cs).status.state = .reindexRequired ∧
          searchable (run cfg interval s cs) = false := by
  intro h
  have hrun := h configured 60 confirmed [.refresh (some ⟨.none, 0, 0⟩) calm 105 105]
    (by decide) legacy_confirmed ⟨fun hc => not_passes_calm hc.2.2, trivial⟩
  exact absurd hrun.1 (by decide)

end Treeweft.Softening
