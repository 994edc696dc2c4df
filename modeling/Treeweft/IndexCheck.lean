import Treeweft.IndexStamp
import Mathlib.Data.Rat.Init
import Mathlib.Algebra.Order.Ring.Unbundled.Rat
import Mathlib.Tactic.NormNum

/-!
The check of the guard over the stores themselves: observe both, verify what has no stamp, stamp
what the decision table says, and report.

A check meets a world that may not answer. What its probes, samples and writes come to is given
with each check, and the stores are what the claims are about: `Justified` speaks of them, not of
what was observed.
-/

namespace Treeweft.IndexCheck

open Treeweft.IndexStamp

/-- A store: whether it was created, its rows, its stamp and the dimension of its schema. -/
structure StoreData where
  backend : String
  present : Bool
  rows : ℕ
  stamp : Option StoredStamp
  schemaDim : Option ℤ
  deriving DecidableEq, Repr

structure World where
  vector : StoreData
  graph : StoreData
  deriving DecidableEq, Repr

/-- What the call to a store comes to: an answer, an error that is reported with its text, or an
exception. -/
inductive Probe
  | answers
  | fails (text : String)
  | raises
  deriving DecidableEq, Repr

/-- How the embedding of the samples ends: with the cosine of each to its stored vector, and the
least of them as it is shown. -/
inductive Embedding
  | timeout
  | raised (text : String)
  | answered (cosines : List ℚ) (shown : String)
  deriving DecidableEq, Repr

/-- The number of chunks that a scan of 20 rows and one of 200 rows find, or their errors. -/
structure Sampling where
  scan : Except String ℕ
  longScan : Except String ℕ
  embedding : Embedding

/-- How the write of a stamp ends: the lock is not granted, the write is done, it raises without
or with its effect. -/
inductive WriteFate
  | locked
  | done
  | lost
  | landed
  deriving DecidableEq, Repr

/-- What one check meets. `rebuild` is `none` where its state can not be read. -/
structure CheckEnv where
  vectorProbe : Probe
  graphProbe : Probe
  sampling : Sampling
  vectorWrite : WriteFate
  graphWrite : WriteFate
  rebuild : Option RebuildState

/-! ### Observing and Verifying -/

/-- `observe_index` of either store; `none` raises. -/
def observe (store : Store) (d : StoreData) : Probe → Option StoreObservation
  | .answers =>
    if d.present then some ⟨store, d.backend, true, 0 < d.rows, d.stamp, d.schemaDim, none⟩
    else some ⟨store, d.backend, false, false, none, none, none⟩
  | .fails text => some ⟨store, d.backend, true, false, none, none, some text⟩
  | .raises => none

/-- The samples of the first scan, or of the longer one where it finds none. -/
def Sampling.samples (s : Sampling) : Except String ℕ :=
  match s.scan with
  | .error e => .error e
  | .ok 0 => s.longScan
  | .ok n => .ok n

def threshold : ℚ := 99 / 100

/-- The least cosine, zero where there is none. -/
def worst (cosines : List ℚ) : ℚ := cosines.min?.getD 0

def verifyVectorStore (o : StoreObservation) (cfg : ConfiguredIndex) (s : Sampling) :
    Verification :=
  if o.schemaDim.any (· ≠ cfg.vectorDim) then
    .failed "dimension" ("stored dimension is " ++ toString (o.schemaDim.getD 0) ++
      ", configured " ++ toString cfg.vectorDim)
  else
    match s.samples with
    | .error e => .unavailable e
    | .ok 0 =>
      .failed "no verifiable chunks" "no chunk under 50000 characters among inspected rows"
    | .ok _ =>
      match s.embedding with
      | .timeout => .unavailable "embedding timed out"
      | .raised e => .unavailable e
      | .answered cosines shown =>
        if worst cosines < threshold then
          .failed "embedding_model" ("cosine " ++ shown ++ " < 0.99 on a sampled chunk")
        else .passed

def needsVerification (verify : Bool) (o : StoreObservation) : Bool :=
  verify && !o.isUnreachable && o.present && o.hasData && o.stamp.isNone

/-! ### The Check -/

/-- What a check has decided before it writes. -/
structure Decided where
  vector : StoreCheck
  graph : StoreCheck
  verification : Verification
  deriving DecidableEq, Repr

def decideAll (cfg : ConfiguredIndex) (verify : Bool) (env : CheckEnv) (w : World) :
    Option Decided := do
  let vectorObs ← observe .vector w.vector env.vectorProbe
  let graphObs ← observe .graph w.graph env.graphProbe
  let verification :=
    if needsVerification verify vectorObs then verifyVectorStore vectorObs cfg env.sampling
    else .notRun
  return ⟨decideStore vectorObs cfg verification none,
    decideStore graphObs cfg verification (some vectorObs.hasData), verification⟩

def StoreData.stamped (cfg : ConfiguredIndex) (d : StoreData) : StoreData :=
  { d with stamp := some (.stamp cfg) }

/-- `_write_stamp_if_needed`: the store after it, and whether the check goes on. -/
def writeStampIfNeeded (cfg : ConfiguredIndex) (check : StoreCheck) (fate : WriteFate)
    (d : StoreData) : StoreData × Bool :=
  if !check.writeStamp then (d, true)
  else
    match fate with
    | .locked => (d, true)
    | .done => (d.stamped cfg, true)
    | .lost => (d, false)
    | .landed => (d.stamped cfg, false)

/-- `_compute_status`: the stores after it, and the status unless something raised. -/
def computeStatus (cfg : ConfiguredIndex) (verify : Bool) (env : CheckEnv) (w : World) :
    World × Option IndexStatus :=
  match decideAll cfg verify env w with
  | none => (w, none)
  | some d =>
    let v := writeStampIfNeeded cfg d.vector env.vectorWrite w.vector
    if v.2 then
      let g := writeStampIfNeeded cfg d.graph env.graphWrite w.graph
      if g.2 then
        (⟨v.1, g.1⟩, env.rebuild.map fun rebuild => aggregate [d.vector, d.graph] rebuild)
      else (⟨v.1, g.1⟩, none)
    else (⟨v.1, w.graph⟩, none)

/-! ### What May Be Stamped -/

/-- The stored vectors agree with the configured model: in dimension, and every sample of them is
close to what the model makes of its text. -/
structure Compatible (cfg : ConfiguredIndex) (s : Sampling) (d : StoreData) : Prop where
  dim : ∀ n, d.schemaDim = some n → n = cfg.vectorDim
  sampled : ∃ n, s.samples = .ok (n + 1)
  close : ∃ cosines shown, s.embedding = .answered cosines shown ∧ cosines ≠ [] ∧
    ∀ c ∈ cosines, threshold ≤ c

/-- The store has no stamp, and it is empty or the vectors of the deployment were verified. -/
structure Justified (cfg : ConfiguredIndex) (env : CheckEnv) (w : World) (d : StoreData) :
    Prop where
  unstamped : d.stamp = none
  evidence : d.rows = 0 ∨
    0 < w.vector.rows ∧ w.vector.stamp = none ∧ Compatible cfg env.sampling w.vector

/-- A check leaves a store alone, or stamps it for a reason. -/
def Sound (cfg : ConfiguredIndex) (env : CheckEnv) (w : World) (d d' : StoreData) : Prop :=
  d' = d ∨ d' = d.stamped cfg ∧ Justified cfg env w d

/-- The error of a probe says something. -/
def Probe.Told : Probe → Prop
  | .fails text => text ≠ ""
  | _ => True

instance : DecidablePred Probe.Told := fun p => by
  cases p <;> unfold Probe.Told <;> infer_instance

def CheckEnv.Told (env : CheckEnv) : Prop := env.vectorProbe.Told ∧ env.graphProbe.Told

section Check
variable {cfg : ConfiguredIndex} {env : CheckEnv} {w : World}

/-- An observation that says nothing of an error shows the store as it is. -/
lemma observe_spec {store : Store} {d : StoreData} {p : Probe} {o : StoreObservation}
    (hp : p.Told) (h : observe store d p = some o) (hu : o.isUnreachable = false)
    (hpres : o.present = true) :
    o = ⟨store, d.backend, true, 0 < d.rows, d.stamp, d.schemaDim, none⟩ := by
  cases p with
  | answers =>
    by_cases hd : d.present = true
    · simpa [observe, hd, eq_comm] using h
    · simp only [observe, if_neg hd, Option.some.injEq] at h
      subst h
      cases hpres
  | fails text =>
    simp only [observe, Option.some.injEq] at h
    subst h
    have : text = "" := by simpa [StoreObservation.isUnreachable] using hu
    exact absurd this hp
  | raises => cases h

lemma worst_le {cosines : List ℚ} {c : ℚ} (hc : c ∈ cosines) : worst cosines ≤ c := by
  obtain ⟨m, hm⟩ : ∃ m, cosines.min? = some m := by
    rw [← Option.isSome_iff_exists, List.isSome_min?_iff]
    exact List.ne_nil_of_mem hc
  rw [worst, hm]
  exact (List.min?_eq_some_iff.mp hm).2 c hc

/-- Verification passes only vectors that were looked at. -/
lemma compatible_of_passed {o : StoreObservation} {d : StoreData} {s : Sampling}
    (hdim : o.schemaDim = d.schemaDim) (h : verifyVectorStore o cfg s = .passed) :
    Compatible cfg s d := by
  unfold verifyVectorStore at h
  rw [hdim] at h
  cases hd : d.schemaDim.any (· ≠ cfg.vectorDim)
  · simp only [hd, Bool.false_eq_true, if_false] at h
    cases hs : s.samples with
    | error e => simp [hs] at h
    | ok n =>
      cases n with
      | zero => simp [hs] at h
      | succ n =>
        simp only [hs] at h
        cases he : s.embedding with
        | timeout => simp [he] at h
        | raised e => simp [he] at h
        | answered cosines shown =>
          simp only [he] at h
          have hw : threshold ≤ worst cosines := by
            by_contra hlt
            rw [if_pos (not_le.mp hlt)] at h
            cases h
          refine ⟨?_, ⟨n, hs⟩, cosines, shown, he, ?_, fun c hc => hw.trans (worst_le hc)⟩
          · intro m hm
            simpa [hm] using hd
          · rintro rfl
            exact absurd hw (by norm_num [worst, threshold])
  · rw [if_pos hd] at h
    cases h

def verificationOf (cfg : ConfiguredIndex) (verify : Bool) (env : CheckEnv)
    (o : StoreObservation) : Verification :=
  if needsVerification verify o then verifyVectorStore o cfg env.sampling else .notRun

/-- Both stores are decided by what was observed of them and by one verification. -/
lemma decideAll_spec {verify : Bool} {d : Decided} (h : decideAll cfg verify env w = some d) :
    ∃ vo go, observe .vector w.vector env.vectorProbe = some vo ∧
      observe .graph w.graph env.graphProbe = some go ∧
      d = ⟨decideStore vo cfg (verificationOf cfg verify env vo) none,
        decideStore go cfg (verificationOf cfg verify env vo) (some vo.hasData),
        verificationOf cfg verify env vo⟩ := by
  obtain ⟨vo, hvo, h⟩ := Option.bind_eq_some_iff.mp h
  obtain ⟨go, hgo, h⟩ := Option.bind_eq_some_iff.mp h
  cases h
  exact ⟨vo, go, hvo, hgo, rfl⟩

/-- A verification that passed was made on the vectors of a store without a stamp. -/
lemma verified {verify : Bool} {o : StoreObservation} (hp : env.vectorProbe.Told)
    (ho : observe .vector w.vector env.vectorProbe = some o)
    (h : verificationOf cfg verify env o = .passed) :
    0 < w.vector.rows ∧ w.vector.stamp = none ∧ Compatible cfg env.sampling w.vector := by
  unfold verificationOf at h
  by_cases hn : needsVerification verify o = true
  · rw [if_pos hn] at h
    simp only [needsVerification, Bool.and_eq_true, Bool.not_eq_true'] at hn
    obtain ⟨⟨⟨⟨-, hu⟩, hpres⟩, hdata⟩, hstamp⟩ := hn
    have hspec := observe_spec hp ho hu hpres
    rw [hspec] at hdata hstamp
    refine ⟨of_decide_eq_true hdata, Option.isNone_iff_eq_none.mp hstamp, ?_⟩
    exact compatible_of_passed (by rw [hspec]) h
  · rw [if_neg hn] at h
    cases h

/-- A store that the table asks to stamp has none, and there is evidence for it. -/
lemma justified_of_writeStamp {store : Store} {d : StoreData} {p : Probe} {o : StoreObservation}
    {v : Verification} {hasData : Option Bool} (hp : p.Told) (ho : observe store d p = some o)
    (hv : v = .passed → 0 < w.vector.rows ∧ w.vector.stamp = none ∧
      Compatible cfg env.sampling w.vector)
    (h : (decideStore o cfg v hasData).writeStamp = true) : Justified cfg env w d := by
  obtain ⟨hu, hpres, hstamp, hev⟩ := writeStamp_iff.mp h
  have hspec := observe_spec hp ho hu hpres
  rw [hspec] at hstamp hev
  refine ⟨hstamp, ?_⟩
  rcases hev with hempty | ⟨hpass, -⟩
  · have hrows : ¬0 < d.rows := of_decide_eq_false hempty
    exact .inl (by omega)
  · exact .inr (hv hpass)

lemma writeStampIfNeeded_of_not {check : StoreCheck} {fate : WriteFate} {d : StoreData}
    (h : check.writeStamp = false) : writeStampIfNeeded cfg check fate d = (d, true) := by
  simp [writeStampIfNeeded, h]

lemma sound_write {check : StoreCheck} {fate : WriteFate} {d : StoreData}
    (h : check.writeStamp = true → Justified cfg env w d) :
    Sound cfg env w d (writeStampIfNeeded cfg check fate d).1 := by
  unfold writeStampIfNeeded
  cases hc : check.writeStamp
  · exact .inl rfl
  · cases fate
    · exact .inl rfl
    · exact .inr ⟨rfl, h hc⟩
    · exact .inl rfl
    · exact .inr ⟨rfl, h hc⟩

/-- **One check**: whatever its probes and writes come to, it stamps for a reason. -/
lemma computeStatus_sound {verify : Bool} (ht : env.Told) :
    Sound cfg env w w.vector (computeStatus cfg verify env w).1.vector ∧
      Sound cfg env w w.graph (computeStatus cfg verify env w).1.graph := by
  unfold computeStatus
  cases hd : decideAll cfg verify env w with
  | none => exact ⟨.inl rfl, .inl rfl⟩
  | some d =>
    obtain ⟨vo, go, hvo, hgo, rfl⟩ := decideAll_spec hd
    have hver : verificationOf cfg verify env vo = .passed →
        0 < w.vector.rows ∧ w.vector.stamp = none ∧ Compatible cfg env.sampling w.vector :=
      verified ht.1 hvo
    have hvec : Sound cfg env w w.vector (writeStampIfNeeded cfg
        (decideStore vo cfg (verificationOf cfg verify env vo) none) env.vectorWrite w.vector).1 :=
      sound_write (justified_of_writeStamp ht.1 hvo hver)
    have hgra : Sound cfg env w w.graph (writeStampIfNeeded cfg
        (decideStore go cfg (verificationOf cfg verify env vo) (some vo.hasData))
        env.graphWrite w.graph).1 :=
      sound_write (justified_of_writeStamp ht.2 hgo hver)
    dsimp only
    split
    · split
      · exact ⟨hvec, hgra⟩
      · exact ⟨hvec, hgra⟩
    · exact ⟨hvec, .inl rfl⟩

/-- **The verdict**: a check reports ok only where each store's own decision is. -/
lemma decided_ok {verify : Bool} {st : IndexStatus} {d : Decided}
    (hd : decideAll cfg verify env w = some d)
    (h : (computeStatus cfg verify env w).2 = some st) (hok : st.state = .ok) :
    d.vector.state = .ok ∧ d.graph.state = .ok := by
  unfold computeStatus at h
  rw [hd] at h
  dsimp only at h
  split at h
  · split at h
    · obtain ⟨rebuild, -, rfl⟩ := Option.map_eq_some_iff.mp h
      have hall := aggregate_ok hok
      exact ⟨hall d.vector (by simp), hall d.graph (by simp)⟩
    · cases h
  · cases h

lemma Sound.keeps {d d' : StoreData} (h : Sound cfg env w d d') {s : StoredStamp}
    (hs : d.stamp = some s) : d'.stamp = some s := by
  rcases h with rfl | ⟨-, hj⟩
  · exact hs
  · rw [hj.unstamped] at hs
    cases hs

end Check

/-! ### Sequences of Checks -/

/-- A check, or rows that come and go between checks. -/
inductive Event
  | check (verify : Bool) (env : CheckEnv)
  | rows (vector graph : ℕ)

def step (cfg : ConfiguredIndex) (w : World) : Event → World
  | .check verify env => (computeStatus cfg verify env w).1
  | .rows v g => ⟨{ w.vector with rows := v }, { w.graph with rows := g }⟩

def run (cfg : ConfiguredIndex) (w : World) (es : List Event) : World := es.foldl (step cfg) w

/-- Every probe that fails says why. -/
def Told : Event → Prop
  | .check _ env => env.Told
  | .rows _ _ => True

/-- What a check does to the stores, and what it reports of them. -/
structure SoundCheck (cfg : ConfiguredIndex) (verify : Bool) (env : CheckEnv) (w : World) :
    Prop where
  vector : Sound cfg env w w.vector (computeStatus cfg verify env w).1.vector
  graph : Sound cfg env w w.graph (computeStatus cfg verify env w).1.graph
  ok : ∀ st d, (computeStatus cfg verify env w).2 = some st →
    decideAll cfg verify env w = some d → st.state = .ok →
      d.vector.state = .ok ∧ d.graph.state = .ok

section Run
variable {cfg : ConfiguredIndex}

lemma soundCheck {verify : Bool} {env : CheckEnv} (w : World) (ht : env.Told) :
    SoundCheck cfg verify env w where
  vector := (computeStatus_sound ht).1
  graph := (computeStatus_sound ht).2
  ok := fun _ _ h hd hok => decided_ok hd h hok

/-- A stamp survives a step. -/
lemma step_keeps {w : World} {e : Event} (he : Told e) :
    (∀ s, w.vector.stamp = some s → (step cfg w e).vector.stamp = some s) ∧
      ∀ s, w.graph.stamp = some s → (step cfg w e).graph.stamp = some s := by
  cases e with
  | rows v g => exact ⟨fun _ h => h, fun _ h => h⟩
  | check verify env =>
    exact ⟨fun _ h => (computeStatus_sound he).1.keeps h,
      fun _ h => (computeStatus_sound he).2.keeps h⟩

lemma run_keeps {w : World} {es : List Event} (hes : ∀ e ∈ es, Told e) :
    (∀ s, w.vector.stamp = some s → (run cfg w es).vector.stamp = some s) ∧
      ∀ s, w.graph.stamp = some s → (run cfg w es).graph.stamp = some s := by
  induction es generalizing w with
  | nil => exact ⟨fun _ h => h, fun _ h => h⟩
  | cons e es ih =>
    obtain ⟨he, hes⟩ := List.forall_mem_cons.mp hes
    obtain ⟨hvec, hgra⟩ := step_keeps he
    obtain ⟨ihvec, ihgra⟩ := ih hes
    exact ⟨fun s h => ihvec s (hvec s h), fun s h => ihgra s (hgra s h)⟩

end Run

/-- **Stamping is sound** in every sequence of checks in which no probe fails without a word: each
check stamps for a reason and reports ok only where every store is, and a stamp once there stays
what it is. -/
theorem stamping_sound (cfg : ConfiguredIndex) (w : World) (es : List Event)
    (hes : ∀ e ∈ es, Told e) :
    (∀ pre verify env post, es = pre ++ .check verify env :: post →
      SoundCheck cfg verify env (run cfg w pre)) ∧
    (∀ s, w.vector.stamp = some s → (run cfg w es).vector.stamp = some s) ∧
    (∀ s, w.graph.stamp = some s → (run cfg w es).graph.stamp = some s) ∧
    ∀ checks rebuild, (aggregate checks rebuild).state = .ok → ∀ c ∈ checks, c.state = .ok := by
  refine ⟨?_, (run_keeps hes).1, (run_keeps hes).2, fun _ _ h => aggregate_ok h⟩
  rintro pre verify env post rfl
  exact soundCheck _ (hes (.check verify env) (by simp))

/-! ### A Probe That Fails without a Word -/

def configured : ConfiguredIndex := ⟨1, "new-model", 768⟩

/-- A store of another model, stamped as such. -/
def otherModel : World where
  vector := ⟨"milvus", true, 5, some (.stamp ⟨1, "old-model", 768⟩), some 768⟩
  graph := ⟨"sqlite", true, 0, some (.stamp ⟨1, "old-model", 768⟩), none⟩

def quiet (text : String) : CheckEnv where
  vectorProbe := .fails text
  graphProbe := .answers
  sampling := ⟨.ok 0, .ok 0, .timeout⟩
  vectorWrite := .done
  graphWrite := .done
  rebuild := some ⟨.none, 0, 0⟩

/-- A timeout that is reported as such leaves the stamp. -/
theorem told_keeps :
    (run configured otherModel [.check true (quiet "timed out")]).vector.stamp =
      some (.stamp ⟨1, "old-model", 768⟩) :=
  (stamping_sound configured otherModel [.check true (quiet "timed out")]
    (by
      intro e he
      rw [List.mem_singleton.mp he]
      exact ⟨by decide, trivial⟩)).2.1 _ rfl

/-- An error with an empty text reads as an empty store: the stamp of the other model is
overwritten. -/
theorem untold_overwrites :
    ¬ ∀ cfg w es, ∀ s, w.vector.stamp = some s → (run cfg w es).vector.stamp = some s := by
  intro h
  have := h configured otherModel [.check true (quiet "")] _ rfl
  exact absurd this (by decide)

end Treeweft.IndexCheck
