import Treeweft.CircuitBreaker
import Treeweft.Interleaving
import Mathlib.Order.Basic

/-!
`call_with_control_layer`: calls to the model behind the circuit breaker of their operation.

The calls of one process share the breaker and run interleaved. What the provider answers, how long
things take and whether a call is cancelled while it waits is up to the environment. Of an answer
only whether there is one is kept.
-/

namespace Treeweft.ControlLayer

open CircuitBreaker
open Machine (State Label Run Kept initial)

inductive FailureMode
  | none
  | schemaViolation
  | constraintViolation
  | tokenOverflow
  | timeout
  | circuitOpen
  | llmError
  | emptyResponse
  | promptInjection
  | unknown
  deriving DecidableEq, Repr

/-- `RetryConfig.max_attempts` of `_retry`. -/
def maxAttempts : ℕ := 3

/-- `RetryEngine.evaluate`, as far as whether to retry. -/
def shouldRetry (attempt : ℕ) : FailureMode → Bool
  | .promptInjection | .circuitOpen | .none => false
  | _ => decide (attempt < maxAttempts)

/-- How the wait for `_chat` ends: with a text, with `None`, at its budget after the request was
sent or before, or with another exception. -/
inductive Outcome
  | answered
  | nothing
  | timedOut (sent : Bool)
  | raised
  deriving DecidableEq, Repr

/-- What `validator.validate` says: the mode of a failed check. -/
inductive Verdict
  | passed
  | failed (fm : FailureMode)
  | raised
  deriving DecidableEq, Repr

inductive Op
  | isOpen
  | recordSuccess
  | recordFailure
  | abandonProbe
  | chat
  | validate
  | audit
  | timeForRetry
  | sleep
  | fallback
  deriving DecidableEq, Repr

/-- `audit` and `sleep` answer whether they end normally, `fallback` the strategy that has a
result. -/
def Op.Answer : Op → Type
  | .isOpen => Bool
  | .recordSuccess | .recordFailure | .abandonProbe => Unit
  | .chat => Outcome
  | .validate => Verdict
  | .audit | .timeForRetry | .sleep => Bool
  | .fallback => Option String

def signature : Signature := ⟨Op, Op.Answer⟩

/-- An exception that leaves the call. -/
inductive Exc
  | raised
  deriving DecidableEq, Repr

abbrev Act (α : Type) : Type := Prog signature Exc α

def perform (o : Op) : Act o.Answer := .op (S := signature) o .ret

/-- Whether a text is returned, and the strategy. -/
structure Reply where
  text : Bool
  strategy : String
  deriving DecidableEq, Repr

/-- `_audit.log`. -/
def log : Act Unit := do
  let ok : Bool ← perform .audit
  if ok then pure () else .raise .raised

/-- `await asyncio.sleep`. -/
def backoff : Act Unit := do
  let ok : Bool ← perform .sleep
  if ok then pure () else .raise .raised

/-- `_fallback.execute`, or no text and the strategy `s`. -/
def routeToFallback (s : String) : Act Reply := do
  let r : Option String ← perform .fallback
  match r with
  | some name => pure ⟨true, "fallback:" ++ name⟩
  | none => pure ⟨false, s⟩

/-- The end of a failed attempt: `next` after a backoff, or the fallback. -/
def afterFailure (attempt : ℕ) (fm : FailureMode) (s : String) (next : Act Reply) : Act Reply := do
  log
  if shouldRetry attempt fm then
    let time : Bool ← perform .timeForRetry
    if time then do
      backoff
      next
    else routeToFallback s
  else routeToFallback s

/-- The end of an attempt that the provider answered. -/
def afterAnswer (validated : Bool) (attempt : ℕ) (next : Act Reply) : Act Reply := do
  perform .recordSuccess
  let verdict : Verdict ← if validated then perform .validate else pure .passed
  match verdict with
  | .failed fm => afterFailure attempt fm "rejected" next
  | .raised => .raise .raised
  | .passed => do
    log
    pure ⟨true, if attempt = 1 then "simple" else "prompt_mutation"⟩

/-- The attempts from number `attempt` on, `left` of them. Only a call under a budget is told that
its request was sent. -/
def attempts (budgeted validated : Bool) : ℕ → ℕ → Act Reply
  | 0, _ => pure ⟨false, "error"⟩
  | left + 1, attempt => do
    let next := attempts budgeted validated left (attempt + 1)
    let rejected : Bool ← perform .isOpen
    if rejected then do
      log
      routeToFallback "error"
    else do
      let outcome : Outcome ← perform .chat
      match outcome with
      | .raised => do
        perform .abandonProbe
        .raise .raised
      | .answered => afterAnswer validated attempt next
      | .nothing => do
        perform .recordFailure
        afterFailure attempt .timeout "error" next
      | .timedOut sent => do
        if sent && budgeted then perform .recordFailure else perform .abandonProbe
        afterFailure attempt .timeout "error" next

/-- `call_with_control_layer`, with a budget or without (`timeout_includes_queue`) and with a
validator or without. -/
def callWithControlLayer (budgeted validated : Bool) : Act Reply :=
  attempts budgeted validated maxAttempts 1

/-! ### The calls of a process -/

/-- A call that was let through and has not said how it ended: when it was let through, a half-open
period or a time when the breaker was closed. -/
structure Admission where
  tid : Tid
  period : Option ℕ
  deriving DecidableEq, Repr

/-- `admitted` is kept for the statements; nothing the code does depends on it. -/
structure Store where
  breaker : Breaker
  now : ℕ
  admitted : Keyed Admission.tid

def Store.new (now : ℕ) : Store := ⟨.new, now, .empty⟩

/-- The unresolved probes of half-open period `k`. -/
def Store.probes (st : Store) (k : ℕ) : ℕ :=
  st.admitted.rows.countP fun a => decide (a.period = some k)

/-- `_current_state` as the next call of the breaker will find it. -/
def Store.current (cfg : CircuitConfig) (st : Store) : Breaker := currentState cfg st.now st.breaker

/-- What the environment answers, coded by a number. -/
def outcome (env : ℕ) : Outcome :=
  [.answered, .nothing, .timedOut true, .timedOut false, .raised].getD env .raised

def verdict (env : ℕ) : Verdict :=
  [.passed, .failed .schemaViolation, .failed .constraintViolation, .failed .tokenOverflow,
    .failed .emptyResponse, .raised].getD env .raised

/-- What is known of the admission of `t` when `is_open` lets it through. -/
def admission (t : Tid) (b : Breaker) : Admission :=
  ⟨t, if b.state = .halfOpen then some b.period else none⟩

def exec (cfg : CircuitConfig) (st : Store) (t : Tid) (env : ℕ) :
    (o : Op) → Option (o.Answer × Store)
  | .isOpen =>
    let r := isOpen cfg st.now st.breaker
    some (r.1, { st with breaker := r.2,
                         admitted := if r.1 then st.admitted
                           else st.admitted.put (admission t r.2) })
  | .recordSuccess =>
    some ((), { st with breaker := recordSuccess st.breaker, admitted := st.admitted.erase t })
  | .recordFailure =>
    some ((), { st with breaker := recordFailure cfg st.now st.breaker,
                        admitted := st.admitted.erase t })
  | .abandonProbe =>
    some ((), { st with breaker := abandonProbe cfg st.now st.breaker,
                        admitted := st.admitted.erase t })
  | .chat => some (outcome env, st)
  | .validate => some (verdict env, st)
  | .audit => some (decide (env = 0), st)
  | .timeForRetry => some (decide (env = 0), st)
  | .sleep => some (decide (env = 0), st)
  | .fallback => some (if env = 0 then none else some (toString env), st)

structure Entry where
  budgeted : Bool
  validated : Bool

/-- Time passes, or somebody reads the state. -/
inductive Own
  | tick (d : ℕ)
  | look

/-- The breaker lives in one process; what a process does after a restart is another run. -/
def machine (cfg : CircuitConfig) : Machine signature Exc where
  Store := Store
  exec := exec cfg
  Entry := Entry
  main e := (callWithControlLayer e.budgeted e.validated).bind fun _ => .ret ()
  kill _ st := st
  Own := Own
  own st
    | .tick d => some { st with now := st.now + d }
    | .look => some { st with breaker := st.current cfg }

/-! ### Every admission is resolved once -/

/-- A call that was let through owes one resolution, and can only be let through or end when it
owes none. -/
def discipline : Discipline signature where
  Local := Bool
  init := false
  may owes
    | .isOpen => owes = false
    | .recordSuccess | .recordFailure | .abandonProbe => owes = true
    | _ => True
  admits _ _ _ := True
  after owes
    | .isOpen, rejected => !rejected
    | .recordSuccess, _ | .recordFailure, _ | .abandonProbe, _ => false
    | _, _ => owes

abbrev Sys (cfg : CircuitConfig) : Type := State (machine cfg) discipline

section Programs

/-- However `p` ends, nothing is owed. -/
def Settles {α : Type} (p : Act α) (owes : Bool) : Prop :=
  discipline.wp p (fun _ l => l = false) (fun _ l => l = false) owes

lemma settles_log {α : Type} {p : Act α} (h : Settles p false) : Settles (do log; p) false := by
  refine ⟨trivial, fun ok _ => ?_⟩
  cases ok with
  | false => exact rfl
  | true => exact h

lemma settles_routeToFallback (s : String) : Settles (routeToFallback s) false := by
  refine ⟨trivial, fun r _ => ?_⟩
  cases r <;> exact rfl

lemma settles_afterFailure (attempt : ℕ) (fm : FailureMode) (s : String) {next : Act Reply}
    (h : Settles next false) : Settles (afterFailure attempt fm s next) false := by
  refine settles_log ?_
  split
  · refine ⟨trivial, fun time _ => ?_⟩
    cases time with
    | false => exact settles_routeToFallback s
    | true =>
      refine ⟨trivial, fun ok _ => ?_⟩
      cases ok with
      | false => exact rfl
      | true => exact h
  · exact settles_routeToFallback s

lemma settles_afterAnswer (validated : Bool) (attempt : ℕ) {next : Act Reply}
    (h : Settles next false) : Settles (afterAnswer validated attempt next) true := by
  refine ⟨rfl, fun _ _ => ?_⟩
  cases validated with
  | false => exact settles_log rfl
  | true =>
    refine ⟨trivial, fun v _ => ?_⟩
    cases v with
    | passed => exact settles_log rfl
    | failed fm => exact settles_afterFailure attempt fm "rejected" h
    | raised => exact rfl

lemma settles_attempts (budgeted validated : Bool) (left attempt : ℕ) :
    Settles (attempts budgeted validated left attempt) false := by
  induction left generalizing attempt with
  | zero => exact rfl
  | succ left ih =>
    have hnext := ih (attempt + 1)
    refine ⟨rfl, fun rejected _ => ?_⟩
    cases rejected with
    | true => exact settles_log (settles_routeToFallback "error")
    | false =>
      refine ⟨trivial, fun outcome _ => ?_⟩
      cases outcome with
      | answered => exact settles_afterAnswer validated attempt hnext
      | nothing => exact ⟨rfl, fun _ _ => settles_afterFailure attempt .timeout "error" hnext⟩
      | raised => exact ⟨rfl, fun _ _ => rfl⟩
      | timedOut sent =>
        cases sent <;> cases budgeted <;>
          exact ⟨rfl, fun _ _ => settles_afterFailure attempt .timeout "error" hnext⟩

end Programs

/-- The admissions are those of the calls that owe a resolution, none is of a period to come, and
the breaker never counts more probes than are unresolved. -/
structure Inv (st : Store) (L : Tid → Option Bool) : Prop where
  owed : ∀ t, L t = some true ↔ st.admitted.get? t ≠ none
  past : ∀ a ∈ st.admitted, ∀ k, a.period = some k → k ≤ st.breaker.period
  counted : st.breaker.state = .halfOpen →
    st.breaker.half_open_attempts ≤ st.probes st.breaker.period

/-- The breaker counts every unresolved probe of the period, up to its limit. -/
structure Capped (cfg : CircuitConfig) (st : Store) : Prop where
  counts : st.breaker.state = .halfOpen →
    st.probes st.breaker.period ≤ st.breaker.half_open_attempts
  le : st.breaker.state = .halfOpen →
    st.breaker.half_open_attempts ≤ cfg.half_open_max_attempts

section Invariants
variable {cfg : CircuitConfig} {st : Store} {L : Tid → Option Bool} {t : Tid}

/-- A period that has not begun has no probes. -/
lemma Inv.probes_new (h : Inv st L) {k : ℕ} (hk : st.breaker.period < k) : st.probes k = 0 := by
  refine List.countP_eq_zero.2 fun a ha hp => ?_
  have := h.past a ha k (by simpa using hp)
  omega

/-- Reading the state of the breaker keeps the invariant. -/
lemma Inv.current (h : Inv st L) (cfg : CircuitConfig) :
    Inv { st with breaker := st.current cfg } L := by
  rcases currentState_cases cfg st.now st.breaker with hb | ⟨-, ha, -⟩
  · rw [Store.current, hb]
    exact h
  · refine ⟨h.owed, fun a hmem k hk => ?_, fun _ => ?_⟩
    · exact (h.past a hmem k hk).trans period_le_currentState
    · exact ha.le.trans (Nat.zero_le _)

lemma Capped.current (hi : Inv st L) (h : Capped cfg st) :
    Capped cfg { st with breaker := st.current cfg } := by
  rcases currentState_cases cfg st.now st.breaker with hb | ⟨-, ha, hp⟩
  · rw [Store.current, hb]
    exact h
  · have hnew : st.probes (st.current cfg).period = 0 :=
      hi.probes_new (hp ▸ Nat.lt_succ_self _)
    exact ⟨fun _ => hnew.le.trans (Nat.zero_le _), fun _ => ha.le.trans (Nat.zero_le _)⟩

lemma owed_put {A : Keyed Admission.tid} (h : ∀ u, L u = some true ↔ A.get? u ≠ none)
    {x : Admission} (hx : x.tid = t) (u : Tid) :
    Function.update L t (some true) u = some true ↔ (A.put x).get? u ≠ none := by
  rw [Keyed.get?_put, hx]
  by_cases hu : u = t
  · subst hu
    simp
  · rw [Function.update_of_ne hu, if_neg hu]
    exact h u

lemma owed_erase {A : Keyed Admission.tid} (h : ∀ u, L u = some true ↔ A.get? u ≠ none)
    (u : Tid) : Function.update L t (some false) u = some true ↔ (A.erase t).get? u ≠ none := by
  rw [Keyed.get?_erase]
  by_cases hu : u = t
  · subst hu
    simp
  · rw [Function.update_of_ne hu, if_neg hu]
    exact h u

lemma Inv.admission_none (h : Inv st L) (hl : L t = some false) : st.admitted.get? t = none := by
  by_contra hn
  have := (h.owed t).2 hn
  rw [hl] at this
  cases this

/-- The store after `t` asked whether the breaker is open. -/
def Store.asked (cfg : CircuitConfig) (st : Store) (t : Tid) : Store :=
  let r := isOpen cfg st.now st.breaker
  { st with breaker := r.2,
            admitted := if r.1 then st.admitted else st.admitted.put (admission t r.2) }

lemma asked_rejected (hr : (isOpen cfg st.now st.breaker).1 = true) :
    st.asked cfg t = { st with breaker := st.current cfg } := by
  simp only [Store.asked, hr, if_true, isOpen_rejected hr]
  rfl

lemma asked_admitted (hr : (isOpen cfg st.now st.breaker).1 = false) {b : Breaker}
    (hb : (isOpen cfg st.now st.breaker).2 = b) :
    st.asked cfg t = { st with breaker := b, admitted := st.admitted.put (admission t b) } := by
  simp only [Store.asked, hr, Bool.false_eq_true, if_false, hb]

lemma Inv.ask (h : Inv st L) (hl : L t = some false) :
    Inv (st.asked cfg t) (Function.update L t (some !(isOpen cfg st.now st.breaker).1)) ∧
      (Capped cfg st → Capped cfg (st.asked cfg t)) := by
  have hc := h.current cfg
  cases hr : (isOpen cfg st.now st.breaker).1 with
  | true =>
    rw [asked_rejected hr, show Function.update L t (some !true) = L from
      Function.update_eq_self_iff.2 hl.symm]
    exact ⟨hc, fun hcap => hcap.current h⟩
  | false =>
    have hput := fun x => owed_put h.owed (t := t) (x := admission t x) rfl
    rcases isOpen_admitted hr with ⟨hb, hs⟩ | ⟨hs, hlt, hb⟩
    · -- let through while the breaker is closed
      rw [asked_admitted hr hb]
      refine ⟨⟨hput _, fun a ha k hk => ?_, fun hh => ?_⟩, fun _ => ⟨fun hh => ?_, fun hh => ?_⟩⟩
      · rcases Keyed.mem_put.1 ha with rfl | ⟨ha, -⟩
        · simp [admission, hs] at hk
        · exact hc.past a ha k hk
      · exact absurd (hs.symm.trans hh) (by decide)
      · exact absurd (hs.symm.trans hh) (by decide)
      · exact absurd (hs.symm.trans hh) (by decide)
    · -- let through as a probe
      rw [asked_admitted hr hb]
      set b : Breaker := { currentState cfg st.now st.breaker with half_open_attempts :=
        (currentState cfg st.now st.breaker).half_open_attempts + 1 } with hbdef
      have hperiod : (admission t b).period = some b.period := by simp [admission, hbdef, hs]
      have hprobes := Keyed.countP_put (x := admission t b) (h.admission_none hl)
        fun a => decide (a.period = some b.period)
      rw [if_pos (decide_eq_true hperiod)] at hprobes
      refine ⟨⟨hput b, fun a ha k hk => ?_, fun _ => ?_⟩, fun hcap => ⟨fun _ => ?_, fun _ => hlt⟩⟩
      · rcases Keyed.mem_put.1 ha with rfl | ⟨ha, -⟩
        · exact (Option.some.inj (hperiod.symm.trans hk)).ge
        · exact hc.past a ha k hk
      · exact (Nat.succ_le_succ (hc.counted hs)).trans_eq hprobes.symm
      · exact hprobes.trans_le (Nat.succ_le_succ ((hcap.current h).counts hs))

/-- An answer about the provider ends the half-open period. -/
lemma Inv.resolve (cfg : CircuitConfig) (h : Inv st L) {b : Breaker} (hb : b.state ≠ .halfOpen)
    (hp : st.breaker.period ≤ b.period) :
    Inv { st with breaker := b, admitted := st.admitted.erase t }
        (Function.update L t (some false)) ∧
      Capped cfg { st with breaker := b, admitted := st.admitted.erase t } where
  left := ⟨owed_erase h.owed, fun a ha k hk => (h.past a (Keyed.mem_erase.1 ha).1 k hk).trans hp,
    fun hh => absurd hh hb⟩
  right := ⟨fun hh => absurd hh hb, fun hh => absurd hh hb⟩

/-- The store after `t` gave its probe back. -/
def Store.abandoned (cfg : CircuitConfig) (st : Store) (t : Tid) : Store :=
  { st with breaker := abandonProbe cfg st.now st.breaker, admitted := st.admitted.erase t }

/-- An abandonment that frees a slot of the present period is one of a probe of that period. -/
def Tied (cfg : CircuitConfig) (st : Store) (t : Tid) : Prop :=
  (st.current cfg).state = .halfOpen → (st.current cfg).half_open_attempts > 0 →
    ∃ a, st.admitted.get? t = some a ∧ a.period = some (st.current cfg).period

lemma probes_erase {a : Admission} (ha : st.admitted.get? t = some a) (b : Breaker) (k : ℕ) :
    st.probes k = Store.probes { st with breaker := b, admitted := st.admitted.erase t } k +
      if a.period = some k then 1 else 0 := by
  have h := Keyed.countP_erase ha fun a => decide (a.period = some k)
  simp only [decide_eq_true_eq] at h
  exact h

lemma Inv.abandon (h : Inv st L) (hl : L t = some true) :
    Inv (st.abandoned cfg t) (Function.update L t (some false)) ∧
      (Capped cfg st → Tied cfg st t → Capped cfg (st.abandoned cfg t)) := by
  have hc := h.current cfg
  obtain ⟨a, ha⟩ := Option.ne_none_iff_exists'.1 ((h.owed t).1 hl)
  have hcount := fun b => probes_erase ha b (st.current cfg).period
  have hpast : ∀ x ∈ st.admitted.erase t, ∀ k, x.period = some k → k ≤ (st.current cfg).period :=
    fun x hx => hc.past x (Keyed.mem_erase.1 hx).1
  unfold Store.abandoned
  rcases abandonProbe_cases cfg st.now st.breaker with ⟨hs, hpos, hb⟩ | ⟨hb, hzero⟩
  · have hlost := hcount { currentState cfg st.now st.breaker with half_open_attempts :=
      (currentState cfg st.now st.breaker).half_open_attempts - 1 }
    have hcounted : (st.current cfg).half_open_attempts ≤ st.probes (st.current cfg).period :=
      hc.counted hs
    rw [hb]
    refine ⟨⟨owed_erase h.owed, hpast, fun _ => ?_⟩, fun hcap htied => ⟨fun _ => ?_, fun _ => ?_⟩⟩
    · refine Nat.sub_le_of_le_add (hcounted.trans (hlost.trans_le (Nat.add_le_add_left ?_ _)))
      split <;> decide
    · obtain ⟨a', ha', hperiod⟩ := htied hs hpos
      obtain rfl := Option.some.inj (ha.symm.trans ha')
      rw [if_pos hperiod] at hlost
      exact Nat.le_sub_of_add_le (hlost.ge.trans ((hcap.current h).counts hs))
    · exact (Nat.sub_le _ _).trans ((hcap.current h).le hs)
  · have hlost := hcount (currentState cfg st.now st.breaker)
    rw [hb]
    refine ⟨⟨owed_erase h.owed, hpast, fun hs => ?_⟩, fun hcap _ => ⟨fun hs => ?_, fun hs => ?_⟩⟩
    · exact (hzero hs).le.trans (Nat.zero_le _)
    · exact (Nat.le_of_add_right_le hlost.ge).trans ((hcap.current h).counts hs)
    · exact (hzero hs).le.trans (Nat.zero_le _)

end Invariants

/-! ### Runs -/

/-- One life of a process. -/
def Living {cfg : CircuitConfig} (_ : Sys cfg) : Label (machine cfg) → Prop
  | .kill _ => False
  | _ => True

/-- A step that abandons a call is `Tied`. -/
def Careful {cfg : CircuitConfig} (s : Sys cfg) : Label (machine cfg) → Prop
  | .kill _ => False
  | .run t _ => s.nextOp t = some .abandonProbe → Tied cfg s.store t
  | _ => True

/-- What one operation keeps. -/
lemma Inv.op {cfg : CircuitConfig} {st st' : Store} {L : Tid → Option Bool} {t : Tid} {l : Bool}
    (h : Inv st L) (hl : L t = some l) {env : ℕ} {o : Op} (hm : discipline.may l o) {r : o.Answer}
    (he : exec cfg st t env o = some (r, st')) :
    Inv st' (Function.update L t (some (discipline.after l o r))) ∧
      (Capped cfg st → (o = .abandonProbe → Tied cfg st t) → Capped cfg st') := by
  have hsame : Function.update L t (some l) = L := Function.update_eq_self_iff.2 hl.symm
  cases o with
  | isOpen =>
    cases he
    obtain rfl : l = false := hm
    exact ⟨(h.ask hl).1, fun hcap _ => (h.ask hl).2 hcap⟩
  | recordSuccess =>
    cases he
    have := h.resolve cfg (t := t) (b := recordSuccess st.breaker) (by simp [recordSuccess])
      (Nat.le_refl _)
    exact ⟨this.1, fun _ _ => this.2⟩
  | recordFailure =>
    cases he
    have := h.resolve cfg (t := t) (b := recordFailure cfg st.now st.breaker)
      recordFailure_state period_le_recordFailure
    exact ⟨this.1, fun _ _ => this.2⟩
  | abandonProbe =>
    cases he
    obtain rfl : l = true := hm
    exact ⟨(h.abandon hl).1, fun hcap htied => (h.abandon hl).2 hcap (htied rfl)⟩
  | chat | validate | audit | timeForRetry | sleep | fallback =>
    cases he
    exact ⟨hsame.symm ▸ h, fun hcap _ => hcap⟩

/-- A call that owes nothing begins or ends. -/
lemma Inv.idle {st : Store} {L : Tid → Option Bool} {t : Tid} (h : Inv st L)
    (hl : L t ≠ some true) {x : Option Bool} (hx : x ≠ some true) :
    Inv st (Function.update L t x) := by
  refine ⟨fun u => ?_, h.past, h.counted⟩
  rw [← h.owed u]
  by_cases hu : u = t
  · subst hu
    rw [Function.update_self]
    exact iff_of_false hx hl
  · rw [Function.update_of_ne hu]

lemma inv_own {cfg : CircuitConfig} {st st' : Store} {L : Tid → Option Bool} {x : Own}
    (h : Inv st L) (he : (machine cfg).own st x = some st') :
    Inv st' L ∧ (Capped cfg st → Capped cfg st') := by
  cases x with
  | tick d =>
    cases he
    exact ⟨⟨h.owed, h.past, h.counted⟩, fun hcap => ⟨hcap.counts, hcap.le⟩⟩
  | look =>
    cases he
    exact ⟨h.current cfg, fun hcap => hcap.current h⟩

lemma kept (cfg : CircuitConfig) : Kept (M := machine cfg) (D := discipline)
    Living (fun l => l = false) Inv where
  main _ _ e _ := by
    refine Discipline.wp_bind'.symm ▸ ?_
    exact settles_attempts e.budgeted e.validated maxAttempts 1
  start _ _ _ _ h ht := h.idle (ht ▸ nofun) nofun
  op s t env o l r st hc ho hl hm h he := ⟨trivial, (h.op hl hm he).1⟩
  stop _ _ _ _ _ hl hE h := h.idle (hl ▸ hE ▸ nofun) nofun
  kill _ _ hc := hc.elim
  own _ _ _ _ h he := (inv_own h he).1

lemma kept_capped (cfg : CircuitConfig) : Kept (M := machine cfg) (D := discipline)
    Careful (fun l => l = false) fun st L => Inv st L ∧ Capped cfg st where
  main _ _ e _ := by
    refine Discipline.wp_bind'.symm ▸ ?_
    exact settles_attempts e.budgeted e.validated maxAttempts 1
  start _ _ _ _ h ht := ⟨h.1.idle (ht ▸ nofun) nofun, h.2⟩
  op s t env o l r st hc ho hl hm h he :=
    ⟨trivial, (h.1.op hl hm he).1, (h.1.op hl hm he).2 h.2 fun heq => hc (heq ▸ ho)⟩
  stop _ _ _ _ _ hl hE h := ⟨h.1.idle (hl ▸ hE ▸ nofun) nofun, h.2⟩
  kill _ _ hc := hc.elim
  own _ _ _ _ h he := ⟨(inv_own h.1 he).1, (inv_own h.1 he).2 h.2⟩

lemma inv_new (now : ℕ) : Inv (Store.new now) fun _ => none :=
  ⟨fun t => by simp [Store.new, Keyed.get?, Keyed.empty], fun _ ha => (Keyed.not_mem_empty ha).elim,
    nofun⟩

lemma capped_new (cfg : CircuitConfig) (now : ℕ) : Capped cfg (Store.new now) := ⟨nofun, nofun⟩

/-- The configuration that `_breaker_for` gives every breaker. -/
def breakerConfig : CircuitConfig := { failure_threshold := 5, recovery := 30000 }

/-- The operations that say how a call ended. -/
def Resolves (o : Op) : Prop := o = .recordSuccess ∨ o = .recordFailure ∨ o = .abandonProbe

/-- **Never wedged**: a call is let through only when it owes no resolution, resolves only what it
owes, and is over only when it owes nothing; and a half-open breaker with no call in progress
lets the next one through. -/
theorem never_wedged (now : ℕ) {s : Sys breakerConfig}
    (hr : Run Living (initial (Store.new now)) s) :
    (∀ t, s.nextOp t = some .isOpen → s.store.admitted.get? t = none) ∧
      (∀ t o, s.nextOp t = some o → Resolves o → s.store.admitted.get? t ≠ none) ∧
      (∀ t, s.store.admitted.get? t ≠ none → s.tasks.get? t ≠ none) ∧
      (s.Quiescent → (s.store.current breakerConfig).state = .halfOpen →
        (isOpen breakerConfig s.store.now s.store.breaker).1 = false) := by
  obtain ⟨h, hd⟩ := (kept breakerConfig).run_initial hr (inv_new now)
  have hprogress : ∀ t, s.store.admitted.get? t ≠ none → s.tasks.get? t ≠ none := by
    intro t ht hnone
    have := (h.owed t).2 ht
    rw [Machine.records_eq_none.2 hnone] at this
    cases this
  refine ⟨fun t ho => ?_, fun t o ho hres => ?_, hprogress, fun hq hs => ?_⟩
  · obtain ⟨l, hl, hm⟩ := Kept.may_of_nextOp hd ho
    obtain rfl : l = false := hm
    exact h.admission_none hl
  · obtain ⟨l, hl, hm⟩ := Kept.may_of_nextOp hd ho
    obtain rfl : l = true := by
      rcases hres with rfl | rfl | rfl <;> exact hm
    exact (h.owed t).1 hl
  · -- no call is in progress, so no probe is unresolved and none is counted
    have hempty : s.store.probes (s.store.current breakerConfig).period = 0 := by
      refine List.countP_eq_zero.2 fun a ha _ => ?_
      have hget := hprogress a.tid (by rw [Keyed.get?_of_mem ha]; nofun)
      exact hget (Machine.records_eq_none.1 (Machine.records_of_quiescent hq _))
    have hzero := ((h.current breakerConfig).counted hs).trans_eq hempty
    exact isOpen_halfOpen hs (Nat.lt_of_le_of_lt hzero (by decide))

/-- Who was let through while the breaker was closed frees no slot, if it is careful. -/
lemma frees_no_slot {cfg : CircuitConfig} {st st' : Store} {t : Tid} {env : ℕ} {o : Op}
    {r : o.Answer} (he : exec cfg st t env o = some (r, st')) (htied : o = .abandonProbe → Tied cfg st t)
    (hadm : st.admitted.get? t = some ⟨t, none⟩) (hs : st.breaker.state = .halfOpen)
    (hs' : st'.breaker.state = .halfOpen) :
    st.breaker.half_open_attempts ≤ st'.breaker.half_open_attempts := by
  have hcur : currentState cfg st.now st.breaker = st.breaker := currentState_halfOpen hs
  cases o with
  | isOpen =>
    cases he
    cases hr : (isOpen cfg st.now st.breaker).1 with
    | true => exact (congrArg _ ((isOpen_rejected hr).trans hcur)).ge
    | false =>
      rcases isOpen_admitted hr with ⟨hb, -⟩ | ⟨-, -, hb⟩
      · exact (congrArg _ (hb.trans hcur)).ge
      · rw [hcur] at hb
        exact (Nat.le_succ _).trans_eq (congrArg Breaker.half_open_attempts hb).symm
  | recordSuccess =>
    cases he
    cases hs'
  | recordFailure =>
    cases he
    exact absurd hs' recordFailure_state
  | abandonProbe =>
    cases he
    rcases abandonProbe_cases cfg st.now st.breaker with ⟨hh, hpos, -⟩ | ⟨hb, -⟩
    · obtain ⟨a, ha, hperiod⟩ := htied rfl hh hpos
      obtain rfl := Option.some.inj (hadm.symm.trans ha)
      cases hperiod
    · exact (congrArg _ (hb.trans hcur)).ge
  | chat | validate | audit | timeForRetry | sleep | fallback =>
    cases he
    exact Nat.le_refl _

/-- **Probe limit**: when only probes of a half-open period give back a slot of it, no more of its
probes are unresolved than the limit, and a call let through while the breaker was closed frees
no slot. -/
theorem probes_limited (cfg : CircuitConfig) (now : ℕ) {s : Sys cfg}
    (hr : Run Careful (initial (Store.new now)) s) :
    (s.store.breaker.state = .halfOpen →
      s.store.probes s.store.breaker.period ≤ cfg.half_open_max_attempts) ∧
    ∀ t env s', Careful s (.run t env) → s.step (.run t env) = some s' →
      s.store.admitted.get? t = some ⟨t, none⟩ → s.store.breaker.state = .halfOpen →
      s'.store.breaker.state = .halfOpen →
      s.store.breaker.half_open_attempts ≤ s'.store.breaker.half_open_attempts := by
  obtain ⟨⟨-, hcap⟩, hd⟩ := (kept_capped cfg).run_initial hr ⟨inv_new now, capped_new cfg now⟩
  refine ⟨fun hs => (hcap.counts hs).trans (hcap.le hs), ?_⟩
  intro t env s' hc hstep hadm hs hs'
  rcases Kept.step_run hstep hd with ⟨-, hstore⟩ | ⟨o, l, r, ho, -, -, he⟩
  · rw [hstore]
  · exact frees_no_slot he (fun heq => hc (heq ▸ ho)) hadm hs hs'

/-! ### A slot freed by an outsider -/

def alive {cfg : CircuitConfig} (_ : Sys cfg) : Label (machine cfg) → Bool
  | .kill _ => false
  | _ => true

lemma living_of_alive {cfg : CircuitConfig} (s : Sys cfg) (l : Label (machine cfg))
    (h : alive s l = true) : Living s l := by
  cases l with
  | kill => cases h
  | _ => trivial

/-- Call `n` is started and asks the breaker. -/
def asks (n : ℕ) : List (Label (machine breakerConfig)) :=
  [.start ⟨0, n⟩ ⟨true, true⟩, .run ⟨0, n⟩ 0]

def runs (n k : ℕ) : List (Label (machine breakerConfig)) := List.replicate k (.run ⟨0, n⟩ 0)

/-- Call `n`, which was let through, gets no answer. -/
def fails (n : ℕ) : List (Label (machine breakerConfig)) := [.run ⟨0, n⟩ 1, .run ⟨0, n⟩ 0]

/-- Calls `1` and `2` fail five times and end, and the recovery time passes. -/
def outage : List (Label (machine breakerConfig)) :=
  asks 1 ++ fails 1 ++ runs 1 4 ++ fails 1 ++ runs 1 4 ++ fails 1 ++ runs 1 3 ++
    asks 2 ++ fails 2 ++ runs 2 4 ++ fails 2 ++ runs 2 7 ++ [.own (.tick 30000)]

/-- Call `0` is let through while the breaker is closed; after an outage call `3` is the probe,
call `0` is cancelled, and call `4` is let through too. -/
def overtime : List (Label (machine breakerConfig)) :=
  asks 0 ++ outage ++ asks 3 ++ [.run ⟨0, 0⟩ 4, .run ⟨0, 0⟩ 0] ++ asks 4

/-- Two probes of one half-open period are unresolved, where one is allowed. -/
theorem outsider_frees_slot :
    ¬∀ (now : ℕ) (s : Sys breakerConfig), Run Living (initial (Store.new now)) s →
      s.store.breaker.state = .halfOpen →
      s.store.probes s.store.breaker.period ≤ breakerConfig.half_open_max_attempts := by
  intro hclaim
  have h : ((initial (Store.new 0) : Sys breakerConfig).runChecked alive overtime).map (fun s =>
      (s.store.breaker.state, s.store.probes s.store.breaker.period)) = some (.halfOpen, 2) := by
    decide +kernel
  obtain ⟨s, hs, hx⟩ := Option.map_eq_some_iff.1 h
  obtain ⟨hstate, hprobes⟩ := Prod.mk.inj hx
  have hle := hclaim 0 s (Machine.run_of_runChecked living_of_alive hs) hstate
  rw [hprobes] at hle
  exact absurd hle (by decide)

/-- Nobody abandons its call. -/
def patient {cfg : CircuitConfig} (s : Sys cfg) : Label (machine cfg) → Bool
  | .kill _ => false
  | .run t _ => (s.nextOp t).all fun (o : Op) => decide (o ≠ .abandonProbe)
  | _ => true

lemma careful_of_patient {cfg : CircuitConfig} (s : Sys cfg) (l : Label (machine cfg))
    (h : patient s l = true) : Careful s l := by
  cases l with
  | kill => cases h
  | run t env =>
    intro ho
    rw [patient, ho] at h
    exact absurd (show decide (Op.abandonProbe ≠ .abandonProbe) = true from h) (by decide)
  | _ => trivial

/-- After an outage call `3` is the probe. -/
theorem probes_limited_of_outage : ∃ s : Sys breakerConfig,
    s.store.breaker.state = .halfOpen ∧ s.store.probes s.store.breaker.period = 1 ∧
    ((s.store.breaker.state = .halfOpen →
      s.store.probes s.store.breaker.period ≤ breakerConfig.half_open_max_attempts) ∧
    ∀ t env s', Careful s (.run t env) → s.step (.run t env) = some s' →
      s.store.admitted.get? t = some ⟨t, none⟩ → s.store.breaker.state = .halfOpen →
      s'.store.breaker.state = .halfOpen →
      s.store.breaker.half_open_attempts ≤ s'.store.breaker.half_open_attempts) := by
  have h : ((initial (Store.new 0) : Sys breakerConfig).runChecked patient
      (asks 0 ++ outage ++ asks 3)).map (fun s =>
      (s.store.breaker.state, s.store.probes s.store.breaker.period)) = some (.halfOpen, 1) := by
    decide +kernel
  obtain ⟨s, hs, hx⟩ := Option.map_eq_some_iff.1 h
  obtain ⟨hstate, hprobes⟩ := Prod.mk.inj hx
  exact ⟨s, hstate, hprobes,
    probes_limited breakerConfig 0 (Machine.run_of_runChecked careful_of_patient hs)⟩

/-- The probe of a half-open period is cancelled and nothing else is in progress. -/
theorem never_wedged_after_cancelled_probe : ∃ s : Sys breakerConfig,
    s.Quiescent ∧ s.store.breaker.state = .halfOpen ∧
    (∀ t, s.nextOp t = some .isOpen → s.store.admitted.get? t = none) ∧
      (∀ t o, s.nextOp t = some o → Resolves o → s.store.admitted.get? t ≠ none) ∧
      (∀ t, s.store.admitted.get? t ≠ none → s.tasks.get? t ≠ none) ∧
      (s.Quiescent → (s.store.current breakerConfig).state = .halfOpen →
        (isOpen breakerConfig s.store.now s.store.breaker).1 = false) := by
  have h : ((initial (Store.new 0) : Sys breakerConfig).runChecked alive
      (outage ++ asks 3 ++ [.run ⟨0, 3⟩ 4, .run ⟨0, 3⟩ 0, .run ⟨0, 3⟩ 0])).map (fun s =>
      (decide s.Quiescent, s.store.breaker.state)) = some (true, .halfOpen) := by decide +kernel
  obtain ⟨s, hs, hx⟩ := Option.map_eq_some_iff.1 h
  obtain ⟨hq, hstate⟩ := Prod.mk.inj hx
  exact ⟨s, of_decide_eq_true hq, hstate,
    never_wedged 0 (Machine.run_of_runChecked living_of_alive hs)⟩

end Treeweft.ControlLayer
