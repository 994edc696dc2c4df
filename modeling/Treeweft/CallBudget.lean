import Treeweft.ControlLayer
import Mathlib.Algebra.Order.Field.Basic
import Mathlib.Tactic.Linarith
import Mathlib.Tactic.NormNum

/-!
The budget of a call to the model: what `call_with_control_layer` starts, and when it is over.

The program is that of the control layer. Here its operations take time, and the clock answers
those that ask for it.
-/

namespace Treeweft.CallBudget

open Treeweft.ControlLayer

variable {K : Type} [Field K] [LinearOrder K]

structure RetryConfig (K : Type) where
  baseDelaySeconds : K
  maxDelaySeconds : K
  jitterFactor : K

/-- `_backoff`, with what `random.uniform(-1, 1)` gave. -/
def backoffDelay (cfg : RetryConfig K) (attempt : ℕ) (uniform : K) : K :=
  let base := cfg.baseDelaySeconds * 2 ^ (attempt - 1)
  let capped := min base cfg.maxDelaySeconds
  let jitter := capped * cfg.jitterFactor * uniform
  max 0 (capped + jitter)

/-- The arguments of a call that bear on time, and `LLM_TIMEOUT`. -/
structure Call (K : Type) where
  timeout : Option K
  validated : Bool
  llmTimeout : K
  retry : RetryConfig K

/-- `timeout or LLM_TIMEOUT`: zero is as good as nothing. -/
def effectiveTimeout (c : Call K) : K :=
  match c.timeout with
  | none => c.llmTimeout
  | some t => if t = 0 then c.llmTimeout else t

/-- The timeout of the call: its own, and `LLM_TIMEOUT` where it has none. -/
def configuredTimeout (c : Call K) : K := c.timeout.getD c.llmTimeout

/-! ### The Clock -/

/-- What was started when, and when it is over at the latest. -/
inductive Event (K : Type)
  | attempt (start latest : K)
  | sleep (start latest : K)
  deriving DecidableEq, Repr

namespace Event

def latest : Event K → K
  | attempt _ l => l
  | sleep _ l => l

def isAttempt : Event K → Bool
  | attempt _ _ => true
  | sleep _ _ => false

end Event

/-- How `_chat` ends by itself. -/
inductive Ending
  | answered | nothing | raised
  deriving DecidableEq, Repr

def Ending.outcome : Ending → Outcome
  | answered => .answered
  | nothing => .nothing
  | raised => .raised

/-- What an operation meets: how long it waits for a slot, how long it takes then, what else costs
time, and what it is told. -/
structure Moment (K : Type) [Zero K] [LE K] where
  wait : K
  latency : K
  lag : K
  wait_nonneg : 0 ≤ wait
  latency_nonneg : 0 ≤ latency
  lag_nonneg : 0 ≤ lag
  uniform : K
  flag : Bool
  ending : Ending
  verdict : Verdict
  strategy : Option String

/-- The time, the attempts so far, the delay that was drawn last, and what was started. -/
structure Clock (K : Type) where
  now : K
  tries : ℕ
  delay : K
  events : List (Event K)

def Clock.pass (s : Clock K) (d : K) : Clock K := { s with now := s.now + d }

section Handler
variable (c : Call K) (includesQueue : Bool) (entry : K)

/-- `time.monotonic() + effective_timeout`, at entry. -/
def deadline : K := entry + effectiveTimeout c

/-- `wait_for(_chat(..), max(deadline - t0, 0))`: with nothing left, `_chat` is cancelled before it
begins. -/
def chatWithin (s : Clock K) (m : Moment K) : Outcome × Clock K :=
  let left := max (deadline c entry - s.now) 0
  if left = 0 then (.timedOut false, { s with tries := s.tries + 1 })
  else
    let s' := { s with
      tries := s.tries + 1
      events := s.events ++ [Event.attempt s.now (s.now + left)] }
    if m.wait + m.latency < left then (m.ending.outcome, s'.pass (m.wait + m.latency))
    else (.timedOut (m.wait < left), s'.pass left)

/-- `_chat(.., request_timeout=effective_timeout)`, which bounds the request alone. -/
def chatUnbudgeted (s : Clock K) (m : Moment K) : Outcome × Clock K :=
  let bound := max (effectiveTimeout c) 0
  let s' := { s with
    tries := s.tries + 1
    events := s.events ++ [Event.attempt s.now (s.now + m.wait + bound)] }
  if m.latency < bound then (m.ending.outcome, s'.pass (m.wait + m.latency))
  else (.nothing, s'.pass (m.wait + bound))

/-- `_time_for_retry`. -/
def timeForRetry (s : Clock K) (delay : K) : Bool :=
  !includesQueue || effectiveTimeout c / 2 ≤ deadline c entry - (s.now + delay)

/-- The operations of the control layer, in time. -/
def handle (s : Clock K) (m : Moment K) : (o : Op) → o.Answer × Clock K
  | .isOpen => (m.flag, s.pass m.lag)
  | .recordSuccess => ((), s)
  | .recordFailure => ((), s)
  | .abandonProbe => ((), s)
  | .chat => if includesQueue then chatWithin c entry s m else chatUnbudgeted c s m
  | .validate => (m.verdict, s.pass m.lag)
  | .audit => (m.flag, s.pass m.lag)
  | .timeForRetry =>
    let delay := backoffDelay c.retry s.tries m.uniform
    (timeForRetry c includesQueue entry s delay, { s with delay := delay })
  | .sleep => (m.flag, { s.pass (s.delay + m.lag) with
      events := s.events ++ [Event.sleep s.now (s.now + s.delay)] })
  | .fallback => (m.strategy, s.pass m.lag)

/-- What a call starts, in order. -/
def events (env : ℕ → Moment K) : List (Event K) :=
  ((callWithControlLayer includesQueue c.validated).drive (handle c includesQueue entry) env
    (⟨entry, 0, 0, []⟩ : Clock K)).events

end Handler

/-- Under a budget, whatever the call meets: all it starts is over by its timeout, and it makes no
more attempts than are configured. -/
def KeepsBudget (c : Call K) : Prop :=
  ∀ entry (env : ℕ → Moment K),
    (∀ e ∈ events c true entry env, e.latest ≤ entry + configuredTimeout c) ∧
      (events c true entry env).countP Event.isAttempt ≤ maxAttempts

/-! ### Every sleep was granted -/

/-- Whether there was said to be time right before, and the attempts so far. -/
structure Pace where
  granted : Bool
  tries : ℕ

/-- A call sleeps only where there was time for it, and counts its attempts. -/
def pace : Discipline signature where
  Local := Pace
  init := ⟨false, 0⟩
  may l
    | .chat => l.tries < maxAttempts
    | .sleep => l.granted = true
    | _ => True
  admits _ _ _ := True
  after l
    | .chat, _ => ⟨false, l.tries + 1⟩
    | .timeForRetry, r => ⟨r, l.tries⟩
    | _, _ => ⟨false, l.tries⟩

section Pace
variable {n : ℕ} {next : Act Reply}

def Paced {α : Type} (p : Act α) (n : ℕ) : Prop :=
  pace.wp p (fun _ _ => True) (fun _ _ => True) ⟨false, n⟩

lemma paced_log {α : Type} {p : Act α} (h : Paced p n) : Paced (do log; p) n := by
  refine ⟨trivial, fun ok _ => ?_⟩
  cases ok with
  | false => trivial
  | true => exact h

lemma paced_routeToFallback (s : String) : Paced (routeToFallback s) n := by
  refine ⟨trivial, fun r _ => ?_⟩
  cases r <;> trivial

lemma paced_afterFailure (attempt : ℕ) (fm : FailureMode) (s : String) (h : Paced next n) :
    Paced (afterFailure attempt fm s next) n := by
  refine paced_log ?_
  split
  · refine ⟨trivial, fun time _ => ?_⟩
    cases time with
    | false => exact paced_routeToFallback s
    | true =>
      refine ⟨rfl, fun ok _ => ?_⟩
      cases ok with
      | false => trivial
      | true => exact h
  · exact paced_routeToFallback s

lemma paced_afterAnswer (validated : Bool) (attempt : ℕ) (h : Paced next n) :
    Paced (afterAnswer validated attempt next) n := by
  refine ⟨trivial, fun _ _ => ?_⟩
  cases validated with
  | false => exact paced_log trivial
  | true =>
    refine ⟨trivial, fun v _ => ?_⟩
    cases v with
    | passed => exact paced_log trivial
    | failed fm => exact paced_afterFailure attempt fm "rejected" h
    | raised => trivial

/-- One attempt is one of those left. -/
lemma paced_attempts (budgeted validated : Bool) (left : ℕ) :
    ∀ n attempt, n + left ≤ maxAttempts → Paced (attempts budgeted validated left attempt) n := by
  induction left with
  | zero => exact fun _ _ _ => trivial
  | succ left ih =>
    intro n attempt hn
    have hnext := ih (n + 1) (attempt + 1) (by omega)
    refine ⟨trivial, fun rejected _ => ?_⟩
    cases rejected with
    | true => exact paced_log (paced_routeToFallback "error")
    | false =>
      refine ⟨show n < maxAttempts by omega, fun outcome _ => ?_⟩
      cases outcome with
      | answered => exact paced_afterAnswer validated attempt hnext
      | nothing => exact ⟨trivial, fun _ _ => paced_afterFailure attempt .timeout "error" hnext⟩
      | raised => exact ⟨trivial, fun _ _ => trivial⟩
      | timedOut sent =>
        cases sent <;> cases budgeted <;>
          exact ⟨trivial, fun _ _ => paced_afterFailure attempt .timeout "error" hnext⟩

lemma paced_call (budgeted validated : Bool) :
    Paced (callWithControlLayer budgeted validated) 0 :=
  paced_attempts budgeted validated maxAttempts 0 1 (Nat.zero_add _).le

end Pace

/-! ### Nothing is started that is over too late -/

lemma backoffDelay_nonneg (cfg : RetryConfig K) (attempt : ℕ) (u : K) :
    0 ≤ backoffDelay cfg attempt u := le_max_left _ _

section Within
variable [IsStrictOrderedRing K] {c : Call K} {entry : K} {s : Clock K} {l : Pace}

/-- The clock of a call under a budget, beside its pace. -/
structure Timely (c : Call K) (entry : K) (l : Pace) (s : Clock K) : Prop where
  later : entry ≤ s.now
  delay : 0 ≤ s.delay
  granted : l.granted = true → s.now + s.delay ≤ deadline c entry
  within : ∀ e ∈ s.events, e.latest ≤ deadline c entry
  counted : s.events.countP Event.isAttempt ≤ l.tries
  bounded : l.tries ≤ maxAttempts

lemma Timely.pass (h : Timely c entry l s) {d : K} (hd : 0 ≤ d) :
    Timely c entry ⟨false, l.tries⟩ (s.pass d) :=
  ⟨h.later.trans (le_add_of_nonneg_right hd), h.delay, nofun, h.within, h.counted, h.bounded⟩

omit [IsStrictOrderedRing K] in
lemma Timely.same (h : Timely c entry l s) : Timely c entry ⟨false, l.tries⟩ s :=
  ⟨h.later, h.delay, nofun, h.within, h.counted, h.bounded⟩

/-- An attempt has what is left, and none is started with nothing left. -/
lemma Timely.chat (h : Timely c entry l s) (hl : l.tries < maxAttempts) (m : Moment K) :
    Timely c entry ⟨false, l.tries + 1⟩ (chatWithin c entry s m).2 := by
  unfold chatWithin
  dsimp only
  split
  · exact ⟨h.later, h.delay, nofun, h.within, h.counted.trans (Nat.le_succ _), hl⟩
  · rename_i hleft
    have hpos : 0 < deadline c entry - s.now := by
      by_contra hle
      exact hleft (max_eq_right (not_lt.mp hle))
    rw [max_eq_left hpos.le]
    have hstarted : Timely c entry ⟨false, l.tries + 1⟩ { s with
        tries := s.tries + 1
        events := s.events ++
          [Event.attempt s.now (s.now + (deadline c entry - s.now))] } := by
      refine ⟨h.later, h.delay, nofun, fun e he => ?_, ?_, hl⟩
      · rcases List.mem_append.mp he with he | he
        · exact h.within e he
        · obtain rfl := List.mem_singleton.mp he
          exact (add_sub_cancel _ _).le
      · rw [List.countP_append]
        exact Nat.add_le_add h.counted (Nat.le_refl 1)
    split
    · exact hstarted.pass (add_nonneg m.wait_nonneg m.latency_nonneg)
    · exact hstarted.pass hpos.le

/-- Where half the budget is left after it, a back-off is over in time. -/
lemma Timely.timeForRetry (h : Timely c entry l s) {d : K} (hd : 0 ≤ d) :
    Timely c entry ⟨timeForRetry c true entry s d, l.tries⟩ { s with delay := d } := by
  refine ⟨h.later, hd, fun hg => ?_, h.within, h.counted, h.bounded⟩
  have hleft : effectiveTimeout c / 2 ≤ deadline c entry - (s.now + d) := by
    simpa [CallBudget.timeForRetry] using hg
  have hlater := h.later
  dsimp only
  unfold deadline at hleft ⊢
  linarith

lemma Timely.sleep (h : Timely c entry l s) (hl : l.granted = true) {lag : K} (hlag : 0 ≤ lag) :
    Timely c entry ⟨false, l.tries⟩ { s.pass (s.delay + lag) with
      events := s.events ++ [Event.sleep s.now (s.now + s.delay)] } := by
  refine ⟨(h.pass (add_nonneg h.delay hlag)).later, h.delay, nofun, fun e he => ?_, ?_, h.bounded⟩
  · rcases List.mem_append.mp he with he | he
    · exact h.within e he
    · obtain rfl := List.mem_singleton.mp he
      exact h.granted hl
  · rw [List.countP_append]
    exact h.counted

/-- **Step lemma**: every operation that the pace allows keeps the clock timely. -/
lemma Timely.handle (h : Timely c entry l s) (m : Moment K) (o : Op) (ho : pace.may l o) :
    Timely c entry (pace.after l o (handle c true entry s m o).1)
      (handle c true entry s m o).2 := by
  cases o with
  | isOpen => exact h.pass m.lag_nonneg
  | validate => exact h.pass m.lag_nonneg
  | audit => exact h.pass m.lag_nonneg
  | fallback => exact h.pass m.lag_nonneg
  | recordSuccess => exact h.same
  | recordFailure => exact h.same
  | abandonProbe => exact h.same
  | chat => exact h.chat ho m
  | timeForRetry => exact h.timeForRetry (backoffDelay_nonneg c.retry s.tries m.uniform)
  | sleep => exact h.sleep ho m.lag_nonneg

/-- All a call starts is over by `effective_timeout`. -/
lemma events_within (c : Call K) (entry : K) (env : ℕ → Moment K) :
    (∀ e ∈ events c true entry env, e.latest ≤ deadline c entry) ∧
      (events c true entry env).countP Event.isAttempt ≤ maxAttempts := by
  have hstart : Timely c entry ⟨false, 0⟩ ⟨entry, 0, 0, []⟩ :=
    ⟨le_rfl, le_rfl, nofun, nofun, Nat.le_refl 0, Nat.zero_le _⟩
  have hstep : ∀ l s m o, Timely c entry l s → pace.may l o →
      pace.admits l o (handle c true entry s m o).1 ∧
        Timely c entry (pace.after l o (handle c true entry s m o).1)
          (handle c true entry s m o).2 :=
    fun l s m o h ho => ⟨trivial, h.handle m o ho⟩
  obtain ⟨l, hl⟩ := Discipline.wp_drive hstep env (paced_call true c.validated) hstart
  exact ⟨hl.within, hl.counted.trans hl.bounded⟩

end Within

/-- Nothing takes time, and no attempt is answered. -/
def instant : Moment K :=
  ⟨0, 0, 0, le_rfl, le_rfl, le_rfl, 0, false, .raised, .passed, none⟩

/-- What was started stays so. -/
lemma mem_drive {α : Type} {c : Call K} {b : Bool} {entry : K} {p : Act α} {e : Event K} :
    ∀ {env : ℕ → Moment K} {s : Clock K}, e ∈ s.events →
      e ∈ (p.drive (handle c b entry) env s).events := by
  induction p with
  | ret a => exact fun h => h
  | raise x => exact fun h => h
  | op o k ih =>
    intro env s h
    refine ih _ ?_
    cases o with
    | chat =>
      cases b with
      | false =>
        change e ∈ (chatUnbudgeted c s (env 0)).2.events
        unfold chatUnbudgeted
        dsimp only
        split <;> exact List.mem_append_left _ h
      | true =>
        change e ∈ (chatWithin c entry s (env 0)).2.events
        unfold chatWithin
        dsimp only
        split
        · exact h
        · split <;> exact List.mem_append_left _ h
    | sleep => exact List.mem_append_left _ h
    | _ => exact h

/-- A call that is let through makes an attempt, with all the time it has. -/
lemma attempt_mem_events (c : Call K) (h : 0 < effectiveTimeout c) (entry : K) :
    Event.attempt entry (entry + effectiveTimeout c) ∈ events c true entry fun _ => instant := by
  have hleft : deadline c entry - (entry + 0) = effectiveTimeout c := by
    rw [deadline, add_zero, add_sub_cancel_left]
  have hmem : Event.attempt entry (entry + effectiveTimeout c) ∈
      (chatWithin c entry ⟨entry + 0, 0, 0, []⟩ instant).2.events := by
    unfold chatWithin
    dsimp only
    rw [hleft, max_eq_left h.le, if_neg h.ne']
    split <;> simp [Clock.pass]
  obtain ⟨p, hp⟩ : ∃ p : Act Reply, events c true entry (fun _ => instant) =
      (p.drive (handle c true entry) (fun _ => instant)
        (chatWithin c entry ⟨entry + 0, 0, 0, []⟩ instant).2).events := ⟨_, rfl⟩
  rw [hp]
  exact mem_drive hmem

/-- **The budget holds** but for a timeout of zero, for which the call takes `LLM_TIMEOUT`. -/
theorem keepsBudget_iff [IsStrictOrderedRing K] (c : Call K) :
    KeepsBudget c ↔ (c.timeout = some 0 → c.llmTimeout ≤ 0) := by
  constructor
  · intro h hzero
    by_contra hpos
    have heff : effectiveTimeout c = c.llmTimeout := by simp [effectiveTimeout, hzero]
    have hle := (h 0 fun _ => instant).1 _
      (attempt_mem_events c (by rw [heff]; exact not_le.mp hpos) 0)
    rw [configuredTimeout, hzero, heff, Event.latest] at hle
    simp only [Option.getD_some, zero_add] at hle
    exact hpos hle
  · intro h entry env
    obtain ⟨hwithin, hcount⟩ := events_within c entry env
    refine ⟨fun e he => (hwithin e he).trans (add_le_add_right ?_ entry), hcount⟩
    unfold effectiveTimeout configuredTimeout
    cases ht : c.timeout with
    | none => exact le_rfl
    | some t =>
      dsimp only
      split
      · rename_i hzero
        subst hzero
        exact h ht
      · exact le_rfl

/-- A search waits five seconds at most for its expansion. -/
def hyde (timeout : Option ℚ) : Call ℚ := ⟨timeout, true, 30, ⟨1, 30, 1 / 2⟩⟩

theorem hyde_keepsBudget : KeepsBudget (hyde (some 5)) := by
  refine (keepsBudget_iff (hyde (some 5))).mpr fun h => ?_
  have h5 : (5 : ℚ) = 0 := Option.some.inj h
  norm_num at h5

/-- A timeout of zero gives the call thirty seconds. -/
theorem zero_timeout_waits : ¬ ∀ c : Call ℚ, KeepsBudget c := by
  intro h
  have hevent : Event.attempt (0 : ℚ) (0 + 30) ∈ events (hyde (some 0)) true 0 fun _ => instant :=
    attempt_mem_events (hyde (some 0)) (by simp [effectiveTimeout, hyde]) 0
  have hle : (0 + 30 : ℚ) ≤ 0 + 0 := (h (hyde (some 0)) 0 fun _ => instant).1 _ hevent
  norm_num at hle

end Treeweft.CallBudget
