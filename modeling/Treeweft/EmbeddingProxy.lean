import Treeweft.EmbeddingSlots
import Treeweft.Interleaving

/-!
`EmbeddingProxy`: batches of texts, routed to the backend with the fewest tokens in flight.

A batch is split where a backend takes less at once, re-sent to a backend under load, and moved to
the next backend when one fails. Batches run interleaved, while the registry changes and time
passes. What a backend answers is up to the environment, save that the vectors of a successful
answer are those of the texts it was sent, in their order. Times are in milliseconds.
-/

namespace Treeweft.EmbeddingProxy

open Machine (State Label Run Kept initial)

abbrev Url : Type := String

inductive BackendClass
  | gpu
  | cpu
  deriving DecidableEq, Repr

inductive CircuitState
  | closed
  | opened
  | halfOpen
  deriving DecidableEq, Repr

/-- What `_select` reads of a listed backend, which is known by its number. -/
structure View where
  ref : ℕ
  url : Url
  klass : BackendClass
  cb_state : CircuitState
  in_flight_tokens : ℤ
  deriving DecidableEq, Repr

/-! ### Selection -/

/-- The untried backends, those of the preferred class if there are any. -/
def pool (require_cpu : Bool) (exclude : List Url) (backends : List View) : List View :=
  let candidates := backends.filter fun b => decide (b.url ∉ exclude)
  let pool := if require_cpu then candidates.filter fun b => decide (b.klass = .cpu) else candidates
  if pool = [] then candidates else pool

/-- `min(eligible, key=lambda b: b.in_flight_tokens)`: the first of the least. -/
def leastLoaded : List View → Option View
  | [] => none
  | b :: bs =>
    match leastLoaded bs with
    | none => some b
    | some c => if b.in_flight_tokens ≤ c.in_flight_tokens then some b else some c

/-- The end of `_select`, once the pool has been promoted. -/
def select (require_cpu : Bool) (exclude : List Url) (backends : List View) : Option View :=
  leastLoaded ((pool require_cpu exclude backends).filter fun b => decide (b.cb_state ≠ .opened))

/-! ### Operations -/

section Programs
variable (V : Type)

structure Response where
  status : ℕ
  batchLimit : Option ℕ
  vectors : Option (List V)

/-- How `client.post` ends; `http` says whether an exception is one of httpx. -/
inductive Reply
  | response (r : Response V)
  | readTimeout
  | raised (http : Bool)

/-- `filled`, `sent_at` and `sends_at_send` of a request. -/
structure Sent where
  filled : Bool
  sent_at : ℕ
  sends : ℕ
  deriving DecidableEq, Repr

/-- What leaves a call: `httpx` errors, among which those for an open breaker and for a backend
that does not answer, the error for want of a backend, and anything else. -/
inductive Exc
  | http
  | notAnswering
  | breakerOpen
  | unavailable
  | other
  deriving DecidableEq, Repr

/-- `httpx.HTTPError`. -/
def Exc.isHttp : Exc → Bool
  | .http | .notAnswering | .breakerOpen => true
  | _ => false

inductive Op
  | maxChunkCost (batch : List String)
  | survey (require_cpu : Bool) (tried : List Url)
  | cap (b : ℕ)
  | charge (b : ℕ) (batch : List String)
  | discharge (b : ℕ) (cost : ℕ)
  | enter (b : ℕ)
  | await (b : ℕ) (call : ℕ)
  | state (b : ℕ)
  | post (b : ℕ) (batch : List String)
  | reply (b : ℕ) (batch : List String)
  | isLoad (b : ℕ) (sent : Sent)
  | release (b : ℕ) (call : ℕ)
  | answered (b : ℕ)
  | backOff (b : ℕ) (sent_at : ℕ)
  | settle (b : ℕ) (sent : Sent)
  | sleep
  | learn (b : ℕ) (limit : ℕ)
  | succeed (b : ℕ)
  | fail (b : ℕ) (e : Exc)
  | returned (texts : List String) (out : List V)
  | raised (e : Exc)

/-- `enter` answers the number of the call and whether it got a slot, `await` whether it got one,
`sleep` whether it was let finish. -/
def Op.Answer : Op V → Type
  | .maxChunkCost _ => ℕ
  | .survey .. => List View
  | .cap _ => Option ℕ
  | .charge .. => ℕ
  | .enter _ => ℕ × Bool
  | .await .. => Bool
  | .state _ => CircuitState
  | .post .. => Sent
  | .reply .. => Reply V
  | .isLoad .. => Bool
  | .sleep => Bool
  | _ => Unit

def signature : Signature := ⟨Op V, Op.Answer V⟩

abbrev Act (α : Type) : Type := Prog (signature V) Exc α

variable {V}

def perform (o : Op V) : Act V (o.Answer V) := .op (S := signature V) o .ret

/-- Run `p`, and say how it ended. -/
def tryAct {α : Type} (p : Act V α) : Act V (Except Exc α) :=
  .catching (p.bind fun a => .ret (.ok a)) fun e => .ret (.error e)

/-! ### One request -/

/-- `_acquire_slot`: the number of the call. -/
def acquireSlot (b : ℕ) : Act V ℕ := do
  let (call, got) : ℕ × Bool ← perform (.enter b)
  if got then pure call
  else do
    let ok : Bool ← perform (.await b call)
    if ok then pure call else .raise .other

/-- A round of the loop of `_send`; `again` is what follows a sign of congestion, as long as there
are retries left. -/
def sendRound (again : Option (Act V (Response V))) (b : ℕ) (batch : List String) :
    Act V (Response V) := do
  let call ← acquireSlot b
  let state : CircuitState ← perform (.state b)
  if state = .opened then do
    perform (.release b call)
    .raise .breakerOpen
  else do
    let sent : Sent ← perform (.post b batch)
    let reply : Reply V ← perform (.reply b batch)
    match reply with
    | .readTimeout => do
      let load : Bool ← perform (.isLoad b sent)
      perform (.release b call)
      if !load then .raise .notAnswering
      else match again with
        | none => .raise .http
        | some again => do
          perform (.backOff b sent.sent_at)
          again
    | .raised http => do
      perform (.release b call)
      .raise (if http then .http else .other)
    | .response r => do
      perform (.release b call)
      perform (.answered b)
      match again, decide (r.status = 429) with
      | some again, true => do
        perform (.backOff b sent.sent_at)
        let ok : Bool ← perform .sleep
        if ok then again else .raise .other
      | _, _ => do
        if r.status < 400 then perform (.settle b sent) else pure ()
        pure r

/-- The loop of `_send` with `retries` of `_CONGESTION_RETRIES` left. -/
def sendLoop (b : ℕ) (batch : List String) : ℕ → Act V (Response V)
  | 0 => sendRound none b batch
  | retries + 1 => sendRound (some (sendLoop b batch retries)) b batch

/-- `_CONGESTION_RETRIES`. -/
def congestionRetries : ℕ := 8

/-- `_send`. -/
def send (b : ℕ) (batch : List String) : Act V (Response V) := sendLoop b batch congestionRetries

/-! ### One batch on one backend -/

/-- `xs[i : i + limit] for i in range(0, len(xs), limit)`. -/
def slices {α : Type} (limit : ℕ) (xs : List α) : List (List α) :=
  (List.range ((xs.length + limit - 1) / limit)).map fun i => (xs.drop (i * limit)).take limit

/-- `out.extend(await post(part))` over the parts. -/
def collect (post : List String → Act V (List V)) : List (List String) → Act V (List V)
  | [] => pure []
  | part :: parts => do
    let out ← post part
    let rest ← collect post parts
    pure (out ++ rest)

/-- The part of the `except` clauses that keeps count of a failure. -/
def recordFailure (b : ℕ) (e : Exc) : Act V Unit :=
  if e = .http ∨ e = .notAnswering then perform (.fail b e) else pure ()

/-- The limit to which a batch answered with `r` is split. -/
def splitLimit (batch : List String) (r : Response V) : Option ℕ :=
  if r.status = 422 then r.batchLimit.filter fun l => decide (l ≠ 0 ∧ l < batch.length) else none

/-- The end of `_post_one`, with `split` for `_post_split`. -/
def afterSend (split : ℕ → Act V (List V)) (b : ℕ) (batch : List String) (cost : ℕ) :
    Except Exc (Response V) → Act V (List V)
  | .error e => do
    recordFailure b e
    perform (.discharge b cost)
    .raise e
  | .ok r =>
    match splitLimit batch r with
    | some limit => do
      perform (.learn b limit)
      perform (.discharge b cost)
      Prog.catching (split limit) fun e => do
        recordFailure b e
        .raise e
    | none =>
      if 200 ≤ r.status ∧ r.status < 300 then do
        perform (.succeed b)
        perform (.discharge b cost)
        match r.vectors with
        | some out => pure out
        | none => .raise .other
      else do
        recordFailure b .http
        perform (.discharge b cost)
        .raise .http

/-- `_post_one`, with `split` for `_post_split`. -/
def postBody (split : ℕ → Act V (List V)) (b : ℕ) (batch : List String) : Act V (List V) := do
  let cap : Option ℕ ← perform (.cap b)
  match cap.filter fun l => decide (l ≠ 0 ∧ l < batch.length) with
  | some limit => split limit
  | none => do
    let cost : ℕ ← perform (.charge b batch)
    let r ← tryAct (send b batch)
    afterSend split b batch cost r

/-- `_post_one` and `_post_split`, splitting at most `depth` times one inside the other. -/
def postWithin : ℕ → ℕ → List String → Act V (List V)
  | 0, b, batch => postBody (fun _ => pure []) b batch
  | depth + 1, b, batch =>
    postBody (fun limit => collect (postWithin depth b) (slices limit batch)) b batch

/-- `_post_one`. -/
def postOne (b : ℕ) (batch : List String) : Act V (List V) := postWithin batch.length b batch

/-- `_post_split`. -/
def postSplit (b : ℕ) (batch : List String) (limit : ℕ) : Act V (List V) :=
  collect (postOne b) (slices limit batch)

/-! ### One batch, and all of them -/

/-- The loop of `_embed_batch`. A call is followed for `turns` rounds, which may be any number: a
registry that keeps growing can keep it going. -/
def failover (require_cpu : Bool) (batch : List String) :
    ℕ → List Url → Option Exc → Act V (Option (List V))
  | 0, _, _ => pure none
  | turns + 1, tried, last => do
    let backends : List View ← perform (.survey require_cpu tried)
    if tried.length < backends.length then
      match select require_cpu tried backends with
      | none => .raise (last.getD .unavailable)
      | some b => do
        let r ← tryAct (postOne b.ref batch)
        match r with
        | .ok out => pure (some out)
        | .error e =>
          if e.isHttp then failover require_cpu batch turns (b.url :: tried) (some e)
          else .raise e
    else .raise (last.getD .other)

/-- `_embed_batch`. -/
def embedBatch (gpu_max_tokens turns : ℕ) (batch : List String) : Act V (Option (List V)) := do
  let cost : ℕ ← perform (.maxChunkCost batch)
  failover (decide (cost > gpu_max_tokens)) batch turns [] none

/-- The loop of `embed`. -/
def embedSlices (gpu_max_tokens turns : ℕ) : List (List String) → Act V (Option (List V))
  | [] => pure (some [])
  | batch :: batches => do
    match ← embedBatch gpu_max_tokens turns batch with
    | none => pure none
    | some out =>
      match ← embedSlices gpu_max_tokens turns batches with
      | none => pure none
      | some rest => pure (some (out ++ rest))

/-- `embed`. A batch size of `0` is refused by `range`. -/
def embed (gpu_max_tokens max_batch_size turns : ℕ) (texts : List String) :
    Act V (Option (List V)) :=
  if max_batch_size = 0 then .raise .other
  else embedSlices gpu_max_tokens turns (slices max_batch_size texts)

/-- A call of `embed`, up to what its caller gets. -/
def call (gpu_max_tokens max_batch_size turns : ℕ) (texts : List String) : Act V Unit := do
  match ← tryAct (embed gpu_max_tokens max_batch_size turns texts) with
  | .ok (some out) => perform (.returned texts out)
  | .ok none => pure ()
  | .error e => perform (.raised e)

end Programs

/-! ### The proxy -/

/-- What the proxy was set up with, and the vectors of the backends: at each time a backend embeds a
text in its own way. -/
structure Settings (V : Type) where
  slots : EmbeddingSlots.Config
  gpu_max_tokens : ℕ
  max_batch_size : ℕ
  failure_threshold : ℕ := 5
  window : ℕ := 60000
  cooldown : ℕ := 30000
  read_timeout : ℕ := 120000
  slow_after : Option ℕ := some 60000
  embedding : Url → ℕ → String → V

/-- `probes`, `probed` and `probing` are kept for the statements, nothing the code does depends on
them: the requests sent since the backend last became half-open, from the first that was sent in
that state, whether one of them has ended, and whose are out. -/
structure Backend (V : Type) (c : Settings V) where
  url : Url
  klass : BackendClass
  in_flight_tokens : ℤ := 0
  failures : ℕ := 0
  cb_state : CircuitState := .closed
  cb_failure_times : List ℕ := []
  cb_opened_at : ℕ := 0
  max_batch_size : Option ℕ := none
  slots : SlotPool.World (EmbeddingSlots.pool c.slots) := SlotPool.initial _
  last_answer_at : Option ℕ := none
  sends : ℕ := 0
  lone_timeouts : ℕ := 0
  probes : ℕ := 0
  probed : Bool := false
  probing : List Tid := []

/-- The listed backends by number, all backends there have been, and the clock. -/
structure Proxy (V : Type) (c : Settings V) where
  backends : List ℕ
  heap : List (Backend V c)
  now : ℕ

namespace Proxy

variable {V : Type} {c : Settings V} (p : Proxy V c)

def view (b : ℕ) : Option View :=
  (p.heap[b]?).map fun x => ⟨b, x.url, x.klass, x.cb_state, x.in_flight_tokens⟩

/-- `self._backends`. -/
def views : List View := p.backends.filterMap p.view

def modify (b : ℕ) (f : Backend V c → Backend V c) : Proxy V c :=
  { p with heap := p.heap.modify b f }

/-- An open backend past its cooldown. -/
def cooled (b : ℕ) : Bool :=
  (p.heap[b]?).any fun x => x.cb_state == .opened && decide (c.cooldown ≤ p.now - x.cb_opened_at)

/-- The promotion of `_select`, of the backends in its pool. -/
def promoted (require_cpu : Bool) (exclude : List Url) (b : ℕ) : Bool :=
  p.cooled b && decide (b ∈ (pool require_cpu exclude p.views).map View.ref)

def promote (require_cpu : Bool) (exclude : List Url) : Proxy V c :=
  { p with heap := p.heap.mapIdx fun b x =>
      if p.promoted require_cpu exclude b then
        { x with cb_state := .halfOpen, probes := 0, probed := false, probing := [] }
      else x }

/-- The loop condition of `_embed_batch` and, if it holds, what `_select` does before it picks. -/
def surveyed (require_cpu : Bool) (tried : List Url) : Proxy V c :=
  if tried.length < p.views.length then p.promote require_cpu tried else p

end Proxy

section Backends
variable {V : Type} {c : Settings V}

/-- A step of a call for a slot. -/
def Backend.slotStep (x : Backend V c) (l : SlotPool.Step (EmbeddingSlots.pool c.slots)) :
    Option (Backend V c) :=
  (x.slots.step l).map fun w => { x with slots := w }

/-- A request goes out. -/
def Backend.posted (x : Backend V c) (t : Tid) : Backend V c :=
  let counted := !x.probed && (x.cb_state == .halfOpen || decide (x.probes > 0))
  { x with sends := x.sends + 1,
           probes := if counted then x.probes + 1 else x.probes,
           probing := if counted then t :: x.probing else x.probing }

/-- A request has ended. -/
def Backend.replied (x : Backend V c) (t : Tid) : Backend V c :=
  { x with probed := x.probed || decide (t ∈ x.probing), probing := x.probing.filter (· ≠ t) }

/-- `_is_load`. -/
def Backend.isLoad (x : Backend V c) (now : ℕ) (sent : Sent) : Bool × Backend V c :=
  if x.slots.pool.active > 1 ∨ x.sends ≠ sent.sends then (true, x)
  else
    let x := { x with lone_timeouts := x.lone_timeouts + 1 }
    (x.last_answer_at.any (fun l => decide (now - l < 2 * c.read_timeout)) ||
      decide (x.lone_timeouts ≤ 3), x)

/-- The end of a successful `_post_one`. -/
def Backend.succeeded (x : Backend V c) : Backend V c :=
  match x.cb_state with
  | .halfOpen => { x with cb_state := .closed, cb_failure_times := [] }
  | .closed => { x with cb_failure_times := [] }
  | .opened => x

/-- The account of a failure in `_post_one`. -/
def Backend.failed (x : Backend V c) (now : ℕ) (e : Exc) : Backend V c :=
  let times := (x.cb_failure_times ++ [now]).filter fun t => decide (now ≤ t + c.window)
  let x := { x with failures := x.failures + 1, cb_failure_times := times }
  let opened := { x with cb_state := .opened, cb_opened_at := now }
  match x.cb_state with
  | .closed => if e = .notAnswering ∨ times.length ≥ c.failure_threshold then opened else x
  | .halfOpen => opened
  | .opened => x

/-- How the environment answers a request, coded by a number. -/
def replyOf (c : Settings V) (u : Url) (batch : List String) (env : ℕ) : Reply V :=
  let n := env / 8
  match env % 8 with
  | 0 => .response ⟨200, none, some (batch.map (c.embedding u n))⟩
  | 1 => .response ⟨422, some n, none⟩
  | 2 => .response ⟨n, none, none⟩
  | 3 => .readTimeout
  | 4 => .raised true
  | _ => .raised false

end Backends

section Exec
variable {V : Type} {c : Settings V} (p : Proxy V c)

/-- An operation on backend `b`, which may block. -/
def Proxy.on {α : Type} (b : ℕ) (f : Backend V c → Option (α × Backend V c)) :
    Option (α × Proxy V c) := do
  let x ← p.heap[b]?
  let (a, x) ← f x
  pure (a, { p with heap := p.heap.set b x })

/-- An operation on backend `b` without an answer. -/
def Proxy.does (b : ℕ) (f : Backend V c → Backend V c) : Option (Unit × Proxy V c) :=
  p.on b fun x => some ((), f x)

/-- The wait for the future of a call; the environment may have it cancelled. -/
def Backend.awaited (x : Backend V c) (call env : ℕ) : Option (Bool × Backend V c) :=
  if x.slots.phase call = some .set then
    if env = 0 then (x.slotStep (.resume call)).map fun x => (true, x)
    else (x.slotStep (.unwind call)).map fun x => (false, x)
  else if env = 0 then none
  else do
    let x ← x.slotStep (.cancel call)
    (x.slotStep (.unwind call)).map fun x => (false, x)

/-- The latency of a good answer backs the backend off or lets it grow. -/
def Backend.settled (x : Backend V c) (now : ℕ) (sent : Sent) : Option (Backend V c) :=
  if c.slow_after.any fun slow => decide (slow < x.last_answer_at.getD 0 - sent.sent_at) then
    x.slotStep (.own (.backOff sent.sent_at now))
  else if sent.filled then x.slotStep (.own .grow)
  else some x

def exec (t : Tid) (env : ℕ) : (o : Op V) → Option (o.Answer V × Proxy V c)
  | .maxChunkCost _ => some (env, p)
  | .survey require_cpu tried =>
    some ((p.surveyed require_cpu tried).views, p.surveyed require_cpu tried)
  | .cap b => p.on b fun x => some (x.max_batch_size, x)
  | .charge b _ => p.on b fun x => some (env, { x with in_flight_tokens := x.in_flight_tokens + env })
  | .discharge b cost => p.does b fun x => { x with in_flight_tokens := x.in_flight_tokens - cost }
  | .enter b => p.on b fun x => do
    let x' ← x.slotStep (.acquire ())
    let call := x.slots.calls.length
    pure ((call, decide (x'.slots.phase call = some .holding)), x')
  | .await b call => p.on b fun x => x.awaited call env
  | .state b => p.on b fun x => some (x.cb_state, x)
  | .post b _ => p.on b fun x =>
    let x := x.posted t
    some (⟨decide (x.slots.pool.limit ≤ x.slots.pool.active), p.now, x.sends⟩, x)
  | .reply b batch => p.on b fun x => some (replyOf c x.url batch env, x.replied t)
  | .isLoad b sent => p.on b fun x => some (x.isLoad p.now sent)
  | .release b call => p.on b fun x => (x.slotStep (.release call)).map fun x => ((), x)
  | .answered b => p.does b fun x => { x with last_answer_at := some p.now, lone_timeouts := 0 }
  | .backOff b sent_at => p.on b fun x =>
    (x.slotStep (.own (.backOff sent_at p.now))).map fun x => ((), x)
  | .settle b sent => p.on b fun x => (x.settled p.now sent).map fun x => ((), x)
  | .sleep => some (decide (env = 0), p)
  | .learn b limit => p.does b fun x => { x with max_batch_size := some limit }
  | .succeed b => p.does b Backend.succeeded
  | .fail b e => p.does b fun x => x.failed p.now e
  | .returned .. => some ((), p)
  | .raised _ => some ((), p)

/-- A row of the registry. -/
structure Row where
  url : Url
  klass : BackendClass

/-- The loop of `reload`: a listed backend with the URL of a row is kept, the last one if there are
several, and takes the class of the row. -/
def reloadRow (old : List View) (r : List ℕ × List (Backend V c)) (row : Row) :
    List ℕ × List (Backend V c) :=
  match (old.filter fun b => decide (b.url = row.url)).getLast? with
  | some b => (r.1 ++ [b.ref], r.2.modify b.ref fun x => { x with klass := row.klass })
  | none => (r.1 ++ [r.2.length], r.2 ++ [{ url := row.url, klass := row.klass }])

/-- `reload`; an empty registry keeps the list. -/
def Proxy.reload (rows : List Row) : Proxy V c :=
  if rows = [] then p
  else
    let r := rows.foldl (reloadRow p.views) ([], p.heap)
    { p with backends := r.1, heap := r.2 }

/-- A call of `embed`, followed for `turns` rounds a batch. -/
structure Entry where
  texts : List String
  turns : ℕ

/-- Time passes, or the registry is read again. -/
inductive Own
  | tick (d : ℕ)
  | reload (rows : List Row)

end Exec

/-- The calls of one process; what a process does after a restart is another run. -/
def machine {V : Type} (c : Settings V) : Machine (signature V) Exc where
  Store := Proxy V c
  exec p t env o := exec p t env o
  Entry := Entry
  main e := call c.gpu_max_tokens c.max_batch_size e.turns e.texts
  kill _ p := p
  Own := Own
  own p
    | .tick d => some { p with now := p.now + d }
    | .reload rows => some (p.reload rows)

/-- A proxy over new backends. -/
def Proxy.new {V : Type} (c : Settings V) (rows : List Row) : Proxy V c :=
  ⟨List.range rows.length, rows.map fun r => { url := r.url, klass := r.klass }, 0⟩

/-! ### What operations leave as it is -/

section Frames
variable {V : Type} {c : Settings V} {p p' : Proxy V c} {b : ℕ}

/-- The operations around a request, of which a record need not take notice. -/
def Quiet : Op V → Prop
  | .charge .. | .discharge .. | .enter _ | .await .. | .state _ | .isLoad .. | .release ..
  | .answered _ | .backOff .. | .settle .. | .sleep | .learn .. => True
  | _ => False

/-- The URL, and how the backend recovers. -/
structure Core where
  url : Url
  cb_state : CircuitState
  probes : ℕ
  probed : Bool
  probing : List Tid

def Backend.core (x : Backend V c) : Core := ⟨x.url, x.cb_state, x.probes, x.probed, x.probing⟩

/-- The URLs of all backends there have been. -/
def Proxy.urls (p : Proxy V c) : List Url := p.heap.map Backend.url

lemma on_eq_some {α : Type} {f : Backend V c → Option (α × Backend V c)} {a : α} :
    p.on b f = some (a, p') ↔
      ∃ x x', p.heap[b]? = some x ∧ f x = some (a, x') ∧ p' = { p with heap := p.heap.set b x' } := by
  unfold Proxy.on
  constructor
  · intro h
    obtain ⟨x, hx, h⟩ := Option.bind_eq_some_iff.1 h
    obtain ⟨⟨a', x'⟩, hf, h⟩ := Option.bind_eq_some_iff.1 h
    cases h
    exact ⟨x, x', hx, hf, rfl⟩
  · rintro ⟨x, x', hx, hf, rfl⟩
    simp [hx, hf]

/-- An operation on one backend that keeps `g` of it keeps `g` of all. -/
lemma on_map {α β : Type} (g : Backend V c → β) {f : Backend V c → Option (α × Backend V c)} {a : α}
    (h : p.on b f = some (a, p')) (hf : ∀ x a x', f x = some (a, x') → g x' = g x) :
    p'.heap.map g = p.heap.map g := by
  obtain ⟨x, x', hx, hfx, rfl⟩ := on_eq_some.1 h
  rw [List.map_set, hf x a x' hfx]
  refine List.ext_getElem? fun i => ?_
  rw [List.getElem?_set]
  split
  · rename_i hi
    subst hi
    obtain ⟨hlt, rfl⟩ := List.getElem?_eq_some_iff.1 hx
    simp [hlt]
  · rfl

lemma does_map {β : Type} (g : Backend V c → β) {f : Backend V c → Backend V c} {a : Unit}
    (h : p.does b f = some (a, p')) (hf : ∀ x, g (f x) = g x) : p'.heap.map g = p.heap.map g :=
  on_map g h fun x a x' hx => by
    cases hx
    exact hf x

lemma slotStep_core {x x' : Backend V c} {l : SlotPool.Step (EmbeddingSlots.pool c.slots)}
    (h : x.slotStep l = some x') : x'.core = x.core := by
  obtain ⟨w, -, rfl⟩ := Option.map_eq_some_iff.1 h
  rfl

lemma awaited_core {x x' : Backend V c} {call env : ℕ} {ok : Bool}
    (h : x.awaited call env = some (ok, x')) : x'.core = x.core := by
  unfold Backend.awaited at h
  split at h
  · split at h
    · obtain ⟨y, hy, h⟩ := Option.map_eq_some_iff.1 h
      cases h
      exact slotStep_core hy
    · obtain ⟨y, hy, h⟩ := Option.map_eq_some_iff.1 h
      cases h
      exact slotStep_core hy
  · split at h
    · cases h
    · obtain ⟨y, hy, h⟩ := Option.bind_eq_some_iff.1 h
      obtain ⟨z, hz, h⟩ := Option.map_eq_some_iff.1 h
      cases h
      exact (slotStep_core hz).trans (slotStep_core hy)

lemma settled_core {x x' : Backend V c} {now : ℕ} {sent : Sent}
    (h : x.settled now sent = some x') : x'.core = x.core := by
  unfold Backend.settled at h
  split at h
  · exact slotStep_core h
  · split at h
    · exact slotStep_core h
    · cases h
      rfl

/-- Quiet operations and a look at the cap change nothing of this. -/
lemma exec_core {t : Tid} {env : ℕ} {o : Op V} {r : o.Answer V} (ho : Quiet o ∨ ∃ b, o = .cap b)
    (h : exec p t env o = some (r, p')) : p'.heap.map Backend.core = p.heap.map Backend.core := by
  have hslot : ∀ {x x' : Backend V c} {l} {a : Unit},
      (x.slotStep l).map (fun x => ((), x)) = some (a, x') → x'.core = x.core := by
    intro x x' l a h
    obtain ⟨y, hy, h⟩ := Option.map_eq_some_iff.1 h
    cases h
    exact slotStep_core hy
  cases o with
  | sleep =>
    cases h
    rfl
  | cap | charge | state =>
    refine on_map _ h fun x a x' hx => ?_
    cases hx
    rfl
  | discharge | answered | learn => exact does_map _ h fun x => rfl
  | enter b =>
    refine on_map _ h fun x a x' hx => ?_
    obtain ⟨y, hy, hx⟩ := Option.bind_eq_some_iff.1 hx
    cases hx
    exact slotStep_core hy
  | await b call => exact on_map _ h fun x a x' hx => awaited_core hx
  | isLoad b sent =>
    refine on_map _ h fun x a x' hx => ?_
    obtain rfl := congrArg Prod.snd (Option.some.inj hx)
    simp only [Backend.isLoad]
    split <;> rfl
  | release b call => exact on_map _ h fun x a x' hx => hslot hx
  | backOff b sent_at => exact on_map _ h fun x a x' hx => hslot hx
  | settle b sent =>
    refine on_map _ h fun x a x' hx => ?_
    obtain ⟨y, hy, hx⟩ := Option.map_eq_some_iff.1 hx
    cases hx
    exact settled_core hy
  | _ =>
    rcases ho with ho | ⟨b, hb⟩
    · exact ho.elim
    · cases hb

lemma surveyed_heap (require_cpu : Bool) (tried : List Url) {x' : Backend V c}
    (h : (p.surveyed require_cpu tried).heap[b]? = some x') : ∃ x, p.heap[b]? = some x ∧
      ((x' = x ∧ ¬(tried.length < p.views.length ∧ p.promoted require_cpu tried b = true)) ∨
        tried.length < p.views.length ∧ p.promoted require_cpu tried b = true ∧
          x' = { x with cb_state := .halfOpen, probes := 0, probed := false, probing := [] }) := by
  unfold Proxy.surveyed at h
  split at h
  · rename_i hlt
    simp only [Proxy.promote, List.getElem?_mapIdx] at h
    obtain ⟨x, hx, h⟩ := Option.map_eq_some_iff.1 h
    split at h
    · rename_i hp
      exact ⟨x, hx, .inr ⟨hlt, hp, h.symm⟩⟩
    · rename_i hp
      exact ⟨x, hx, .inl ⟨h.symm, fun hn => hp hn.2⟩⟩
  · rename_i hlt
    exact ⟨x', h, .inl ⟨rfl, fun hn => hlt hn.1⟩⟩

lemma surveyed_urls (require_cpu : Bool) (tried : List Url) :
    (p.surveyed require_cpu tried).urls = p.urls := by
  unfold Proxy.urls Proxy.surveyed Proxy.promote
  split
  · refine List.ext_getElem? fun i => ?_
    rw [List.getElem?_map, List.getElem?_mapIdx, List.getElem?_map]
    cases p.heap[i]? with
    | none => rfl
    | some x =>
      simp only [Option.map_some]
      split <;> rfl
  · rfl

/-- No operation changes the URL of a backend. -/
lemma exec_urls {t : Tid} {env : ℕ} {o : Op V} {r : o.Answer V} (h : exec p t env o = some (r, p')) :
    p'.urls = p.urls := by
  have hcore : Quiet o ∨ (∃ b, o = .cap b) → p'.urls = p.urls := fun ho => by
    have := congrArg (List.map Core.url) (exec_core ho h)
    rwa [List.map_map, List.map_map] at this
  cases o with
  | maxChunkCost | returned | raised =>
    cases h
    rfl
  | survey require_cpu tried =>
    cases h
    exact surveyed_urls require_cpu tried
  | cap b => exact hcore (.inr ⟨b, rfl⟩)
  | post b batch =>
    refine on_map _ h fun x a x' hx => ?_
    cases hx
    rfl
  | reply b batch =>
    refine on_map _ h fun x a x' hx => ?_
    cases hx
    rfl
  | succeed b =>
    refine does_map _ h fun x => ?_
    unfold Backend.succeeded
    split <;> rfl
  | fail b e =>
    refine does_map _ h fun x => ?_
    unfold Backend.failed
    simp only
    split
    · split <;> rfl
    · rfl
    · rfl
  | _ => exact hcore (.inl trivial)

lemma modify_core (heap : List (Backend V c)) (b : ℕ) {f : Backend V c → Backend V c}
    (hf : ∀ x, (f x).core = x.core) :
    (heap.modify b f).map Backend.core = heap.map Backend.core := by
  refine List.ext_getElem? fun i => ?_
  rw [List.getElem?_map, List.getElem?_modify, List.getElem?_map]
  cases heap[i]? with
  | none => rfl
  | some x =>
    simp only [Option.map_eq_map, Option.map_some]
    split
    · rw [hf x]
    · rfl

/-- A backend that was never used. -/
def Core.fresh (u : Url) : Core := ⟨u, .closed, 0, false, []⟩

/-- A reload forgets no backend; it adds fresh ones. -/
lemma reload_core (rows : List Row) : ∃ us : List Url,
    (p.reload rows).heap.map Backend.core = p.heap.map Backend.core ++ us.map Core.fresh := by
  have hrow : ∀ (r : List ℕ × List (Backend V c)) row, ∃ us : List Url,
      (reloadRow p.views r row).2.map Backend.core = r.2.map Backend.core ++ us.map Core.fresh := by
    intro r row
    unfold reloadRow
    split
    · exact ⟨[], by rw [modify_core _ _ (by exact fun x => rfl), List.map_nil, List.append_nil]⟩
    · exact ⟨[row.url], by rw [List.map_append]; rfl⟩
  have hloop : ∀ r : List ℕ × List (Backend V c), ∃ us : List Url,
      (rows.foldl (reloadRow p.views) r).2.map Backend.core =
        r.2.map Backend.core ++ us.map Core.fresh := by
    induction rows with
    | nil => exact fun r => ⟨[], by simp⟩
    | cons row rows ih =>
      intro r
      obtain ⟨us, hus⟩ := hrow r row
      obtain ⟨vs, hvs⟩ := ih (reloadRow p.views r row)
      exact ⟨us ++ vs, by rw [List.foldl_cons, hvs, hus, List.append_assoc, List.map_append]⟩
  unfold Proxy.reload
  split
  · exact ⟨[], by simp⟩
  · exact hloop ([], p.heap)

lemma own_core {x : Own} (h : (machine c).own p x = some p') : ∃ us : List Url,
    p'.heap.map Backend.core = p.heap.map Backend.core ++ us.map Core.fresh := by
  cases x with
  | tick d =>
    cases h
    exact ⟨[], by simp⟩
  | reload rows =>
    cases h
    exact reload_core rows

lemma own_urls {x : Own} (h : (machine c).own p x = some p') : p.urls ⊆ p'.urls := by
  obtain ⟨us, hus⟩ := own_core h
  have h := congrArg (List.map Core.url) hus
  rw [List.map_append, List.map_map, List.map_map] at h
  have h : p'.urls = p.urls ++ (us.map Core.fresh).map Core.url := h
  exact fun u hu => h ▸ List.mem_append_left _ hu

end Frames

/-! ### Rules for calls -/

section Rules
variable {V : Type} {D : Discipline (signature V)} {b : ℕ} {batch : List String}

/-- The discipline allows an operation, which leaves the record as it is. -/
def Passes (D : Discipline (signature V)) (l : D.Local) (o : Op V) : Prop :=
  D.may l o ∧ ∀ r, D.admits l o r → D.after l o r = l

/-- Quiet operations pass. -/
def Overlooks (D : Discipline (signature V)) : Prop :=
  ∀ l o, Quiet o → Passes D l o

lemma wp_perform {α : Type} {o : Op V} {f : o.Answer V → Act V α} {Q : α → D.Local → Prop}
    {X : Exc → D.Local → Prop} {l : D.Local} : D.wp (perform o >>= f) Q X l ↔
      D.may l o ∧ ∀ r, D.admits l o r → D.wp (f r) Q X (D.after l o r) := Iff.rfl

lemma Passes.step {α : Type} {o : Op V} {l : D.Local} (h : Passes D l o)
    {f : o.Answer V → Act V α} {Q : α → D.Local → Prop} {X : Exc → D.Local → Prop}
    (hf : ∀ r, D.admits l o r → D.wp (f r) Q X l) : D.wp (perform o >>= f) Q X l := by
  refine wp_perform.2 ⟨h.1, fun r hr => ?_⟩
  rw [h.2 r hr]
  exact hf r hr

lemma Overlooks.step {α : Type} (hD : Overlooks D) {o : Op V} (ho : Quiet o)
    {f : o.Answer V → Act V α} {Q : α → D.Local → Prop} {X : Exc → D.Local → Prop} {l : D.Local}
    (hf : ∀ r, D.admits l o r → D.wp (f r) Q X l) : D.wp (perform o >>= f) Q X l :=
  (hD l o ho).step hf

/-- What a discipline has to say about one request: `J` before it, `K` while it is out, `T` once it
has ended without an exception, `R` with the response, `X` with an exception. -/
structure Requests (D : Discipline (signature V)) (b : ℕ) (batch : List String)
    (J K T : D.Local → Prop) (R : Response V → D.Local → Prop) (X : Exc → D.Local → Prop) :
    Prop where
  post : ∀ l, J l → D.may l (.post b batch) ∧
    ∀ r, D.admits l (.post b batch) r → K (D.after l (.post b batch) r)
  reply : ∀ l, K l → D.may l (.reply b batch) ∧
    ∀ r, D.admits l (.reply b batch) r →
      match r with
      | .response r => R r (D.after l (.reply b batch) (.response r))
      | .readTimeout => T (D.after l (.reply b batch) .readTimeout)
      | .raised http => X (if http then .http else .other)
          (D.after l (.reply b batch) (.raised http))
  heard : ∀ r l, R r l → T l
  resend : ∀ l, T l → J l
  http : ∀ e l, T l → e.isHttp = true → X e l
  opened : ∀ l, J l → X .breakerOpen l
  cancelled : ∀ call l, J l → D.admits l (.await b call) false → X .other l
  woken : ∀ l, T l → D.admits l .sleep false → X .other l
  succeed : ∀ l, T l → Passes D l (.succeed b)
  fail : ∀ e l, X e l → e = .http ∨ e = .notAnswering → Passes D l (.fail b e)

variable {J K T : D.Local → Prop} {R : Response V → D.Local → Prop} {X : Exc → D.Local → Prop}
  {l : D.Local}

lemma wp_acquireSlot (hD : Overlooks D) (h : Requests D b batch J K T R X) (hl : J l) :
    D.wp (acquireSlot b) (fun _ => J) X l := by
  refine hD.step (by exact trivial) fun r _ => ?_
  obtain ⟨call, got⟩ := r
  cases got with
  | true => exact hl
  | false =>
    refine hD.step (by exact trivial) fun ok hok => ?_
    cases ok with
    | true => exact hl
    | false => exact h.cancelled call l hl hok

lemma wp_sendRound (hD : Overlooks D) (h : Requests D b batch J K T R X)
    {again : Option (Act V (Response V))} (hagain : ∀ a, again = some a → ∀ l, J l → D.wp a R X l)
    (hl : J l) : D.wp (sendRound again b batch) R X l := by
  unfold sendRound
  refine Discipline.wp_seq (wp_acquireSlot hD h hl) (fun call l hl => ?_) fun _ _ hx => hx
  refine hD.step (by exact trivial) fun state _ => ?_
  split
  · exact hD.step (by exact trivial) fun _ _ => h.opened _ hl
  · refine ⟨(h.post l hl).1, fun sent hsent => ?_⟩
    have hk := (h.post l hl).2 sent hsent
    refine ⟨(h.reply _ hk).1, fun reply hreply => ?_⟩
    have hr := (h.reply _ hk).2 reply hreply
    cases reply with
    | readTimeout =>
      refine hD.step (by exact trivial) fun load _ => hD.step (by exact trivial) fun _ _ => ?_
      cases load with
      | false => exact h.http _ _ hr rfl
      | true =>
        cases again with
        | none => exact h.http _ _ hr rfl
        | some a => exact hD.step (by exact trivial) fun _ _ => hagain a rfl _ (h.resend _ hr)
    | raised http => exact hD.step (by exact trivial) fun _ _ => hr
    | response r =>
      refine hD.step (by exact trivial) fun _ _ => hD.step (by exact trivial) fun _ _ => ?_
      split
      · refine hD.step (by exact trivial) fun _ _ => hD.step (by exact trivial) fun ok hok => ?_
        have ht := h.heard r _ hr
        cases ok with
        | true => exact hagain _ rfl _ (h.resend _ ht)
        | false => exact h.woken _ ht hok
      · split
        · exact hD.step (by exact trivial) fun _ _ => hr
        · exact hr

lemma wp_send (hD : Overlooks D) (h : Requests D b batch J K T R X) (hl : J l) :
    D.wp (send b batch) R X l := by
  have hloop : ∀ retries l, J l → D.wp (sendLoop b batch retries) R X l := by
    intro retries
    induction retries with
    | zero => exact fun l hl => wp_sendRound hD h (fun _ ha => nomatch ha) hl
    | succ retries ih =>
      refine fun l hl => wp_sendRound hD h (fun a ha => ?_) hl
      cases ha
      exact ih
  exact hloop congestionRetries l hl

lemma wp_recordFailure {α : Type} (h : Requests D b batch J K T R X) {e : Exc} (he : X e l)
    {p : Act V α} {Q : α → D.Local → Prop} {X' : Exc → D.Local → Prop} (hp : D.wp p Q X' l) :
    D.wp (recordFailure b e >>= fun _ => p) Q X' l := by
  by_cases hcounts : e = .http ∨ e = .notAnswering
  · rw [show recordFailure b e = perform (.fail b e) from if_pos hcounts]
    exact (h.fail e l he hcounts).step fun _ _ => hp
  · rw [show recordFailure b e = (pure () : Act V Unit) from if_neg hcounts]
    exact hp

/-- A call goes on with how `p` ended. -/
lemma wp_tryAct {α β : Type} {p : Act V α} {f : Except Exc α → Act V β} {Q : β → D.Local → Prop}
    {Q' : α → D.Local → Prop} {X X' : Exc → D.Local → Prop} (hp : D.wp p Q' X' l)
    (hok : ∀ a l, Q' a l → D.wp (f (.ok a)) Q X l)
    (herror : ∀ e l, X' e l → D.wp (f (.error e)) Q X l) :
    D.wp (tryAct p >>= f) Q X l := by
  unfold tryAct
  rw [Discipline.wp_bind, Discipline.wp_catching, Discipline.wp_bind']
  exact Discipline.wp_mono hok herror hp

/-- One post, given what holds of the parts of a batch that is split. -/
lemma wp_postBody (hD : Overlooks D) (h : Requests D b batch J K T R X) {I : D.Local → Prop}
    {split : ℕ → Act V (List V)} {Q : List V → D.Local → Prop}
    (hcap : ∀ l, I l → D.may l (.cap b) ∧
      ∀ r, D.admits l (.cap b) r → J (D.after l (.cap b) r))
    (hsplit : ∀ limit l, 0 < limit → limit < batch.length → J l → D.wp (split limit) Q X l)
    (hok : ∀ r l out, R r l → r.vectors = some out → Q out l)
    (hbad : ∀ r l, R r l → 200 ≤ r.status ∧ r.status < 300 → r.vectors = none → X .other l)
    (hl : I l) : D.wp (postBody split b batch) Q X l := by
  refine wp_perform.2 ⟨(hcap l hl).1, fun cap hc => ?_⟩
  have hj := (hcap l hl).2 cap hc
  have hlimit : ∀ {o : Option ℕ} {limit : ℕ},
      o.filter (fun l => decide (l ≠ 0 ∧ l < batch.length)) = some limit →
        0 < limit ∧ limit < batch.length := by
    intro o limit ho
    have := (Option.filter_eq_some_iff.1 ho).2
    simp only [decide_eq_true_eq] at this
    exact ⟨Nat.pos_of_ne_zero this.1, this.2⟩
  split
  · rename_i limit ho
    exact hsplit limit _ (hlimit ho).1 (hlimit ho).2 hj
  · refine hD.step (by exact trivial) fun cost _ => ?_
    refine wp_tryAct (wp_send hD h hj) (fun r l hr => ?_) fun e l hx => ?_
    · unfold afterSend
      simp only
      split
      · rename_i limit ho
        have ho' : 0 < limit ∧ limit < batch.length := by
          unfold splitLimit at ho
          split at ho
          · exact hlimit ho
          · cases ho
        refine hD.step (by exact trivial) fun _ _ => hD.step (by exact trivial) fun _ _ => ?_
        rw [Discipline.wp_catching]
        refine Discipline.wp_mono (fun _ _ hq => hq) (fun e l hx => ?_)
          (hsplit limit l ho'.1 ho'.2 (h.resend l (h.heard r l hr)))
        exact wp_recordFailure h hx hx
      · split
        · rename_i hstatus
          refine (h.succeed l (h.heard r l hr)).step fun _ _ => ?_
          refine hD.step (by exact trivial) fun _ _ => ?_
          split
          · rename_i out hout
            exact hok r l out hr hout
          · rename_i hnone
            exact hbad r l hr hstatus hnone
        · have hx := h.http .http l (h.heard r l hr) rfl
          exact wp_recordFailure h hx (hD.step (by exact trivial) fun _ _ => hx)
    · exact wp_recordFailure h hx (hD.step (by exact trivial) fun _ _ => hx)

lemma wp_collect {post : List String → Act V (List V)} {parts : List (List String)}
    (h : ∀ part l, J l → D.wp (post part) (fun _ => J) X l) (hl : J l) :
    D.wp (collect post parts) (fun _ => J) X l := by
  induction parts generalizing l with
  | nil => exact hl
  | cons part parts ih =>
    refine Discipline.wp_seq (h part l hl) (fun out l hl => ?_) fun _ _ hx => hx
    exact Discipline.wp_seq (ih hl) (fun rest l hl => hl) fun _ _ hx => hx

/-- One batch on one backend, if every request keeps `J`. -/
lemma wp_postOne (batch : List String) (hD : Overlooks D)
    (h : ∀ batch, Requests D b batch J K T R X)
    (hcap : ∀ l, J l → D.may l (.cap b) ∧ ∀ r, D.admits l (.cap b) r → J (D.after l (.cap b) r))
    (hbad : ∀ r l, R r l → 200 ≤ r.status ∧ r.status < 300 → r.vectors = none → X .other l)
    (hl : J l) : D.wp (postOne b batch) (fun _ => J) X l := by
  have hbody : ∀ {batch : List String} {split : ℕ → Act V (List V)} {l : D.Local},
      (∀ limit l, J l → D.wp (split limit) (fun _ => J) X l) → J l →
        D.wp (postBody split b batch) (fun _ => J) X l := fun hsplit hl =>
    wp_postBody hD (h _) hcap (fun limit l _ _ hj => hsplit limit l hj)
      (fun r l _ hr _ => (h []).resend l ((h []).heard r l hr)) hbad hl
  have hdepth : ∀ depth batch l, J l → D.wp (postWithin depth b batch) (fun _ => J) X l := by
    intro depth
    induction depth with
    | zero => exact fun batch l hl => hbody (fun _ _ hj => hj) hl
    | succ depth ih => exact fun batch l hl => hbody (fun _ _ hj => wp_collect ih hj) hl
  exact hdepth batch.length batch l hl

end Rules

end Treeweft.EmbeddingProxy
