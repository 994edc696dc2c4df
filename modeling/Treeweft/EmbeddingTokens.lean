import Mathlib.Algebra.BigOperators.Group.Finset.Basic
import Mathlib.Algebra.Order.BigOperators.Group.Finset
import Treeweft.EmbeddingProxy

/-!
The tokens in flight on an embedding backend.

A post adds its cost before it sends and takes it off once, however it ends: when it returns, when
it raises, when it is cancelled, and when it hands its batch to the posts of the parts. No
coroutine waits inside a section of a lock, so the waits where a call can be cancelled are those
for a slot, for an answer and between two attempts.
-/

namespace Treeweft.EmbeddingProxy.Tokens

open Machine (State Label Run Kept initial)

variable {V : Type} {c : Settings V}

/-! ### What operations do to the tokens -/

section Tokens
variable {p p' : Proxy V c} {b : ℕ}

/-- The tokens in flight on each backend. -/
def tokens (p : Proxy V c) : List ℤ := p.heap.map Backend.in_flight_tokens

lemma slotStep_tokens {x x' : Backend V c} {l : SlotPool.Step (EmbeddingSlots.pool c.slots)}
    (h : x.slotStep l = some x') : x'.in_flight_tokens = x.in_flight_tokens := by
  obtain ⟨w, -, rfl⟩ := Option.map_eq_some_iff.1 h
  rfl

lemma awaited_tokens {x x' : Backend V c} {call env : ℕ} {ok : Bool}
    (h : x.awaited call env = some (ok, x')) : x'.in_flight_tokens = x.in_flight_tokens := by
  unfold Backend.awaited at h
  split at h
  · split at h
    · obtain ⟨y, hy, h⟩ := Option.map_eq_some_iff.1 h
      cases h
      exact slotStep_tokens hy
    · obtain ⟨y, hy, h⟩ := Option.map_eq_some_iff.1 h
      cases h
      exact slotStep_tokens hy
  · split at h
    · cases h
    · obtain ⟨y, hy, h⟩ := Option.bind_eq_some_iff.1 h
      obtain ⟨z, hz, h⟩ := Option.map_eq_some_iff.1 h
      cases h
      exact (slotStep_tokens hz).trans (slotStep_tokens hy)

lemma settled_tokens {x x' : Backend V c} {now : ℕ} {sent : Sent}
    (h : x.settled now sent = some x') : x'.in_flight_tokens = x.in_flight_tokens := by
  unfold Backend.settled at h
  split at h
  · exact slotStep_tokens h
  · split at h
    · exact slotStep_tokens h
    · cases h
      rfl

lemma surveyed_tokens (require_cpu : Bool) (tried : List Url) :
    tokens (p.surveyed require_cpu tried) = tokens p := by
  unfold tokens Proxy.surveyed Proxy.promote
  split
  · refine List.ext_getElem? fun i => ?_
    rw [List.getElem?_map, List.getElem?_mapIdx, List.getElem?_map]
    cases p.heap[i]? with
    | none => rfl
    | some x =>
      simp only [Option.map_some]
      split <;> rfl
  · rfl

/-- The operations that neither add nor take off tokens. -/
def Neutral : Op V → Prop
  | .charge .. | .discharge .. => False
  | _ => True

lemma exec_neutral {t : Tid} {env : ℕ} {o : Op V} {r : o.Answer V} (ho : Neutral o)
    (h : exec p t env o = some (r, p')) : tokens p' = tokens p := by
  have hslot : ∀ {x x' : Backend V c} {l} {a : Unit},
      (x.slotStep l).map (fun x => ((), x)) = some (a, x') →
        x'.in_flight_tokens = x.in_flight_tokens := by
    intro x x' l a h
    obtain ⟨y, hy, h⟩ := Option.map_eq_some_iff.1 h
    cases h
    exact slotStep_tokens hy
  cases o with
  | charge | discharge => exact ho.elim
  | maxChunkCost | sleep | returned | raised =>
    cases h
    rfl
  | survey require_cpu tried =>
    cases h
    exact surveyed_tokens require_cpu tried
  | cap | state | post | reply =>
    refine on_map _ h fun x a x' hx => ?_
    cases hx
    rfl
  | answered | learn => exact does_map _ h fun x => rfl
  | enter b =>
    refine on_map _ h fun x a x' hx => ?_
    obtain ⟨y, hy, hx⟩ := Option.bind_eq_some_iff.1 hx
    cases hx
    exact slotStep_tokens hy
  | await b call => exact on_map _ h fun x a x' hx => awaited_tokens hx
  | isLoad b sent =>
    refine on_map _ h fun x a x' hx => ?_
    obtain rfl := congrArg Prod.snd (Option.some.inj hx)
    simp only [Backend.isLoad]
    split <;> rfl
  | release b call => exact on_map _ h fun x a x' hx => hslot hx
  | backOff b sent_at => exact on_map _ h fun x a x' hx => hslot hx
  | settle b sent =>
    refine on_map _ h fun x a x' hx => ?_
    obtain ⟨y, hy, hx⟩ := Option.map_eq_some_iff.1 hx
    cases hx
    exact settled_tokens hy
  | succeed b =>
    refine does_map _ h fun x => ?_
    unfold Backend.succeeded
    split <;> rfl
  | fail b e =>
    refine does_map _ h fun x => ?_
    unfold Backend.failed
    simp only
    split
    · split <;> rfl
    · rfl
    · rfl

/-- An operation that adds `d` to one backend. -/
lemma on_tokens {α : Type} {f : Backend V c → Option (α × Backend V c)} {a : α} {d : ℤ}
    (h : p.on b f = some (a, p'))
    (hf : ∀ x a x', f x = some (a, x') → x'.in_flight_tokens = x.in_flight_tokens + d) :
    b < (tokens p).length ∧ ∀ i v', (tokens p')[i]? = some v' →
      ∃ v, (tokens p)[i]? = some v ∧ v' = v + if i = b then d else 0 := by
  obtain ⟨x, x', hx, hfx, rfl⟩ := on_eq_some.1 h
  obtain ⟨hlt, -⟩ := List.getElem?_eq_some_iff.1 hx
  refine ⟨(List.length_map _).symm ▸ hlt, fun i v' hv' => ?_⟩
  unfold tokens at hv' ⊢
  rw [List.map_set, List.getElem?_set] at hv'
  by_cases hi : b = i
  · subst hi
    rw [if_pos rfl, if_pos ((List.length_map _).symm ▸ hlt)] at hv'
    refine ⟨x.in_flight_tokens, by rw [List.getElem?_map, hx]; rfl, ?_⟩
    rw [if_pos rfl, ← Option.some.inj hv']
    exact hf x a x' hfx
  · rw [if_neg hi] at hv'
    exact ⟨v', hv', by rw [if_neg (Ne.symm hi), add_zero]⟩

lemma exec_charge {t : Tid} {env : ℕ} {batch : List String} {cost : ℕ}
    (h : exec p t env (.charge b batch) = some (cost, p')) :
    b < (tokens p).length ∧ ∀ (i : ℕ) (v' : ℤ), (tokens p')[i]? = some v' →
      ∃ v : ℤ, (tokens p)[i]? = some v ∧ v' = v + if i = b then (cost : ℤ) else 0 := by
  obtain ⟨_, _, _, hcost, _⟩ := on_eq_some.1 h
  obtain rfl : env = cost := (Prod.mk.inj (Option.some.inj hcost)).1
  refine on_tokens h fun x a x' hx => ?_
  cases hx
  rfl

lemma exec_discharge {t : Tid} {env cost : ℕ} {r : Unit}
    (h : exec p t env (.discharge b cost) = some (r, p')) :
    b < (tokens p).length ∧ ∀ (i : ℕ) (v' : ℤ), (tokens p')[i]? = some v' →
      ∃ v : ℤ, (tokens p)[i]? = some v ∧ v' = v + if i = b then -(cost : ℤ) else 0 := by
  refine on_tokens h fun x a x' hx => ?_
  cases hx
  rfl

/-- A reload forgets no backend, and adds backends that nothing was sent to. -/
lemma reload_tokens (rows : List Row) :
    ∃ n, tokens (p.reload rows) = tokens p ++ List.replicate n 0 := by
  have hmodify : ∀ (heap : List (Backend V c)) b k,
      (heap.modify b fun x => { x with klass := k }).map Backend.in_flight_tokens =
        heap.map Backend.in_flight_tokens := by
    intro heap b k
    refine List.ext_getElem? fun i => ?_
    rw [List.getElem?_map, List.getElem?_modify, List.getElem?_map]
    cases heap[i]? with
    | none => rfl
    | some x =>
      simp only [Option.map_eq_map, Option.map_some]
      split <;> rfl
  have hrow : ∀ (r : List ℕ × List (Backend V c)) row, ∃ n,
      (reloadRow p.views r row).2.map Backend.in_flight_tokens =
        r.2.map Backend.in_flight_tokens ++ List.replicate n 0 := by
    intro r row
    unfold reloadRow
    split
    · exact ⟨0, by rw [hmodify, List.replicate_zero, List.append_nil]⟩
    · exact ⟨1, by rw [List.map_append]; rfl⟩
  have hloop : ∀ r : List ℕ × List (Backend V c), ∃ n,
      (rows.foldl (reloadRow p.views) r).2.map Backend.in_flight_tokens =
        r.2.map Backend.in_flight_tokens ++ List.replicate n 0 := by
    induction rows with
    | nil => exact fun r => ⟨0, (List.append_nil _).symm⟩
    | cons row rows ih =>
      intro r
      obtain ⟨m, hm⟩ := hrow r row
      obtain ⟨n, hn⟩ := ih (reloadRow p.views r row)
      refine ⟨m + n, ?_⟩
      rw [List.foldl_cons, hn, hm, List.append_assoc, List.replicate_append_replicate]
  unfold Proxy.reload
  split
  · exact ⟨0, (List.append_nil _).symm⟩
  · exact hloop ([], p.heap)

end Tokens

/-- No operation forgets a backend or adds one. -/
lemma length_of_exec {p p' : Proxy V c} {t : Tid} {env : ℕ} {o : Op V} {r : o.Answer V}
    (h : exec p t env o = some (r, p')) : (tokens p').length = (tokens p).length := by
  have hlength := congrArg List.length (exec_urls h)
  unfold Proxy.urls at hlength
  rw [List.length_map, List.length_map] at hlength
  rw [tokens, tokens, List.length_map, List.length_map, hlength]

/-! ### What a call counts -/

/-- What a call has added and not yet taken off, and the backends that its present batch was sent
to. -/
structure Account where
  charged : Option (ℕ × ℕ)
  touched : List ℕ

/-- No cost is added to another, and only what was added is taken off. Batches begin and calls end
with nothing left. -/
def may (l : Account) : Op V → Prop
  | .discharge b cost => l.charged = some (b, cost)
  | .maxChunkCost _ | .charge .. | .returned .. | .raised _ => l.charged = none
  | _ => True

def after (l : Account) : (o : Op V) → o.Answer V → Account
  | .maxChunkCost _, _ => { l with touched := [] }
  | .charge b _, cost => ⟨some (b, cost), b :: l.touched⟩
  | .discharge .., _ => { l with charged := none }
  | _, _ => l

abbrev discipline (V : Type) : Discipline (signature V) where
  Local := Account
  init := ⟨none, []⟩
  may := may
  admits _ _ _ := True
  after := after

def Clear (l : Account) : Prop := l.charged = none

/-- The operations between those that count. -/
def Inner : Op V → Prop
  | .maxChunkCost _ | .charge .. | .discharge .. | .returned .. | .raised _ => False
  | _ => True

lemma Inner.may {o : Op V} (ho : Inner o) (l : Account) : may l o := by
  cases o <;> first | exact ho.elim | exact trivial

lemma Inner.after {o : Op V} (ho : Inner o) (l : Account) (r : o.Answer V) : after l o r = l := by
  cases o <;> first | exact ho.elim | rfl

/-- Such operations leave the account as it is. -/
lemma wp_inner {α : Type} {q : Act V α} (hq : Uses Inner q) (l : Account) :
    (discipline V).wp q (fun _ l' => l' = l) (fun _ l' => l' = l) l := by
  refine hq.wp (D := discipline V) (I := (· = l)) ?_ rfl
  rintro o ho _ rfl
  exact ⟨ho.may _, fun r _ => ho.after _ r⟩

lemma uses_acquireSlot (b : ℕ) : Uses Inner (acquireSlot (V := V) b) := by
  refine ⟨trivial, fun r => ?_⟩
  obtain ⟨call, got⟩ := r
  cases got with
  | true => trivial
  | false =>
    refine ⟨trivial, fun ok => ?_⟩
    cases ok <;> trivial

lemma uses_sendRound {again : Option (Act V (Response V))} (h : ∀ a, again = some a → Uses Inner a)
    (b : ℕ) (batch : List String) : Uses Inner (sendRound again b batch) := by
  unfold sendRound
  refine (uses_acquireSlot b).bind fun call => ?_
  refine ⟨trivial, fun (state : CircuitState) => ?_⟩
  change Uses (S := signature V) Inner (if state = .opened then _ else _)
  split
  · exact ⟨trivial, fun _ => trivial⟩
  · refine ⟨trivial, fun sent => ⟨trivial, fun reply => ?_⟩⟩
    cases reply with
    | readTimeout =>
      refine ⟨trivial, fun load => ⟨trivial, fun _ => ?_⟩⟩
      cases load with
      | false => trivial
      | true =>
        cases again with
        | none => trivial
        | some a => exact ⟨trivial, fun _ => h a rfl⟩
    | raised http => exact ⟨trivial, fun _ => trivial⟩
    | response r =>
      refine ⟨trivial, fun _ => ⟨trivial, fun _ => ?_⟩⟩
      split
      · refine ⟨trivial, fun _ => ⟨trivial, fun ok => ?_⟩⟩
        cases ok with
        | true => exact h _ rfl
        | false => trivial
      · split
        · exact ⟨trivial, fun _ => trivial⟩
        · trivial

lemma uses_send (b : ℕ) (batch : List String) : Uses Inner (send (V := V) b batch) := by
  have hloop : ∀ retries, Uses Inner (sendLoop (V := V) b batch retries) := by
    intro retries
    induction retries with
    | zero => exact uses_sendRound (fun a (ha : none = some a) => nomatch ha) b batch
    | succ retries ih =>
      refine uses_sendRound (fun a ha => ?_) b batch
      cases ha
      exact ih
  exact hloop congestionRetries

lemma uses_recordFailure (b : ℕ) (e : Exc) : Uses Inner (recordFailure (V := V) b e) := by
  by_cases hcounts : e = .http ∨ e = .notAnswering
  · rw [show recordFailure b e = perform (.fail b e) from if_pos hcounts]
    exact ⟨trivial, fun _ => trivial⟩
  · rw [show recordFailure b e = (pure () : Act V Unit) from if_neg hcounts]
    trivial

lemma wp_discharge {α : Type} {b cost : ℕ} {q : Unit → Act V α} {Q : α → Account → Prop}
    {X : Exc → Account → Prop} {l : Account} (hl : l.charged = some (b, cost))
    (hq : ∀ l, Clear l → (discipline V).wp (q ()) Q X l) :
    (discipline V).wp (perform (.discharge b cost) >>= q) Q X l :=
  wp_perform.2 ⟨hl, fun _ _ => hq _ rfl⟩

/-- Both ends of a post are clear. -/
abbrev Keeps {α : Type} (q : Act V α) : Prop :=
  ∀ l, Clear l → (discipline V).wp q (fun _ => Clear) (fun _ => Clear) l

lemma keeps_inner {α : Type} {q : Act V α} (hq : Uses Inner q) : Keeps q := by
  intro l hl
  refine Discipline.wp_mono ?_ ?_ (wp_inner hq l)
  · rintro _ _ rfl
    exact hl
  · rintro _ _ rfl
    exact hl

lemma keeps_pure {α : Type} (a : α) : Keeps (pure a : Act V α) := fun _ hl => hl

lemma keeps_bind {α β : Type} {q : Act V α} {f : α → Act V β} (hq : Keeps q)
    (hf : ∀ a, Keeps (f a)) : Keeps (q >>= f) := fun l hl =>
  Discipline.wp_seq (hq l hl) (fun a l hl => hf a l hl) fun _ _ hx => hx

/-- A failure is counted on the way. -/
lemma wp_recordFailure {α : Type} {b : ℕ} {e : Exc} {q : Act V α} {Q : α → Account → Prop}
    {X : Exc → Account → Prop} {l : Account} (hq : (discipline V).wp q Q X l) :
    (discipline V).wp (recordFailure b e >>= fun _ => q) Q X l := by
  by_cases hcounts : e = .http ∨ e = .notAnswering
  · rw [show recordFailure b e = perform (.fail b e) from if_pos hcounts]
    exact wp_perform.2 ⟨trivial, fun _ _ => hq⟩
  · rw [show recordFailure b e = (pure () : Act V Unit) from if_neg hcounts]
    exact hq

/-- However the request of a post ended, its cost is taken off, and before the batch is split. -/
lemma wp_afterSend {split : ℕ → Act V (List V)} (hsplit : ∀ limit, Keeps (split limit)) {b : ℕ}
    {batch : List String} {cost : ℕ} {r : Except Exc (Response V)} {l : Account}
    (hl : l.charged = some (b, cost)) :
    (discipline V).wp (afterSend split b batch cost r) (fun _ => Clear) (fun _ => Clear) l := by
  unfold afterSend
  cases r with
  | error e => exact wp_recordFailure (wp_discharge hl fun _ hl => hl)
  | ok r =>
    simp only
    split
    · rename_i limit _
      refine wp_perform.2 ⟨trivial, fun _ _ => wp_discharge hl fun l hl => ?_⟩
      rw [Discipline.wp_catching]
      refine Discipline.wp_mono (fun _ _ hq => hq) (fun e l hx => ?_) (hsplit limit l hl)
      exact wp_recordFailure hx
    · split
      · refine wp_perform.2 ⟨trivial, fun _ _ => wp_discharge hl fun l hl => ?_⟩
        split
        · exact hl
        · exact hl
      · exact wp_recordFailure (wp_discharge hl fun _ hl => hl)

lemma keeps_postBody {split : ℕ → Act V (List V)} (hsplit : ∀ limit, Keeps (split limit)) (b : ℕ)
    (batch : List String) : Keeps (postBody split b batch) := by
  intro l hl
  refine wp_perform.2 ⟨trivial, fun cap _ => ?_⟩
  split
  · rename_i limit _
    exact hsplit limit l hl
  · refine wp_perform.2 ⟨hl, fun (cost : ℕ) _ => ?_⟩
    refine wp_tryAct (wp_inner (uses_send b batch) _) (fun r l' hr => ?_) fun e l' hx => ?_
    · subst hr
      exact wp_afterSend hsplit rfl
    · subst hx
      exact wp_afterSend hsplit rfl

lemma keeps_collect {post : List String → Act V (List V)} (h : ∀ part, Keeps (post part))
    (parts : List (List String)) : Keeps (collect post parts) := by
  induction parts with
  | nil => exact fun _ hl => hl
  | cons part parts ih =>
    unfold collect
    exact keeps_bind (h part) fun out => keeps_bind ih fun rest => keeps_pure (out ++ rest)

lemma keeps_postOne (b : ℕ) (batch : List String) : Keeps (postOne (V := V) b batch) := by
  have hdepth : ∀ depth batch, Keeps (postWithin (V := V) depth b batch) := by
    intro depth
    induction depth with
    | zero => exact fun batch => keeps_postBody (fun _ => keeps_pure []) b batch
    | succ depth ih => exact fun batch => keeps_postBody (fun _ => keeps_collect ih _) b batch
  exact hdepth batch.length batch

lemma keeps_failover (require_cpu : Bool) (batch : List String) (turns : ℕ) (tried : List Url)
    (last : Option Exc) : Keeps (failover (V := V) require_cpu batch turns tried last) := by
  induction turns generalizing tried last with
  | zero => exact fun _ hl => hl
  | succ turns ih =>
    intro l hl
    refine wp_perform.2 ⟨trivial, fun (backends : List View) _ => ?_⟩
    change (discipline V).wp (if tried.length < backends.length then _ else _) _ _ l
    split
    · cases select require_cpu tried backends with
      | none => exact hl
      | some b =>
        refine wp_tryAct (keeps_postOne b.ref batch l hl) (fun _ _ hl => hl) fun e l hl => ?_
        change (discipline V).wp (if e.isHttp = true then _ else _) _ _ l
        split
        · exact ih _ _ l hl
        · exact hl
    · exact hl

lemma keeps_embedBatch (gpu_max_tokens turns : ℕ) (batch : List String) :
    Keeps (embedBatch (V := V) gpu_max_tokens turns batch) := fun _ hl =>
  wp_perform.2 ⟨hl, fun (_ : ℕ) _ => keeps_failover _ batch turns [] none _ hl⟩

lemma keeps_embed (gpu_max_tokens max_batch_size turns : ℕ) (texts : List String) :
    Keeps (embed (V := V) gpu_max_tokens max_batch_size turns texts) := by
  have hslices : ∀ batches, Keeps (embedSlices (V := V) gpu_max_tokens turns batches) := by
    intro batches
    induction batches with
    | nil => exact fun _ hl => hl
    | cons batch batches ih =>
      refine keeps_bind (keeps_embedBatch gpu_max_tokens turns batch) fun out => ?_
      cases out with
      | none => exact fun _ hl => hl
      | some out =>
        refine keeps_bind ih fun rest => ?_
        cases rest <;> exact fun _ hl => hl
  unfold embed
  split
  · exact fun _ hl => hl
  · exact hslices _

lemma keeps_call (gpu_max_tokens max_batch_size turns : ℕ) (texts : List String) :
    Keeps (call (V := V) gpu_max_tokens max_batch_size turns texts) := by
  intro l hl
  refine wp_tryAct (keeps_embed gpu_max_tokens max_batch_size turns texts l hl)
    (fun out l hl => ?_) fun e l hl => wp_perform.2 ⟨hl, fun _ _ => hl⟩
  cases out with
  | none => exact hl
  | some out => exact wp_perform.2 ⟨hl, fun _ _ => hl⟩

/-! ### Conservation -/

/-- What a call has added to the tokens of a backend. -/
def due (l : Option Account) (b : ℕ) : ℕ :=
  match l.bind Account.charged with
  | some (b', cost) => if b' = b then cost else 0
  | none => 0

@[simp] lemma due_none (b : ℕ) : due none b = 0 := rfl

lemma due_clear {l : Account} (hl : Clear l) (b : ℕ) : due (some l) b = 0 := by
  have hbind : (some l).bind Account.charged = none := hl
  rw [due, hbind]

lemma due_charged {l : Account} {b cost : ℕ} (hl : l.charged = some (b, cost)) (i : ℕ) :
    due (some l) i = if i = b then cost else 0 := by
  have hbind : (some l).bind Account.charged = some (b, cost) := hl
  rw [due, hbind]
  exact if_congr eq_comm rfl rfl

/-- The sum over the calls after the record of one of them has changed. -/
lemma sum_due_update {T : Finset Tid} {t : Tid} (ht : t ∈ T) (L : Tid → Option Account)
    (l : Option Account) (b : ℕ) :
    (∑ u ∈ T, due (Function.update L t l u) b) + due (L t) b =
      (∑ u ∈ T, due (L u) b) + due l b := by
  have hrest : ∑ u ∈ T.erase t, due (Function.update L t l u) b = ∑ u ∈ T.erase t, due (L u) b := by
    refine Finset.sum_congr rfl fun u hu => ?_
    rw [Function.update_of_ne (Finset.ne_of_mem_erase hu)]
  rw [← Finset.add_sum_erase T _ ht, ← Finset.add_sum_erase T (fun u => due (L u) b) ht, hrest,
    Function.update_self]
  omega

/-- The tokens of each backend are what the calls in progress have added there, which they know to
have touched. -/
structure Balanced (p : Proxy V c) (L : Tid → Option Account) : Prop where
  sum : ∃ T : Finset Tid, (∀ t, L t ≠ none → t ∈ T) ∧
    ∀ (b : ℕ) (v : ℤ), (tokens p)[b]? = some v → v = ((∑ t ∈ T, due (L t) b : ℕ) : ℤ)
  charged : ∀ t l b cost, L t = some l → l.charged = some (b, cost) →
    b < (tokens p).length ∧ b ∈ l.touched

section Balance
variable {p p' : Proxy V c} {L : Tid → Option Account} {t : Tid}

/-- A record changes, and the tokens with it. -/
lemma Balanced.update (h : Balanced p L) {l : Option Account}
    (hlength : (tokens p).length = (tokens p').length)
    (hvalue : ∀ (i : ℕ) (v' : ℤ), (tokens p')[i]? = some v' → ∃ v : ℤ, (tokens p)[i]? = some v ∧
      v' + due (L t) i = v + due l i)
    (hl : ∀ m b cost, l = some m → m.charged = some (b, cost) →
      b < (tokens p').length ∧ b ∈ m.touched) :
    Balanced p' (Function.update L t l) := by
  obtain ⟨T, hT, hsum⟩ := h.sum
  refine ⟨⟨insert t T, fun u hu => ?_, fun i v' hv' => ?_⟩, fun u m b cost hu hm => ?_⟩
  · by_cases hut : u = t
    · exact hut ▸ Finset.mem_insert_self t T
    · rw [Function.update_of_ne hut] at hu
      exact Finset.mem_insert_of_mem (hT u hu)
  · obtain ⟨v, hv, hvv⟩ := hvalue i v' hv'
    have hinsert : ∑ u ∈ insert t T, due (L u) i = ∑ u ∈ T, due (L u) i := by
      refine Finset.sum_insert_of_eq_zero_if_notMem fun hnot => ?_
      rw [Classical.not_not.mp (mt (hT t) hnot), due_none]
    have hupdate := sum_due_update (Finset.mem_insert_self t T) L l i
    have hbefore := hsum i v hv
    rw [hinsert] at hupdate
    omega
  · rcases update_cases hu with ⟨-, hlm⟩ | ⟨-, hLu⟩
    · exact hl m b cost hlm hm
    · rw [← hlength]
      exact h.charged u m b cost hLu hm

/-- A record that has nothing due comes or goes. -/
lemma Balanced.idle (h : Balanced p L) {l : Option Account} (hbefore : ∀ m, L t = some m → Clear m)
    (hafter : ∀ m, l = some m → Clear m) : Balanced p (Function.update L t l) := by
  have hdue : ∀ {x : Option Account} i, (∀ m, x = some m → Clear m) → due x i = 0 := by
    intro x i hx
    cases x with
    | none => rfl
    | some m => exact due_clear (hx m rfl) i
  refine h.update rfl (fun i v hv => ⟨v, hv, ?_⟩) fun m b cost hm hc => ?_
  · rw [hdue i hbefore, hdue i hafter]
  · rw [hafter m hm] at hc
    cases hc

lemma Balanced.charge {env b cost : ℕ} {batch : List String} {l : Account} (h : Balanced p L)
    (hl : L t = some l) (hclear : Clear l)
    (he : exec p t env (.charge b batch) = some (cost, p')) :
    Balanced p' (Function.update L t (some ⟨some (b, cost), b :: l.touched⟩)) := by
  obtain ⟨hlt, hvalue⟩ := exec_charge he
  have hlength := length_of_exec he
  refine h.update hlength.symm (fun i v' hv' => ?_) ?_
  · obtain ⟨v, hv, rfl⟩ := hvalue i v' hv'
    refine ⟨v, hv, ?_⟩
    rw [hl, due_clear hclear, due_charged rfl]
    by_cases hi : i = b
    · rw [if_pos hi, if_pos hi, Nat.cast_zero, add_zero]
    · rw [if_neg hi, if_neg hi, add_zero]
  · rintro m i cost hm hc
    cases hm
    cases hc
    exact ⟨hlength ▸ hlt, List.mem_cons_self⟩

lemma Balanced.discharge {env b cost : ℕ} {r : Unit} {l : Account} (h : Balanced p L)
    (hl : L t = some l) (hcharged : l.charged = some (b, cost))
    (he : exec p t env (.discharge b cost) = some (r, p')) :
    Balanced p' (Function.update L t (some { l with charged := none })) := by
  obtain ⟨hlt, hvalue⟩ := exec_discharge he
  have hclear : Clear { l with charged := none } := rfl
  refine h.update (length_of_exec he).symm (fun i v' hv' => ?_) ?_
  · obtain ⟨v, hv, rfl⟩ := hvalue i v' hv'
    refine ⟨v, hv, ?_⟩
    rw [hl, due_charged hcharged, due_clear hclear]
    by_cases hi : i = b
    · rw [if_pos hi, if_pos hi, Nat.cast_zero]
      omega
    · rw [if_neg hi, if_neg hi, add_zero]
  · rintro m i cost hm hc
    cases hm
    cases hc

/-- The step lemma: an operation of a call keeps the balance. -/
lemma Balanced.op {env : ℕ} {o : Op V} {l : Account} {r : o.Answer V} (h : Balanced p L)
    (hl : L t = some l) (hm : may l o) (he : exec p t env o = some (r, p')) :
    Balanced p' (Function.update L t (some (after l o r))) := by
  have hneutral : Neutral o → (after l o r).charged = l.charged →
      l.touched ⊆ (after l o r).touched ∨ Clear l →
        Balanced p' (Function.update L t (some (after l o r))) := by
    intro ho hcharged htouched
    have htokens := exec_neutral ho he
    refine h.update (congrArg List.length htokens.symm) (fun i v hv => ⟨v, htokens ▸ hv, ?_⟩) ?_
    · rw [hl, due, due]
      simp only [Option.bind_some, hcharged]
    · rintro m b cost hm hc
      cases hm
      rw [hcharged] at hc
      obtain ⟨hlt, hmem⟩ := h.charged t l b cost hl hc
      refine ⟨htokens ▸ hlt, ?_⟩
      rcases htouched with hsub | hclear
      · exact hsub hmem
      · rw [hclear] at hc
        cases hc
  cases o with
  | charge b batch => exact h.charge hl hm he
  | discharge b cost => exact h.discharge hl hm he
  | maxChunkCost batch => exact hneutral trivial rfl (.inr hm)
  | _ => exact hneutral trivial rfl (.inl (List.Subset.refl _))

lemma Balanced.own (h : Balanced p L) {x : Own} (he : (machine c).own p x = some p') :
    Balanced p' L := by
  cases x with
  | tick d =>
    cases he
    exact ⟨h.sum, h.charged⟩
  | reload rows =>
    cases he
    obtain ⟨n, hn⟩ := reload_tokens (p := p) rows
    obtain ⟨T, hT, hsum⟩ := h.sum
    have hlength : (tokens p).length ≤ (tokens (p.reload rows)).length := by
      rw [hn, List.length_append]
      omega
    refine ⟨⟨T, hT, fun b v hv => ?_⟩, fun t l b cost hl hc => ?_⟩
    · rw [hn, List.getElem?_append] at hv
      split at hv
      · exact hsum b v hv
      · -- nobody knows of a backend that was just added
        rename_i hnew
        obtain rfl := (List.mem_replicate.mp (List.mem_of_getElem? hv)).2
        have hzero : ∑ t ∈ T, due (L t) b = 0 := by
          refine Finset.sum_eq_zero fun t _ => ?_
          cases hLt : L t with
          | none => rfl
          | some l =>
            cases hc : l.charged with
            | none => exact due_clear hc b
            | some bc =>
              obtain ⟨hlt, -⟩ := h.charged t l bc.1 bc.2 hLt hc
              rw [due_charged hc, if_neg fun hb : b = bc.1 => hnew (hb ▸ hlt)]
        rw [hzero]
        rfl
    · obtain ⟨hlt, hmem⟩ := h.charged t l b cost hl hc
      exact ⟨hlt.trans_le hlength, hmem⟩

end Balance

/-! ### Runs -/

abbrev Sys (c : Settings V) : Type := State (machine c) (discipline V)

/-- The process stays, since the tokens go with it. -/
def Living (_ : Sys c) : Label (machine c) → Prop
  | .kill _ => False
  | _ => True

lemma kept (c : Settings V) : Kept (M := machine c) (D := discipline V) Living Clear Balanced where
  main _ _ e _ := keeps_call _ _ e.turns e.texts _ rfl
  start _ _ _ _ h ht := h.idle (fun _ hl => nomatch ht.symm.trans hl) fun l hl => by
    cases hl
    rfl
  op _ _ _ _ _ _ _ _ _ hl hm h he := ⟨trivial, h.op hl hm he⟩
  stop _ _ _ _ _ hl hE h := h.idle
    (fun m hm => (Option.some.inj (hm.symm.trans hl)).symm ▸ hE) nofun
  kill _ _ hc := hc.elim
  own _ _ _ _ h he := h.own he

lemma balanced_new (rows : List Row) : Balanced (Proxy.new c rows) fun _ => none := by
  refine ⟨⟨∅, fun _ h => absurd rfl h, fun b v hv => ?_⟩, nofun⟩
  rw [tokens, Proxy.new, List.map_map] at hv
  obtain ⟨r, -, rfl⟩ := List.mem_map.mp (List.mem_of_getElem? hv)
  rfl

/-- A call of `_embed_batch` is in progress. -/
def Batching (s : Sys c) (t : Tid) : Prop :=
  match s.nextOp t with
  | none | some (.maxChunkCost _) | some (.returned ..) | some (.raised _) => False
  | some _ => True

/-- Every call of `_embed_batch` that was sent to the backend has ended. -/
def Ended (s : Sys c) (b : ℕ) : Prop :=
  ∀ t l, s.records t = some l → Batching s t → b ∉ l.touched

lemma tokens_of_heap {p : Proxy V c} {b : ℕ} {x : Backend V c} (hx : p.heap[b]? = some x) :
    (tokens p)[b]? = some x.in_flight_tokens := by
  rw [tokens, List.getElem?_map, hx]
  rfl

/-- Between two batches nothing is due. -/
lemma clear_of_not_batching {s : Sys c} {t : Tid} {l : Account}
    (hd : Machine.Disciplined Clear s) (hl : s.records t = some l) (h : ¬Batching s t) :
    Clear l := by
  obtain ⟨⟨u, q, m⟩, hk, rfl⟩ := Option.map_eq_some_iff.1 hl
  have hwp := hd _ (Keyed.mem_of_get? hk)
  unfold Batching State.nextOp at h
  rw [hk, Option.map_some] at h
  cases q with
  | ret a => exact hwp
  | raise e => exact hwp
  | op o k =>
    have hmay : may m o := hwp.1
    cases o <;> first | exact hmay | exact (h trivial).elim

/-- A backend whose calls have all ended has no tokens in flight. -/
lemma Balanced.zero_of_ended {s : Sys c} (h : Balanced s.store s.records)
    (hd : Machine.Disciplined Clear s) {b : ℕ} (hended : Ended s b) {x : Backend V c}
    (hx : s.store.heap[b]? = some x) : x.in_flight_tokens = 0 := by
  obtain ⟨T, -, hsum⟩ := h.sum
  rw [hsum b _ (tokens_of_heap hx)]
  refine Int.natCast_eq_zero.mpr (Finset.sum_eq_zero fun t _ => ?_)
  cases hl : s.records t with
  | none => rfl
  | some l =>
    by_cases hbatching : Batching s t
    · cases hc : l.charged with
      | none => exact due_clear hc b
      | some bc =>
        obtain ⟨-, hmem⟩ := h.charged t l bc.1 bc.2 hl hc
        rw [due_charged hc, if_neg fun hb : b = bc.1 => hended t l hl hbatching (hb ▸ hmem)]
    · exact due_clear (clear_of_not_batching hd hl hbatching) b

/-- **Conservation**: whatever the order of the steps, the tokens in flight on a backend are never
negative, and are what they were whenever all calls that were sent to it have ended. -/
theorem in_flight_conserved (c : Settings V) (rows : List Row) {s s' : Sys c}
    (hs : Run Living (initial (Proxy.new c rows)) s) (hs' : Run Living s s') {b : ℕ}
    {x x' : Backend V c} (hx : s.store.heap[b]? = some x) (hx' : s'.store.heap[b]? = some x') :
    0 ≤ x'.in_flight_tokens ∧
      (Ended s b → Ended s' b → x'.in_flight_tokens = x.in_flight_tokens) := by
  obtain ⟨h, hd⟩ := (kept c).run_initial hs (balanced_new rows)
  obtain ⟨h', hd'⟩ := (kept c).run hs' h hd
  refine ⟨?_, fun hended hended' => ?_⟩
  · obtain ⟨T, -, hsum⟩ := h'.sum
    rw [hsum b _ (tokens_of_heap hx')]
    exact Int.natCast_nonneg _
  · rw [h'.zero_of_ended hd' hended' hx', h.zero_of_ended hd hended hx]

/-! ### A cancelled call -/

def plain : Settings Unit where
  slots := EmbeddingSlots.pair
  gpu_max_tokens := 100
  max_batch_size := 1
  embedding _ _ _ := ()

def lone : List Row := [⟨"a", .gpu⟩]

def turn (env : ℕ) : Label (machine plain) := .run ⟨0, 0⟩ env

/-- A text of seven tokens is sent. -/
def sent : List (Label (machine plain)) :=
  .start ⟨0, 0⟩ ⟨["x"], 3⟩ :: [0, 0, 0, 7, 0, 0, 0].map turn

/-- The call is cancelled while it waits for the answer. -/
def cancelled : List (Label (machine plain)) := [5, 0, 0, 0, 0].map turn

def alive (_ : Sys c) : Label (machine c) → Bool
  | .kill _ => false
  | _ => true

lemma living_of_alive (s : Sys c) (l : Label (machine c)) (h : alive s l = true) : Living s l := by
  cases l with
  | kill => cases h
  | _ => trivial

theorem in_flight_conserved_of_cancelled : ∃ s s' : Sys plain,
    (s.store.heap[0]?).map Backend.in_flight_tokens = some 7 ∧ s'.tasks.rows.length = 0 ∧
      ∀ x x' : Backend Unit plain, s.store.heap[0]? = some x → s'.store.heap[0]? = some x' →
        0 ≤ x'.in_flight_tokens ∧
          (Ended s 0 → Ended s' 0 → x'.in_flight_tokens = x.in_flight_tokens) := by
  have h : ((initial (Proxy.new plain lone) : Sys plain).runChecked alive sent).bind (fun s =>
      (s.runChecked alive cancelled).map fun s' =>
        ((s.store.heap[0]?).map Backend.in_flight_tokens, s'.tasks.rows.length)) =
          some (some 7, 0) := by decide +kernel
  obtain ⟨s, hs, h⟩ := Option.bind_eq_some_iff.1 h
  obtain ⟨s', hs', h⟩ := Option.map_eq_some_iff.1 h
  refine ⟨s, s', (Prod.mk.inj h).1, (Prod.mk.inj h).2, fun x x' hx hx' => ?_⟩
  exact in_flight_conserved plain lone (Machine.run_of_runChecked living_of_alive hs)
    (Machine.run_of_runChecked living_of_alive hs') hx hx'

end Treeweft.EmbeddingProxy.Tokens
