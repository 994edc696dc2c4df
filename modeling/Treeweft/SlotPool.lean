import Mathlib.Algebra.BigOperators.Group.List.Basic
import Mathlib.Data.Int.Notation
import Mathlib.Data.List.Basic
import Mathlib.Tactic.Ring

/-!
Slots handed over through futures.

A call takes a slot at once or waits on a future of its own, numbered by its arrival. Who gives a
slot back passes it to waiting calls by setting their futures, so a slot may be owned by a call
that has not run since. A waiting call can be cancelled before its future is set, which leaves the
dead future in the queue, or after, and then it passes the slot on. A pool says who may take a
slot and to whom free ones go; here is what holds of any pool that hands out each queue from the
front.
-/

namespace Treeweft

/-- A pool of slots of the kinds `K`. A future is done when it is set or cancelled; what passes
slots on reads that, and says to which futures they went. -/
structure SlotPool (K : Type) where
  State : Type
  Own : Type
  init : State
  held : State → K → ℤ
  queue : State → K → List ℕ
  take : K → State → Option State
  enqueue : K → ℕ → State → State
  forget : K → ℕ → State → State
  release : K → (ℕ → Bool) → State → State × List (K × ℕ)
  own : Own → (ℕ → Bool) → State → State × List (K × ℕ)

namespace SlotPool

/-- A future and the call that awaits it. -/
inductive Phase
  | pending
  | set
  | cancelled
  | holding
  | over
  deriving DecidableEq, Repr

structure Call (K : Type) where
  kind : K
  phase : Phase

/-- The pool, the calls in order of arrival, and the slots given in order. -/
structure World {K : Type} (P : SlotPool K) where
  pool : P.State
  calls : List (Call K)
  granted : List (K × ℕ)

inductive Step {K : Type} (P : SlotPool K)
  | acquire (k : K)
  | resume (n : ℕ)
  | cancel (n : ℕ)
  | unwind (n : ℕ)
  | release (n : ℕ)
  | own (o : P.Own)

variable {K : Type} {P : SlotPool K}

/-- No call has been made. -/
def initial (P : SlotPool K) : World P := ⟨P.init, [], []⟩

namespace World

def phase (w : World P) (n : ℕ) : Option Phase := (w.calls[n]?).map Call.phase

/-- The future of call `n` is set or cancelled. -/
def done (w : World P) (n : ℕ) : Bool := w.phase n != some .pending

def setPhase (w : World P) (n : ℕ) (x : Phase) : World P :=
  { w with calls := w.calls.modify n fun c => { c with phase := x } }

/-- The futures of the calls in `gs` are set. -/
def setAll (w : World P) (gs : List (K × ℕ)) : World P := gs.foldl (fun w g => w.setPhase g.2 .set) w

/-- Take over what passing slots on has done. -/
def handed (w : World P) (r : P.State × List (K × ℕ)) : World P :=
  { w.setAll r.2 with pool := r.1, granted := w.granted ++ r.2 }

/-- Call `n` gives back a slot of kind `k` and is over. -/
def giveBack (w : World P) (n : ℕ) (k : K) : World P :=
  (w.setPhase n .over).handed (P.release k (w.setPhase n .over).done w.pool)

def step (w : World P) : Step P → Option (World P)
  | .acquire k =>
    match P.take k w.pool with
    | some s => some ⟨s, w.calls ++ [⟨k, .holding⟩], w.granted ++ [(k, w.calls.length)]⟩
    | none =>
      some { w with pool := P.enqueue k w.calls.length w.pool, calls := w.calls ++ [⟨k, .pending⟩] }
  | .resume n => if w.phase n = some .set then some (w.setPhase n .holding) else none
  | .cancel n => if w.phase n = some .pending then some (w.setPhase n .cancelled) else none
  | .unwind n =>
    match w.calls[n]? with
    | some ⟨k, .cancelled⟩ =>
      some { w.setPhase n .over with pool := P.forget k n w.pool }
    | some ⟨k, .set⟩ => some (w.giveBack n k)
    | _ => none
  | .release n =>
    match w.calls[n]? with
    | some ⟨k, .holding⟩ => some (w.giveBack n k)
    | _ => none
  | .own o => some (w.handed (P.own o w.done w.pool))

variable [DecidableEq K]

/-- Call `c` owns a slot of kind `k`: it holds one, or its future is set. -/
def owns (k : K) (c : Call K) : Bool :=
  decide (c.kind = k) && (c.phase == .holding || c.phase == .set)

/-- The number of calls that own a slot of kind `k`. -/
def owners (w : World P) (k : K) : ℤ := w.calls.countP (owns k)

/-- Call `n` is one of kind `k` whose future is neither set nor cancelled. -/
def awaits (w : World P) (k : K) (n : ℕ) : Bool :=
  (w.calls[n]?).any fun c => decide (c.kind = k) && c.phase == .pending

/-- The waiting calls of kind `k` in order of arrival. -/
def waiting (w : World P) (k : K) : List ℕ := (List.range w.calls.length).filter (w.awaits k)

/-- The calls of kind `k` that have been given a slot, in the order they were. -/
def grants (w : World P) (k : K) : List ℕ :=
  (w.granted.filter fun g => decide (g.1 = k)).map Prod.snd

end World

/-- What the steps of a run lead to. -/
inductive Reachable (P : SlotPool K) : World P → Prop
  | initial : Reachable P (initial P)
  | step {w w' : World P} {l : Step P} : Reachable P w → w.step l = some w' → Reachable P w'

/-- Take the steps one by one. -/
def World.run (w : World P) (ls : List (Step P)) : Option (World P) := ls.foldlM World.step w

lemma Reachable.run {w w' : World P} {ls : List (Step P)} (h : Reachable P w)
    (hr : w.run ls = some w') : Reachable P w' := by
  induction ls generalizing w with
  | nil =>
    cases hr
    exact h
  | cons l ls ih =>
    obtain ⟨w₁, h₁, h₂⟩ := Option.bind_eq_some_iff.1 hr
    exact ih (h.step h₁) h₂

/-! ### Laws of a pool -/

variable [DecidableEq K]

/-- Slots go to the live futures at the front of each queue, beside a change `δ` of what is
held. -/
structure Hands (P : SlotPool K) (done : ℕ → Bool) (δ : K → ℤ) (s : P.State)
    (r : P.State × List (K × ℕ)) : Prop where
  held : ∀ k, P.held r.1 k = P.held s k + δ k + (r.2.countP fun g => decide (g.1 = k))
  queue : ∀ k, (P.queue s k).filter (fun n => !done n) =
    (r.2.filter fun g => decide (g.1 = k)).map Prod.snd ++
      (P.queue r.1 k).filter (fun n => !done n)
  subset : ∀ k, P.queue r.1 k ⊆ P.queue s k

structure Lawful (P : SlotPool K) : Prop where
  held_init : ∀ k, P.held P.init k = 0
  queue_init : ∀ k, P.queue P.init k = []
  held_take : ∀ {k s s'}, P.take k s = some s' →
    ∀ j, P.held s' j = P.held s j + if k = j then 1 else 0
  queue_take : ∀ {k s s'}, P.take k s = some s' → ∀ j, P.queue s' j = P.queue s j
  held_enqueue : ∀ k n s j, P.held (P.enqueue k n s) j = P.held s j
  queue_enqueue : ∀ k n s j, P.queue (P.enqueue k n s) j = P.queue s j ++ if k = j then [n] else []
  held_forget : ∀ k n s j, P.held (P.forget k n s) j = P.held s j
  queue_forget : ∀ k n s j (done : ℕ → Bool), done n = true →
    (P.queue (P.forget k n s) j).filter (fun m => !done m) =
      (P.queue s j).filter (fun m => !done m)
  subset_forget : ∀ k n s j, P.queue (P.forget k n s) j ⊆ P.queue s j
  release : ∀ k done s, Hands P done (fun j => if k = j then -1 else 0) s (P.release k done s)
  own : ∀ o done s, Hands P done (fun _ => 0) s (P.own o done s)

/-- `I` holds of the pool and the done futures throughout a run, and no call takes a slot while
another of its kind waits. -/
structure Kept (P : SlotPool K) (I : P.State → (ℕ → Bool) → Prop) : Prop where
  init : I P.init fun _ => true
  mono : ∀ {s} {d d' : ℕ → Bool}, I s d → (∀ n, d n = true → d' n = true) → I s d'
  take : ∀ {k s s' d}, I s d → P.take k s = some s' →
    I s' d ∧ (P.queue s k).filter (fun n => !d n) = []
  enqueue : ∀ {k n s d}, I s d → P.take k s = none → (∀ j, n ∉ P.queue s j) →
    I (P.enqueue k n s) (Function.update d n false)
  forget : ∀ {k n s d}, I s d → d n = true → I (P.forget k n s) d
  release : ∀ {k s d}, I s d → I (P.release k d s).1 d
  own : ∀ {o s d}, I s d → I (P.own o d s).1 d

/-! ### Setting futures -/

namespace World

variable {w : World P} {n m : ℕ} {k : K} {x : Phase} {c : Call K}

omit [DecidableEq K] in
lemma calls_setPhase : (w.setPhase n x).calls[m]? =
    (w.calls[m]?).map fun c => if n = m then { c with phase := x } else c := by
  simp only [setPhase, List.getElem?_modify]
  split <;> rfl

omit [DecidableEq K] in
@[simp] lemma length_setPhase : (w.setPhase n x).calls.length = w.calls.length :=
  List.length_modify ..

omit [DecidableEq K] in
lemma done_setPhase (hx : x ≠ .pending) : (w.setPhase n x).done m = (w.done m || m == n) := by
  unfold done phase
  rw [calls_setPhase]
  rcases h : w.calls[m]? with _ | c
  · simp
  · rcases eq_or_ne m n with rfl | hmn
    · simp [hx]
    · simp [hmn, hmn.symm]

lemma awaits_iff : w.awaits k n = true ↔ w.calls[n]? = some ⟨k, .pending⟩ := by
  unfold awaits
  rcases w.calls[n]? with _ | ⟨j, y⟩ <;> simp

lemma awaits_setPhase (hx : x ≠ .pending) :
    (w.setPhase n x).awaits k m = (w.awaits k m && m != n) := by
  unfold awaits
  rw [calls_setPhase]
  rcases w.calls[m]? with _ | c
  · rfl
  · rcases eq_or_ne m n with rfl | hmn
    · simp [hx]
    · simp [hmn, hmn.symm]

lemma mem_waiting : n ∈ w.waiting k ↔ w.calls[n]? = some ⟨k, .pending⟩ := by
  rw [waiting, List.mem_filter, List.mem_range, awaits_iff]
  exact and_iff_right_of_imp fun h => (List.getElem?_eq_some_iff.1 h).1

lemma waiting_setPhase (hx : x ≠ .pending) :
    (w.setPhase n x).waiting k = (w.waiting k).filter (· != n) := by
  rw [waiting, waiting, length_setPhase, List.filter_filter]
  congr 1
  funext m
  rw [awaits_setPhase hx, Bool.and_comm]

lemma waiting_sorted : (w.waiting k).Pairwise (· < ·) := List.pairwise_lt_range.filter _

lemma waiting_nodup : (w.waiting k).Nodup := waiting_sorted.imp fun h => h.ne

lemma owners_setPhase (h : w.calls[n]? = some c) : (w.setPhase n x).owners k =
    w.owners k + (if owns k { c with phase := x } then 1 else 0) - if owns k c then 1 else 0 := by
  obtain ⟨hn, rfl⟩ := List.getElem?_eq_some_iff.1 h
  have hpos : owns k w.calls[n] = true → 0 < w.calls.countP (owns k) := fun hc =>
    List.countP_pos_iff.2 ⟨_, List.getElem_mem hn, hc⟩
  have : Inhabited (Call K) := ⟨w.calls[n]⟩
  unfold owners setPhase
  rw [List.modify_eq_set, h, Option.getD_some, List.countP_set hn]
  split <;> split <;> rename_i h₁ h₂ <;> simp_all

section SetAll
variable {gs : List (K × ℕ)}

omit [DecidableEq K] in
@[simp] lemma length_setAll : (w.setAll gs).calls.length = w.calls.length := by
  induction gs generalizing w with
  | nil => rfl
  | cons g gs ih => exact (ih (w := w.setPhase g.2 .set)).trans length_setPhase

omit [DecidableEq K] in
lemma done_setAll : (w.setAll gs).done m = (w.done m || decide (m ∈ gs.map Prod.snd)) := by
  induction gs generalizing w with
  | nil => simp [setAll]
  | cons g gs ih =>
    refine (ih (w := w.setPhase g.2 .set)).trans ?_
    rw [done_setPhase (by simp), List.map_cons]
    simp [Bool.or_assoc]

lemma waiting_setAll :
    (w.setAll gs).waiting k = (w.waiting k).filter fun n => decide (n ∉ gs.map Prod.snd) := by
  induction gs generalizing w with
  | nil => simp [setAll]
  | cons g gs ih =>
    refine (ih (w := w.setPhase g.2 .set)).trans ?_
    rw [waiting_setPhase (by simp), List.filter_filter]
    congr 1
    funext n
    rw [List.map_cons]
    simp [bne, Bool.and_comm]

/-- Setting the futures of waiting calls makes owners of them. -/
lemma owners_setAll (hp : ∀ g ∈ gs, w.calls[g.2]? = some ⟨g.1, .pending⟩)
    (hn : (gs.map Prod.snd).Nodup) : (w.setAll gs).owners k =
      w.owners k + (gs.countP fun g => decide (g.1 = k)) := by
  induction gs generalizing w with
  | nil => simp [setAll]
  | cons g gs ih =>
    rw [List.map_cons, List.nodup_cons] at hn
    have hg := hp g (by simp)
    have hp' : ∀ g' ∈ gs, (w.setPhase g.2 .set).calls[g'.2]? = some ⟨g'.1, .pending⟩ := by
      intro g' hg'
      have hne : g.2 ≠ g'.2 := fun h => hn.1 (h ▸ List.mem_map_of_mem hg')
      rw [calls_setPhase, hp g' (by simp [hg']), Option.map_some, if_neg hne]
    refine (ih hp' hn.2).trans ?_
    rw [owners_setPhase hg, List.countP_cons]
    simp only [owns]
    by_cases hk : g.1 = k
    · simp [hk]
      omega
    · simp [hk]

end SetAll

end World

/-! ### Runs -/

/-- What holds of a reachable world: the books are right, the live futures of each queue are the
waiting calls in order, and slots have been given in the order of arrival. -/
structure Inv (I : P.State → (ℕ → Bool) → Prop) (w : World P) : Prop where
  pool : I w.pool w.done
  held : ∀ k, P.held w.pool k = w.owners k
  queue : ∀ k, (P.queue w.pool k).filter (fun n => !w.done n) = w.waiting k
  made : ∀ k, ∀ n ∈ P.queue w.pool k, n < w.calls.length
  order : ∀ k, (w.grants k ++ w.waiting k).Pairwise (· < ·)
  given : ∀ k, ∀ n ∈ w.grants k, n < w.calls.length

section Runs
variable {I : P.State → (ℕ → Bool) → Prop} {w w' : World P} {δ : K → ℤ}
  {r : P.State × List (K × ℕ)}

/-- Slots go to waiting calls, to each at most one. -/
lemma Hands.pending (h : Hands P w.done δ w.pool r)
    (hq : ∀ k, (P.queue w.pool k).filter (fun n => !w.done n) = w.waiting k) :
    (∀ g ∈ r.2, w.calls[g.2]? = some ⟨g.1, .pending⟩) ∧ (r.2.map Prod.snd).Nodup := by
  have hp : ∀ g ∈ r.2, w.calls[g.2]? = some ⟨g.1, .pending⟩ := by
    intro g hg
    rw [← World.mem_waiting, ← hq, h.queue]
    exact List.mem_append_left _ (List.mem_map.2 ⟨g, List.mem_filter.2 ⟨hg, by simp⟩, rfl⟩)
  have hn : ∀ k, ((r.2.filter fun g => decide (g.1 = k)).map Prod.snd).Nodup := fun k =>
    (List.nodup_append.1 ((h.queue k).symm.trans (hq k) ▸ World.waiting_nodup)).1
  refine ⟨hp, ?_⟩
  generalize r.2 = gs at hp hn
  induction gs with
  | nil => exact .nil
  | cons g gs ih =>
    refine List.nodup_cons.2 ⟨?_, ih (fun g' hg' => hp g' (by simp [hg'])) fun k => ?_⟩
    · intro hmem
      obtain ⟨g', hg', heq⟩ := List.mem_map.1 hmem
      have hkind : g'.1 = g.1 := by
        have := (hp g' (by simp [hg'])).symm.trans (heq ▸ hp g (by simp))
        simpa using this
      have := hn g.1
      rw [List.filter_cons_of_pos (by simp), List.map_cons, List.nodup_cons] at this
      exact this.1 (List.mem_map.2 ⟨g', List.mem_filter.2 ⟨hg', by simp [hkind]⟩, heq⟩)
    · exact (hn k).sublist ((List.sublist_cons_self ..).filter _ |>.map _)

/-- Passing slots on keeps the invariant. -/
lemma Inv.handed (hk : Kept P I) (h : Hands P w.done δ w.pool r) (hI : I r.1 w.done)
    (hheld : ∀ k, P.held w.pool k + δ k = w.owners k)
    (hq : ∀ k, (P.queue w.pool k).filter (fun n => !w.done n) = w.waiting k)
    (hm : ∀ k, ∀ n ∈ P.queue w.pool k, n < w.calls.length)
    (ho : ∀ k, (w.grants k ++ w.waiting k).Pairwise (· < ·))
    (hg : ∀ k, ∀ n ∈ w.grants k, n < w.calls.length) : Inv I (w.handed r) := by
  obtain ⟨hp, hn⟩ := h.pending hq
  have hsplit : ∀ k, w.waiting k = (r.2.filter fun g => decide (g.1 = k)).map Prod.snd ++
      (P.queue r.1 k).filter (fun n => !w.done n) := fun k => (hq k).symm.trans (h.queue k)
  -- what stays in the queue of a kind was not given a slot, under whatever kind
  have hrest : ∀ k, ∀ n ∈ (P.queue r.1 k).filter (fun n => !w.done n), n ∉ r.2.map Prod.snd := by
    intro k n hmem hgiven
    obtain ⟨g, hg, rfl⟩ := List.mem_map.1 hgiven
    have hkind : g.1 = k := by
      have : g.2 ∈ w.waiting k := hsplit k ▸ List.mem_append_right _ hmem
      simpa using (hp g hg).symm.trans (World.mem_waiting.1 this)
    have hnd := World.waiting_nodup (w := w) (k := k)
    rw [hsplit k] at hnd
    exact (List.nodup_append.1 hnd).2.2 _
      (List.mem_map.2 ⟨g, List.mem_filter.2 ⟨hg, by simp [hkind]⟩, rfl⟩) _ hmem rfl
  have hwait : ∀ k, (w.handed r).waiting k = (P.queue r.1 k).filter (fun n => !w.done n) := by
    intro k
    refine World.waiting_setAll.trans ?_
    rw [hsplit k, List.filter_append, List.filter_eq_nil_iff.2, List.nil_append,
      List.filter_eq_self.2]
    · exact fun n hn => decide_eq_true (hrest k n hn)
    · intro n hn
      obtain ⟨g, hg, rfl⟩ := List.mem_map.1 hn
      simpa using ⟨g.1, (List.mem_filter.1 hg).1⟩
  have hgrant : ∀ k, (w.handed r).grants k =
      w.grants k ++ (r.2.filter fun g => decide (g.1 = k)).map Prod.snd := fun k => by
    simp [World.grants, World.handed]
  have hdone : (w.handed r).done = fun n => w.done n || decide (n ∈ r.2.map Prod.snd) :=
    funext fun n => World.done_setAll
  have hlen : (w.handed r).calls.length = w.calls.length := World.length_setAll
  refine ⟨?_, fun k => ?_, fun k => ?_, fun k n hn => ?_, fun k => ?_, fun k n hn => ?_⟩
  · rw [hdone]
    exact hk.mono hI fun n hn => by simp [hn]
  · exact (h.held k).trans ((hheld k).symm ▸ (World.owners_setAll hp hn).symm)
  · rw [hwait, hdone]
    show (P.queue r.1 k).filter _ = _
    refine List.filter_congr fun n hn => ?_
    by_cases hd : w.done n = true
    · simp [hd]
    · have := hrest k n (List.mem_filter.2 ⟨hn, by simpa using hd⟩)
      simp [this]
  · exact hlen ▸ hm k n (h.subset k hn)
  · rw [hgrant, hwait, List.append_assoc, ← hsplit]
    exact ho k
  · rw [hlen]
    rcases List.mem_append.1 (hgrant k ▸ hn) with hn | hn
    · exact hg k n hn
    · obtain ⟨g, hg, rfl⟩ := List.mem_map.1 hn
      exact (List.getElem?_eq_some_iff.1 (hp g (List.mem_filter.1 hg).1)).1

lemma Inv.initial (hl : Lawful P) (hk : Kept P I) : Inv I (initial P) where
  pool := hk.init
  held k := hl.held_init k
  queue k := by rw [show (SlotPool.initial P).pool = P.init from rfl, hl.queue_init]; rfl
  made k n hn := by
    rw [show (SlotPool.initial P).pool = P.init from rfl, hl.queue_init] at hn
    cases hn
  order _ := .nil
  given _ _ hn := (List.not_mem_nil hn).elim

/-- A call makes a transition that neither frees nor takes a slot. -/
lemma Inv.setPhase (hk : Kept P I) (h : Inv I w) {n : ℕ} {x : Phase} (hx : x ≠ .pending) {c : Call K}
    (hc : w.calls[n]? = some c) (hown : ∀ k, World.owns k { c with phase := x } = World.owns k c) :
    Inv I (w.setPhase n x) where
  pool := by
    refine hk.mono h.pool fun m hm => ?_
    rw [World.done_setPhase hx, hm, Bool.true_or]
  held k := by
    rw [World.owners_setPhase hc, hown, add_sub_cancel_right]
    exact h.held k
  queue k := by
    rw [World.waiting_setPhase hx, ← h.queue, List.filter_filter]
    refine List.filter_congr fun m _ => ?_
    rw [World.done_setPhase hx, Bool.not_or, Bool.and_comm]
    rfl
  made k m hm := (h.made k m hm).trans_eq World.length_setPhase.symm
  order k := by
    rw [World.waiting_setPhase hx]
    exact (h.order k).sublist (List.filter_sublist.append_left _)
  given k m hm := (h.given k m hm).trans_eq World.length_setPhase.symm

/-- Call `n` gives back a slot that it owns. -/
lemma Inv.giveBack (hl : Lawful P) (hk : Kept P I) (h : Inv I w) {n : ℕ} {k : K} {x : Phase}
    (hx : x = .holding ∨ x = .set) (hc : w.calls[n]? = some ⟨k, x⟩) : Inv I (w.giveBack n k) := by
  have hdone : (w.setPhase n .over).done = w.done := by
    funext m
    rw [World.done_setPhase (by simp)]
    by_cases hm : m = n
    · subst hm
      rcases hx with rfl | rfl <;> simp [World.done, World.phase, hc]
    · simp [hm]
  have hwait : ∀ j, (w.setPhase n .over).waiting j = w.waiting j := by
    intro j
    rw [World.waiting_setPhase (by simp)]
    refine List.filter_eq_self.2 fun m hm => ?_
    have : m ≠ n := by
      rintro rfl
      have := hc.symm.trans (World.mem_waiting.1 hm)
      rcases hx with rfl | rfl <;> simp at this
    simpa using this
  refine Inv.handed hk (hl.release k _ _) ?_ (fun j => ?_) (fun j => ?_)
    (fun j m hm => ?_) (fun j => ?_) fun j m hm => ?_
  · rw [hdone]
    exact hk.release h.pool
  · rw [World.owners_setPhase hc, show (w.setPhase n .over).pool = w.pool from rfl, h.held]
    rcases hx with rfl | rfl <;> by_cases hj : k = j <;> simp [World.owns, hj, sub_eq_add_neg]
  · rw [hdone, hwait]
    exact h.queue j
  · exact (h.made j m hm).trans_eq World.length_setPhase.symm
  · rw [hwait]
    exact h.order j
  · exact (h.given j m hm).trans_eq World.length_setPhase.symm

section Append
variable {s : P.State} {g : List (K × ℕ)} {c : Call K} {m : ℕ} {k : K}

omit [DecidableEq K] in
/-- A new call leaves the earlier ones as they are. -/
lemma World.calls_append (hm : m ≠ w.calls.length) :
    (⟨s, w.calls ++ [c], g⟩ : World P).calls[m]? = w.calls[m]? := by
  rcases Nat.lt_or_gt_of_ne hm with hm | hm
  · exact List.getElem?_append_left hm
  · rw [List.getElem?_eq_none (by simp; omega), List.getElem?_eq_none (by omega)]

omit [DecidableEq K] in
lemma World.done_append : (⟨s, w.calls ++ [c], g⟩ : World P).done =
    Function.update w.done w.calls.length (c.phase != .pending) := by
  funext m
  by_cases hm : m = w.calls.length
  · subst hm
    rw [Function.update_self, World.done, World.phase, List.getElem?_concat_length]
    obtain ⟨k, x⟩ := c
    cases x <;> rfl
  · rw [Function.update_of_ne hm, World.done, World.phase, World.calls_append hm]
    rfl

omit [DecidableEq K] in
lemma World.done_new : w.done w.calls.length = true := by
  simp [World.done, World.phase]

lemma World.waiting_append : (⟨s, w.calls ++ [c], g⟩ : World P).waiting k = w.waiting k ++
    if c.kind = k ∧ c.phase = .pending then [w.calls.length] else [] := by
  have hold : ∀ m ∈ List.range w.calls.length,
      (⟨s, w.calls ++ [c], g⟩ : World P).awaits k m = w.awaits k m := by
    intro m hm
    unfold World.awaits
    rw [World.calls_append (List.mem_range.1 hm).ne]
  unfold World.waiting
  rw [List.length_append, List.length_singleton, List.range_succ, List.filter_append,
    List.filter_congr hold]
  congr 1
  by_cases hc : c.kind = k ∧ c.phase = .pending <;> simp [World.awaits, hc]

lemma World.owners_append : (⟨s, w.calls ++ [c], g⟩ : World P).owners k =
    w.owners k + if World.owns k c then 1 else 0 := by
  simp only [World.owners, List.countP_append, List.countP_singleton]
  split <;> simp

end Append

/-- A call is made and takes a slot at once. -/
lemma Inv.take (hl : Lawful P) (hk : Kept P I) (h : Inv I w) {k : K} {s : P.State}
    (hs : P.take k w.pool = some s) :
    Inv I ⟨s, w.calls ++ [⟨k, .holding⟩], w.granted ++ [(k, w.calls.length)]⟩ := by
  have hdone : (⟨s, w.calls ++ [⟨k, .holding⟩], w.granted ++ [(k, w.calls.length)]⟩ :
      World P).done = w.done := by
    rw [World.done_append, Function.update_eq_self_iff]
    exact World.done_new.symm
  have hwait : ∀ j, (⟨s, w.calls ++ [⟨k, .holding⟩], w.granted ++ [(k, w.calls.length)]⟩ :
      World P).waiting j = w.waiting j := fun j => by
    rw [World.waiting_append]
    simp
  have hgrant : ∀ j, (⟨s, w.calls ++ [⟨k, .holding⟩], w.granted ++ [(k, w.calls.length)]⟩ :
      World P).grants j = w.grants j ++ if k = j then [w.calls.length] else [] := fun j => by
    by_cases hj : k = j <;> simp [World.grants, hj]
  refine ⟨?_, fun j => ?_, fun j => ?_, fun j m hm => ?_, fun j => ?_, fun j m hm => ?_⟩
  · rw [hdone]
    exact (hk.take h.pool hs).1
  · rw [hl.held_take hs, h.held, World.owners_append]
    by_cases hj : k = j <;> simp [World.owns, hj]
  · rw [hdone, hwait, hl.queue_take hs]
    exact h.queue j
  · rw [List.length_append, List.length_singleton]
    exact (h.made j m (hl.queue_take hs j ▸ hm)).trans (Nat.lt_succ_self _)
  · rw [hwait, hgrant]
    by_cases hj : k = j
    · subst hj
      -- no call of this kind is waiting, so the new one overtakes nobody
      have hnone : w.waiting k = [] := h.queue k ▸ (hk.take h.pool hs).2
      rw [if_pos rfl, hnone, List.append_nil, List.pairwise_append]
      refine ⟨(h.order k).sublist (List.sublist_append_left ..), List.pairwise_singleton .., ?_⟩
      exact fun m hm n hn => (List.mem_singleton.1 hn) ▸ h.given k m hm
    · rw [if_neg hj, List.append_nil]
      exact h.order j
  · rw [hgrant] at hm
    rw [List.length_append, List.length_singleton]
    rcases List.mem_append.1 hm with hm | hm
    · exact (h.given j m hm).trans (Nat.lt_succ_self _)
    · split at hm
      · exact List.mem_singleton.1 hm ▸ Nat.lt_succ_self _
      · cases hm

/-- A call is made and waits. -/
lemma Inv.enqueue (hl : Lawful P) (hk : Kept P I) (h : Inv I w) {k : K}
    (hs : P.take k w.pool = none) : Inv I { w with
      pool := P.enqueue k w.calls.length w.pool, calls := w.calls ++ [⟨k, .pending⟩] } := by
  have hold : ∀ j, ∀ m ∈ P.queue w.pool j, (!Function.update w.done w.calls.length false m) =
      !w.done m := fun j m hm => by rw [Function.update_of_ne (h.made j m hm).ne]
  refine ⟨?_, fun j => ?_, fun j => ?_, fun j m hm => ?_, fun j => ?_, fun j m hm => ?_⟩
  · rw [World.done_append]
    exact hk.enqueue h.pool hs fun j hn => (h.made j _ hn).ne rfl
  · rw [hl.held_enqueue, h.held, World.owners_append]
    simp [World.owns]
  · rw [hl.queue_enqueue, World.waiting_append, World.done_append, List.filter_append, ← h.queue]
    congr 1
    · exact List.filter_congr (hold j)
    · by_cases hj : k = j <;> simp [hj]
  · rw [List.length_append, List.length_singleton]
    rw [hl.queue_enqueue] at hm
    rcases List.mem_append.1 hm with hm | hm
    · exact (h.made j m hm).trans (Nat.lt_succ_self _)
    · split at hm
      · exact List.mem_singleton.1 hm ▸ Nat.lt_succ_self _
      · cases hm
  · rw [World.waiting_append, ← List.append_assoc, List.pairwise_append]
    refine ⟨h.order j, by split <;> simp, fun m hm n hn => ?_⟩
    split at hn
    · rw [List.mem_singleton.1 hn]
      rcases List.mem_append.1 hm with hm | hm
      · exact h.given j m hm
      · exact (List.getElem?_eq_some_iff.1 (World.mem_waiting.1 hm)).1
    · cases hn
  · exact (h.given j m hm).trans (by simp)

/-- A cancelled future leaves its queue. -/
lemma Inv.forget (hl : Lawful P) (hk : Kept P I) (h : Inv I w) {k : K} {n : ℕ}
    (hn : w.done n = true) : Inv I { w with pool := P.forget k n w.pool } where
  pool := hk.forget h.pool hn
  held j := (hl.held_forget ..).trans (h.held j)
  queue j := (hl.queue_forget _ _ _ _ _ hn).trans (h.queue j)
  made j m hm := h.made j m (hl.subset_forget _ _ _ _ hm)
  order := h.order
  given := h.given

lemma Inv.step (hl : Lawful P) (hk : Kept P I) (h : Inv I w) {l : Step P}
    (hs : w.step l = some w') : Inv I w' := by
  have hphase : ∀ {n x}, w.phase n = some x → ∃ k, w.calls[n]? = some ⟨k, x⟩ := by
    intro n x hx
    obtain ⟨⟨k, y⟩, hc, rfl⟩ := Option.map_eq_some_iff.1 hx
    exact ⟨k, hc⟩
  cases l with
  | acquire k =>
    simp only [World.step] at hs
    split at hs
    · rename_i s hs'
      cases hs
      exact h.take hl hk hs'
    · rename_i hs'
      cases hs
      exact h.enqueue hl hk hs'
  | resume n =>
    simp only [World.step] at hs
    split at hs
    · rename_i hx
      cases hs
      obtain ⟨k, hc⟩ := hphase hx
      exact h.setPhase hk (by simp) hc fun j => rfl
    · cases hs
  | cancel n =>
    simp only [World.step] at hs
    split at hs
    · rename_i hx
      cases hs
      obtain ⟨k, hc⟩ := hphase hx
      exact h.setPhase hk (by simp) hc fun j => rfl
    · cases hs
  | unwind n =>
    simp only [World.step] at hs
    split at hs
    · rename_i k hc
      cases hs
      have h' := h.setPhase hk (x := .over) (by simp) hc fun j => rfl
      exact h'.forget hl hk (by simp [World.done_setPhase])
    · rename_i k hc
      cases hs
      exact h.giveBack hl hk (.inr rfl) hc
    · cases hs
  | release n =>
    simp only [World.step] at hs
    split at hs
    · rename_i k hc
      cases hs
      exact h.giveBack hl hk (.inl rfl) hc
    · cases hs
  | own o =>
    cases hs
    exact Inv.handed hk (hl.own o _ _) (hk.own h.pool) (fun j => by rw [add_zero, h.held])
      h.queue h.made h.order h.given

/-- **Run rule**: the invariant holds of every reachable world. -/
lemma Reachable.inv (hl : Lawful P) (hk : Kept P I) (h : Reachable P w) : Inv I w := by
  induction h with
  | initial => exact .initial hl hk
  | step _ hs ih => exact ih.step hl hk hs

end Runs

end SlotPool

end Treeweft
