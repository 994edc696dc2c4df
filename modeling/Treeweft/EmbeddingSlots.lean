import Treeweft.SlotPool
import Mathlib.Algebra.Order.Archimedean.Basic
import Mathlib.Data.Rat.Floor
import Mathlib.Order.Monotone.Basic
import Mathlib.Tactic.Linarith
import Mathlib.Tactic.Positivity

/-!
The requests that an embedding backend is sent at once.

A backend answers at most `concurrency_limit` requests at a time; the others wait in the proxy.
The limit halves on a sign of overload and grows while answers are fast.
-/

namespace Treeweft.EmbeddingSlots

/-- Arithmetic of floats, as far as the limit needs it. -/
structure Rounding where
  round : ℚ → ℚ
  mono : Monotone round
  round_round : ∀ x, round (round x) = round x
  round_zero : round 0 = 0
  round_one : round 1 = 1

/-- The numbers `EmbeddingProxy.__init__` was given. -/
structure Config where
  float : Rounding
  initial_concurrency : ℤ
  max_concurrency : ℤ

namespace Config

variable (c : Config)

/-- `_initial_concurrency`. -/
def initialConcurrency : ℤ := max 1 c.initial_concurrency

/-- `_max_concurrency`. -/
def maxConcurrency : ℤ := max c.initialConcurrency c.max_concurrency

/-- `float(self._initial_concurrency)`. -/
def initialLimit : ℚ := c.float.round c.initialConcurrency

/-- `float(self._max_concurrency)`. -/
def maxLimit : ℚ := c.float.round c.maxConcurrency

lemma one_le_initialLimit : 1 ≤ c.initialLimit := by
  rw [← c.float.round_one]
  exact c.float.mono (by exact_mod_cast le_max_left 1 _)

lemma initialLimit_le : c.initialLimit ≤ c.maxLimit :=
  c.float.mono (by exact_mod_cast le_max_left _ _)

end Config

/-- What a `Backend` records of its load; `none` stands for an infinite threshold and for a time
before all others. -/
structure Slots where
  active : ℤ
  concurrency_limit : ℚ
  slow_start_threshold : Option ℚ
  last_decrease_at : Option ℕ
  waiters : List ℕ

/-- `int(backend.concurrency_limit)`. -/
def Slots.limit (s : Slots) : ℤ := ⌊s.concurrency_limit⌋

/-- The loop of `_wake`, with the futures that get a slot. -/
def wakeLoop (done : ℕ → Bool) (limit : ℤ) : ℤ → List ℕ → (ℤ × List ℕ) × List ℕ
  | active, [] => ((active, []), [])
  | active, f :: fs =>
    if active < limit then
      if done f then wakeLoop done limit active fs
      else
        let r := wakeLoop done limit (active + 1) fs
        (r.1, f :: r.2)
    else ((active, f :: fs), [])

/-- `_wake`. -/
def wake (done : ℕ → Bool) (s : Slots) : Slots × List (Unit × ℕ) :=
  let r := wakeLoop done s.limit s.active s.waiters
  ({ s with active := r.1.1, waiters := r.1.2 }, r.2.map fun f => ((), f))

/-- `_release_slot`. -/
def releaseSlot (done : ℕ → Bool) (s : Slots) : Slots × List (Unit × ℕ) :=
  wake done { s with active := s.active - 1 }

/-- `_back_off`, at `now`, for a request sent at `sentAt`. -/
def backOff (c : Config) (sentAt now : ℕ) (s : Slots) : Slots :=
  if s.last_decrease_at.any (sentAt < ·) then s
  else
    let limit := max 1 (c.float.round (s.concurrency_limit / 2))
    { s with concurrency_limit := limit, slow_start_threshold := some limit,
             last_decrease_at := some now }

@[simp] lemma backOff_active (c : Config) (sentAt now : ℕ) (s : Slots) :
    (backOff c sentAt now s).active = s.active := by
  unfold backOff
  split <;> rfl

@[simp] lemma backOff_waiters (c : Config) (sentAt now : ℕ) (s : Slots) :
    (backOff c sentAt now s).waiters = s.waiters := by
  unfold backOff
  split <;> rfl

/-- What `_grow` makes of the limit. -/
def Slots.grownLimit (c : Config) (s : Slots) : ℚ :=
  let limit := s.concurrency_limit
  let step := if s.slow_start_threshold.all (limit < ·) then 1 else c.float.round (1 / limit)
  min c.maxLimit (c.float.round (limit + step))

/-- `_grow`. -/
def grow (c : Config) (done : ℕ → Bool) (s : Slots) : Slots × List (Unit × ℕ) :=
  wake done { s with concurrency_limit := s.grownLimit c }

inductive Own
  | backOff (sentAt now : ℕ)
  | grow

def pool (c : Config) : SlotPool Unit where
  State := Slots
  Own := Own
  init := ⟨0, c.initialLimit, none, none, []⟩
  held s _ := s.active
  queue s _ := s.waiters
  take _ s :=
    if s.active < s.limit ∧ s.waiters = [] then some { s with active := s.active + 1 } else none
  enqueue _ n s := { s with waiters := s.waiters ++ [n] }
  forget _ _ s := s
  release _ := releaseSlot
  own
    | .backOff sentAt now, _, s => (backOff c sentAt now s, [])
    | .grow, done, s => grow c done s

/-! ### Waking -/

variable {c : Config} {done : ℕ → Bool} {s : Slots}

/-- Live futures leave the front of the queue, each with a slot, until the limit is reached or
the queue is empty. -/
lemma wakeLoop_spec (done : ℕ → Bool) (limit active : ℤ) (fs : List ℕ) :
    (wakeLoop done limit active fs).1.1 = active + (wakeLoop done limit active fs).2.length ∧
    fs.filter (fun n => !done n) = (wakeLoop done limit active fs).2 ++
      (wakeLoop done limit active fs).1.2.filter (fun n => !done n) ∧
    (wakeLoop done limit active fs).1.2 <:+ fs ∧
    ((wakeLoop done limit active fs).1.2 = [] ∨ limit ≤ (wakeLoop done limit active fs).1.1) := by
  fun_induction wakeLoop done limit active fs with
  | case1 active => simp
  | case2 active f fs h hd ih =>
    obtain ⟨h₁, h₂, h₃, h₄⟩ := ih
    exact ⟨h₁, by rw [List.filter_cons_of_neg (by simp [hd]), h₂], h₃.trans (List.suffix_cons ..), h₄⟩
  | case3 active f fs h hd r ih =>
    obtain ⟨h₁, h₂, h₃, h₄⟩ := ih
    refine ⟨?_, ?_, h₃.trans (List.suffix_cons ..), h₄⟩
    · rw [h₁, List.length_cons]
      push_cast
      ring
    · rw [List.filter_cons_of_pos (by simpa using hd), h₂, List.cons_append]
  | case4 active f fs h =>
    exact ⟨by simp, by simp, List.suffix_refl _, .inr (not_lt.1 h)⟩

lemma wake_hands (done : ℕ → Bool) (s : Slots) :
    SlotPool.Hands (pool c) done (fun _ => 0) s (wake done s) := by
  obtain ⟨h₁, h₂, h₃, -⟩ := wakeLoop_spec done s.limit s.active s.waiters
  refine ⟨fun _ => ?_, fun _ => ?_, fun _ => h₃.subset⟩
  · simp [wake, pool, h₁, List.countP_map, Function.comp_def]
  · simpa [wake, pool, Function.comp_def] using h₂

lemma backOff_hands {sentAt now : ℕ} :
    SlotPool.Hands (pool c) done (fun _ => 0) s (backOff c sentAt now s, []) :=
  ⟨fun _ => by simp [pool], fun _ => by simp [pool], fun _ => by simp [pool]⟩

/-! ### The limit and idle slots -/

lemma maxLimit_round (c : Config) : c.float.round c.maxLimit = c.maxLimit := c.float.round_round _

lemma one_le_maxLimit (c : Config) : 1 ≤ c.maxLimit := c.one_le_initialLimit.trans c.initialLimit_le

/-- The limit is a float in its range, and no slot is free while a future is queued, dead or
alive. -/
structure Sound (c : Config) (s : Slots) : Prop where
  one_le_limit : 1 ≤ s.concurrency_limit
  limit_le : s.concurrency_limit ≤ c.maxLimit
  limit_round : c.float.round s.concurrency_limit = s.concurrency_limit
  busy : s.waiters = [] ∨ s.limit ≤ s.active

lemma wake_sound (h₁ : 1 ≤ s.concurrency_limit) (h₂ : s.concurrency_limit ≤ c.maxLimit)
    (h₃ : c.float.round s.concurrency_limit = s.concurrency_limit) : Sound c (wake done s).1 :=
  ⟨h₁, h₂, h₃, (wakeLoop_spec done s.limit s.active s.waiters).2.2.2⟩

lemma backOff_sound (h : Sound c s) (sentAt now : ℕ) : Sound c (backOff c sentAt now s) := by
  unfold backOff
  split
  · exact h
  · have h₁ := h.one_le_limit
    have hhalf : c.float.round (s.concurrency_limit / 2) ≤ s.concurrency_limit := by
      rw [← h.limit_round]
      exact c.float.mono (by rw [h.limit_round]; linarith)
    have hmax : max 1 (c.float.round (s.concurrency_limit / 2)) ≤ s.concurrency_limit :=
      max_le h₁ hhalf
    refine ⟨le_max_left _ _, hmax.trans h.limit_le, ?_, ?_⟩
    · rcases max_choice 1 (c.float.round (s.concurrency_limit / 2)) with hm | hm
      · rw [hm, c.float.round_one]
      · rw [hm, c.float.round_round]
    · exact h.busy.imp_right fun hb => (Int.floor_le_floor hmax).trans hb

lemma grow_sound (h : Sound c s) : Sound c (grow c done s).1 := by
  have h₁ := h.one_le_limit
  have hinv : 0 ≤ c.float.round (1 / s.concurrency_limit) :=
    c.float.round_zero.ge.trans (c.float.mono (by positivity))
  refine wake_sound (le_min (one_le_maxLimit c) ?_) (min_le_left _ _) ?_
  · refine c.float.round_one.ge.trans (c.float.mono ?_)
    split <;> linarith
  · unfold Slots.grownLimit
    rcases min_choice c.maxLimit (c.float.round (s.concurrency_limit +
      if s.slow_start_threshold.all (s.concurrency_limit < ·) then 1
      else c.float.round (1 / s.concurrency_limit))) with hm | hm
    · exact (congrArg _ hm).trans ((maxLimit_round c).trans hm.symm)
    · exact (congrArg _ hm).trans ((c.float.round_round _).trans hm.symm)

lemma lawful (c : Config) : (pool c).Lawful where
  held_init _ := rfl
  queue_init _ := rfl
  held_take {_ s s'} h _ := by
    simp only [pool] at h
    split at h
    · cases h
      simp [pool]
    · cases h
  queue_take {_ s s'} h _ := by
    simp only [pool] at h
    split at h
    · cases h
      rfl
    · cases h
  held_enqueue _ _ _ _ := rfl
  queue_enqueue _ _ _ _ := by simp [pool]
  held_forget _ _ _ _ := rfl
  queue_forget _ _ _ _ _ _ := rfl
  subset_forget _ _ _ _ := List.Subset.refl _
  release _ done s := by
    have h := wake_hands (c := c) done { s with active := s.active - 1 }
    refine ⟨fun k => (h.held k).trans ?_, h.queue, h.subset⟩
    rw [add_zero]
    rfl
  own o done s := by
    cases o with
    | backOff sentAt now => exact backOff_hands
    | grow =>
      have h := wake_hands (c := c) done { s with concurrency_limit := s.grownLimit c }
      exact ⟨h.held, h.queue, h.subset⟩

lemma kept (c : Config) : (pool c).Kept fun s _ => Sound c s where
  init := ⟨c.one_le_initialLimit, c.initialLimit_le, c.float.round_round _, .inl rfl⟩
  mono h _ := h
  take {_ s s' d} h hs := by
    simp only [pool] at hs
    split at hs
    · rename_i hw
      cases hs
      refine ⟨⟨h.one_le_limit, h.limit_le, h.limit_round, .inl hw.2⟩, ?_⟩
      simp [pool, hw.2]
    · cases hs
  enqueue {_ n s d} h hs _ := by
    simp only [pool, ite_eq_right_iff, reduceCtorEq, imp_false, not_and] at hs
    refine ⟨h.one_le_limit, h.limit_le, h.limit_round, .inr ?_⟩
    rcases h.busy with hw | hb
    · exact not_lt.1 fun hlt => hs hlt hw
    · exact hb
  forget h _ := h
  release h := wake_sound h.one_le_limit h.limit_le h.limit_round
  own {o s d} h := by
    cases o with
    | backOff sentAt now => exact backOff_sound h sentAt now
    | grow => exact grow_sound h

/-- **Neither leak nor stall**, whatever the order of the steps: the slots in use are those that
calls own, so there are none once every holder has released, the limit stays in its range, and
no call waits while fewer than the limit are in use. -/
theorem limiter_sound (c : Config) {w : SlotPool.World (pool c)}
    (h : SlotPool.Reachable (pool c) w) :
    0 ≤ w.pool.active ∧ w.pool.active = w.owners () ∧
      1 ≤ w.pool.concurrency_limit ∧ w.pool.concurrency_limit ≤ c.maxLimit ∧
      (w.waiting () ≠ [] → w.pool.limit ≤ w.pool.active) := by
  have hi := h.inv (lawful c) (kept c)
  have hown : w.pool.active = w.owners () := hi.held ()
  refine ⟨?_, hown, hi.pool.one_le_limit, hi.pool.limit_le, fun hw => ?_⟩
  · rw [hown]
    exact Int.natCast_nonneg _
  · refine hi.pool.busy.resolve_left fun hnil => hw ?_
    rw [← hi.queue, show (pool c).queue w.pool () = [] from hnil]
    rfl

def exact : Rounding := ⟨id, monotone_id, fun _ => rfl, rfl, rfl⟩

def pair : Config := ⟨exact, 2, 3⟩

/-- Two requests are out and two wait, of which one is cancelled; the limit halves, grows back, and
a release wakes the other. -/
def congested : List (SlotPool.Step (pool pair)) :=
  [.acquire (), .acquire (), .acquire (), .acquire (), .cancel 2, .own (.backOff 5 7), .release 0,
    .own .grow, .unwind 2, .resume 3]

theorem limiter_sound_of_congested : ∃ w : SlotPool.World (pool pair),
    (SlotPool.initial (pool pair)).run congested = some w ∧
    0 ≤ w.pool.active ∧ w.pool.active = w.owners () ∧
      1 ≤ w.pool.concurrency_limit ∧ w.pool.concurrency_limit ≤ pair.maxLimit ∧
      (w.waiting () ≠ [] → w.pool.limit ≤ w.pool.active) := by
  have hrun : ((SlotPool.initial (pool pair)).run congested).isSome = true := by decide +kernel
  obtain ⟨w, hw⟩ := Option.isSome_iff_exists.1 hrun
  exact ⟨w, hw, limiter_sound pair (SlotPool.Reachable.initial.run hw)⟩

end Treeweft.EmbeddingSlots
