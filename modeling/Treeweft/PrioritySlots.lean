import Treeweft.SlotPool

/-!
`PrioritySlots`: a concurrency limit whose waiters are served by priority.

A call takes a slot at once if one is free that its priority may hold, and queues behind the others
of its priority otherwise. Every release hands free slots to the queues, interactive work first,
unless the interactive calls already hold all but one slot while background work waits.
-/

namespace Treeweft.PrioritySlots

inductive Priority
  | interactive
  | background
  deriving DecidableEq, Repr

/-- What `PrioritySlots(capacity, reserved)` was built with. -/
structure Config where
  capacity : ℕ
  reserved : ℕ
  one_le_capacity : 1 ≤ capacity
  reserved_lt : reserved < capacity

/-- `PrioritySlots.__init__`. -/
def build (capacity reserved : ℤ) : Except String Config :=
  if hc : capacity < 1 then .error s!"capacity must be at least 1, got {capacity}"
  else if hr : 0 ≤ reserved ∧ reserved < capacity then
    .ok ⟨capacity.toNat, reserved.toNat, by omega, by omega⟩
  else .error
    s!"reserved must be at least 0 and less than capacity ({capacity}), got {reserved}"

/-- Every accepted pair of arguments is what the slots work with, any other is refused. -/
lemma build_ok_iff {capacity reserved : ℤ} {c : Config} : build capacity reserved = .ok c ↔
    (c.capacity : ℤ) = capacity ∧ (c.reserved : ℤ) = reserved := by
  have h₁ := c.one_le_capacity
  have h₂ := c.reserved_lt
  obtain ⟨a, b, -, -⟩ := c
  unfold build
  split
  · simp only [reduceCtorEq, false_iff]
    omega
  · split
    · simp only [Except.ok.injEq, Config.mk.injEq]
      omega
    · simp only [reduceCtorEq, false_iff]
      omega

/-- `_held` and `_waiters`. -/
structure Slots where
  held : Priority → ℤ
  waiters : Priority → List ℕ

def Slots.inUse (s : Slots) : ℤ := s.held .interactive + s.held .background

/-- The futures done at the front of each queue are dropped: cancelled while waiting. -/
def Slots.purge (done : ℕ → Bool) (s : Slots) : Slots :=
  { s with waiters := fun p => (s.waiters p).dropWhile done }

variable (c : Config)

/-- `_may_take`. -/
def mayTake (s : Slots) (p : Priority) : Bool :=
  if s.inUse ≥ c.capacity then false
  else match p with
    | .background => decide (s.held .background < c.capacity - c.reserved)
    | .interactive => true

/-- `_next_priority`, once the queues have been purged. -/
def nextPriority (s : Slots) : Option Priority :=
  let interactive := !(s.waiters .interactive).isEmpty && mayTake c s .interactive
  let background := !(s.waiters .background).isEmpty && mayTake c s .background
  if interactive && background && decide (s.held .interactive ≥ max 1 ((c.capacity : ℤ) - 1)) then
    some .background
  else if interactive then some .interactive
  else if background then some .background
  else none

/-- A waiter of priority `p` leaves its queue, now `fs`, with a slot. -/
def Slots.grant (s : Slots) (p : Priority) (fs : List ℕ) : Slots :=
  ⟨Function.update s.held p (s.held p + 1), Function.update s.waiters p fs⟩

/-- The loop of `_hand_over`, which takes a waiter out of a queue in each of its rounds. -/
def handOver (done : ℕ → Bool) : ℕ → Slots → Slots × List (Priority × ℕ)
  | 0, s => (s, [])
  | rounds + 1, s =>
    if s.inUse < c.capacity then
      let s := s.purge done
      match nextPriority c s with
      | none => (s, [])
      | some p =>
        match s.waiters p with
        | [] => (s, [])
        | f :: fs =>
          let r := handOver done rounds (s.grant p fs)
          (r.1, (p, f) :: r.2)
    else (s, [])

/-- The number of futures in the queues. -/
def Slots.queued (s : Slots) : ℕ := (s.waiters .interactive).length + (s.waiters .background).length

/-- `release`. -/
def release (p : Priority) (done : ℕ → Bool) (s : Slots) : Slots × List (Priority × ℕ) :=
  handOver c done s.queued { s with held := Function.update s.held p (s.held p - 1) }

def pool : SlotPool Priority where
  State := Slots
  Own := Empty
  init := ⟨fun _ => 0, fun _ => []⟩
  held := Slots.held
  queue := Slots.waiters
  take p s :=
    if mayTake c s p then some { s with held := Function.update s.held p (s.held p + 1) } else none
  enqueue p n s := { s with waiters := Function.update s.waiters p (s.waiters p ++ [n]) }
  forget p n s := { s with waiters := Function.update s.waiters p ((s.waiters p).erase n) }
  release := release c
  own o := nomatch o

/-! ### One hand-over -/

variable {c} {s : Slots} {done : ℕ → Bool} {p q : Priority}

lemma filter_dropWhile (fs : List ℕ) :
    (fs.dropWhile done).filter (fun n => !done n) = fs.filter (fun n => !done n) := by
  induction fs with
  | nil => rfl
  | cons f fs ih => by_cases h : done f = true <;> simp [h, ih]

lemma head_dropWhile {f : ℕ} {fs gs : List ℕ} (h : fs.dropWhile done = f :: gs) :
    done f = false := by
  induction fs with
  | nil => cases h
  | cons g fs ih =>
    by_cases hg : done g = true
    · exact ih (by simpa [hg] using h)
    · obtain ⟨rfl, -⟩ := List.cons.inj ((List.dropWhile_cons_of_neg hg).symm.trans h)
      simpa using hg

lemma nextPriority_some (h : nextPriority c s = some p) :
    s.waiters p ≠ [] ∧ mayTake c s p = true := by
  simp only [nextPriority] at h
  split at h
  · rename_i hb
    cases h
    simpa using (Bool.and_eq_true_iff.1 (Bool.and_eq_true_iff.1 hb).1).2
  · split at h
    · rename_i hi
      cases h
      simpa using hi
    · split at h
      · rename_i hb
        cases h
        simpa using hb
      · cases h

lemma nextPriority_none (h : nextPriority c s = none) (hp : mayTake c s p = true) :
    s.waiters p = [] := by
  simp only [nextPriority] at h
  split at h
  · cases h
  · split at h
    · cases h
    · split at h
      · cases h
      · cases p <;> simp_all

lemma Slots.held_grant (s : Slots) (p q : Priority) (fs : List ℕ) :
    (s.grant p fs).held q = s.held q + if p = q then 1 else 0 := by
  by_cases h : p = q
  · subst h
    simp [Slots.grant]
  · rw [if_neg h, add_zero]
    exact Function.update_of_ne (Ne.symm h) ..

lemma Slots.waiters_grant_of_ne (h : p ≠ q) (fs : List ℕ) :
    (s.grant p fs).waiters q = s.waiters q :=
  Function.update_of_ne h.symm ..

lemma hands_refl (s : Slots) : SlotPool.Hands (pool c) done (fun _ => 0) s (s, []) :=
  ⟨by simp, by simp, fun _ => List.Subset.refl _⟩

lemma hands_of_purge {r : Slots × List (Priority × ℕ)}
    (h : SlotPool.Hands (pool c) done (fun _ => 0) (s.purge done) r) :
    SlotPool.Hands (pool c) done (fun _ => 0) s r where
  held := h.held
  queue q := (filter_dropWhile _).symm.trans (h.queue q)
  subset q := List.Subset.trans (h.subset q) (List.dropWhile_sublist _).subset

lemma hands_grant {f : ℕ} {fs : List ℕ} (hq : s.waiters p = f :: fs) (hf : done f = false)
    {r : Slots × List (Priority × ℕ)}
    (h : SlotPool.Hands (pool c) done (fun _ => 0) (s.grant p fs) r) :
    SlotPool.Hands (pool c) done (fun _ => 0) s (r.1, (p, f) :: r.2) where
  held q := by
    have hq := h.held q
    rw [show (pool c).held (s.grant p fs) q = _ from s.held_grant p q fs] at hq
    rw [hq, List.countP_cons]
    by_cases hpq : p = q
    · simp [hpq, pool]
      omega
    · simp [hpq, pool]
  queue q := by
    have hr := h.queue q
    by_cases hpq : p = q
    · subst hpq
      rw [show (pool c).queue (s.grant p fs) p = fs from Function.update_self ..] at hr
      rw [show (pool c).queue s p = f :: fs from hq, List.filter_cons_of_pos (by simp [hf]), hr]
      simp
    · rw [show (pool c).queue (s.grant p fs) q = s.waiters q from
        Slots.waiters_grant_of_ne hpq fs] at hr
      rw [List.filter_cons_of_neg (by simpa using hpq)]
      exact hr
  subset q := by
    refine List.Subset.trans (h.subset q) ?_
    by_cases hpq : p = q
    · subst hpq
      rw [show (pool c).queue (s.grant p fs) p = fs from Function.update_self ..,
        show (pool c).queue s p = f :: fs from hq]
      exact List.subset_cons_self ..
    · rw [show (pool c).queue (s.grant p fs) q = s.waiters q from
        Slots.waiters_grant_of_ne hpq fs]
      exact List.Subset.refl _

/-- What a round of the loop does: it ends, with nothing free that a waiter may hold, or a live
future leaves the front of a queue. -/
lemma handOver_succ (c : Config) (done : ℕ → Bool) (rounds : ℕ) (s : Slots) :
    (handOver c done (rounds + 1) s = (s, []) ∧ s.inUse ≥ c.capacity) ∨
    (handOver c done (rounds + 1) s = (s.purge done, []) ∧
      ∀ p, mayTake c s p = true → (s.purge done).waiters p = []) ∨
    ∃ p f fs, (s.purge done).waiters p = f :: fs ∧ done f = false ∧ mayTake c s p = true ∧
      handOver c done (rounds + 1) s =
        ((handOver c done rounds ((s.purge done).grant p fs)).1,
          (p, f) :: (handOver c done rounds ((s.purge done).grant p fs)).2) := by
  simp only [handOver]
  split
  · right
    split
    · rename_i hn
      exact .inl ⟨rfl, fun p hp => nextPriority_none hn hp⟩
    · rename_i p hp
      obtain ⟨hne, hmay⟩ := nextPriority_some hp
      split
      · rename_i hnil
        exact absurd hnil hne
      · rename_i f fs hq
        exact .inr ⟨p, f, fs, hq, head_dropWhile hq, hmay, rfl⟩
  · rename_i h
    exact .inl ⟨rfl, le_of_not_gt h⟩

lemma handOver_hands (done : ℕ → Bool) (s : Slots) (rounds : ℕ) :
    SlotPool.Hands (pool c) done (fun _ => 0) s (handOver c done rounds s) := by
  induction rounds generalizing s with
  | zero => exact hands_refl s
  | succ rounds ih =>
    rcases handOver_succ c done rounds s with ⟨h, -⟩ | ⟨h, -⟩ | ⟨p, f, fs, hq, hf, -, h⟩
    · rw [h]
      exact hands_refl s
    · rw [h]
      exact hands_of_purge (hands_refl _)
    · rw [h]
      exact hands_of_purge (hands_grant hq hf (ih _))

/-! ### Safety and no idle slot -/

/-- The limits hold, and no slot is free that a live waiter may hold. -/
structure Sound (c : Config) (s : Slots) (done : ℕ → Bool) : Prop where
  inUse_le : s.inUse ≤ c.capacity
  background_le : s.held .background ≤ c.capacity - c.reserved
  idle : ∀ p, mayTake c s p = true → (s.waiters p).filter (fun n => !done n) = []

/-- A slot taken by one who may hold it stays within the limits. -/
lemma limits_take (hp : mayTake c s p = true) (hb : s.held .background ≤ c.capacity - c.reserved)
    (s' : Slots) (h : ∀ q, s'.held q = s.held q + if p = q then 1 else 0) :
    s'.inUse ≤ c.capacity ∧ s'.held .background ≤ c.capacity - c.reserved := by
  unfold mayTake at hp
  unfold Slots.inUse at hp ⊢
  rw [h, h]
  split at hp
  · cases hp
  · cases p
    · simp only [reduceCtorEq, if_true, if_false]
      omega
    · simp only [decide_eq_true_eq] at hp
      simp only [reduceCtorEq, if_true, if_false]
      omega

lemma mayTake_congr {s' : Slots} (h : s'.held = s.held) : mayTake c s' p = mayTake c s p := by
  unfold mayTake Slots.inUse
  rw [h]

lemma queued_grant {f : ℕ} {fs : List ℕ} (hq : (s.purge done).waiters p = f :: fs) :
    ((s.purge done).grant p fs).queued < s.queued := by
  have hle : ∀ q, ((s.purge done).waiters q).length ≤ (s.waiters q).length := fun q =>
    (List.dropWhile_sublist _).length_le
  have hlt : fs.length < (s.waiters p).length := by
    have := hle p
    rw [hq] at this
    exact this
  have hi := hle .interactive
  have hb := hle .background
  unfold Slots.queued Slots.grant
  cases p
  · simp only [Function.update_self, ne_eq, reduceCtorEq, not_false_eq_true,
      Function.update_of_ne]
    omega
  · simp only [Function.update_self, ne_eq, reduceCtorEq, not_false_eq_true,
      Function.update_of_ne]
    omega

/-- The loop ends by itself, and leaves no free slot to a waiter. -/
lemma handOver_sound {rounds : ℕ} (hr : s.queued ≤ rounds) (hu : s.inUse ≤ c.capacity)
    (hb : s.held .background ≤ c.capacity - c.reserved) :
    Sound c (handOver c done rounds s).1 done := by
  induction rounds generalizing s with
  | zero =>
    refine ⟨hu, hb, fun p _ => ?_⟩
    have : s.waiters p = [] := by
      cases p <;> exact List.eq_nil_of_length_eq_zero (by unfold Slots.queued at hr; omega)
    simp [handOver, this]
  | succ rounds ih =>
    rcases handOver_succ c done rounds s with ⟨h, hfull⟩ | ⟨h, hnone⟩ | ⟨p, f, fs, hq, -, hp, h⟩
    · rw [h]
      refine ⟨hu, hb, fun p hp => ?_⟩
      unfold mayTake at hp
      rw [if_pos hfull] at hp
      cases hp
    · rw [h]
      refine ⟨hu, hb, fun p hp => ?_⟩
      rw [hnone p ((mayTake_congr rfl : mayTake c (s.purge done) p = _) ▸ hp)]
      rfl
    · rw [h]
      obtain ⟨hu', hb'⟩ := limits_take hp hb ((s.purge done).grant p fs) fun q =>
        (s.purge done).held_grant p q fs
      exact ih (Nat.le_of_lt_succ ((queued_grant hq).trans_le hr)) hu' hb'

lemma filter_erase {n : ℕ} (hn : done n = true) (fs : List ℕ) :
    (fs.erase n).filter (fun m => !done m) = fs.filter (fun m => !done m) := by
  induction fs with
  | nil => rfl
  | cons f fs ih =>
    by_cases h : f = n
    · subst h
      rw [List.erase_cons_head, List.filter_cons_of_neg (by simp [hn])]
    · rw [List.erase_cons_tail (by simpa using h), List.filter_cons, List.filter_cons, ih]

lemma held_update (held : Priority → ℤ) (p q : Priority) (x : ℤ) :
    Function.update held p (held p + x) q = held q + if p = q then x else 0 := by
  by_cases h : p = q
  · subst h
    simp
  · simp [h, Function.update_of_ne (Ne.symm h)]

lemma lawful (c : Config) : (pool c).Lawful where
  held_init _ := rfl
  queue_init _ := rfl
  held_take {p s s'} h q := by
    simp only [pool] at h
    split at h
    · cases h
      exact held_update ..
    · cases h
  queue_take {p s s'} h q := by
    simp only [pool] at h
    split at h
    · cases h
      rfl
    · cases h
  held_enqueue _ _ _ _ := rfl
  queue_enqueue p n s q := by
    by_cases h : p = q
    · subst h
      simp [pool]
    · simp [pool, h, Function.update_of_ne (Ne.symm h)]
  held_forget _ _ _ _ := rfl
  queue_forget p n s q done hn := by
    by_cases h : p = q
    · subst h
      simpa [pool] using filter_erase hn _
    · simp [pool, Function.update_of_ne (Ne.symm h)]
  subset_forget p n s q := by
    by_cases h : p = q
    · subst h
      simpa [pool] using List.erase_subset
    · simp [pool, Function.update_of_ne (Ne.symm h)]
  release p done s := by
    have h := handOver_hands (c := c) done
      { s with held := Function.update s.held p (s.held p - 1) } s.queued
    refine ⟨fun q => ?_, h.queue, h.subset⟩
    refine (h.held q).trans ?_
    rw [add_zero]
    exact congrArg (· + _) (held_update s.held p q (-1))
  own o := nomatch o

lemma mayTake_anti {s' : Slots} (h : ∀ q, s.held q ≤ s'.held q) (hp : mayTake c s' p = true) :
    mayTake c s p = true := by
  have hi := h .interactive
  have hb := h .background
  unfold mayTake Slots.inUse at hp ⊢
  split at hp
  · cases hp
  · rw [if_neg (by omega)]
    cases p
    · rfl
    · simp only [decide_eq_true_eq] at hp ⊢
      omega

lemma kept (c : Config) : (pool c).Kept (Sound c) where
  init := ⟨by simp [pool, Slots.inUse], by have := c.reserved_lt; simp [pool]; omega,
    fun _ _ => rfl⟩
  mono {s d d'} h hd := by
    refine ⟨h.inUse_le, h.background_le, fun p hp => List.filter_eq_nil_iff.2 fun n hn => ?_⟩
    have hdn : d n = true := by simpa using List.filter_eq_nil_iff.1 (h.idle p hp) n hn
    simp [hd n hdn]
  take {p s s' d} h hs := by
    simp only [pool] at hs
    split at hs
    · rename_i hp
      cases hs
      have hheld := fun q => held_update s.held p q 1
      obtain ⟨hu, hb⟩ := limits_take hp h.background_le
        { s with held := Function.update s.held p (s.held p + 1) } hheld
      refine ⟨⟨hu, hb, fun q hq => h.idle q (mayTake_anti (fun j => ?_) hq)⟩, h.idle p hp⟩
      refine le_of_le_of_eq ?_ (hheld j).symm
      split
      · exact le_add_of_nonneg_right (by decide)
      · exact (add_zero _).ge
    · cases hs
  enqueue {p n s d} h hs hn := by
    simp only [pool, ite_eq_right_iff, reduceCtorEq, imp_false] at hs
    refine ⟨h.inUse_le, h.background_le, fun q hq => ?_⟩
    have hpq : q ≠ p := by
      rintro rfl
      exact hs hq
    rw [show (pool c).enqueue p n s = ⟨s.held, _⟩ from rfl]
    simp only [Function.update_of_ne hpq]
    rw [← h.idle q hq]
    refine List.filter_congr fun m hm => ?_
    rw [Function.update_of_ne]
    rintro rfl
    exact hn q hm
  forget {p n s d} h hn := by
    refine ⟨h.inUse_le, h.background_le, fun q hq => ?_⟩
    exact ((lawful c).queue_forget p n s q d hn).trans (h.idle q hq)
  release {p s d} h := by
    have hu := h.inUse_le
    have hb := h.background_le
    have hheld := fun q => held_update s.held p q (-1)
    refine handOver_sound (Nat.le_refl _) ?_ ?_
    · have hi := hheld .interactive
      have hb := hheld .background
      simp only [Slots.inUse, ← sub_eq_add_neg] at *
      rw [hi, hb]
      split <;> split <;> omega
    · have hb := hheld .background
      simp only [← sub_eq_add_neg] at *
      rw [hb]
      split <;> omega
  own {o} := nomatch o

/-- **Safe and work-conserving**, whatever the order of the steps: the limits hold, the slots in
use are those that calls own, each priority is served in the order of arrival, and no call waits
while a slot is free that its priority may hold. -/
theorem slots_sound (c : Config) {w : SlotPool.World (pool c)} (h : SlotPool.Reachable (pool c) w) :
    w.pool.inUse ≤ c.capacity ∧ w.pool.held .background ≤ c.capacity - c.reserved ∧
      (∀ p, w.pool.held p = w.owners p) ∧
      (∀ p, (w.grants p ++ w.waiting p).Pairwise (· < ·)) ∧
      ∀ p, w.waiting p ≠ [] → mayTake c w.pool p = false := by
  have hi := h.inv (lawful c) (kept c)
  refine ⟨hi.pool.inUse_le, hi.pool.background_le, hi.held, hi.order, fun p hw => ?_⟩
  rw [← Bool.not_eq_true]
  exact fun hp => hw ((hi.queue p).symm.trans (hi.pool.idle p hp))

def single : Config := ⟨1, 0, by decide, by decide⟩

/-- One slot: a background call waits behind another and is cancelled, and an interactive call that
came later gets the slot. -/
def overtaken : List (SlotPool.Step (pool single)) :=
  [.acquire .background, .acquire .background, .acquire .interactive, .cancel 1, .release 0,
    .resume 2]

theorem slots_sound_of_overtaken : ∃ w : SlotPool.World (pool single),
    (SlotPool.initial (pool single)).run overtaken = some w ∧ w.grants .interactive = [2] ∧
    w.pool.inUse ≤ single.capacity ∧
      w.pool.held .background ≤ single.capacity - single.reserved ∧
      (∀ p, w.pool.held p = w.owners p) ∧
      (∀ p, (w.grants p ++ w.waiting p).Pairwise (· < ·)) ∧
      ∀ p, w.waiting p ≠ [] → mayTake single w.pool p = false := by
  refine ⟨_, rfl, rfl, slots_sound single ?_⟩
  exact SlotPool.Reachable.initial.run
    (rfl : (SlotPool.initial (pool single)).run overtaken = some _)

end Treeweft.PrioritySlots
