import Treeweft.Interleaving

/-!
A lock that at most one task has.

Who has it is in the store; that a task has it is in its record. The two agree as long as every
step that touches one of them touches the other.
-/

namespace Treeweft.Mutex

variable {R : Type} {holds : R → Bool} {lock : Option Tid} {L : Tid → Option R} {t u : Tid}
  {l l' m : R}

/-- The lock is with the task whose record says so, which is in progress. -/
structure Held (holds : R → Bool) (lock : Option Tid) (L : Tid → Option R) : Prop where
  iff : ∀ t l, L t = some l → (holds l = true ↔ lock = some t)
  owner : ∀ t, lock = some t → L t ≠ none

namespace Held

lemma nobody : Held holds none fun _ => none where
  iff _ _ h := by cases h
  owner _ h := by cases h

lemma eq (h : Held holds lock L) (hl : L t = some l) (hh : holds l = true) : lock = some t :=
  (h.iff t l hl).1 hh

lemma ne (h : Held holds lock L) (hl : L t = some l) (hh : holds l = false) :
    lock ≠ some t := fun ht => by
  rw [(h.iff t l hl).2 ht] at hh
  cases hh

/-- Two tasks do not have the lock. -/
lemma exclusive (h : Held holds lock L) (hl : L t = some l) (hh : holds l = true)
    (hu : L u = some m) (hut : u ≠ t) : holds m = false := by
  by_contra hm
  exact hut (Option.some.inj ((h.eq hu (by simpa using hm)).symm.trans (h.eq hl hh)))

lemma put {lock' : Option Tid} (h : Held holds lock L) (hself : holds l' = true ↔ lock' = some t)
    (hothers : ∀ u, u ≠ t → (lock' = some u ↔ lock = some u)) :
    Held holds lock' (Function.update L t (some l')) where
  iff u m hu := by
    rcases update_cases hu with ⟨rfl, hm⟩ | ⟨hut, hu⟩
    · rw [← Option.some.inj hm]
      exact hself
    · rw [h.iff u m hu, hothers u hut]
  owner u hu := by
    by_cases hut : u = t
    · rw [hut, Function.update_self]
      simp
    · rw [Function.update_of_ne hut]
      exact h.owner u ((hothers u hut).1 hu)

lemma keep (h : Held holds lock L) (hl : L t = some l) (hh : holds l' = holds l) :
    Held holds lock (Function.update L t (some l')) :=
  h.put (hh ▸ h.iff t l hl) fun _ _ => Iff.rfl

lemma start (h : Held holds lock L) (hn : L t = none) (hh : holds l' = false) :
    Held holds lock (Function.update L t (some l')) := by
  refine h.put ⟨fun hl' => ?_, fun ht => absurd hn (h.owner t ht)⟩ fun _ _ => Iff.rfl
  rw [hh] at hl'
  cases hl'

lemma acquire (h : Held holds none L) (hh : holds l' = true) :
    Held holds (some t) (Function.update L t (some l')) :=
  h.put (by simp [hh]) fun u hut => by simp [Ne.symm hut]

lemma release (h : Held holds lock L) (hh : holds l' = false) :
    Held holds (if lock = some t then none else lock) (Function.update L t (some l')) := by
  refine h.put ?_ fun u hut => ?_
  · rw [hh]
    split <;> simp_all
  · split
    · rename_i hlock
      simp [hlock, Ne.symm hut]
    · rfl

lemma stop (h : Held holds lock L) (hl : L t = some l) (hh : holds l = false) :
    Held holds lock (Function.update L t none) where
  iff u m hu := by
    rcases update_cases hu with ⟨-, hm⟩ | ⟨-, hu⟩
    · cases hm
    · exact h.iff u m hu
  owner u hu := by
    have hut : u ≠ t := by
      rintro rfl
      exact h.ne hl hh hu
    rw [Function.update_of_ne hut]
    exact h.owner u hu

/-- The lock does not outlive the process. -/
lemma kill (h : Held holds lock L) (p : ℕ) :
    Held holds (lock.filter fun t => t.proc ≠ p) fun t => if t.proc = p then none else L t where
  iff u m hu := by
    obtain ⟨hup, hu⟩ := Option.ite_none_left_eq_some.1 hu
    rw [h.iff u m hu]
    simp [Option.filter_eq_some_iff, hup]
  owner u hu := by
    obtain ⟨hu, hup⟩ := Option.filter_eq_some_iff.1 hu
    rw [if_neg (of_decide_eq_true hup)]
    exact h.owner u hu

end Held

end Treeweft.Mutex
