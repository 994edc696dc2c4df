import Mathlib.Data.List.Basic
import Mathlib.Data.List.Induction
import Mathlib.Data.List.TakeDrop

/-!
Tables whose rows are replaced key by key.

An event may clear the rows of its key and may add rows to it, and either half may go missing.
What a sequence of events leaves under a key is told by its effect there: whether the rows from
before are kept, and which rows were added since they last were not.
-/

namespace Treeweft.Replacement

variable {α κ : Type} [DecidableEq κ] (key : α → κ)

structure Event (α κ : Type) where
  key : κ
  clears : Bool
  adds : List α

/-- The rows of an event belong to its key. -/
def Event.Proper (e : Event α κ) : Prop := ∀ r ∈ e.adds, key r = e.key

def apply (t : List α) (e : Event α κ) : List α :=
  (if e.clears then t.filter fun r => key r ≠ e.key else t) ++ e.adds

structure Effect (α : Type) where
  keeps : Bool
  added : List α

def Effect.step (k : κ) (x : Effect α) (e : Event α κ) : Effect α :=
  if e.key = k then if e.clears then ⟨false, e.adds⟩ else ⟨x.keeps, x.added ++ e.adds⟩ else x

/-- What a sequence of events does under a key. -/
def effect (es : List (Event α κ)) (k : κ) : Effect α := es.foldl (Effect.step k) ⟨true, []⟩

variable {key} {es : List (Event α κ)} {t : List α} {r : α}

lemma mem_apply {e : Event α κ} :
    r ∈ apply key t e ↔ (r ∈ t ∧ ¬(e.clears = true ∧ key r = e.key)) ∨ r ∈ e.adds := by
  unfold apply
  cases e.clears <;> simp

/-- A row is there after the events if it was kept, or added and not cleared since. -/
lemma mem_foldl_apply (hp : ∀ e ∈ es, e.Proper key) :
    r ∈ es.foldl (apply key) t ↔
      (r ∈ t ∧ (effect es (key r)).keeps = true) ∨ r ∈ (effect es (key r)).added := by
  induction es using List.reverseRecOn with
  | nil => simp [effect]
  | append_singleton es e ih =>
    have ih := ih fun x hx => hp x (by simp [hx])
    have hpe := hp e (by simp)
    have heff : effect (es ++ [e]) (key r) = Effect.step (key r) (effect es (key r)) e := by
      simp [effect, List.foldl_append]
    rw [List.foldl_append, List.foldl_cons, List.foldl_nil, mem_apply, ih, heff, Effect.step]
    by_cases hk : e.key = key r
    · rw [if_pos hk]
      cases e.clears <;> simp [hk, or_assoc]
    · have hne : r ∉ e.adds := fun h => hk (hpe r h).symm
      have hk' : ¬key r = e.key := fun h => hk h.symm
      rw [if_neg hk]
      simp [hne, hk']

lemma of_mem_added {k : κ} (h : r ∈ (effect es k).added) : ∃ e ∈ es, e.key = k ∧ r ∈ e.adds := by
  induction es using List.reverseRecOn with
  | nil => simp [effect] at h
  | append_singleton es e ih =>
    have heff : effect (es ++ [e]) k = Effect.step k (effect es k) e := by
      simp [effect, List.foldl_append]
    have hlast : e.key = k → r ∈ e.adds → ∃ x ∈ es ++ [e], x.key = k ∧ r ∈ x.adds :=
      fun hk hr => ⟨e, by simp, hk, hr⟩
    have hbefore : r ∈ (effect es k).added → ∃ x ∈ es ++ [e], x.key = k ∧ r ∈ x.adds := by
      intro hr
      obtain ⟨x, hx, hxk⟩ := ih hr
      exact ⟨x, by simp [hx], hxk⟩
    rw [heff, Effect.step] at h
    split at h
    · rename_i hk
      split at h
      · exact hlast hk h
      · exact (List.mem_append.1 h).elim hbefore (hlast hk)
    · exact hbefore h

lemma key_of_mem_added (hp : ∀ e ∈ es, e.Proper key) {k : κ} (h : r ∈ (effect es k).added) :
    key r = k := by
  obtain ⟨e, he, rfl, hr⟩ := of_mem_added h
  exact hp e he r hr

/-- No event of the key, no effect. -/
lemma effect_of_untouched {k : κ} (h : ∀ e ∈ es, e.key ≠ k) : effect es k = ⟨true, []⟩ := by
  induction es using List.reverseRecOn with
  | nil => rfl
  | append_singleton es e ih =>
    have heff : effect (es ++ [e]) k = Effect.step k (effect es k) e := by
      simp [effect, List.foldl_append]
    rw [heff, Effect.step, if_neg (h e (by simp)), ih fun x hx => h x (by simp [hx])]

/-! ### Old or new, never a mixture -/

/-- Under `k` the table `t'` holds what `t` held, or exactly `new`. -/
def Replaced (key : α → κ) (k : κ) (new t t' : List α) : Prop :=
  (∀ r, key r = k → (r ∈ t' ↔ r ∈ t)) ∨ ∀ r, key r = k → (r ∈ t' ↔ r ∈ new)

/-- Cleared, all of `new` was added since; not cleared, nothing was added. The old rows may also
be among the ones added, or the old and the added ones be `new` together. -/
def Effect.Exact (key : α → κ) (k : κ) (new t : List α) (x : Effect α) : Prop :=
  if x.keeps then
    (∀ r ∈ x.added, r ∈ t) ∨
      ((∀ r ∈ t, key r = k → r ∈ new) ∧ ∀ r ∈ new, r ∈ t ∨ r ∈ x.added)
  else
    (∀ r ∈ new, r ∈ x.added) ∨
      ((∀ r ∈ t, key r = k → r ∈ x.added) ∧ ∀ r ∈ x.added, r ∈ t)

lemma replaced_iff {k : κ} {new : List α} (hp : ∀ e ∈ es, e.Proper key)
    (hk : ∀ r ∈ new, key r = k) (hnew : ∀ r ∈ (effect es k).added, r ∈ new) :
    Replaced key k new t (es.foldl (apply key) t) ↔ (effect es k).Exact key k new t := by
  have hmem : ∀ r, key r = k → (r ∈ es.foldl (apply key) t ↔
      (r ∈ t ∧ (effect es k).keeps = true) ∨ r ∈ (effect es k).added) := by
    rintro r rfl
    exact mem_foldl_apply hp
  have hadd : ∀ r ∈ (effect es k).added, key r = k := fun r hr => key_of_mem_added hp hr
  unfold Replaced Effect.Exact
  cases hc : (effect es k).keeps with
  | true =>
    simp only [hc, and_true, if_true] at hmem ⊢
    refine or_congr ⟨fun h r hr => ?_, fun h r hr => ?_⟩ ⟨fun h => ⟨fun r hr hrk => ?_, fun r hr =>
      ?_⟩, fun h r hr => ?_⟩
    · exact (h r (hadd r hr)).1 ((hmem r (hadd r hr)).2 (.inr hr))
    · rw [hmem r hr]
      exact ⟨fun h' => h'.elim id (h r), .inl⟩
    · exact (h r hrk).1 ((hmem r hrk).2 (.inl hr))
    · exact (hmem r (hk r hr)).1 ((h r (hk r hr)).2 hr)
    · rw [hmem r hr]
      exact ⟨fun h' => h'.elim (fun h' => h.1 r h' hr) (hnew r), h.2 r⟩
  | false =>
    simp only [hc, Bool.false_eq_true, and_false, false_or, if_false] at hmem ⊢
    rw [or_comm]
    refine or_congr ⟨fun h r hr => ?_, fun h r hr => ?_⟩ ⟨fun h => ⟨fun r hr hrk => ?_, fun r hr =>
      ?_⟩, fun h r hr => ?_⟩
    · exact (hmem r (hk r hr)).1 ((h r (hk r hr)).2 hr)
    · rw [hmem r hr]
      exact ⟨hnew r, h r⟩
    · exact (hmem r hrk).1 ((h r hrk).2 hr)
    · exact (h r (hadd r hr)).1 ((hmem r (hadd r hr)).2 hr)
    · rw [hmem r hr]
      exact ⟨h.2 r, fun h' => h.1 r h' hr⟩

end Treeweft.Replacement
