import Mathlib.Data.List.Basic

/-!
Runs of events, and a condition on each step that decides whether a property lasts.

Where the condition on a step is exactly that the step keeps the property, the property holds in
every state of a run if and only if every step of it meets the condition.
-/

namespace Treeweft.Guarded

variable {σ ε : Type} {step : σ → ε → σ} {may : σ → ε → Prop} {good : σ → Prop}

/-- Every step from `s` on meets `may`. -/
def Along (step : σ → ε → σ) (may : σ → ε → Prop) : σ → List ε → Prop
  | _, [] => True
  | s, e :: es => may s e ∧ Along step may (step s e) es

lemma along_append {s : σ} {pre post : List ε} :
    Along step may s (pre ++ post) ↔
      Along step may s pre ∧ Along step may (pre.foldl step s) post := by
  induction pre generalizing s with
  | nil => simp [Along]
  | cons e pre ih => rw [List.cons_append, Along, Along, ih, List.foldl_cons, and_assoc]

lemma along_mono {may' : σ → ε → Prop} (h : ∀ s e, may s e → may' s e) {s : σ} {es : List ε}
    (ha : Along step may s es) : Along step may' s es := by
  induction es generalizing s with
  | nil => trivial
  | cons e es ih => exact ⟨h s e ha.1, ih ha.2⟩

/-- A property that every allowed step keeps holds at the end of a run. -/
lemma good_foldl (hstep : ∀ s e, good s → may s e → good (step s e)) {s : σ} {es : List ε}
    (hs : good s) (h : Along step may s es) : good (es.foldl step s) := by
  induction es generalizing s with
  | nil => exact hs
  | cons e es ih => exact ih (hstep s e hs h.1) h.2

/-- **A property along a run**: it holds in every state if and only if every step is allowed. -/
theorem good_iff_along (hstep : ∀ s e, good s → (may s e ↔ good (step s e))) {s : σ}
    {es : List ε} (hs : good s) :
    (∀ pre post, es = pre ++ post → good (pre.foldl step s)) ↔ Along step may s es := by
  constructor
  · intro h
    induction es generalizing s with
    | nil => trivial
    | cons e es ih =>
      have hgood : good (step s e) := h [e] es rfl
      refine ⟨(hstep s e hs).mpr hgood, ih hgood fun pre post he => ?_⟩
      exact h (e :: pre) post (by rw [he, List.cons_append])
  · rintro h pre post rfl
    exact good_foldl (fun s e hs hm => (hstep s e hs).mp hm) hs (along_append.mp h).1

/-- The same for a property of steps that leads from `good` to `good`. -/
theorem steps_iff_along {right : σ → ε → Prop} (hstep : ∀ s e, good s → (may s e ↔ right s e))
    (hgood : ∀ s e, right s e → good (step s e)) {s : σ} {es : List ε} (hs : good s) :
    (∀ pre e post, es = pre ++ e :: post → right (pre.foldl step s) e) ↔ Along step may s es := by
  constructor
  · intro h
    induction es generalizing s with
    | nil => trivial
    | cons e es ih =>
      have hright : right s e := h [] e es rfl
      refine ⟨(hstep s e hs).mpr hright, ih (hgood s e hright) fun pre e' post he => ?_⟩
      exact h (e :: pre) e' post (by rw [he, List.cons_append])
  · rintro h pre e post rfl
    obtain ⟨hpre, hmay, -⟩ := along_append.mp h
    have hkeep : ∀ s e, good s → may s e → good (step s e) := fun s e hs hm =>
      hgood s e ((hstep s e hs).mp hm)
    exact (hstep _ e (good_foldl hkeep hs hpre)).mp hmay

/-- The steps of a run, one by one. -/
lemma along_iff {s : σ} {es : List ε} :
    Along step may s es ↔ ∀ pre e post, es = pre ++ e :: post → may (pre.foldl step s) e :=
  (@steps_iff_along _ _ step may (fun _ => True) may (fun _ _ _ => Iff.rfl)
    (fun _ _ _ => trivial) s es trivial).symm

/-- Two runs of the same events, side by side. -/
lemma foldl_pair {τ : Type} {step' : τ → ε → τ} (s : σ) (t : τ) (es : List ε) :
    es.foldl (fun p e => (step p.1 e, step' p.2 e)) (s, t) =
      (es.foldl step s, es.foldl step' t) := by
  induction es generalizing s t with
  | nil => rfl
  | cons e es ih => exact ih (step s e) (step' t e)

end Treeweft.Guarded
