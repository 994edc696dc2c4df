import Treeweft.Interleaving

/-!
A task that runs while no other takes a step. What it leaves behind is computed from its program
and the store it starts from.
-/

namespace Treeweft.Machine

variable {S : Signature} {ε α β : Type} (M : Machine S ε) (G : S.Op → ℕ → Prop) (t : Tid)

/-- From the store, with every answer given as `G` allows, the program ends as `Q` says if it
returns and as `X` says if it raises. -/
def wlp : Prog S ε α → (α → M.Store → Prop) → (ε → M.Store → Prop) → M.Store → Prop
  | .ret a, Q, _, st => Q a st
  | .raise e, _, X, st => X e st
  | .op o k, Q, X, st =>
    ∀ env r st', G o env → M.exec st t env o = some (r, st') → wlp (k r) Q X st'

variable {M G t} {Q : α → M.Store → Prop} {X : ε → M.Store → Prop} {st : M.Store}

lemma wlp_mono {p : Prog S ε α} {Q' : α → M.Store → Prop} {X' : ε → M.Store → Prop}
    (hQ : ∀ a st, Q a st → Q' a st) (hX : ∀ e st, X e st → X' e st) (h : wlp M G t p Q X st) :
    wlp M G t p Q' X' st := by
  induction p generalizing st with
  | ret a => exact hQ a st h
  | raise e => exact hX e st h
  | op o k ih => exact fun env r st' hG he => ih r (h env r st' hG he)

lemma wlp_bind' {p : Prog S ε α} {f : α → Prog S ε β} {Q : β → M.Store → Prop} :
    wlp M G t (p.bind f) Q X = wlp M G t p (fun a => wlp M G t (f a) Q X) X := by
  funext st
  induction p generalizing st with
  | ret a => rfl
  | raise e => rfl
  | op o k ih => simp only [Prog.bind, wlp, ih]

lemma wlp_bind {p : Prog S ε α} {f : α → Prog S ε β} {Q : β → M.Store → Prop} :
    wlp M G t (p >>= f) Q X = wlp M G t p (fun a => wlp M G t (f a) Q X) X := wlp_bind'

/-- What every operation of a program keeps, the program keeps. -/
lemma wlp_uses {A : S.Op → Prop} {I : M.Store → Prop} {p : Prog S ε α} (hp : Uses A p)
    (hA : ∀ o, A o → ∀ env r st st', M.exec st t env o = some (r, st') → I st → I st') (hI : I st) :
    wlp M G t p (fun _ => I) (fun _ => I) st := by
  induction p generalizing st with
  | ret a => exact hI
  | raise e => exact hI
  | op o k ih => exact fun env r st' _ he => ih r (hp.2 r) (hA o hp.1 env r st st' he hI)

/-- A loop over a list with `x` in it: the other rounds keep `A` and keep `B`, and that of `x`
brings about `B`, which is stronger than `A`. -/
lemma wlp_forEach_mem {A B : M.Store → Prop} {x : α} {f : α → Prog S ε Unit} {xs : List α}
    (hA : ∀ y ∈ xs, y ≠ x → ∀ st, A st → wlp M G t (f y) (fun _ => A) X st)
    (hB : ∀ y ∈ xs, y ≠ x → ∀ st, B st → wlp M G t (f y) (fun _ => B) X st)
    (hx : ∀ st, A st → wlp M G t (f x) (fun _ => B) X st) (hBA : ∀ st, B st → A st)
    (hmem : x ∈ xs) (h : A st) : wlp M G t (Prog.forEach xs f) (fun _ => B) X st := by
  have hrest : ∀ ys : List α, (∀ y ∈ ys, y ∈ xs) → ∀ st, B st →
      wlp M G t (Prog.forEach ys f) (fun _ => B) X st := by
    intro ys
    induction ys with
    | nil => exact fun _ _ h => h
    | cons y ys ih =>
      intro hys st hst
      rw [Prog.forEach, wlp_bind']
      refine wlp_mono (fun _ => ih fun z hz => hys z (by simp [hz])) (fun _ _ h => h) ?_
      by_cases hyx : y = x
      · exact hyx ▸ hx st (hBA st hst)
      · exact hB y (hys y (by simp)) hyx st hst
  have hloop : ∀ ys : List α, (∀ y ∈ ys, y ∈ xs) → x ∈ ys → ∀ st, A st →
      wlp M G t (Prog.forEach ys f) (fun _ => B) X st := by
    intro ys
    induction ys with
    | nil => exact fun _ hm => absurd hm (by simp)
    | cons y ys ih =>
      intro hys hm st hst
      have hsub : ∀ z ∈ ys, z ∈ xs := fun z hz => hys z (by simp [hz])
      rw [Prog.forEach, wlp_bind']
      by_cases hyx : y = x
      · exact wlp_mono (fun _ => hrest ys hsub) (fun _ _ h => h) (hyx ▸ hx st hst)
      · have hm : x ∈ ys := (List.mem_cons.1 hm).resolve_left fun h => hyx h.symm
        exact wlp_mono (fun _ => ih hsub hm) (fun _ _ h => h) (hA y (hys y (by simp)) hyx st hst)
  exact hloop xs (fun _ h => h) hmem st h

/-! ### Runs -/

variable {D : Discipline S}

/-- Only `t` takes steps, with the answers `G` allows. -/
def Alone (G : S.Op → ℕ → Prop) (t : Tid) (s : State M D) (l : Label M) : Prop :=
  ∃ env, l = .run t env ∧ ∀ o, s.nextOp t = some o → G o env

/-- **Rule for a lone task**: once it has ended, the store is as its program says. -/
theorem alone {p : Prog S ε Unit} {R : M.Store → Prop} {l : D.Local} {s : State M D}
    (hr : Run (Alone G t) ⟨st, Keyed.empty.put ⟨t, p, l⟩⟩ s)
    (hp : wlp M G t p (fun _ => R) (fun _ => R) st) (hs : s.Quiescent) : R s.store := by
  have hput : ∀ {st : M.Store} {k : Task S ε D} {ks : Keyed (@Task.tid S ε D)},
      ¬(⟨st, ks.put k⟩ : State M D).Quiescent := by
    intro st k ks hq
    have hk : k ∈ (ks.put k).rows := Keyed.mem_put_self
    rw [show (ks.put k).rows = [] from hq] at hk
    cases hk
  have hinv : (∀ k ∈ s.tasks, k.tid = t ∧ wlp M G t k.prog (fun _ => R) (fun _ => R) s.store) ∧
      (s.Quiescent → R s.store) := by
    clear hs
    induction hr with
    | refl =>
      refine ⟨fun k hk => ?_, fun hq => absurd hq hput⟩
      rcases Keyed.mem_put.1 hk with rfl | ⟨hk, -⟩
      · exact ⟨rfl, hp⟩
      · cases hk
    | tail hrun hc hstep ih =>
      obtain ⟨env, rfl, hG⟩ := hc
      obtain ⟨htasks, hq⟩ := ih
      simp only [State.step] at hstep
      split at hstep
      · cases hstep
      · rename_i hk
        cases hstep
        exact ⟨fun k hk => htasks k (Keyed.mem_erase.1 hk).1,
          fun _ => (htasks _ (Keyed.mem_of_get? hk)).2⟩
      · rename_i hk
        cases hstep
        exact ⟨fun k hk => htasks k (Keyed.mem_erase.1 hk).1,
          fun _ => (htasks _ (Keyed.mem_of_get? hk)).2⟩
      · rename_i u o k l hk
        split at hstep
        · cases hstep
        · rename_i r st he
          cases hstep
          have hu : u = t := Keyed.key_of_get? hk
          subst hu
          refine ⟨fun j hj => ?_, fun hq => absurd hq hput⟩
          rcases Keyed.mem_put.1 hj with rfl | ⟨hj, hne⟩
          · exact ⟨rfl, (htasks _ (Keyed.mem_of_get? hk)).2 env r st
              (hG o (nextOp_eq_some.2 ⟨k, l, hk⟩)) he⟩
          · exact absurd (htasks j hj).1 hne
  exact hinv.2 hs

end Treeweft.Machine
