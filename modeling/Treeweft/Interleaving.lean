import Treeweft.Keyed
import Treeweft.Prog
import Mathlib.Data.List.Induction
import Mathlib.Logic.Function.Basic

/-!
Tasks that share a store, one atomic operation at a time in any order.

A task is a program in progress, with the record its discipline keeps of it. Programs are hidden
from an invariant: it speaks of the store and of the records, and `Kept` asks for it to survive
one operation of one task, whatever the program around the operation.
-/

namespace Treeweft

/-- A task of a process. -/
structure Tid where
  proc : ℕ
  num : ℕ
  deriving DecidableEq, Repr

/-- A store with what an operation does to it (`none`: the operation blocks), the programs that
can be started, what is lost with a process, and the steps the store takes by itself. The number
an operation is run with stands for everything outside that its answer depends on. -/
structure Machine (S : Signature) (ε : Type) where
  Store : Type
  exec : Store → Tid → ℕ → (o : S.Op) → Option (S.Answer o × Store)
  Entry : Type
  main : Entry → Prog S ε Unit
  kill : ℕ → Store → Store
  Own : Type
  own : Store → Own → Option Store

/-- Whom a changed family of records is about. -/
lemma update_cases {α : Type} {L : Tid → Option α} {t u : Tid} {x : Option α} {m : α}
    (h : Function.update L t x u = some m) : (u = t ∧ x = some m) ∨ (u ≠ t ∧ L u = some m) := by
  by_cases hut : u = t
  · subst hut
    rw [Function.update_self] at h
    exact .inl ⟨rfl, h⟩
  · rw [Function.update_of_ne hut] at h
    exact .inr ⟨hut, h⟩

namespace Machine

variable {S : Signature} {ε : Type}

structure Task (S : Signature) (ε : Type) (D : Discipline S) where
  tid : Tid
  prog : Prog S ε Unit
  record : D.Local

structure State (M : Machine S ε) (D : Discipline S) where
  store : M.Store
  tasks : Keyed (@Task.tid S ε D)

inductive Label (M : Machine S ε)
  | start (t : Tid) (e : M.Entry)
  | run (t : Tid) (env : ℕ)
  | kill (p : ℕ)
  | own (x : M.Own)

variable {M : Machine S ε} {D : Discipline S}

/-- No task is in progress. -/
def initial (st : M.Store) : State M D := ⟨st, .empty⟩

namespace State

/-- Every task has ended. -/
def Quiescent (s : State M D) : Prop := s.tasks.rows = []

instance (s : State M D) : Decidable s.Quiescent :=
  decidable_of_iff (s.tasks.rows.isEmpty = true) List.isEmpty_iff

def records (s : State M D) (t : Tid) : Option D.Local := (s.tasks.get? t).map Task.record

/-- The operation a task would perform next. -/
def nextOp (s : State M D) (t : Tid) : Option S.Op :=
  match (s.tasks.get? t).map Task.prog with
  | some (.op o _) => some o
  | _ => none

def step (s : State M D) : Label M → Option (State M D)
  | .start t e =>
    if s.tasks.get? t = none then some ⟨s.store, s.tasks.put ⟨t, M.main e, D.init⟩⟩ else none
  | .run t env =>
    match s.tasks.get? t with
    | none => none
    | some ⟨_, .ret _, _⟩ => some ⟨s.store, s.tasks.erase t⟩
    | some ⟨_, .raise _, _⟩ => some ⟨s.store, s.tasks.erase t⟩
    | some ⟨_, .op o k, l⟩ =>
      match M.exec s.store t env o with
      | none => none
      | some (r, st) => some ⟨st, s.tasks.put ⟨t, k r, D.after l o r⟩⟩
  | .kill p => some ⟨M.kill p s.store, s.tasks.filter fun k => k.tid.proc ≠ p⟩
  | .own x => (M.own s.store x).map fun st => ⟨st, s.tasks⟩

end State

/-- Runs in which every step meets `C`. -/
inductive Run (C : State M D → Label M → Prop) : State M D → State M D → Prop
  | refl (s) : Run C s s
  | tail {s s' s'' l} : Run C s s' → C s' l → s'.step l = some s'' → Run C s s''

lemma Run.mono {C C' : State M D → Label M → Prop} (h : ∀ s l, C s l → C' s l) {s s' : State M D}
    (hr : Run C s s') : Run C' s s' := by
  induction hr with
  | refl => exact .refl s
  | tail _ hc hs ih => exact .tail ih (h _ _ hc) hs

/-- Runs in which every step meets `C`, with what `e` sees of their steps. -/
inductive Logged {α : Type} (C : State M D → Label M → Prop) (e : State M D → Label M → List α) :
    State M D → List α → State M D → Prop
  | refl (s) : Logged C e s [] s
  | tail {s s' s'' l xs} : Logged C e s xs s' → C s' l → s'.step l = some s'' →
      Logged C e s (xs ++ e s' l) s''

section Logged
variable {α : Type} {C : State M D → Label M → Prop} {e : State M D → Label M → List α}
  {s s' s'' : State M D}

lemma Logged.run {xs : List α} (h : Logged C e s xs s') : Run C s s' := by
  induction h with
  | refl => exact .refl s
  | tail _ hc hs ih => exact .tail ih hc hs

end Logged

/-- Take the labels one by one, as long as `c` accepts the step. -/
def State.runChecked (c : State M D → Label M → Bool) (s : State M D) (ls : List (Label M)) :
    Option (State M D) :=
  ls.foldlM (fun s l => if c s l then s.step l else none) s

lemma run_of_runChecked {c : State M D → Label M → Bool} {C : State M D → Label M → Prop}
    (hc : ∀ s l, c s l = true → C s l) {ls : List (Label M)} {s s' : State M D}
    (h : s.runChecked c ls = some s') : Run C s s' := by
  induction ls using List.reverseRecOn generalizing s' with
  | nil =>
    cases h
    exact .refl s
  | append_singleton ls l ih =>
    rw [State.runChecked, List.foldlM_append] at h
    obtain ⟨s₁, h₁, h⟩ := Option.bind_eq_some_iff.1 h
    have hl : (if c s₁ l = true then s₁.step l else none) = some s' := by simpa using h
    split at hl
    · rename_i hcl
      exact .tail (ih h₁) (hc s₁ l hcl) hl
    · cases hl

/-! ### Records after a step -/

section Records
variable {s : State M D} {t u : Tid}

lemma records_put (st : M.Store) (k : Task S ε D) :
    State.records ⟨st, s.tasks.put k⟩ = Function.update s.records k.tid (some k.record) := by
  funext u
  rw [State.records, Keyed.get?_put]
  by_cases h : u = k.tid
  · rw [if_pos h, h, Function.update_self, Option.map_some]
  · rw [if_neg h, Function.update_of_ne h]
    rfl

lemma records_erase (st : M.Store) :
    State.records (M := M) ⟨st, s.tasks.erase t⟩ = Function.update s.records t none := by
  funext u
  rw [State.records, Keyed.get?_erase]
  by_cases h : u = t
  · rw [if_pos h, h, Function.update_self, Option.map_none]
  · rw [if_neg h, Function.update_of_ne h]
    rfl

lemma records_filter (st : M.Store) (p : ℕ) :
    State.records (M := M) ⟨st, s.tasks.filter fun k => k.tid.proc ≠ p⟩ =
      fun u => if u.proc = p then none else s.records u := by
  funext u
  simp only [State.records]
  split
  · rename_i hu
    rw [Option.map_eq_none_iff, Keyed.get?_eq_none]
    rintro k hk rfl
    exact (of_decide_eq_true (Keyed.mem_filter.1 hk).2) hu
  · rename_i hu
    congr 1
    cases h : s.tasks.get? u with
    | none =>
      rw [Keyed.get?_eq_none] at h ⊢
      exact fun k hk => h k (Keyed.mem_filter.1 hk).1
    | some k =>
      obtain ⟨hk, hid⟩ := Keyed.get?_eq_some.1 h
      exact Keyed.get?_eq_some.2 ⟨Keyed.mem_filter.2 ⟨hk, decide_eq_true (hid ▸ hu)⟩, hid⟩

lemma records_eq_none : s.records t = none ↔ s.tasks.get? t = none := Option.map_eq_none_iff

lemma records_of_quiescent (h : s.Quiescent) (t : Tid) : s.records t = none := by
  rw [records_eq_none, Keyed.get?_eq_none]
  intro k hk
  change k ∈ s.tasks.rows at hk
  rw [h] at hk
  cases hk

lemma nextOp_eq_some {o : S.Op} : s.nextOp t = some o ↔
    ∃ k l, s.tasks.get? t = some ⟨t, .op o k, l⟩ := by
  unfold State.nextOp
  constructor
  · intro h
    cases hg : s.tasks.get? t with
    | none => simp [hg] at h
    | some k =>
      obtain ⟨u, p, l⟩ := k
      have hu : u = t := Keyed.key_of_get? hg
      cases p with
      | ret a => simp [hg] at h
      | raise e => simp [hg] at h
      | op o' k =>
        simp only [hg, Option.map_some, Option.some.injEq] at h
        subst h hu
        exact ⟨k, l, rfl⟩
  · rintro ⟨k, l, h⟩
    simp [h]

end Records

/-! ### Invariants of runs -/

/-- `I` survives every step that meets `C`: one operation that the discipline allows, the end of
a task as `E` describes it, the start of one, the death of a process, a step of the store. -/
structure Kept (C : State M D → Label M → Prop) (E : D.Local → Prop)
    (I : M.Store → (Tid → Option D.Local) → Prop) : Prop where
  main : ∀ s t e, C s (.start t e) → D.wp (M.main e) (fun _ => E) (fun _ => E) D.init
  start : ∀ s t e, C s (.start t e) → I s.store s.records → s.records t = none →
    I s.store (Function.update s.records t (some D.init))
  op : ∀ s t env o l r st, C s (.run t env) → s.nextOp t = some o → s.records t = some l →
    D.may l o → I s.store s.records → M.exec s.store t env o = some (r, st) →
    D.admits l o r ∧ I st (Function.update s.records t (some (D.after l o r)))
  stop : ∀ s t env l, C s (.run t env) → s.records t = some l → E l → I s.store s.records →
    I s.store (Function.update s.records t none)
  kill : ∀ s p, C s (.kill p) → I s.store s.records →
    I (M.kill p s.store) fun t => if t.proc = p then none else s.records t
  own : ∀ s x st, C s (.own x) → I s.store s.records → M.own s.store x = some st →
    I st s.records

/-- Every task is at a point from which its program keeps to the discipline. -/
def Disciplined (E : D.Local → Prop) (s : State M D) : Prop :=
  ∀ k ∈ s.tasks, D.wp k.prog (fun _ => E) (fun _ => E) k.record

namespace Kept

variable {C : State M D → Label M → Prop} {E : D.Local → Prop}
  {I : M.Store → (Tid → Option D.Local) → Prop}

lemma step (h : Kept C E I) {s s' : State M D} {l : Label M} (hc : C s l)
    (hs : s.step l = some s') (hI : I s.store s.records) (hd : Disciplined E s) :
    I s'.store s'.records ∧ Disciplined E s' := by
  have hput : ∀ {st : M.Store} {k : Task S ε D}, D.wp k.prog (fun _ => E) (fun _ => E) k.record →
      Disciplined E (⟨st, s.tasks.put k⟩ : State M D) := by
    intro st k hk j hj
    rcases Keyed.mem_put.1 hj with rfl | ⟨hj, -⟩
    · exact hk
    · exact hd j hj
  cases l with
  | start t e =>
    simp only [State.step] at hs
    split at hs
    · rename_i hn
      cases hs
      refine ⟨?_, hput (h.main s t e hc)⟩
      rw [records_put]
      exact h.start s t e hc hI (records_eq_none.2 hn)
    · cases hs
  | run t env =>
    have hstop : ∀ {k : Task S ε D}, s.tasks.get? t = some k → E k.record →
        I s.store (State.records (M := M) ⟨s.store, s.tasks.erase t⟩) ∧
          Disciplined E (⟨s.store, s.tasks.erase t⟩ : State M D) := by
      intro k hk hE
      refine ⟨?_, fun j hj => hd j (Keyed.mem_erase.1 hj).1⟩
      rw [records_erase]
      exact h.stop s t env _ hc (by simp [State.records, hk]) hE hI
    simp only [State.step] at hs
    split at hs
    · cases hs
    · rename_i hk
      cases hs
      exact hstop hk (hd _ (Keyed.mem_of_get? hk))
    · rename_i hk
      cases hs
      exact hstop hk (hd _ (Keyed.mem_of_get? hk))
    · rename_i u o k l hk
      split at hs
      · cases hs
      · rename_i r st he
        cases hs
        have hu : u = t := Keyed.key_of_get? hk
        subst hu
        have hw := hd _ (Keyed.mem_of_get? hk)
        obtain ⟨hadm, hI'⟩ := h.op s u env o l r st hc (nextOp_eq_some.2 ⟨k, l, hk⟩)
          (by simp [State.records, hk]) hw.1 hI he
        refine ⟨?_, hput (hw.2 r hadm)⟩
        rw [records_put]
        exact hI'
  | kill p =>
    cases hs
    refine ⟨?_, fun j hj => hd j (Keyed.mem_filter.1 hj).1⟩
    rw [records_filter]
    exact h.kill s p hc hI
  | own x =>
    obtain ⟨st, he, rfl⟩ := Option.map_eq_some_iff.1 hs
    exact ⟨h.own s x st hc hI he, hd⟩

lemma may_of_nextOp {s : State M D} {t : Tid} {o : S.Op} (hd : Disciplined E s)
    (ho : s.nextOp t = some o) : ∃ l, s.records t = some l ∧ D.may l o := by
  obtain ⟨k, l, hk⟩ := nextOp_eq_some.1 ho
  exact ⟨l, by simp [State.records, hk], (hd _ (Keyed.mem_of_get? hk)).1⟩

/-- A step of a task performs its next operation, which the discipline allows, or ends it. -/
lemma step_run {s s' : State M D} {t : Tid} {env : ℕ} (hs : s.step (.run t env) = some s')
    (hd : Disciplined E s) : (s.nextOp t = none ∧ s'.store = s.store) ∨
      ∃ o l r, s.nextOp t = some o ∧ s.records t = some l ∧ D.may l o ∧
        M.exec s.store t env o = some (r, s'.store) := by
  simp only [State.step] at hs
  split at hs
  · cases hs
  · rename_i hk
    cases hs
    exact .inl ⟨by simp [State.nextOp, hk], rfl⟩
  · rename_i hk
    cases hs
    exact .inl ⟨by simp [State.nextOp, hk], rfl⟩
  · rename_i u o k l hk
    split at hs
    · cases hs
    · rename_i r st he
      cases hs
      obtain rfl : u = t := Keyed.key_of_get? hk
      exact .inr ⟨o, l, r, nextOp_eq_some.2 ⟨k, l, hk⟩, by simp [State.records, hk],
        (hd _ (Keyed.mem_of_get? hk)).1, he⟩

/-- **Run rule**: what every step keeps holds wherever a run from it gets to. -/
theorem run (h : Kept C E I) {s s' : State M D} (hr : Run C s s') (hI : I s.store s.records)
    (hd : Disciplined E s) : I s'.store s'.records ∧ Disciplined E s' := by
  induction hr with
  | refl => exact ⟨hI, hd⟩
  | tail _ hc hs ih => exact h.step hc hs ih.1 ih.2

/-- A run from a state without tasks. -/
theorem run_initial (h : Kept C E I) {st : M.Store} {s : State M D} (hr : Run C (initial st) s)
    (hI : I st fun _ => none) : I s.store s.records ∧ Disciplined E s :=
  h.run hr hI fun k hk => absurd hk (by simp [initial])

end Kept

end Machine
end Treeweft
