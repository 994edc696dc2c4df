import Mathlib.Data.List.TakeDrop

/-!
A database connection with implicit transactions.

A transaction is a list of statements, worked out from the rows as the connection sees them. It
ends with a commit, or fails after some of its statements and leaves them in the open transaction,
which the next commit publishes. What others see is what was last committed.
-/

namespace Treeweft.Connection

variable {β : Type}

structure Conn (β : Type) where
  committed : β
  working : β

/-- The statements of a transaction that starts from the given rows. -/
abbrev Tx (β : Type) := β → List (β → β)

/-- The transaction commits, or fails when `k` of its statements have run. -/
inductive Fate
  | commits
  | fails (k : ℕ)
  deriving DecidableEq, Repr

def applyAll (stmts : List (β → β)) (b : β) : β := stmts.foldl (fun b s => s b) b

def exec (c : Conn β) (tx : Tx β) : Fate → Conn β
  | .commits => ⟨applyAll (tx c.working) c.working, applyAll (tx c.working) c.working⟩
  | .fails k => ⟨c.committed, applyAll ((tx c.working).take k) c.working⟩

def run (c : Conn β) (txs : List (Tx β × Fate)) : Conn β :=
  txs.foldl (fun c x => exec c x.1 x.2) c

@[simp] lemma run_nil (c : Conn β) : run c [] = c := rfl

@[simp] lemma run_cons (c : Conn β) (x : Tx β × Fate) (txs : List (Tx β × Fate)) :
    run c (x :: txs) = run (exec c x.1 x.2) txs := rfl

/-- Statements that change nothing. -/
def Idle (stmts : List (β → β)) (b : β) : Prop := applyAll stmts b = b

/-- Some transaction of the list commits. -/
def Commits (txs : List (Tx β × Fate)) : Prop := ∃ x ∈ txs, x.2 = .commits

/-- Whatever runs and commits afterwards, others see all of the failed transaction or nothing of
it. -/
def AllOrNothing (ok : Tx β → Prop) (c : Conn β) (tx : Tx β) (k : ℕ) : Prop :=
  ∀ later : List (Tx β × Fate), (∀ x ∈ later, ok x.1) → Commits later →
    (run (exec c tx (.fails k)) later).committed = (run c later).committed ∨
      (run (exec c tx (.fails k)) later).committed = (run (exec c tx .commits) later).committed

@[simp] lemma applyAll_nil (b : β) : applyAll [] b = b := rfl

lemma applyAll_append (s t : List (β → β)) (b : β) :
    applyAll (s ++ t) b = applyAll t (applyAll s b) := by
  simp [applyAll, List.foldl_append]

lemma exec_working (c : Conn β) (tx : Tx β) (f : Fate) :
    (exec c tx f).working = (exec ⟨c.working, c.working⟩ tx f).working := by
  cases f <;> rfl

/-- What is published once something has committed depends on the rows the connection saw. -/
lemma committed_of_working {c c' : Conn β} (h : c.working = c'.working)
    {txs : List (Tx β × Fate)} (ht : Commits txs) :
    (run c txs).committed = (run c' txs).committed := by
  induction txs generalizing c c' with
  | nil =>
    obtain ⟨x, hx, -⟩ := ht
    cases hx
  | cons x txs ih =>
    rw [run_cons, run_cons]
    by_cases hrest : Commits txs
    · refine ih ?_ hrest
      rw [exec_working c, exec_working c', h]
    · obtain ⟨y, hy, hyc⟩ := ht
      have hx : x.2 = .commits := by
        rcases List.mem_cons.mp hy with rfl | hy
        · exact hyc
        · exact absurd ⟨y, hy, hyc⟩ hrest
      have heq : exec c x.1 x.2 = exec c' x.1 x.2 := by
        rw [hx, exec, exec, h]
      rw [heq]

/-- **When a failed transaction is all or nothing**: what ran changes no row, or what did not run
would not have. `ok` says which transactions may follow; one without statements is among them. -/
theorem allOrNothing_iff {ok : Tx β → Prop} (hok : ok fun _ => []) (c : Conn β) (tx : Tx β)
    (k : ℕ) :
    AllOrNothing ok c tx k ↔
      Idle ((tx c.working).take k) c.working ∨
        Idle ((tx c.working).drop k) (applyAll ((tx c.working).take k) c.working) := by
  have hsplit : applyAll (tx c.working) c.working =
      applyAll ((tx c.working).drop k) (applyAll ((tx c.working).take k) c.working) := by
    rw [← applyAll_append, List.take_append_drop]
  constructor
  · intro h
    have hcommit := h [(fun _ => [], .commits)] (by simpa using hok)
      ⟨_, List.mem_singleton_self _, rfl⟩
    simp only [run_cons, run_nil, exec, applyAll_nil] at hcommit
    rcases hcommit with hnone | hall
    · exact .inl hnone
    · rw [hsplit] at hall
      exact .inr hall.symm
  · rintro (hidle | hidle) later - hlater
    · refine .inl (committed_of_working ?_ hlater)
      exact hidle
    · refine .inr (committed_of_working ?_ hlater)
      change applyAll _ _ = applyAll _ _
      rw [hsplit]
      exact hidle.symm

end Treeweft.Connection
