import Mathlib.Logic.Relation
import Mathlib.Data.List.Pairwise
import Mathlib.Algebra.Order.Ring.Int
import Mathlib.Data.Set.Card

/-!
Breadth-first search to a depth, with a queue that may hold a node several times.

The search is the list of the nodes it has visited and the queue, both with the number of links by
which a node was reached. What it does in a step is given by what it appends to the queue, so that
the rules serve any loop that forgets the labels of the visited nodes.
-/

namespace Treeweft

/-! ### Loops -/

namespace Loop
variable {S : Type*} (step : S → Option S)

/-- At most so many turns. -/
def run : ℕ → S → S
  | 0, s => s
  | n + 1, s =>
    match step s with
    | none => s
    | some t => run n t

/-- The states of the loop that starts in `s`. -/
def Reached : S → S → Prop := Relation.ReflTransGen fun s t => step s = some t

variable {step} {s t u : S}

lemma Reached.refl : Reached step s s := Relation.ReflTransGen.refl

lemma Reached.tail (h : Reached step s t) (ht : step t = some u) : Reached step s u :=
  Relation.ReflTransGen.tail h ht

lemma reached_run (n : ℕ) (s : S) : Reached step s (run step n s) := by
  induction n generalizing s with
  | zero => exact Reached.refl
  | succ n ih =>
    rw [run]
    cases h : step s with
    | none => exact .refl
    | some t => exact .head h (ih t)

/-- Enough turns end a loop whose measure every turn lowers. -/
lemma step_run {μ : S → ℕ} (hμ : ∀ {s t}, step s = some t → μ t < μ s) {n : ℕ} (hn : μ s ≤ n) :
    step (run step n s) = none := by
  induction n generalizing s with
  | zero =>
    rw [run]
    cases h : step s with
    | none => rfl
    | some t => exact absurd (hμ h) (by omega)
  | succ n ih =>
    rw [run]
    cases h : step s with
    | none => exact h
    | some t =>
      have := hμ h
      exact ih (by omega)

lemma Reached.inv {P : S → Prop} (h : Reached step s t) (h0 : P s)
    (hstep : ∀ {t u}, Reached step s t → P t → step t = some u → P u) : P t := by
  induction h with
  | refl => exact h0
  | tail ht hu ih => exact hstep ht ih hu

/-- Of two states of a loop one comes after the other. -/
lemma Reached.total (h : Reached step s t) (h' : Reached step s u) :
    Reached step t u ∨ Reached step u t :=
  h.total_of_right_unique (fun _ _ _ h1 h2 => Option.some.inj (h1.symm.trans h2)) h'

lemma Reached.eq_of_ended (h : Reached step s t) (ht : step s = none) : t = s := by
  obtain rfl | ⟨u, hu, -⟩ := Relation.ReflTransGen.cases_head h
  · rfl
  · rw [ht] at hu
    exact absurd hu nofun

/-- Every state of a loop comes before the one in which it has ended. -/
lemma Reached.ended (h : Reached step s t) (h' : Reached step s u) (hu : step u = none) :
    Reached step t u := by
  obtain h | h := h.total h'
  · exact h
  · rw [h.eq_of_ended hu]
    exact .refl

end Loop

/-! ### Search -/

namespace BreadthFirst
variable {α : Type*}

/-- `b` can be reached from `a` by at most so many links. -/
inductive Within (L : α → α → Prop) (a : α) : ℕ → α → Prop
  | refl (n : ℕ) : Within L a n a
  | tail {n : ℕ} {b c : α} : Within L a n b → L b c → Within L a (n + 1) c

lemma Within.mono {L L' : α → α → Prop} {a b : α} {n : ℕ} (h : Within L a n b)
    (hL : ∀ x y, L x y → L' x y) : Within L' a n b := by
  induction h with
  | refl n => exact .refl n
  | tail _ hl ih => exact ih.tail (hL _ _ hl)

/-- The nodes within a depth, none where it is negative. -/
def ball (L : α → α → Prop) (a : α) (depth : ℤ) : Set α :=
  {b | ∃ n : ℕ, (n : ℤ) ≤ depth ∧ Within L a n b}

lemma ball_mono {L L' : α → α → Prop} (hL : ∀ x y, L x y → L' x y) (a : α) (depth : ℤ) :
    ball L a depth ⊆ ball L' a depth :=
  fun _ ⟨n, hn, h⟩ => ⟨n, hn, h.mono hL⟩

/-- What holds of the visited nodes and of the queue, each with its label. -/
structure Inv (L : α → α → Prop) (a : α) (depth : ℤ) (done queue : List (α × ℕ)) : Prop where
  sorted : (done ++ queue).Pairwise fun p q => p.2 ≤ q.2
  /-- The labels of the queue differ by at most one. -/
  window : ∀ p ∈ queue.head?, ∀ q ∈ queue, q.2 ≤ p.2 + 1
  nodup : (done.map Prod.fst).Nodup
  inside : ∀ p ∈ done, (p.2 : ℤ) ≤ depth
  sound : ∀ p ∈ done ++ queue, Within L a p.2 p.1
  start : 0 ≤ depth → (a, 0) ∈ done ++ queue
  /-- The links of a visited node lead to visited nodes or to the queue. -/
  closed : ∀ p ∈ done, (p.2 : ℤ) < depth → ∀ y, L p.1 y →
    ∃ d ≤ p.2 + 1, (y, d) ∈ done ++ queue

variable {L : α → α → Prop} {a : α} {depth : ℤ} {done queue : List (α × ℕ)} {x : α} {d : ℕ}

lemma Inv.init : Inv L a depth [] [(a, 0)] where
  sorted := List.pairwise_singleton _ _
  window := by
    rintro p ⟨⟩ q hq
    rw [List.mem_singleton.mp hq]
    omega
  nodup := List.nodup_nil
  inside := fun _ h => absurd h List.not_mem_nil
  sound := by
    intro p hp
    obtain rfl := List.mem_singleton.mp hp
    exact .refl 0
  start := fun _ => List.mem_singleton_self _
  closed := fun _ h => absurd h List.not_mem_nil

/-- The window moves with the head of the queue. -/
lemma Inv.window_tail (h : Inv L a depth done ((x, d) :: queue)) :
    ∀ q ∈ queue, d ≤ q.2 ∧ q.2 ≤ d + 1 := by
  intro q hq
  have hs := (List.pairwise_append.mp h.sorted).2.1
  exact ⟨List.rel_of_pairwise_cons hs hq, h.window (x, d) rfl q (List.mem_cons_of_mem _ hq)⟩

lemma Inv.done_le (h : Inv L a depth done ((x, d) :: queue)) : ∀ p ∈ done, p.2 ≤ d :=
  fun p hp => (List.pairwise_append.mp h.sorted).2.2 p hp (x, d) List.mem_cons_self

/-- An entry is dropped if its node has been visited or is too deep. -/
lemma Inv.skip (h : Inv L a depth done ((x, d) :: queue))
    (hx : x ∈ done.map Prod.fst ∨ depth < d) : Inv L a depth done queue := by
  have hwin := h.window_tail
  have hsub : (done ++ queue).Sublist (done ++ (x, d) :: queue) :=
    (List.Sublist.refl done).append (List.sublist_cons_self _ _)
  -- a witness that is dropped is replaced by the visited node, whose label is no higher
  have hwit : ∀ {y : α} {e n : ℕ}, (n : ℤ) ≤ depth → e ≤ n → (y, e) ∈ done ++ (x, d) :: queue →
      ∃ e' ≤ n, (y, e') ∈ done ++ queue := by
    intro y e n hn he hy
    obtain hy | hy := List.mem_append.mp hy
    · exact ⟨e, he, List.mem_append_left _ hy⟩
    obtain heq | hy := List.mem_cons.mp hy
    · obtain ⟨rfl, rfl⟩ := Prod.mk.inj heq
      obtain hx | hx := hx
      · obtain ⟨p, hp, rfl⟩ := List.mem_map.mp hx
        have := h.done_le p hp
        exact ⟨p.2, by omega, List.mem_append_left _ hp⟩
      · omega
    · exact ⟨e, he, List.mem_append_right _ hy⟩
  refine ⟨h.sorted.sublist hsub, ?_, h.nodup, h.inside, fun p hp => h.sound p (hsub.subset hp), ?_, ?_⟩
  · intro p hp q hq
    have h1 := hwin p (List.mem_of_mem_head? hp)
    have h2 := hwin q hq
    omega
  · intro h0
    obtain ⟨e, he, hm⟩ := hwit (n := 0) (by simpa using h0) le_rfl (h.start h0)
    obtain rfl : e = 0 := by omega
    exact hm
  · intro p hp hlt y hy
    obtain ⟨e, he, hm⟩ := h.closed p hp hlt y hy
    exact hwit (by push_cast; omega) he hm

/-- A node is visited, and what it links to is visited already or appended to the queue. -/
lemma Inv.visit {ys : List α} (h : Inv L a depth done ((x, d) :: queue))
    (hx : x ∉ done.map Prod.fst) (hd : (d : ℤ) ≤ depth) (hsound : ∀ y ∈ ys, L x y)
    (hclosed : ∀ y, L x y → y ∈ ys ∨ y = x ∨ y ∈ done.map Prod.fst) :
    Inv L a depth (done ++ [(x, d)]) (queue ++ ys.map fun y => (y, d + 1)) := by
  have hwin := h.window_tail
  have happ : done ++ [(x, d)] ++ (queue ++ ys.map fun y => (y, d + 1))
      = (done ++ (x, d) :: queue) ++ ys.map fun y => (y, d + 1) := by
    simp only [List.append_assoc, List.cons_append, List.nil_append]
  have hmem : ∀ p ∈ done ++ (x, d) :: queue,
      p ∈ done ++ [(x, d)] ++ (queue ++ ys.map fun y => (y, d + 1)) :=
    fun p hp => happ ▸ List.mem_append_left _ hp
  have hle : ∀ p ∈ done ++ (x, d) :: queue, p.2 ≤ d + 1 := by
    intro p hp
    obtain hp | hp := List.mem_append.mp hp
    · have := h.done_le p hp
      omega
    obtain rfl | hp := List.mem_cons.mp hp
    · omega
    · exact (hwin p hp).2
  refine ⟨?_, ?_, ?_, ?_, ?_, fun h0 => hmem _ (h.start h0), ?_⟩
  · rw [happ, List.pairwise_append]
    refine ⟨h.sorted, List.pairwise_map.mpr (List.pairwise_of_forall fun _ _ => le_rfl), ?_⟩
    intro p hp q hq
    obtain ⟨y, -, rfl⟩ := List.mem_map.mp hq
    exact hle p hp
  · intro p hp q hq
    have hlow : d ≤ p.2 := by
      obtain hp | hp := List.mem_append.mp (List.mem_of_mem_head? hp)
      · exact (hwin p hp).1
      · obtain ⟨y, -, rfl⟩ := List.mem_map.mp hp
        exact Nat.le_succ d
    obtain hq | hq := List.mem_append.mp hq
    · have := hwin q hq
      omega
    · obtain ⟨y, -, rfl⟩ := List.mem_map.mp hq
      dsimp only
      omega
  · rw [List.map_append, List.nodup_append]
    refine ⟨h.nodup, List.nodup_singleton _, ?_⟩
    intro y hy z hz
    obtain rfl := List.mem_singleton.mp hz
    exact fun he => hx (he ▸ hy)
  · intro p hp
    obtain hp | hp := List.mem_append.mp hp
    · exact h.inside p hp
    · rw [List.mem_singleton.mp hp]
      exact hd
  · rw [happ]
    intro p hp
    obtain hp | hp := List.mem_append.mp hp
    · exact h.sound p hp
    · obtain ⟨y, hy, rfl⟩ := List.mem_map.mp hp
      exact (h.sound (x, d) (List.mem_append_right _ List.mem_cons_self)).tail (hsound y hy)
  · intro p hp hlt y hy
    obtain hp | hp := List.mem_append.mp hp
    · obtain ⟨e, he, hm⟩ := h.closed p hp hlt y hy
      exact ⟨e, he, hmem _ hm⟩
    · obtain rfl := List.mem_singleton.mp hp
      obtain hy | rfl | hy := hclosed y hy
      · refine ⟨d + 1, le_rfl, List.mem_append_right _ (List.mem_append_right _ ?_)⟩
        exact List.mem_map_of_mem hy
      · exact ⟨d, Nat.le_succ d, hmem _ (List.mem_append_right _ List.mem_cons_self)⟩
      · obtain ⟨q, hq, rfl⟩ := List.mem_map.mp hy
        have := h.done_le q hq
        exact ⟨q.2, by dsimp only; omega, hmem _ (List.mem_append_left _ hq)⟩

/-- Only nodes within the depth are visited. -/
lemma Inv.subset_ball (h : Inv L a depth done queue) :
    ∀ x ∈ done.map Prod.fst, x ∈ ball L a depth := by
  intro x hx
  obtain ⟨p, hp, rfl⟩ := List.mem_map.mp hx
  exact ⟨p.2, h.inside p hp, h.sound p (List.mem_append_left _ hp)⟩

/-- All of them are once the queue is empty. -/
lemma Inv.ball_subset (h : Inv L a depth done []) : ∀ x ∈ ball L a depth, x ∈ done.map Prod.fst := by
  rintro x ⟨n, hn, hw⟩
  have hlabel : ∃ d ≤ n, (x, d) ∈ done := by
    have hstart := fun h0 => List.append_nil done ▸ h.start h0
    have hclosed := h.closed
    rw [List.append_nil] at hclosed
    induction hw with
    | refl n => exact ⟨0, Nat.zero_le n, hstart (by omega)⟩
    | @tail n b c _ hl ih =>
      obtain ⟨d, hd, hm⟩ := ih (by omega)
      obtain ⟨e, he, hm'⟩ := hclosed (b, d) hm (by dsimp only; omega) c hl
      exact ⟨e, by dsimp only at he; omega, hm'⟩
  obtain ⟨d, -, hm⟩ := hlabel
  exact List.mem_map_of_mem hm

end BreadthFirst

end Treeweft
