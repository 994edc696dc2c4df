import Treeweft.TokenBudget

/-!
The response budget of a search.

Chunks, neighbours and community summaries draw on one budget, in that order, and each list is cut
at its first item that does not fit. The top chunk is kept whether it fits or not: it is not charged
at all where the budget has no room for the marker of a cut.
-/

namespace Treeweft.ResponseBudget

open TokenBudget

section Keep
variable {α : Type*} (count : Text → ℕ) (exempt : ℕ → Bool) (name : ℕ → α → String)
  (text : α → Text)

/-- Keep a prefix: stop at the first item that does not fit and is not exempt. -/
def keep : ℕ → TokenBudget → List α → List α × TokenBudget
  | _, b, [] => ([], b)
  | i, b, x :: xs =>
    if exempt i = false ∧ b.remaining < count (text x) then ([], b)
    else
      let rest := keep (i + 1) (b.reserve count (name i x) (text x)).2 xs
      (x :: rest.1, rest.2)

/-- What the items count together. -/
def tokens (xs : List α) : ℕ := (xs.map fun x => count (text x)).sum

variable {count exempt name text}

lemma keep_isPrefixOf (i : ℕ) (b : TokenBudget) (xs : List α) :
    (keep count exempt name text i b xs).1 <+: xs := by
  induction xs generalizing i b with
  | nil => exact List.prefix_refl _
  | cons x xs ih =>
    rw [keep]
    split
    · exact List.nil_prefix
    · exact (List.prefix_cons_inj x).mpr (ih _ _)

/-- Without an exemption, what is kept is charged in full. -/
lemma tokens_keep {i : ℕ} (hi : ∀ j, i ≤ j → exempt j = false) (b : TokenBudget) (xs : List α) :
    tokens count text (keep count exempt name text i b xs).1
      + (keep count exempt name text i b xs).2.remaining = b.remaining := by
  induction xs generalizing i b with
  | nil => exact Nat.zero_add _
  | cons x xs ih =>
    rw [keep]
    split
    case isTrue => exact Nat.zero_add _
    case isFalse h =>
      have hfit : count (text x) ≤ b.remaining := by
        by_contra hlt
        exact h ⟨hi i le_rfl, by omega⟩
      have hrest := ih (i := i + 1) (fun j hj => hi j (by omega)) (b.reserve count (name i x) (text x)).2
      rw [reserve_of_fits hfit, remaining_append] at hrest
      rw [reserve_of_fits hfit]
      simp only [tokens, List.map_cons, List.sum_cons] at hrest ⊢
      omega

/-- Nothing is kept where the first item does not fit, and then nothing is charged. -/
lemma keep_of_not_fits {i : ℕ} (hi : exempt i = false) {b : TokenBudget} {xs : List α}
    (h : ∀ x ∈ xs.head?, b.remaining < count (text x)) :
    keep count exempt name text i b xs = ([], b) := by
  cases xs with
  | nil => rfl
  | cons x xs => exact if_pos ⟨hi, h x rfl⟩

lemma not_fits_of_keep {i : ℕ} {b : TokenBudget} {xs : List α}
    (h : (keep count exempt name text i b xs).1 = []) :
    ∀ x ∈ xs.head?, b.remaining < count (text x) := by
  cases xs with
  | nil => exact fun _ h => absurd h nofun
  | cons y ys =>
    rintro x ⟨⟩
    rw [keep] at h
    split at h
    case isTrue hlt => exact hlt.2
    case isFalse => exact absurd h nofun

end Keep

/-- Chunks and neighbours are JSON objects. A dictionary is its items in their order; their keys are
distinct, so that each assignment to the kept ones appends. -/
structure Payload (J : Type*) where
  chunks : List J
  neighbors : List J
  summaries : List (Text × Text)
deriving DecidableEq

section Apply
variable {J : Type*} (count : Text → ℕ) (dumps : J → Text)

def summaryText (s : Text × Text) : Text := s.1 ++ ": ".toList ++ s.2

/-- The top hit is kept unconditionally. -/
def isTop (i : ℕ) : Bool := i == 0

def keepChunks (b : TokenBudget) (chunks : List J) : List J × TokenBudget :=
  keep count isTop (fun i _ => s!"chunk[{i}]") dumps 0 b chunks

def keepNeighbors (b : TokenBudget) (neighbors : List J) : List J × TokenBudget :=
  keep count (fun _ => false) (fun i _ => s!"neighbor[{i}]") dumps 0 b neighbors

def keepSummaries (b : TokenBudget) (summaries : List (Text × Text)) :
    List (Text × Text) × TokenBudget :=
  keep count (fun _ => false) (fun _ s => "community[" ++ String.ofList s.1 ++ "]") summaryText 0 b
    summaries

lemma ratio_pos : 0 < 4 := by decide

def budgetOf (maxTokens : ℤ) : TokenBudget :=
  ⟨{ totalTokens := maxTokens, ratio_pos := ratio_pos }, []⟩

def applyResponseBudget (maxTokens : ℤ) (p : Payload J) : Payload J :=
  if maxTokens ≤ 0 then p
  else
    let keptChunks := keepChunks count dumps (budgetOf maxTokens) p.chunks
    let keptNeighbors := keepNeighbors count dumps keptChunks.2 p.neighbors
    let keptSummaries := keepSummaries count keptNeighbors.2 p.summaries
    ⟨keptChunks.1, keptNeighbors.1, keptSummaries.1⟩

/-- The total tokens of a payload. -/
def Payload.tokens (p : Payload J) : ℕ :=
  ResponseBudget.tokens count dumps p.chunks + ResponseBudget.tokens count dumps p.neighbors
    + ResponseBudget.tokens count summaryText p.summaries

/-- Prefixes of the lists, and their total within the budget unless the top chunk is alone. -/
def Respected (maxTokens : ℤ) (p : Payload J) : Prop :=
  let kept := applyResponseBudget count dumps maxTokens p
  kept.chunks <+: p.chunks ∧ kept.neighbors <+: p.neighbors ∧ kept.summaries <+: p.summaries ∧
    (kept.tokens count dumps ≤ maxTokens ∨
      ∃ top, kept.chunks = [top] ∧ kept.neighbors = [] ∧ kept.summaries = [])

/-- What a top chunk over the budget leaves of it. -/
def leftOver (maxTokens : ℤ) : ℕ :=
  if NoRoom count (budgetOf maxTokens).config maxTokens.toNat then maxTokens.toNat else 0

/-- The texts of the items that each list offers first. -/
def Payload.next (p : Payload J) : List Text :=
  (p.chunks.head?.map dumps).toList ++ (p.neighbors.head?.map dumps).toList
    ++ (p.summaries.head?.map summaryText).toList

/-- What is kept once the top chunk is, and nothing is exempt any more. -/
def keepRest (b : TokenBudget) (p : Payload J) : Payload J :=
  let keptChunks := keep count isTop (fun i _ => s!"chunk[{i}]") dumps 1 b p.chunks
  let keptNeighbors := keepNeighbors count dumps keptChunks.2 p.neighbors
  ⟨keptChunks.1, keptNeighbors.1, (keepSummaries count keptNeighbors.2 p.summaries).1⟩

variable {count dumps}

lemma Payload.forall_mem_next {p : Payload J} {n : ℕ} :
    (∀ t ∈ p.next dumps, n < count t) ↔
      (∀ c ∈ p.chunks.head?, n < count (dumps c)) ∧
        (∀ c ∈ p.neighbors.head?, n < count (dumps c)) ∧
          ∀ s ∈ p.summaries.head?, n < count (summaryText s) := by
  simp only [Payload.next, List.mem_append, Option.mem_toList, Option.mem_def,
    Option.map_eq_some_iff]
  constructor
  · intro h
    exact ⟨fun c hc => h _ (.inl (.inl ⟨c, hc, rfl⟩)), fun c hc => h _ (.inl (.inr ⟨c, hc, rfl⟩)),
      fun s hs => h _ (.inr ⟨s, hs, rfl⟩)⟩
  · rintro ⟨h1, h2, h3⟩ t ((⟨c, hc, rfl⟩ | ⟨c, hc, rfl⟩) | ⟨s, hs, rfl⟩)
    exacts [h1 c hc, h2 c hc, h3 s hs]

lemma not_isTop {j : ℕ} (h : 1 ≤ j) : isTop j = false := by
  rw [isTop, beq_eq_false_iff_ne]; omega

variable (count dumps) in
/-- What follows the top chunk is charged in full. -/
lemma tokens_keepRest (b : TokenBudget) (p : Payload J) :
    (keepRest count dumps b p).tokens count dumps ≤ b.remaining := by
  have hc : tokens count dumps (keepRest count dumps b p).chunks + _ = b.remaining :=
    tokens_keep (fun _ => not_isTop) b p.chunks
  have hn : tokens count dumps (keepRest count dumps b p).neighbors + _ = _ :=
    tokens_keep (fun _ _ => rfl) _ p.neighbors
  have hs : tokens count summaryText (keepRest count dumps b p).summaries + _ = _ :=
    tokens_keep (fun _ _ => rfl) _ p.summaries
  rw [Payload.tokens, ← hc, add_assoc, Nat.add_le_add_iff_left]
  refine le_trans (Nat.add_le_add_left ?_ _) hn.le
  exact (Nat.le_add_right _ _).trans hs.le

/-- Nothing follows the top chunk where no list offers an item that fits. -/
lemma keepRest_empty_iff {b : TokenBudget} {p : Payload J} :
    keepRest count dumps b p = ⟨[], [], []⟩ ↔ ∀ t ∈ p.next dumps, b.remaining < count t := by
  rw [Payload.forall_mem_next, Payload.mk.injEq]
  constructor
  · rintro ⟨hc, hn, hs⟩
    have hc' := not_fits_of_keep hc
    rw [keepRest, keep_of_not_fits (not_isTop le_rfl) hc'] at hn hs
    have hn' := not_fits_of_keep hn
    rw [keepNeighbors, keep_of_not_fits rfl hn'] at hs
    exact ⟨hc', hn', not_fits_of_keep hs⟩
  · rintro ⟨hc, hn, hs⟩
    rw [keepRest, keep_of_not_fits (not_isTop le_rfl) hc]
    dsimp only
    rw [keepNeighbors, keep_of_not_fits rfl hn]
    dsimp only
    rw [keepSummaries, keep_of_not_fits rfl hs]
    exact ⟨rfl, rfl, rfl⟩

variable (count dumps) in
lemma prefixes (maxTokens : ℤ) (p : Payload J) :
    (applyResponseBudget count dumps maxTokens p).chunks <+: p.chunks ∧
      (applyResponseBudget count dumps maxTokens p).neighbors <+: p.neighbors ∧
        (applyResponseBudget count dumps maxTokens p).summaries <+: p.summaries := by
  rw [applyResponseBudget]
  split
  · exact ⟨List.prefix_refl _, List.prefix_refl _, List.prefix_refl _⟩
  · exact ⟨keep_isPrefixOf _ _ _, keep_isPrefixOf _ _ _, keep_isPrefixOf _ _ _⟩

lemma applyResponseBudget_nil {maxTokens : ℤ} (h0 : 0 < maxTokens) (ns : List J)
    (ss : List (Text × Text)) :
    applyResponseBudget count dumps maxTokens ⟨[], ns, ss⟩ =
      keepRest count dumps (budgetOf maxTokens) ⟨[], ns, ss⟩ := by
  rw [applyResponseBudget, if_neg (by omega)]
  rfl

variable (count dumps) in
lemma applyResponseBudget_cons {maxTokens : ℤ} (h0 : 0 < maxTokens) (top : J) (cs ns : List J)
    (ss : List (Text × Text)) :
    applyResponseBudget count dumps maxTokens ⟨top :: cs, ns, ss⟩ =
      let rest := keepRest count dumps
        ((budgetOf maxTokens).reserve count s!"chunk[{0}]" (dumps top)).2 ⟨cs, ns, ss⟩
      ⟨top :: rest.chunks, rest.neighbors, rest.summaries⟩ := by
  rw [applyResponseBudget, if_neg (by omega)]
  rfl

@[simp] lemma remaining_budgetOf (maxTokens : ℤ) :
    (budgetOf maxTokens).remaining = maxTokens.toNat := by
  simp [budgetOf, remaining, used]

/-- The budget after a top chunk that does not fit. -/
lemma remaining_of_top {maxTokens : ℤ} (name : String) {t : Text}
    (h : maxTokens.toNat < count t) :
    ((budgetOf maxTokens).reserve count name t).2.remaining = leftOver count maxTokens := by
  rw [← remaining_budgetOf maxTokens] at h
  by_cases hr : NoRoom count (budgetOf maxTokens).config (budgetOf maxTokens).remaining
  · rw [reserve_of_noRoom h hr, leftOver, if_pos (by simpa using hr), remaining_budgetOf]
  · rw [reserve_of_cut h hr, leftOver, if_neg (by simpa using hr), remaining_append, Nat.sub_self]

/-- **The response budget.** It is respected where the top chunk fits, and else exactly where
nothing that is offered after it fits what it leaves. -/
theorem respected_iff {maxTokens : ℤ} (h0 : 0 < maxTokens) (p : Payload J) :
    Respected count dumps maxTokens p ↔
      ∀ top ∈ p.chunks.head?, count (dumps top) ≤ maxTokens ∨
        ∀ t ∈ ({ p with chunks := p.chunks.tail } : Payload J).next dumps,
          leftOver count maxTokens < count t := by
  obtain ⟨_ | ⟨top, cs⟩, ns, ss⟩ := p
  · -- without a top chunk nothing is exempt
    refine iff_of_true ?_ fun _ h => absurd h nofun
    have htok := tokens_keepRest count dumps (budgetOf maxTokens) ⟨[], ns, ss⟩
    rw [← applyResponseBudget_nil h0, remaining_budgetOf] at htok
    obtain ⟨hc, hn, hs⟩ := prefixes count dumps maxTokens ⟨[], ns, ss⟩
    exact ⟨hc, hn, hs, .inl (by omega)⟩
  obtain ⟨hc, hn, hs⟩ := prefixes count dumps maxTokens ⟨top :: cs, ns, ss⟩
  have happ := applyResponseBudget_cons count dumps h0 top cs ns ss
  have htok := tokens_keepRest count dumps
    ((budgetOf maxTokens).reserve count s!"chunk[{0}]" (dumps top)).2 ⟨cs, ns, ss⟩
  by_cases hfit : count (dumps top) ≤ maxTokens
  · have hfit' : count (dumps top) ≤ (budgetOf maxTokens).remaining := by
      rw [remaining_budgetOf]; omega
    rw [reserve_of_fits hfit'] at happ htok
    rw [remaining_append, remaining_budgetOf] at htok
    refine iff_of_true ⟨hc, hn, hs, .inl ?_⟩ fun _ h => .inl (Option.some.inj h ▸ hfit)
    rw [happ]
    simp only [Payload.tokens, ResponseBudget.tokens, List.map_cons, List.sum_cons] at htok ⊢
    omega
  have hrem := remaining_of_top s!"chunk[{0}]" (show maxTokens.toNat < count (dumps top) by omega)
  constructor
  · rintro ⟨-, -, -, hsum | ⟨_, hk, hkn, hks⟩⟩ top' htop
    · rw [happ] at hsum
      simp only [Payload.tokens, ResponseBudget.tokens, List.map_cons, List.sum_cons] at hsum
      omega
    · rw [happ] at hk hkn hks
      have hrest : keepRest count dumps _ ⟨cs, ns, ss⟩ = ⟨[], [], []⟩ :=
        (Payload.mk.injEq ..).mpr ⟨(List.cons.inj hk).2, hkn, hks⟩
      rw [keepRest_empty_iff, hrem] at hrest
      exact .inr hrest
  · intro h
    have hempty := (h top rfl).resolve_left hfit
    rw [← hrem] at hempty
    have hrest : keepRest count dumps _ ⟨cs, ns, ss⟩ = ⟨[], [], []⟩ :=
      keepRest_empty_iff.mpr hempty
    rw [hrest] at happ
    exact ⟨hc, hn, hs, .inr ⟨top, by rw [happ], by rw [happ], by rw [happ]⟩⟩

end Apply

/-- A chunk stands for the text it is dumped to, here a list of numbers. -/
theorem respected_pool :
    Respected (TokenBudgetConfig.estimate {}) id 10
      (⟨["[1, 2, 3]".toList, "[4, 5, 6]".toList], [], []⟩ : Payload Text) :=
  (respected_iff (by decide) _).mpr (by rintro _ ⟨⟩; exact .inl (by decide +kernel))

/-- The top chunk counts twelve, and the next one two. -/
def oversized : Payload Text :=
  ⟨["[10000000, 20000000, 30000000, 40000000, 50000000]".toList, "[4, 5, 6]".toList], [], []⟩

/-- An oversized top chunk is not charged where the budget has no room for a marker, and the next
one is kept beside it. -/
theorem uncharged_top : ¬ Respected (TokenBudgetConfig.estimate {}) id 10 oversized := by
  have happ : applyResponseBudget (TokenBudgetConfig.estimate {}) id 10 oversized = oversized := by
    decide +kernel
  rintro ⟨-, -, -, hsum | ⟨_, hk, -, -⟩⟩
  · rw [happ] at hsum
    exact absurd hsum (by decide +kernel)
  · rw [happ] at hk
    exact absurd hk nofun

end Treeweft.ResponseBudget
