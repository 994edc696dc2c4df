import Mathlib.Algebra.Order.BigOperators.Group.List
import Treeweft.BreadthFirst
import Treeweft.GraphStore

/-!
The traversal of the graph around an entity.

The neighbours of a node go into the queue as long as queue and visited nodes together are at most
the limit. The queue holds a node once for every relationship that leads to it, and nodes past the
depth as well, so that the scan of a node's neighbours can break off although few nodes are known.
The search is complete for the links that it keeps.
-/

namespace Treeweft.Traverse

open BreadthFirst Loop

/-- What the loop asks of a store. The neighbours come joined with their entities, once for each
relationship and direction, and in the order in which the database has them. -/
structure Adapter (α E N : Type*) where
  ids : List α
  entity : α → Option E
  neighbors : α → List N
  idOf : N → α
  mem_ids : ∀ x, (entity x).isSome → x ∈ ids
  neighbor_exists : ∀ x, ∀ n ∈ neighbors x, (entity (idOf n)).isSome

/-- An entity with its `_neighbors`. -/
structure Node (α E N : Type*) where
  id : α
  entity : E
  neighbors : List N
deriving DecidableEq

structure State (α E N : Type*) where
  visited : List α
  queue : List (α × ℕ)
  results : List (Node α E N)
  stopped : Bool

section Model
variable {α E N : Type*} [DecidableEq α] (a : Adapter α E N) (depth maxNodes : ℤ)

/-- The neighbours of a node at depth `d`, up to the one with which the queue gets too long. -/
def scan (visited : List α) (d : ℕ) : List (α × ℕ) → List N → List N × List (α × ℕ)
  | queue, [] => ([], queue)
  | queue, n :: ns =>
    if a.idOf n ∈ visited then
      let rest := scan visited d queue ns
      (n :: rest.1, rest.2)
    else
      let queue := queue ++ [(a.idOf n, d + 1)]
      if maxNodes < queue.length + visited.length then ([n], queue)
      else
        let rest := scan visited d queue ns
        (n :: rest.1, rest.2)

/-- One turn of the loop. -/
def step (s : State α E N) : Option (State α E N) :=
  if s.stopped then none
  else
    match s.queue with
    | [] => none
    | (x, d) :: queue =>
      if x ∈ s.visited ∨ depth < d then some { s with queue := queue }
      else
        let visited := s.visited ++ [x]
        match a.entity x with
        | none => some { s with visited := visited, queue := queue }
        | some e =>
          let scanned := scan a maxNodes visited d queue (a.neighbors x)
          let results := s.results ++ [⟨x, e, scanned.1⟩]
          some ⟨visited, scanned.2, results, maxNodes ≤ results.length⟩

def initial (start : α) : State α E N := ⟨[], [(start, 0)], [], false⟩

/-- The neighbours that are still to be scanned. -/
def unscanned (visited : List α) : ℕ :=
  (a.ids.map fun x => if x ∈ visited then 0 else (a.neighbors x).length).sum

/-- Every turn takes an entry from the queue, and only a scan appends some. -/
def measure (s : State α E N) : ℕ := s.queue.length + unscanned a s.visited

def final (start : α) : State α E N :=
  run (step a depth maxNodes) (measure a (initial start)) (initial start)

def traverse (start : α) : List (Node α E N) := (final a depth maxNodes start).results

/-- The node that a turn expands, with the neighbours it keeps. -/
def expansion (s : State α E N) : Option (α × List N) :=
  if s.stopped then none
  else
    match s.queue with
    | [] => none
    | (x, d) :: queue =>
      if x ∈ s.visited ∨ depth < d ∨ a.entity x = none then none
      else some (x, (scan a maxNodes (s.visited ++ [x]) d queue (a.neighbors x)).1)

variable {a depth maxNodes}

variable (a maxNodes) in
/-- What a scan keeps comes first among the neighbours, and its new nodes go into the queue. -/
lemma scan_spec (visited : List α) (d : ℕ) (queue : List (α × ℕ)) (ns : List N) :
    (scan a maxNodes visited d queue ns).1 <+: ns ∧
      (scan a maxNodes visited d queue ns).2 = queue ++
        (((scan a maxNodes visited d queue ns).1.map a.idOf).filter (· ∉ visited)).map
          fun y => (y, d + 1) := by
  induction ns generalizing queue with
  | nil => exact ⟨List.prefix_refl _, (List.append_nil _).symm⟩
  | cons n ns ih =>
    rw [scan]
    split
    case isTrue h =>
      obtain ⟨h1, h2⟩ := ih queue
      refine ⟨(List.prefix_cons_inj n).mpr h1, h2.trans ?_⟩
      rw [List.map_cons, List.filter_cons_of_neg (by simpa using h)]
    case isFalse h =>
      dsimp only
      split
      · refine ⟨⟨ns, rfl⟩, ?_⟩
        rw [List.map_singleton, List.filter_cons_of_pos (by simpa using h)]
        rfl
      · obtain ⟨h1, h2⟩ := ih (queue ++ [(a.idOf n, d + 1)])
        refine ⟨(List.prefix_cons_inj n).mpr h1, h2.trans ?_⟩
        rw [List.map_cons, List.filter_cons_of_pos (by simpa using h), List.append_assoc]
        rfl

/-- What a turn can do. -/
lemma step_cases {s t : State α E N} (h : step a depth maxNodes s = some t) :
    s.stopped = false ∧ ∃ x d queue, s.queue = (x, d) :: queue ∧
      (((x ∈ s.visited ∨ depth < d) ∧ expansion a depth maxNodes s = none ∧
          t = { s with queue := queue }) ∨
        (x ∉ s.visited ∧ (d : ℤ) ≤ depth ∧ a.entity x = none ∧
          expansion a depth maxNodes s = none ∧
          t = { s with visited := s.visited ++ [x], queue := queue }) ∨
        (x ∉ s.visited ∧ (d : ℤ) ≤ depth ∧ ∃ e kept, a.entity x = some e ∧
          expansion a depth maxNodes s = some (x, kept) ∧ kept <+: a.neighbors x ∧
          t = ⟨s.visited ++ [x],
            queue ++ ((kept.map a.idOf).filter (· ∉ s.visited ++ [x])).map fun y => (y, d + 1),
            s.results ++ [⟨x, e, kept⟩], maxNodes ≤ (s.results.length + 1 : ℕ)⟩)) := by
  obtain ⟨visited, queue, results, stopped⟩ := s
  rw [step] at h
  cases stopped with
  | true => exact absurd h nofun
  | false =>
    refine ⟨rfl, ?_⟩
    rw [if_neg Bool.false_ne_true] at h
    obtain _ | ⟨⟨x, d⟩, queue⟩ := queue
    · exact absurd h nofun
    refine ⟨x, d, queue, rfl, ?_⟩
    dsimp only at h
    rw [expansion, if_neg Bool.false_ne_true]
    dsimp only
    split at h
    case isTrue hskip =>
      rw [if_pos (by tauto)]
      exact .inl ⟨hskip, rfl, (Option.some.inj h).symm⟩
    case isFalse hskip =>
      obtain ⟨hx, hd⟩ := not_or.mp hskip
      cases he : a.entity x with
      | none =>
        rw [he] at h
        rw [if_pos (.inr (.inr rfl))]
        exact .inr (.inl ⟨hx, by omega, rfl, rfl, (Option.some.inj h).symm⟩)
      | some e =>
        rw [he] at h
        rw [if_neg (by simp only [not_or]; exact ⟨hx, hd, nofun⟩)]
        obtain ⟨h1, h2⟩ := scan_spec a maxNodes (visited ++ [x]) d queue
          (a.neighbors x)
        refine .inr (.inr ⟨hx, by omega, e, _, rfl, rfl, h1, ?_⟩)
        rw [← Option.some.inj h, ← h2, List.length_append]
        rfl

/-! ### The loop ends -/

lemma unscanned_le (ids visited : List α) (x : α) (f : α → ℕ) :
    (ids.map fun y => if y ∈ visited ++ [x] then 0 else f y).sum ≤
      (ids.map fun y => if y ∈ visited then 0 else f y).sum := by
  refine List.sum_le_sum fun y _ => ?_
  by_cases hy : y ∈ visited
  · rw [if_pos (List.mem_append_left _ hy)]
    exact Nat.zero_le _
  · rw [if_neg hy]
    split <;> omega

/-- A node that is visited takes its neighbours with it. -/
lemma unscanned_add {visited ids : List α} {x : α} (hx : x ∉ visited) (h : x ∈ ids) (f : α → ℕ) :
    (ids.map fun y => if y ∈ visited ++ [x] then 0 else f y).sum + f x ≤
      (ids.map fun y => if y ∈ visited then 0 else f y).sum := by
  induction ids with
  | nil => exact absurd h List.not_mem_nil
  | cons y ys ih =>
    simp only [List.map_cons, List.sum_cons]
    by_cases hyx : y = x
    · subst hyx
      have := unscanned_le ys visited y f
      rw [if_pos (List.mem_append_right _ List.mem_cons_self), if_neg hx]
      omega
    · have := ih ((List.mem_cons.mp h).resolve_left (Ne.symm hyx))
      have hiff : y ∈ visited ++ [x] ↔ y ∈ visited := by
        rw [List.mem_append, List.mem_singleton, or_iff_left hyx]
      rw [if_congr hiff rfl rfl]
      omega

lemma measure_step {s t : State α E N} (h : step a depth maxNodes s = some t) :
    measure a t < measure a s := by
  obtain ⟨-, x, d, queue, hq, ⟨-, -, rfl⟩ | ⟨-, -, -, -, rfl⟩ | ⟨hx, -, e, kept, he, -, hk, rfl⟩⟩ :=
    step_cases h
  · rw [measure, measure, hq, List.length_cons]
    dsimp only
    omega
  · have := unscanned_le a.ids s.visited x fun y => (a.neighbors y).length
    rw [measure, measure, hq, List.length_cons, unscanned, unscanned]
    dsimp only
    omega
  · have hin := a.mem_ids x (by rw [he]; rfl)
    have hadd := unscanned_add hx hin fun y => (a.neighbors y).length
    have hlen := (List.length_filter_le (fun y => decide (y ∉ s.visited ++ [x])) (kept.map a.idOf))
    have hkept := hk.length_le
    rw [List.length_map] at hlen
    rw [measure, measure, hq, List.length_cons]
    simp only [List.length_append, List.length_map, unscanned] at hadd ⊢
    omega

variable (a depth maxNodes) in
lemma step_final (start : α) : step a depth maxNodes (final a depth maxNodes start) = none :=
  step_run measure_step le_rfl

/-! ### What the loop keeps -/

section Links
variable (a depth maxNodes)

/-- The nodes next to `x`, in either direction. -/
def Adjacent (x y : α) : Prop := ∃ n ∈ a.neighbors x, a.idOf n = y

/-- The links that no scan breaks off before. -/
def Linked (start x y : α) : Prop :=
  Adjacent a x y ∧ ∀ s kept, Reached (step a depth maxNodes) (initial start) s →
    expansion a depth maxNodes s = some (x, kept) → ∃ n ∈ kept, a.idOf n = y

end Links

variable {start : α}

lemma mem_visited_of_step {s t : State α E N} (h : step a depth maxNodes s = some t) :
    (∀ x ∈ s.visited, x ∈ t.visited) ∧ s.results <+: t.results ∧
      ∀ x kept, expansion a depth maxNodes s = some (x, kept) →
        x ∉ s.visited ∧ x ∈ t.visited ∧ ∃ e, ⟨x, e, kept⟩ ∈ t.results := by
  obtain ⟨-, x, d, queue, hq, ⟨-, hex, rfl⟩ | ⟨-, -, -, hex, rfl⟩ |
    ⟨hx, -, e, kept, -, hex, -, rfl⟩⟩ := step_cases h
  · exact ⟨fun _ h => h, List.prefix_refl _, fun _ _ h => absurd (hex.symm.trans h) nofun⟩
  · exact ⟨fun _ h => List.mem_append_left _ h, List.prefix_refl _,
      fun _ _ h => absurd (hex.symm.trans h) nofun⟩
  · refine ⟨fun _ h => List.mem_append_left _ h, List.prefix_append _ _, fun y k hy => ?_⟩
    obtain ⟨rfl, rfl⟩ := Prod.mk.inj (Option.some.inj (hex.symm.trans hy))
    exact ⟨hx, List.mem_append_right _ (List.mem_singleton_self _), e,
      List.mem_append_right _ (List.mem_singleton_self _)⟩

lemma visited_mono {s t : State α E N} (h : Reached (step a depth maxNodes) s t) :
    (∀ x ∈ s.visited, x ∈ t.visited) ∧ s.results <+: t.results :=
  h.inv (P := fun t => (∀ x ∈ s.visited, x ∈ t.visited) ∧ s.results <+: t.results)
    ⟨fun _ h => h, List.prefix_refl _⟩
    fun _ ih hu => ⟨fun x hx => (mem_visited_of_step hu).1 x (ih.1 x hx),
      ih.2.trans (mem_visited_of_step hu).2.1⟩

lemma ended {s : State α E N} (h : step a depth maxNodes s = none) :
    s.stopped = true ∨ s.queue = [] := by
  cases hst : s.stopped with
  | true => exact .inl rfl
  | false =>
    cases hq : s.queue with
    | nil => exact .inr rfl
    | cons p queue =>
      rw [step, hst, if_neg Bool.false_ne_true, hq] at h
      dsimp only at h
      split at h
      · exact absurd h nofun
      · split at h <;> exact absurd h nofun

/-- A turn that expands a node is not the last state. -/
lemma step_of_expansion {s : State α E N} {x : α} {kept : List N}
    (h : expansion a depth maxNodes s = some (x, kept)) : ∃ t, step a depth maxNodes s = some t := by
  cases hs : step a depth maxNodes s with
  | some t => exact ⟨t, rfl⟩
  | none =>
    exfalso
    obtain hst | hq := ended hs
    · rw [expansion, hst] at h
      exact absurd h nofun
    · rw [expansion, hq] at h
      split at h <;> exact absurd h nofun

/-- A node is expanded once. -/
lemma expansion_unique {s t : State α E N} {x : α} {k k' : List N}
    (hs : Reached (step a depth maxNodes) (initial start) s)
    (ht : Reached (step a depth maxNodes) (initial start) t)
    (hk : expansion a depth maxNodes s = some (x, k))
    (hk' : expansion a depth maxNodes t = some (x, k')) : k = k' := by
  have hlater : ∀ {s t : State α E N} {k k'}, Reached (step a depth maxNodes) s t →
      expansion a depth maxNodes s = some (x, k) → expansion a depth maxNodes t = some (x, k') →
      k = k' := by
    intro s t k k' hst hk hk'
    obtain rfl | ⟨u, hu, hut⟩ := Relation.ReflTransGen.cases_head hst
    · exact (Prod.mk.inj (Option.some.inj (hk.symm.trans hk'))).2
    · obtain ⟨v, hv⟩ := step_of_expansion hk'
      have hin := (visited_mono hut).1 x (((mem_visited_of_step hu).2.2 x k hk).2.1)
      exact absurd hin ((mem_visited_of_step hv).2.2 x k' hk').1
  obtain h | h := hs.total ht
  · exact hlater h hk hk'
  · exact (hlater h hk' hk).symm

/-- What holds of every state of a traversal from an entity. -/
structure Good (a : Adapter α E N) (depth maxNodes : ℤ) (start : α) (s : State α E N) : Prop where
  search : ∃ done, Inv (Linked a depth maxNodes start) start depth done s.queue ∧
    done.map Prod.fst = s.visited
  visited : s.visited = s.results.map Node.id
  known : ∀ p ∈ s.queue, (a.entity p.1).isSome
  stopped : s.stopped = true ↔ s.results ≠ [] ∧ maxNodes ≤ s.results.length
  length : s.results = [] ∨ s.results.length = 1 ∨ (s.results.length : ℤ) ≤ maxNodes
  expanded : ∀ n ∈ s.results, ∃ t, Reached (step a depth maxNodes) (initial start) t ∧
    expansion a depth maxNodes t = some (n.id, n.neighbors)

lemma good_initial (h : (a.entity start).isSome) :
    Good a depth maxNodes start (initial start) where
  search := ⟨[], .init, rfl⟩
  visited := rfl
  known := by
    intro p hp
    rw [List.mem_singleton.mp hp]
    exact h
  stopped := iff_of_false Bool.false_ne_true fun h => h.1 rfl
  length := .inl rfl
  expanded := fun _ h => absurd h List.not_mem_nil

lemma Good.step {s t : State α E N} (h : Good a depth maxNodes start s)
    (hs : Reached (step a depth maxNodes) (initial start) s)
    (ht : step a depth maxNodes s = some t) : Good a depth maxNodes start t := by
  obtain ⟨hst, x, d, queue, hq, ⟨hskip, -, rfl⟩ | ⟨-, -, he, -, rfl⟩ |
    ⟨hx, hd, e, kept, -, hex, hk, rfl⟩⟩ := step_cases ht
  · -- the entry is dropped
    obtain ⟨done, hinv, hdone⟩ := h.search
    rw [hq] at hinv
    refine ⟨⟨done, hinv.skip (hdone ▸ hskip), hdone⟩, h.visited, fun p hp => h.known p ?_,
      h.stopped, h.length, h.expanded⟩
    exact hq ▸ List.mem_cons_of_mem _ hp
  · -- every node of the queue exists
    have := h.known (x, d) (hq ▸ List.mem_cons_self)
    rw [he] at this
    exact absurd this Bool.false_ne_true
  · -- the node is expanded
    obtain ⟨done, hinv, hdone⟩ := h.search
    rw [hq] at hinv
    have hnew : s.results = [] ∨ (s.results.length : ℤ) < maxNodes := by
      by_contra hnot
      obtain ⟨h1, h2⟩ := not_or.mp hnot
      rw [h.stopped.mpr ⟨h1, by omega⟩] at hst
      exact absurd hst nofun
    have hlen : (s.results ++ [(⟨x, e, kept⟩ : Node α E N)]).length = s.results.length + 1 := by
      rw [List.length_append, List.length_singleton]
    refine ⟨⟨done ++ [(x, d)], hinv.visit (hdone ▸ hx) hd ?_ ?_, ?_⟩, ?_, ?_, ?_, ?_, ?_⟩
    · -- what is appended is linked
      intro y hy
      obtain ⟨n, hn, rfl⟩ := List.mem_map.mp (List.mem_filter.mp hy).1
      refine ⟨⟨n, hk.subset hn, rfl⟩, fun s' kept' hs' hex' => ?_⟩
      obtain rfl := expansion_unique hs hs' hex hex'
      exact ⟨n, hn, rfl⟩
    · -- what is linked is appended, unless it has been visited
      intro y hy
      obtain ⟨n, hn, rfl⟩ := hy.2 s kept hs hex
      by_cases hin : a.idOf n ∈ s.visited ++ [x]
      · rw [List.mem_append, List.mem_singleton, ← hdone] at hin
        exact .inr hin.symm
      · exact .inl (List.mem_filter.mpr ⟨List.mem_map_of_mem hn, decide_eq_true hin⟩)
    · rw [List.map_append, hdone]
      rfl
    · rw [List.map_append, ← h.visited]
      rfl
    · intro p hp
      obtain hp | hp := List.mem_append.mp hp
      · exact h.known p (hq ▸ List.mem_cons_of_mem _ hp)
      · obtain ⟨y, hy, rfl⟩ := List.mem_map.mp hp
        obtain ⟨n, hn, rfl⟩ := List.mem_map.mp (List.mem_filter.mp hy).1
        exact a.neighbor_exists x n (hk.subset hn)
    · rw [decide_eq_true_iff, hlen]
      exact ⟨fun h => ⟨List.append_ne_nil_of_right_ne_nil _ (List.cons_ne_nil _ _), h⟩,
        fun h => h.2⟩
    · rw [hlen]
      obtain hnew | hnew := hnew
      · exact .inr (.inl (by rw [hnew]; rfl))
      · exact .inr (.inr (by omega))
    · intro n hn
      obtain hn | hn := List.mem_append.mp hn
      · exact h.expanded n hn
      · obtain rfl := List.mem_singleton.mp hn
        exact ⟨s, hs, hex⟩

lemma good_final (h : (a.entity start).isSome) :
    Good a depth maxNodes start (final a depth maxNodes start) :=
  (reached_run _ _).inv (good_initial h) fun hs hg ht => hg.step hs ht

/-! ### Completeness -/

section Claim
variable (a depth maxNodes start)

/-- The nodes within the depth along some links, none where the start is not an entity. -/
def nodesWithin (L : α → α → Prop) : Set α := {y | (a.entity start).isSome ∧ y ∈ ball L start depth}

/-- Every node within the depth once, with all its neighbours. -/
def Complete : Prop :=
  ((traverse a depth maxNodes start).map Node.id).Nodup ∧
    (∀ y, y ∈ (traverse a depth maxNodes start).map Node.id ↔
      y ∈ nodesWithin a depth start (Adjacent a)) ∧
    ∀ n ∈ traverse a depth maxNodes start, n.neighbors = a.neighbors n.id

/-- As many distinct nodes as the limit allows. -/
def Full : Prop :=
  ((traverse a depth maxNodes start).map Node.id).Nodup ∧
    ((traverse a depth maxNodes start).length : ℤ) = maxNodes

/-- No scan breaks off before a node's last neighbour. -/
def Unbroken : Prop :=
  ∀ s x kept, Reached (step a depth maxNodes) (initial start) s →
    expansion a depth maxNodes s = some (x, kept) → kept = a.neighbors x

end Claim

/-- The identifiers of the results, as a set of nodes along the kept links. -/
structure Outcome (a : Adapter α E N) (depth maxNodes : ℤ) (start : α) : Prop where
  nodup : ((traverse a depth maxNodes start).map Node.id).Nodup
  sound : ∀ y ∈ (traverse a depth maxNodes start).map Node.id,
    y ∈ nodesWithin a depth start (Linked a depth maxNodes start)
  /-- The limit is reached, or all nodes are there. -/
  full : (traverse a depth maxNodes start ≠ [] ∧
      maxNodes ≤ (traverse a depth maxNodes start).length) ∨
    ∀ y ∈ nodesWithin a depth start (Linked a depth maxNodes start),
      y ∈ (traverse a depth maxNodes start).map Node.id
  length : traverse a depth maxNodes start = [] ∨
    (traverse a depth maxNodes start).length = 1 ∨
      ((traverse a depth maxNodes start).length : ℤ) ≤ maxNodes
  expanded : ∀ n ∈ traverse a depth maxNodes start, ∃ t,
    Reached (step a depth maxNodes) (initial start) t ∧
      expansion a depth maxNodes t = some (n.id, n.neighbors)

lemma traverse_of_none (h : a.entity start = none) : traverse a depth maxNodes start = [] := by
  have hinv : (final a depth maxNodes start).results = [] ∧
      ∀ p ∈ (final a depth maxNodes start).queue, a.entity p.1 = none := by
    refine (reached_run _ _).inv (P := fun s : State α E N => s.results = [] ∧
      ∀ p ∈ s.queue, a.entity p.1 = none) ⟨rfl, fun p hp => ?_⟩ ?_
    · rw [List.mem_singleton.mp hp]
      exact h
    · rintro s t - ⟨hres, hnone⟩ ht
      obtain ⟨-, x, d, queue, hq, ⟨-, -, rfl⟩ | ⟨-, -, -, -, rfl⟩ | ⟨-, -, e, _, he, -, -, rfl⟩⟩ :=
        step_cases ht
      · exact ⟨hres, fun p hp => hnone p (hq ▸ List.mem_cons_of_mem _ hp)⟩
      · exact ⟨hres, fun p hp => hnone p (hq ▸ List.mem_cons_of_mem _ hp)⟩
      · have := hnone (x, d) (hq ▸ List.mem_cons_self)
        exact absurd (he.symm.trans this) nofun
  exact hinv.1

lemma outcome : Outcome a depth maxNodes start := by
  cases hs : (a.entity start).isSome with
  | false =>
    have hnil : traverse a depth maxNodes start = [] :=
      traverse_of_none (Option.isNone_iff_eq_none.mp (by simpa using hs))
    refine ⟨?_, ?_, .inr fun y hy => ?_, .inl hnil, ?_⟩
    · rw [hnil]; exact List.nodup_nil
    · rw [hnil]; exact fun _ h => absurd h List.not_mem_nil
    · exact absurd (hs.symm.trans hy.1) nofun
    · rw [hnil]; exact fun _ h => absurd h List.not_mem_nil
  | true =>
    have hg : Good a depth maxNodes start (final a depth maxNodes start) := good_final hs
    obtain ⟨done, hinv, hdone⟩ := hg.search
    rw [hg.visited] at hdone
    refine ⟨hdone ▸ hinv.nodup, fun y hy => ⟨hs, hinv.subset_ball y (hdone ▸ hy)⟩, ?_, hg.length,
      hg.expanded⟩
    obtain hst | hq := ended (step_final a depth maxNodes start)
    · exact .inl (hg.stopped.mp hst)
    · rw [hq] at hinv
      exact .inr fun y hy => hdone ▸ hinv.ball_subset y hy.2

omit [DecidableEq α] in
lemma nodesWithin_mono {L L' : α → α → Prop} (h : ∀ x y, L x y → L' x y) :
    nodesWithin a depth start L ⊆ nodesWithin a depth start L' :=
  fun _ hy => ⟨hy.1, ball_mono h start depth hy.2⟩

omit [DecidableEq α] in
lemma mem_ids_of_nodesWithin {y : α} (hy : y ∈ nodesWithin a depth start (Adjacent a)) :
    y ∈ a.ids := by
  obtain ⟨hs, n, -, hw⟩ := hy
  refine a.mem_ids y ?_
  cases hw with
  | refl => exact hs
  | tail _ hl =>
    obtain ⟨m, hm, rfl⟩ := hl
    exact a.neighbor_exists _ m hm

omit [DecidableEq α] in
lemma finite_nodesWithin : (nodesWithin a depth start (Adjacent a)).Finite :=
  (List.finite_toSet a.ids).subset fun _ => mem_ids_of_nodesWithin

lemma linked_subset : nodesWithin a depth start (Linked a depth maxNodes start)
    ⊆ nodesWithin a depth start (Adjacent a) := nodesWithin_mono fun _ _ h => h.1

/-- The identifiers are a set of as many nodes as there are results. -/
lemma ncard_ids (h : ((traverse a depth maxNodes start).map Node.id).Nodup) :
    Set.ncard {y | y ∈ (traverse a depth maxNodes start).map Node.id}
      = (traverse a depth maxNodes start).length := by
  rw [← List.length_map (f := Node.id), ← List.toFinset_card_of_nodup h, ← Set.ncard_coe_finset,
    List.coe_toFinset]

lemma complete_iff
    (h : ((nodesWithin a depth start (Adjacent a)).ncard : ℤ) ≤ maxNodes) :
    Complete a depth maxNodes start ↔ Unbroken a depth maxNodes start := by
  have ho : Outcome a depth maxNodes start := outcome
  constructor
  · rintro ⟨hnodup, -, hall⟩ s x kept hs hex
    obtain ⟨t, ht⟩ := step_of_expansion hex
    obtain ⟨e, hmem⟩ := ((mem_visited_of_step ht).2.2 x kept hex).2.2
    have hlast := (hs.tail ht).ended (reached_run _ _) (step_final _ _ _ start)
    exact hall _ ((visited_mono hlast).2.subset hmem)
  · intro hun
    have hlinked : ∀ x y, Adjacent a x y → Linked a depth maxNodes start x y := by
      rintro x y ⟨n, hn, rfl⟩
      refine ⟨⟨n, hn, rfl⟩, fun s kept hs hex => ?_⟩
      rw [hun s x kept hs hex]
      exact ⟨n, hn, rfl⟩
    have hsub : {y | y ∈ (traverse a depth maxNodes start).map Node.id}
        ⊆ nodesWithin a depth start (Adjacent a) := fun y hy => linked_subset (ho.sound y hy)
    refine ⟨ho.nodup, fun y => ⟨fun hy => hsub hy, fun hy => ?_⟩, fun n hn => ?_⟩
    · obtain ⟨-, hm⟩ | hfull := ho.full
      · -- the limit is reached with all nodes
        have heq := Set.eq_of_subset_of_ncard_le hsub
          (by rw [ncard_ids ho.nodup]; omega) finite_nodesWithin
        exact heq.symm.subset hy
      · exact hfull y (nodesWithin_mono hlinked hy)
    · obtain ⟨t, ht, hex⟩ := ho.expanded n hn
      exact hun t n.id n.neighbors ht hex

lemma full_iff (h : maxNodes < (nodesWithin a depth start (Adjacent a)).ncard) :
    Full a depth maxNodes start ↔
      1 ≤ maxNodes ∧
        maxNodes ≤ (nodesWithin a depth start (Linked a depth maxNodes start)).ncard := by
  have ho : Outcome a depth maxNodes start := outcome
  have hfin : (nodesWithin a depth start (Linked a depth maxNodes start)).Finite :=
    finite_nodesWithin.subset linked_subset
  have hsub : {y | y ∈ (traverse a depth maxNodes start).map Node.id}
      ⊆ nodesWithin a depth start (Linked a depth maxNodes start) := ho.sound
  have hle := Set.ncard_le_ncard hsub hfin
  rw [ncard_ids ho.nodup] at hle
  constructor
  · rintro ⟨-, hlen⟩
    refine ⟨?_, by omega⟩
    by_contra hlt
    have hnil : traverse a depth maxNodes start = [] := List.length_eq_zero_iff.mp (by omega)
    obtain ⟨y, hs, n, hn, -⟩ := Set.nonempty_of_ncard_ne_zero
      (s := nodesWithin a depth start (Adjacent a)) (by omega)
    obtain ⟨hne, -⟩ | hfull := ho.full
    · exact hne hnil
    · have hstart := hfull start ⟨hs, n, hn, .refl n⟩
      rw [hnil] at hstart
      exact absurd hstart List.not_mem_nil
  · rintro ⟨h1, hm⟩
    refine ⟨ho.nodup, ?_⟩
    have hge : maxNodes ≤ (traverse a depth maxNodes start).length := by
      obtain ⟨-, h2⟩ | hfull := ho.full
      · exact h2
      · have hle := Set.ncard_le_ncard
          (t := {y | y ∈ (traverse a depth maxNodes start).map Node.id}) hfull (List.finite_toSet _)
        rw [ncard_ids ho.nodup] at hle
        omega
    obtain hlen | hlen | hlen := ho.length
    · rw [hlen] at hge ⊢
      exact absurd hge (by rw [List.length_nil]; omega)
    · omega
    · omega

end Model

/-! ### The embedded store -/

open GraphStore Extract

/-- `traverse` asks without a scope. -/
def sqlite (g : Graph) : Adapter EntityId EntityRow Neighbor where
  ids := g.entities.rows.map EntityRow.id
  entity := g.entities.get?
  neighbors := neighborsOf g ⟨none, []⟩
  idOf n := n.entity.id
  mem_ids x hx := by
    obtain ⟨e, he⟩ := Option.isSome_iff_exists.mp hx
    exact List.mem_map.mpr ⟨e, Keyed.mem_of_get? he, Keyed.key_of_get? he⟩
  neighbor_exists x n hn := by
    rw [neighborsOf, List.mem_dedup, List.mem_append] at hn
    have hrow : n.entity ∈ g.entities := by
      obtain hn | hn := hn <;>
      · obtain ⟨e, he, hn⟩ := List.mem_flatMap.mp hn
        obtain ⟨r, -, rfl⟩ := List.mem_map.mp hn
        exact he
    rw [Keyed.get?_of_mem hrow]
    rfl

def fn (name : String) : EntityId := .func (.rel ["m.py"]) name

/-- Four relationships of one function, three of them with the same other. -/
def parallel : Graph :=
  { GraphStore.empty with
    entities := ⟨[bare (fn "a"), bare (fn "b"), bare (fn "c")], by decide⟩
    relationships := ⟨[⟨fn "a", fn "b", .calls⟩, ⟨fn "a", fn "b", .imports⟩,
      ⟨fn "a", fn "b", .inherits⟩, ⟨fn "a", fn "c", .calls⟩], by decide⟩ }

end Treeweft.Traverse
