import Treeweft.Jobs
import Treeweft.Guarded
import Mathlib.Data.List.Rotate
import Mathlib.Data.List.Sort
import Mathlib.Data.Finset.Card
import Mathlib.Order.WithBot

/-!
The fleet refresh: at each tick the stale sources that were indexed longest ago are indexed again.

Only an index that succeeds moves a source to the back of that order. A stale source waits while
enough others stay ahead of it, so a few that keep failing can hold their places for ever; as long
as one of those ahead is indexed in every tick, it is selected within as many ticks as there are
stale sources: `selected_within`.
-/

namespace Treeweft.FleetRefresh

open Treeweft.Jobs

/-- A source as `_all_source_dicts` lists it. -/
structure Source where
  id : String
  indexedAt : Option ℕ
  commitSha : String
  deriving DecidableEq, Repr

structure Config where
  maxPerTick : ℕ
  maxSources : ℕ
  sourceListMax : ℕ

/-- When the source was indexed; a source without a time comes last. -/
def Source.key (s : Source) : WithTop ℕ := s.indexedAt.elim ⊤ WithTop.some

/-! ### Selection -/

/-- `is_stale`, with the commit that git names; empty where there is none. -/
def isStale (current : String) (s : Source) : Option Bool :=
  if s.commitSha ≠ "" ∧ current ≠ "" then some (s.commitSha ≠ current) else none

/-- `select_sources_to_refresh`, on the sources with what is known of their staleness. -/
def selectSourcesToRefresh (maxPerTick : ℕ) (sources : List (Source × Option Bool)) :
    List String :=
  let candidates := (sources.filter fun s => s.2 = some true ∧ s.1.id ≠ "").map Prod.fst
  ((candidates.insertionSort fun a b => a.key ≤ b.key).take maxPerTick).map Source.id

/-! ### A Tick -/

abbrev Registry := Keyed Source.id

structure Fleet where
  registry : Registry
  cursor : ℕ

/-- What one tick meets: the commit git names for each source, or nothing when the check raised;
the kind of the source's active job; and the rows that index jobs save before the next tick. -/
structure Round where
  head : String → Option String
  active : String → Option JobKind
  finished : List Source

/-- `ORDER BY indexed_at DESC LIMIT sourceListMax`. -/
def sources (c : Config) (f : Fleet) : List Source :=
  ((f.registry.rows.insertionSort fun a b => b.key ≤ a.key).take c.sourceListMax).filter
    fun s => s.id ≠ ""

/-- Above the cap, as many as the cap from the cursor on, around the end. -/
def window (c : Config) (f : Fleet) : List Source :=
  let all := sources c f
  if c.maxSources < all.length then
    ((all ++ all).drop (f.cursor % all.length)).take c.maxSources
  else all

def annotated (c : Config) (f : Fleet) (r : Round) : List (Source × Option Bool) :=
  (window c f).filterMap fun s => (r.head s.id).map fun current => (s, isStale current s)

def targets (c : Config) (f : Fleet) (r : Round) : List String :=
  selectSourcesToRefresh c.maxPerTick (annotated c f r)

/-- The targets a job is asked for: a source with an active job is passed over, unless the job is
a summary refresh. -/
def enqueued (c : Config) (f : Fleet) (r : Round) : List String :=
  (targets c f r).filter fun sid => (r.active sid).all (· = .resummarize)

def tick (c : Config) (f : Fleet) (r : Round) : Fleet :=
  let n := (sources c f).length
  ⟨r.finished.foldl (fun t s => t.put s) f.registry,
    if c.maxSources < n then (f.cursor % n + c.maxSources) % n else f.cursor⟩

/-! ### Who is Ahead -/

/-- When a source was indexed last. -/
def keyOf (f : Fleet) (i : String) : WithTop ℕ := (f.registry.get? i).elim ⊤ Source.key

/-- The stale sources that were not indexed after `s`. -/
def ahead (stale : Finset String) (s : String) (f : Fleet) : Finset String :=
  (stale.erase s).filter fun i => keyOf f i ≤ keyOf f s

/-- The stale sources are those git says so of. -/
def StaleAre (stale : Finset String) (f : Fleet) (r : Round) : Prop :=
  ∀ x ∈ f.registry, (r.head x.id).bind (fun current => isStale current x) = some true ↔
    x.id ∈ stale

instance (stale : Finset String) (f : Fleet) (r : Round) : Decidable (StaleAre stale f r) :=
  inferInstanceAs (Decidable (∀ x ∈ f.registry.rows,
    (r.head x.id).bind (fun current => isStale current x) = some true ↔ x.id ∈ stale))

/-- What is indexed before the next tick is indexed after `s` was, and is not `s` itself. -/
def Later (s : String) (f : Fleet) (r : Round) : Prop :=
  ∀ x ∈ r.finished, x.id ≠ s ∧ keyOf f s < x.key

instance (s : String) (f : Fleet) (r : Round) : Decidable (Later s f r) :=
  inferInstanceAs (Decidable (∀ x ∈ r.finished, x.id ≠ s ∧ keyOf f s < x.key))

/-- What keeps a source from waiting for ever: the window has it, and where those ahead of it can
take every place of the tick, one of them is indexed before the next. -/
structure Moves (c : Config) (stale : Finset String) (s : String) (f : Fleet) (r : Round) :
    Prop where
  checked : ∃ x ∈ window c f, x.id = s
  later : Later s f r
  progress : c.maxPerTick ≤ (ahead stale s f).card → ∃ x ∈ r.finished, x.id ∈ ahead stale s f

/-! ### The Oldest First -/

/-- With fewer than `k` others that are no later, a member is among the first `k` in order. -/
lemma mem_take_insertionSort {α β : Type} [DecidableEq α] [LinearOrder β] {f : α → β} {l : List α}
    {x : α} {k : ℕ} (hx : x ∈ l) (hl : l.Nodup)
    (hk : (l.filter fun y => y ≠ x ∧ f y ≤ f x).length < k) :
    x ∈ (l.insertionSort fun a b => f a ≤ f b).take k := by
  have hperm := List.perm_insertionSort (fun a b => f a ≤ f b) l
  have htotal : Std.Total fun a b => f a ≤ f b := ⟨fun a b => le_total (f a) (f b)⟩
  have htrans : IsTrans α fun a b => f a ≤ f b := ⟨fun _ _ _ => le_trans⟩
  have hsorted := List.pairwise_insertionSort (fun a b => f a ≤ f b) l
  obtain ⟨pre, post, hsplit⟩ := List.append_of_mem (hperm.mem_iff.mpr hx)
  have hnodup := hperm.nodup_iff.mpr hl
  rw [hsplit] at hsorted hnodup
  have hpre : ∀ y ∈ pre, y ≠ x ∧ f y ≤ f x := by
    intro y hy
    constructor
    · rintro rfl
      exact (List.nodup_append.mp hnodup).2.2 y hy y List.mem_cons_self rfl
    · exact (List.pairwise_append.mp hsorted).2.2 y hy x List.mem_cons_self
  have hlen : pre.length ≤ (l.filter fun y => y ≠ x ∧ f y ≤ f x).length := by
    have hcount := (hperm.filter fun y => y ≠ x ∧ f y ≤ f x).length_eq
    rw [hsplit, List.filter_append,
      List.filter_eq_self.mpr fun y hy => decide_eq_true (hpre y hy), List.length_append] at hcount
    omega
  rw [hsplit, List.take_append]
  refine List.mem_append_right _ ?_
  obtain ⟨n, hn⟩ : ∃ n, k - pre.length = n + 1 := ⟨k - pre.length - 1, by omega⟩
  rw [hn]
  exact List.mem_cons_self

section Tick
variable {c : Config} {stale : Finset String} {s : String} {f : Fleet} {r : Round}

lemma mem_sources {x : Source} (h : x ∈ sources c f) : x ∈ f.registry ∧ x.id ≠ "" := by
  obtain ⟨hmem, hid⟩ := List.mem_filter.mp h
  exact ⟨(List.mem_insertionSort _).mp (List.mem_of_mem_take hmem), of_decide_eq_true hid⟩

lemma sources_nodup (c : Config) (f : Fleet) : (sources c f).Nodup := by
  have hrows : f.registry.rows.Nodup := List.Nodup.of_map _ f.registry.uniq
  have hsort := (List.perm_insertionSort (fun a b : Source => b.key ≤ a.key) _).nodup_iff.mpr hrows
  exact (hsort.sublist (List.take_sublist _ _)).filter _

lemma mem_window {x : Source} (h : x ∈ window c f) : x ∈ f.registry ∧ x.id ≠ "" := by
  unfold window at h
  dsimp only at h
  split at h
  · have hmem := List.mem_of_mem_drop (List.mem_of_mem_take h)
    exact mem_sources ((List.mem_append.mp hmem).elim id id)
  · exact mem_sources h

/-- A fleet no larger than the two caps is checked whole. -/
lemma checked_of_small (hlist : f.registry.rows.length ≤ c.sourceListMax)
    (hsources : (sources c f).length ≤ c.maxSources) {x : Source} (hx : x ∈ f.registry)
    (hid : x.id ≠ "") : x ∈ window c f := by
  unfold window
  dsimp only
  rw [if_neg (by omega)]
  refine List.mem_filter.mpr ⟨?_, decide_eq_true hid⟩
  rw [List.take_of_length_le (by rw [List.length_insertionSort]; exact hlist)]
  exact (List.mem_insertionSort _).mpr hx

/-- The window above the cap is the front of the listing turned to the cursor. -/
lemma window_eq_rotate (h : c.maxSources < (sources c f).length) : window c f =
    ((sources c f).rotate (f.cursor % (sources c f).length)).take c.maxSources := by
  have hlt : f.cursor % (sources c f).length < (sources c f).length := Nat.mod_lt _ (by omega)
  unfold window
  dsimp only
  rw [if_pos h]
  generalize f.cursor % (sources c f).length = start at hlt
  rw [List.rotate_eq_drop_append_take hlt.le, List.drop_append_of_le_length hlt.le, List.take_append,
    List.take_append, List.take_take, List.length_drop, Nat.min_eq_left (by omega)]

lemma window_nodup (c : Config) (f : Fleet) : (window c f).Nodup := by
  by_cases h : c.maxSources < (sources c f).length
  · rw [window_eq_rotate h]
    exact (List.nodup_rotate.mpr (sources_nodup c f)).sublist (List.take_sublist _ _)
  · unfold window
    dsimp only
    rw [if_neg h]
    exact sources_nodup c f

/-- What the selection sorts: the stale sources of the window. -/
lemma candidates_eq (l : List Source) (r : Round) :
    ((l.filterMap fun x => (r.head x.id).map fun current => (x, isStale current x)).filter
      fun x => x.2 = some true ∧ x.1.id ≠ "").map Prod.fst =
    l.filter fun x =>
      (r.head x.id).bind (fun current => isStale current x) = some true ∧ x.id ≠ "" := by
  induction l with
  | nil => rfl
  | cons x l ih =>
    rw [List.filterMap_cons, List.filter_cons]
    cases hhead : r.head x.id with
    | none => simpa using ih
    | some current =>
      simp only [Option.map_some, Option.bind_some, List.filter_cons]
      split
      · rw [List.map_cons, ih]
      · exact ih

lemma keyOf_of_mem {x : Source} (h : x ∈ f.registry) : keyOf f x.id = x.key := by
  unfold keyOf
  rw [Keyed.get?_of_mem h]
  rfl

/-- The stale sources of the window. -/
def candidates (c : Config) (f : Fleet) (r : Round) : List Source :=
  (window c f).filter fun x =>
    (r.head x.id).bind (fun current => isStale current x) = some true ∧ x.id ≠ ""

lemma targets_eq : targets c f r =
    (((candidates c f r).insertionSort fun a b => a.key ≤ b.key).take c.maxPerTick).map
      Source.id := by
  unfold targets selectSourcesToRefresh annotated
  dsimp only
  rw [candidates_eq]
  rfl

lemma mem_candidates (hstale : StaleAre stale f r) {x : Source} :
    x ∈ candidates c f r ↔ x ∈ window c f ∧ x.id ∈ stale := by
  unfold candidates
  rw [List.mem_filter, decide_eq_true_eq]
  constructor
  · rintro ⟨hx, hst, -⟩
    exact ⟨hx, (hstale x (mem_window hx).1).mp hst⟩
  · rintro ⟨hx, hst⟩
    exact ⟨hx, (hstale x (mem_window hx).1).mpr hst, (mem_window hx).2⟩

lemma candidates_nodup : (candidates c f r).Nodup := (window_nodup c f).filter _

/-- Rows of the window that are no later than `s` are ahead of it, each under its own id. -/
lemma length_le_ahead (hstale : StaleAre stale f r) {x : Source} (hx : x ∈ candidates c f r)
    {l : List Source} (hl : l.Nodup)
    (h : ∀ y ∈ l, y ∈ candidates c f r ∧ y ≠ x ∧ y.key ≤ x.key) :
    (l.map Source.id).Nodup ∧ ∀ i ∈ l.map Source.id, i ∈ ahead stale x.id f := by
  have hreg : ∀ y, y ∈ candidates c f r → y ∈ f.registry := fun y hy =>
    (mem_window (List.mem_filter.mp hy).1).1
  constructor
  · exact List.Nodup.map_on
      (fun y hy z hz hid => Keyed.eq_of_key (hreg y (h y hy).1) (hreg z (h z hz).1) hid) hl
  · intro i hi
    obtain ⟨y, hy, rfl⟩ := List.mem_map.mp hi
    obtain ⟨hyc, hne, hle⟩ := h y hy
    refine Finset.mem_filter.mpr ⟨Finset.mem_erase.mpr ⟨?_, ?_⟩, ?_⟩
    · exact fun hid => hne (Keyed.eq_of_key (hreg y hyc) (hreg x hx) hid)
    · exact ((mem_candidates hstale).mp hyc).2
    · rw [keyOf_of_mem (hreg y hyc), keyOf_of_mem (hreg x hx)]
      exact hle

/-- With fewer ahead of it than the tick has places, a stale source in the window is selected. -/
lemma mem_targets (hstale : StaleAre stale f r) (hs : s ∈ stale)
    (hchecked : ∃ x ∈ window c f, x.id = s) (hlt : (ahead stale s f).card < c.maxPerTick) :
    s ∈ targets c f r := by
  obtain ⟨x, hx, rfl⟩ := hchecked
  have hxc : x ∈ candidates c f r := (mem_candidates hstale).mpr ⟨hx, hs⟩
  rw [targets_eq]
  refine List.mem_map_of_mem
    (mem_take_insertionSort hxc candidates_nodup (Nat.lt_of_le_of_lt ?_ hlt))
  obtain ⟨hids, hahead⟩ := length_le_ahead hstale hxc
    (candidates_nodup.filter fun y => y ≠ x ∧ y.key ≤ x.key) fun y hy => by
      obtain ⟨hy, hle⟩ := List.mem_filter.mp hy
      exact ⟨hy, of_decide_eq_true hle⟩
  rw [← List.length_map Source.id, ← List.toFinset_card_of_nodup hids]
  exact Finset.card_le_card fun i hi => hahead i (List.mem_toFinset.mp hi)

/-- A stale source in the window that is not selected has a full tick ahead of it. -/
lemma targets_ahead (hstale : StaleAre stale f r) (hs : s ∈ stale)
    (hchecked : ∃ x ∈ window c f, x.id = s) (hnot : s ∉ targets c f r) :
    (targets c f r).Nodup ∧ (targets c f r).length = c.maxPerTick ∧
      ∀ i ∈ targets c f r, i ∈ ahead stale s f := by
  obtain ⟨x, hx, rfl⟩ := hchecked
  have hxc : x ∈ candidates c f r := (mem_candidates hstale).mpr ⟨hx, hs⟩
  rw [targets_eq] at hnot ⊢
  have hperm := List.perm_insertionSort (fun a b : Source => a.key ≤ b.key) (candidates c f r)
  have htotal : Std.Total fun a b : Source => a.key ≤ b.key := ⟨fun a b => le_total a.key b.key⟩
  have htrans : IsTrans Source fun a b => a.key ≤ b.key := ⟨fun _ _ _ => le_trans⟩
  have hsorted := List.pairwise_insertionSort (fun a b : Source => a.key ≤ b.key)
    (candidates c f r)
  have hsplit := List.take_append_drop c.maxPerTick
    ((candidates c f r).insertionSort fun a b => a.key ≤ b.key)
  have hdrop : x ∈ ((candidates c f r).insertionSort fun a b => a.key ≤ b.key).drop
      c.maxPerTick := by
    have hmem := hperm.mem_iff.mpr hxc
    rw [← hsplit, List.mem_append] at hmem
    exact hmem.resolve_left fun h => hnot (List.mem_map_of_mem h)
  have hlen : (((candidates c f r).insertionSort fun a b => a.key ≤ b.key).take
      c.maxPerTick).length = c.maxPerTick := by
    have hpos := List.length_pos_of_mem hdrop
    rw [List.length_drop] at hpos
    rw [List.length_take]
    omega
  have hnodup := hperm.nodup_iff.mpr (candidates_nodup (c := c) (f := f) (r := r))
  rw [← hsplit] at hsorted hnodup
  obtain ⟨hids, hahead⟩ := length_le_ahead hstale hxc (List.nodup_append.mp hnodup).1
    fun y hy => by
      refine ⟨hperm.mem_iff.mp (List.mem_of_mem_take hy), ?_, ?_⟩
      · rintro rfl
        exact (List.nodup_append.mp hnodup).2.2 y hy y hdrop rfl
      · exact (List.pairwise_append.mp hsorted).2.2 y hy x hdrop
  exact ⟨hids, by rw [List.length_map, hlen], hahead⟩

/-! ### From Tick to Tick -/

/-- A row after the saves of some index jobs: the old one, or one that was saved. -/
lemma get?_saved (i : String) (finished : List Source) :
    ∀ t : Registry, (i ∉ finished.map Source.id ∧
      (finished.foldl (fun t x => t.put x) t).get? i = t.get? i) ∨
      ∃ x ∈ finished, x.id = i ∧ (finished.foldl (fun t x => t.put x) t).get? i = some x := by
  induction finished with
  | nil => exact fun t => .inl ⟨by simp, rfl⟩
  | cons x finished ih =>
    intro t
    rw [List.foldl_cons]
    rcases ih (t.put x) with ⟨hi, hget⟩ | ⟨y, hy, hyi, hget⟩
    · rw [hget, Keyed.get?_put]
      by_cases hx : i = x.id
      · exact .inr ⟨x, List.mem_cons_self, hx.symm, if_pos hx⟩
      · refine .inl ⟨?_, if_neg hx⟩
        rw [List.map_cons, List.mem_cons, not_or]
        exact ⟨hx, hi⟩
    · exact .inr ⟨y, List.mem_cons_of_mem _ hy, hyi, hget⟩

lemma keyOf_tick (h : Later s f r) : keyOf (tick c f r) s = keyOf f s := by
  have hget : (tick c f r).registry.get? s = f.registry.get? s := by
    rcases get?_saved s r.finished f.registry with ⟨-, hget⟩ | ⟨x, hx, hxs, -⟩
    · exact hget
    · exact absurd hxs (h x hx).1
  unfold keyOf
  rw [hget]

/-- Nobody gets ahead of the source, and who is indexed falls behind it. -/
lemma mem_ahead_tick (h : Later s f r) {i : String}
    (hi : i ∈ ahead stale s (tick c f r)) : i ∈ ahead stale s f ∧ i ∉ r.finished.map Source.id := by
  obtain ⟨hst, hle⟩ := Finset.mem_filter.mp hi
  rw [keyOf_tick h] at hle
  rcases get?_saved i r.finished f.registry with ⟨hnot, hget⟩ | ⟨x, hx, -, hget⟩
  · refine ⟨Finset.mem_filter.mpr ⟨hst, ?_⟩, hnot⟩
    have hkey : keyOf (tick c f r) i = keyOf f i := by
      unfold keyOf
      exact congrArg (fun o : Option Source => o.elim ⊤ Source.key) hget
    exact hkey ▸ hle
  · have hkey : keyOf (tick c f r) i = x.key := by
      unfold keyOf
      exact congrArg (fun o : Option Source => o.elim ⊤ Source.key) hget
    rw [hkey] at hle
    exact absurd (h x hx).2 (not_lt_of_ge hle)

/-- In a tick without the source, one of those ahead of it is indexed. -/
def Yields (c : Config) (stale : Finset String) (s : String) (f : Fleet) (r : Round) : Prop :=
  Later s f r ∧ (s ∉ targets c f r → ∃ x ∈ r.finished, x.id ∈ ahead stale s f)

/-- Where ticks yield, the source is selected before as many have passed as there are sources ahead
of it. -/
lemma selected_of_ahead (rounds : List Round) :
    ∀ {f : Fleet} {n : ℕ}, (ahead stale s f).card ≤ n → n < rounds.length →
      Guarded.Along (tick c) (Yields c stale s) f rounds →
      ∃ pre round post, rounds = pre ++ round :: post ∧ pre.length ≤ n ∧
        s ∈ targets c (pre.foldl (tick c) f) round := by
  induction rounds with
  | nil => exact fun _ hn => absurd hn (by simp)
  | cons r rounds ih =>
    intro f n hn hlen ⟨⟨hlater, hprogress⟩, hrest⟩
    by_cases hsel : s ∈ targets c f r
    · exact ⟨[], r, rounds, rfl, Nat.zero_le n, hsel⟩
    · have hless : (ahead stale s (tick c f r)).card < (ahead stale s f).card := by
        refine Finset.card_lt_card ⟨fun i hi => (mem_ahead_tick hlater hi).1, fun hsub => ?_⟩
        obtain ⟨x, hx, hxa⟩ := hprogress hsel
        exact (mem_ahead_tick hlater (hsub hxa)).2 (List.mem_map_of_mem hx)
      obtain ⟨m, rfl⟩ : ∃ m, n = m + 1 := ⟨n - 1, by omega⟩
      rw [List.length_cons] at hlen
      obtain ⟨pre, round, post, rfl, hpre, hsel⟩ :=
        ih (f := tick c f r) (n := m) (by omega) (by omega) hrest
      exact ⟨r :: pre, round, post, rfl, by simpa using hpre, hsel⟩

lemma card_ahead_lt (hs : s ∈ stale) (f : Fleet) : (ahead stale s f).card < stale.card := by
  have hle : (ahead stale s f).card ≤ (stale.erase s).card :=
    Finset.card_le_card (Finset.filter_subset _ _)
  exact Nat.lt_of_le_of_lt hle (Finset.card_erase_lt_of_mem hs)

/-- **No source starves** where the ticks move: it is selected within as many ticks as there are
stale sources. -/
theorem selected_within (c : Config) {stale : Finset String} {s : String} (hs : s ∈ stale)
    (f : Fleet) (rounds : List Round) (hlen : stale.card ≤ rounds.length)
    (h : Guarded.Along (tick c) (fun f r => StaleAre stale f r ∧ Moves c stale s f r) f rounds) :
    ∃ pre round post, rounds = pre ++ round :: post ∧ pre.length < stale.card ∧
      s ∈ targets c (pre.foldl (tick c) f) round := by
  have hcard := card_ahead_lt hs f
  have hyields : Guarded.Along (tick c) (Yields c stale s) f rounds :=
    Guarded.along_mono (fun f r hr => ⟨hr.2.later, fun hsel => hr.2.progress
      (Nat.le_of_not_lt fun hlt => hsel (mem_targets hr.1 hs hr.2.checked hlt))⟩) h
  obtain ⟨pre, round, post, hrounds, hpre, hsel⟩ :=
    selected_of_ahead rounds (Nat.le_sub_one_of_lt hcard) (by omega) hyields
  exact ⟨pre, round, post, hrounds, by omega, hsel⟩

/-- Fewer failing sources than a tick has places do not hold up the others: it is enough that the
selected sources outside `failing` are indexed before the next tick. -/
theorem selected_despite_failing (c : Config) {stale failing : Finset String} {s : String}
    (hs : s ∈ stale) (hfail : failing.card < c.maxPerTick) (f : Fleet) (rounds : List Round)
    (hlen : stale.card ≤ rounds.length)
    (h : Guarded.Along (tick c) (fun f r => StaleAre stale f r ∧ (∃ x ∈ window c f, x.id = s) ∧
      Later s f r ∧ ∀ i ∈ targets c f r, i ∉ failing → i = s ∨ ∃ x ∈ r.finished, x.id = i)
      f rounds) :
    ∃ pre round post, rounds = pre ++ round :: post ∧ pre.length < stale.card ∧
      s ∈ targets c (pre.foldl (tick c) f) round := by
  have hcard := card_ahead_lt hs f
  have hyields : Guarded.Along (tick c) (Yields c stale s) f rounds := by
    refine Guarded.along_mono (fun f r hr => ?_) h
    obtain ⟨hstale, hchecked, hlater, hfinish⟩ := hr
    refine ⟨hlater, fun hsel => ?_⟩
    obtain ⟨hnodup, hlength, hahead⟩ := targets_ahead hstale hs hchecked hsel
    obtain ⟨i, hi, hif⟩ : ∃ i ∈ targets c f r, i ∉ failing := by
      by_contra hall
      push Not at hall
      have hle : (targets c f r).toFinset.card ≤ failing.card :=
        Finset.card_le_card fun i hi => hall i (List.mem_toFinset.mp hi)
      rw [List.toFinset_card_of_nodup hnodup] at hle
      omega
    rcases hfinish i hi hif with rfl | ⟨x, hx, rfl⟩
    · exact absurd hi hsel
    · exact ⟨x, hx, hahead x.id hi⟩
  obtain ⟨pre, round, post, hrounds, hpre, hsel⟩ :=
    selected_of_ahead rounds (Nat.le_sub_one_of_lt hcard) (by omega) hyields
  exact ⟨pre, round, post, hrounds, by omega, hsel⟩

end Tick

/-! ### Two Sources and One Place -/

def onePlace : Config := ⟨1, 200, 10000⟩

/-- `a` was indexed before `b`, both at a commit that is no longer the head. -/
def twoStale : Fleet := ⟨⟨[⟨"a", some 1, "old"⟩, ⟨"b", some 2, "old"⟩], by decide⟩, 0⟩

/-- Git names a newer commit for both, and the jobs in `finished` succeed. -/
def headMoved (finished : List Source) : Round := ⟨fun _ => some "new", fun _ => none, finished⟩

/-- The job of `a` succeeds, and its head moves on. -/
theorem selected_after_success :
    ∃ pre round post, [headMoved [⟨"a", some 5, "older"⟩], headMoved []] = pre ++ round :: post ∧
      pre.length < ({"a", "b"} : Finset String).card ∧
      "b" ∈ targets onePlace (pre.foldl (tick onePlace) twoStale) round := by
  refine selected_within onePlace (by decide) twoStale _ (by decide)
    ⟨⟨by decide, ⟨by decide +kernel, by decide +kernel, by decide +kernel⟩⟩,
      ⟨by decide, ⟨by decide +kernel, by decide +kernel, by decide +kernel⟩⟩, trivial⟩

/-- The job of `a` always fails: however many ticks pass, `b` is not selected. -/
theorem failing_source_starves : StaleAre {"a", "b"} twoStale (headMoved []) ∧
    ¬∃ n : ℕ, "b" ∈ targets onePlace
      ((List.replicate n (headMoved [])).foldl (tick onePlace) twoStale) (headMoved []) := by
  refine ⟨by decide, ?_⟩
  rintro ⟨n, hn⟩
  have hstill : (List.replicate n (headMoved [])).foldl (tick onePlace) twoStale = twoStale := by
    induction n with
    | zero => rfl
    | succ n ih => exact ih hn
  rw [hstill] at hn
  revert hn
  decide +kernel

end Treeweft.FleetRefresh
