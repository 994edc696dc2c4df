import Treeweft.FleetRefresh
import Mathlib.Data.List.TakeWhile

/-!
The rotation of the staleness checks over a fleet above the cap.

The cursor is a place in the listing, and indexing a source moves it to the front of the listing.
A source that keeps its place is reached in time; one that is pushed back can be passed by.
-/

namespace Treeweft.FleetRotation

open Treeweft.FleetRefresh

/-! ### Who is Listed Before -/

abbrev newestFirst (a b : Source) : Prop := b.key ≤ a.key

/-- The sources listed before `i`. -/
def before (c : Config) (f : Fleet) (i : String) : List Source :=
  (sources c f).takeWhile fun y => y.id ≠ i

/-- Between two ticks only sources that are listed before `i` are indexed, and later than it was. -/
def StaysBehind (c : Config) (i : String) (f : Fleet) (r : Round) : Prop :=
  ∀ x ∈ r.finished, x.id ∈ (before c f i).map Source.id ∧ keyOf f i < x.key

/-- Source `i` is among those checked in the ticks of a run. -/
def checkedIn (c : Config) (i : String) : Fleet → List Round → Bool
  | _, [] => false
  | f, r :: rounds => (window c f).any (fun x => x.id = i) || checkedIn c i (tick c f r) rounds

/-- `ceil(n / c)`. -/
def ticksToCover (n c : ℕ) : ℕ := (n + c - 1) / c

section Stable
variable {s a : Source} {L : List Source}

/-- A source goes behind all that were indexed later. -/
lemma takeWhile_orderedInsert_self (hs : ∀ y ∈ L, y.id ≠ s.id) (hL : L.Pairwise newestFirst) :
    (L.orderedInsert newestFirst s).takeWhile (fun y => y.id ≠ s.id) =
      L.filter fun y => s.key < y.key := by
  induction L with
  | nil => simp
  | cons b L ih =>
    obtain ⟨hb, hL⟩ := List.pairwise_cons.mp hL
    have hih := ih (fun y hy => hs y (List.mem_cons_of_mem _ hy)) hL
    have hbs : b.id ≠ s.id := hs b List.mem_cons_self
    by_cases hle : b.key ≤ s.key
    · rw [List.orderedInsert_cons_of_le newestFirst L hle]
      have hnone : (b :: L).filter (fun y => s.key < y.key) = [] := by
        refine List.filter_eq_nil_iff.mpr fun y hy => ?_
        rcases List.mem_cons.mp hy with rfl | hy
        · simpa using hle
        · simpa using (hb y hy).trans hle
      rw [hnone]
      simp
    · rw [List.orderedInsert_of_not_le newestFirst L hle, List.takeWhile_cons_of_pos (by simpa),
        List.filter_cons_of_pos (by simpa using hle), hih]

/-- Another source is listed before `s` or behind it, by their times, and nobody else moves. -/
lemma takeWhile_orderedInsert (ha : a.id ≠ s.id) (hs : s ∈ L)
    (huniq : ∀ y ∈ L, y.id = s.id → y = s) (hL : L.Pairwise newestFirst) :
    ((L.orderedInsert newestFirst a).takeWhile fun y => y.id ≠ s.id).Perm
      ((if s.key ≤ a.key then [a] else []) ++ L.takeWhile fun y => y.id ≠ s.id) := by
  induction L with
  | nil => exact absurd hs List.not_mem_nil
  | cons b L ih =>
    obtain ⟨hb, hL⟩ := List.pairwise_cons.mp hL
    by_cases hle : b.key ≤ a.key
    · have hsa : s.key ≤ a.key := by
        rcases List.mem_cons.mp hs with rfl | hs
        · exact hle
        · exact (hb s hs).trans hle
      rw [List.orderedInsert_cons_of_le newestFirst L hle, List.takeWhile_cons_of_pos (by simpa),
        if_pos hsa]
      exact .refl _
    · rw [List.orderedInsert_of_not_le newestFirst L hle]
      by_cases hbs : b.id = s.id
      · obtain rfl := huniq b List.mem_cons_self hbs
        rw [List.takeWhile_cons_of_neg (by simp), List.takeWhile_cons_of_neg (by simp), if_neg hle]
        exact .refl _
      · have hsL : s ∈ L := (List.mem_cons.mp hs).resolve_left fun h => hbs (by rw [h])
        rw [List.takeWhile_cons_of_pos (by simpa), List.takeWhile_cons_of_pos (by simpa)]
        have hih := ih hsL (fun y hy => huniq y (List.mem_cons_of_mem _ hy)) hL
        exact (hih.cons b).trans List.perm_middle.symm

/-- **Stability**: those listed before `s` are the earlier rows that are as new and the later rows
that are newer. -/
lemma takeWhile_insertionSort {pre post : List Source} (hpre : ∀ y ∈ pre, y.id ≠ s.id)
    (hpost : ∀ y ∈ post, y.id ≠ s.id) :
    (((pre ++ s :: post).insertionSort newestFirst).takeWhile fun y => y.id ≠ s.id).Perm
      (pre.filter (fun y => s.key ≤ y.key) ++ post.filter fun y => s.key < y.key) := by
  have htotal : Std.Total newestFirst := ⟨fun a b => le_total b.key a.key⟩
  have htrans : IsTrans Source newestFirst := ⟨fun _ _ _ h h' => h'.trans h⟩
  induction pre with
  | nil =>
    have hperm := List.perm_insertionSort newestFirst post
    rw [List.nil_append, List.insertionSort_cons, takeWhile_orderedInsert_self
      (fun y hy => hpost y (hperm.mem_iff.mp hy)) (List.pairwise_insertionSort newestFirst post)]
    exact hperm.filter _
  | cons a pre ih =>
    have hrest := ih fun y hy => hpre y (List.mem_cons_of_mem _ hy)
    have hs : s ∈ (pre ++ s :: post).insertionSort newestFirst :=
      (List.mem_insertionSort newestFirst).mpr (by simp)
    have huniq : ∀ y ∈ (pre ++ s :: post).insertionSort newestFirst, y.id = s.id → y = s := by
      intro y hy hid
      rcases List.mem_append.mp ((List.mem_insertionSort newestFirst).mp hy) with hy | hy
      · exact absurd hid (hpre y (List.mem_cons_of_mem _ hy))
      · exact (List.mem_cons.mp hy).resolve_right fun hy => hpost y hy hid
    have hins := takeWhile_orderedInsert (hpre a List.mem_cons_self) hs huniq
      (List.pairwise_insertionSort newestFirst _)
    rw [List.cons_append, List.insertionSort_cons]
    refine hins.trans ?_
    rw [List.filter_cons]
    split_ifs with h h' h'
    · exact hrest.cons a
    · exact absurd h (by simpa using h')
    · exact absurd (by simpa using h') h
    · exact hrest

end Stable

/-! ### A Source Keeps its Place -/

/-- The listing without its limit. -/
def listing (t : Registry) : List Source :=
  (t.rows.insertionSort newestFirst).filter fun s => s.id ≠ ""

def listedBefore (t : Registry) (i : String) : List Source :=
  (listing t).takeWhile fun y => y.id ≠ i

lemma sources_eq_listing {c : Config} {f : Fleet} (h : f.registry.rows.length ≤ c.sourceListMax) :
    sources c f = listing f.registry := by
  unfold sources listing
  rw [List.take_of_length_le (by rw [List.length_insertionSort]; exact h)]

lemma mem_listing {t : Registry} {x : Source} : x ∈ listing t ↔ x ∈ t ∧ x.id ≠ "" := by
  unfold listing
  rw [List.mem_filter, List.mem_insertionSort, decide_eq_true_eq]
  rfl

lemma length_listing (t : Registry) :
    (listing t).length = ((t.rows.map Source.id).filter (· ≠ "")).length := by
  have hperm := (List.perm_insertionSort newestFirst t.rows).filter fun s => s.id ≠ ""
  rw [List.filter_map, List.length_map]
  exact hperm.length_eq

/-- What stops the search is what stops it among those that are kept. -/
lemma takeWhile_filter {α : Type} {p q : α → Bool} {l : List α}
    (h : ∀ y ∈ l, p y = false → q y = true) :
    (l.filter q).takeWhile p = (l.takeWhile p).filter q := by
  induction l with
  | nil => rfl
  | cons y l ih =>
    have hih := ih fun z hz => h z (List.mem_cons_of_mem _ hz)
    cases hp : p y with
    | false =>
      rw [List.filter_cons_of_pos (h y List.mem_cons_self hp),
        List.takeWhile_cons_of_neg (by simp [hp]), List.takeWhile_cons_of_neg (by simp [hp])]
      rfl
    | true =>
      rw [List.takeWhile_cons_of_pos hp]
      cases hq : q y with
      | false =>
        rw [List.filter_cons_of_neg (by simp [hq]), List.filter_cons_of_neg (by simp [hq]), hih]
      | true =>
        rw [List.filter_cons_of_pos hq, List.filter_cons_of_pos hq,
          List.takeWhile_cons_of_pos hp, hih]

section Put
variable {t : Registry} {s x : Source} {pre post : List Source}

lemma ids_nodup (hrows : t.rows = pre ++ s :: post) :
    s.id ∉ (pre ++ post).map Source.id ∧ ((pre ++ post).map Source.id).Nodup := by
  have hnodup := t.uniq
  rwa [hrows, List.map_append, List.map_cons, List.nodup_middle, List.nodup_cons,
    ← List.map_append] at hnodup

/-- Those listed before `s`, by where their rows stand. -/
lemma listedBefore_perm (hrows : t.rows = pre ++ s :: post) (hid : s.id ≠ "") :
    (listedBefore t s.id).Perm
      (pre.filter (fun y => decide (y.id ≠ "") && decide (s.key ≤ y.key)) ++
        post.filter fun y => decide (y.id ≠ "") && decide (s.key < y.key)) := by
  have hne : ∀ y ∈ pre ++ post, y.id ≠ s.id := fun y hy heq =>
    (ids_nodup hrows).1 (heq ▸ List.mem_map_of_mem hy)
  rw [← List.filter_filter, ← List.filter_filter, ← List.filter_append]
  unfold listedBefore listing
  rw [takeWhile_filter fun y _ hy => ?_, hrows]
  · exact (takeWhile_insertionSort (fun y hy => hne y (List.mem_append_left _ hy))
      (fun y hy => hne y (List.mem_append_right _ hy))).filter _
  · have : y.id = s.id := by simpa using hy
    simpa [this] using hid

/-- A rewrite that keeps ids and the test keeps the ids of those that pass. -/
lemma map_id_filter_map {p : Source → Bool} {g : Source → Source} {l : List Source}
    (hg : ∀ y ∈ l, (g y).id = y.id) (hp : ∀ y ∈ l, p (g y) = p y) :
    ((l.map g).filter p).map Source.id = (l.filter p).map Source.id := by
  induction l with
  | nil => rfl
  | cons y l ih =>
    have hih := ih (fun z hz => hg z (List.mem_cons_of_mem _ hz))
      fun z hz => hp z (List.mem_cons_of_mem _ hz)
    rw [List.map_cons, List.filter_cons, List.filter_cons, hp y List.mem_cons_self]
    split
    · rw [List.map_cons, List.map_cons, hg y List.mem_cons_self, hih]
    · exact hih

lemma put_rows (h : x.id ∈ t.rows.map Source.id) :
    (t.put x).rows = t.rows.map fun a => if a.id = x.id then x else a := by
  unfold Keyed.put
  rw [dif_pos h]

/-- **Indexing a source that is listed before `s`** moves nobody across it. -/
lemma listedBefore_put (hs : s ∈ t) (hid : s.id ≠ "")
    (hx : x.id ∈ (listedBefore t s.id).map Source.id) (hkey : s.key < x.key) :
    s ∈ t.put x ∧ (t.put x).rows.map Source.id = t.rows.map Source.id ∧
      ((listedBefore (t.put x) s.id).map Source.id).Perm
        ((listedBefore t s.id).map Source.id) := by
  obtain ⟨pre, post, hrows⟩ := List.append_of_mem hs
  obtain ⟨z, hz, hzx⟩ := List.mem_map.mp hx
  have hperm := listedBefore_perm hrows hid
  have hzt : z ∈ t := (mem_listing.mp (List.takeWhile_subset _ hz)).1
  have hzs : z.id ≠ s.id := by simpa using List.mem_takeWhile_imp hz
  have hxs : s.id ≠ x.id := fun h => hzs (hzx.trans h.symm)
  set g : Source → Source := fun a => if a.id = x.id then x else a with hg
  have hgid : ∀ y, (g y).id = y.id := by
    intro y
    simp only [hg]
    split <;> simp_all
  have hput : (t.put x).rows = pre.map g ++ s :: post.map g := by
    rw [put_rows (hzx ▸ List.mem_map_of_mem hzt), hrows, List.map_append, List.map_cons]
    simp only [hg, if_neg hxs]
  refine ⟨?_, ?_, ?_⟩
  · exact Keyed.mem_put.mpr (.inr ⟨hs, hxs⟩)
  · rw [put_rows (hzx ▸ List.mem_map_of_mem hzt), List.map_map]
    exact List.map_congr_left fun y _ => hgid y
  · -- the row of `x` passes the test of its side before and after
    have hrow : ∀ y ∈ t.rows, y.id = x.id → y = z := fun y hy heq =>
      Keyed.eq_of_key hy hzt (heq.trans hzx.symm)
    have hside := List.mem_append.mp (hperm.mem_iff.mp hz)
    have hpre : ∀ y ∈ pre, s.key ≤ (g y).key ↔ s.key ≤ y.key := by
      intro y hy
      by_cases hyx : y.id = x.id
      · obtain rfl := hrow y (by simp [hrows, hy]) hyx
        have hold : s.key ≤ y.key := by
          rcases hside with h | h
          · simpa using (Bool.and_eq_true_iff.mp (List.mem_filter.mp h).2).2
          · have hlt : s.key < y.key := by
              simpa using (Bool.and_eq_true_iff.mp (List.mem_filter.mp h).2).2
            exact hlt.le
        simp only [hg, if_pos hyx]
        exact iff_of_true hkey.le hold
      · simp only [hg, if_neg hyx]
    have hpost : ∀ y ∈ post, s.key < (g y).key ↔ s.key < y.key := by
      intro y hy
      by_cases hyx : y.id = x.id
      · obtain rfl := hrow y (by simp [hrows, hy]) hyx
        have hold : s.key < y.key := by
          rcases hside with h | h
          · have hboth := (ids_nodup hrows).2
            rw [List.map_append, List.nodup_append] at hboth
            exact absurd rfl (hboth.2.2 _ (List.mem_map_of_mem (List.mem_filter.mp h).1) _
              (List.mem_map_of_mem hy))
          · simpa using (Bool.and_eq_true_iff.mp (List.mem_filter.mp h).2).2
        simp only [hg, if_pos hyx]
        exact iff_of_true hkey hold
      · simp only [hg, if_neg hyx]
    refine ((listedBefore_perm hput hid).map _).trans (List.Perm.trans ?_ (hperm.map _).symm)
    rw [List.map_append, List.map_append,
      map_id_filter_map (fun y _ => hgid y) fun y hy => by simp only [hgid, hpre y hy],
      map_id_filter_map (fun y _ => hgid y) fun y hy => by simp only [hgid, hpost y hy]]

lemma listedBefore_saved (finished : List Source) (hid : s.id ≠ "") : ∀ {t : Registry}, s ∈ t →
    (∀ x ∈ finished, x.id ∈ (listedBefore t s.id).map Source.id ∧ s.key < x.key) →
      s ∈ finished.foldl (fun t x => t.put x) t ∧
        (finished.foldl (fun t x => t.put x) t).rows.map Source.id = t.rows.map Source.id ∧
        (listedBefore (finished.foldl (fun t x => t.put x) t) s.id).length =
          (listedBefore t s.id).length := by
  induction finished with
  | nil => exact fun hs _ => ⟨hs, rfl, rfl⟩
  | cons x finished ih =>
    intro t hs h
    obtain ⟨hx, hkey⟩ := h x List.mem_cons_self
    obtain ⟨hput, hids, hperm⟩ := listedBefore_put hs hid hx hkey
    obtain ⟨hs', hids', hlen⟩ := ih hput fun y hy =>
      ⟨hperm.mem_iff.mpr (h y (List.mem_cons_of_mem _ hy)).1, (h y (List.mem_cons_of_mem _ hy)).2⟩
    refine ⟨hs', hids'.trans hids, hlen.trans ?_⟩
    simpa using hperm.length_eq

/-- The place of a source in the listing is the number of those before it. -/
lemma listing_place (hs : s ∈ t) (hid : s.id ≠ "") :
    (listing t)[(listedBefore t s.id).length]? = some s := by
  obtain ⟨l, l', hsplit⟩ := List.append_of_mem (mem_listing.mpr ⟨hs, hid⟩)
  have hnodup : (listing t).Nodup := by
    have hrows : t.rows.Nodup := List.Nodup.of_map _ t.uniq
    exact ((List.perm_insertionSort newestFirst _).nodup_iff.mpr hrows).filter _
  have hl : ∀ y ∈ l, y.id ≠ s.id := by
    intro y hy heq
    have hyt : y ∈ t := (mem_listing.mp (by rw [hsplit]; exact List.mem_append_left _ hy)).1
    obtain rfl := Keyed.eq_of_key hyt hs heq
    rw [hsplit] at hnodup
    exact (List.nodup_append.mp hnodup).2.2 y hy y List.mem_cons_self rfl
  have hbefore : listedBefore t s.id = l := by
    unfold listedBefore
    rw [hsplit, List.takeWhile_append_of_pos fun y hy => by simpa using hl y hy,
      List.takeWhile_cons_of_neg (by simp), List.append_nil]
  rw [hbefore, hsplit]
  simp

end Put

/-! ### The Cursor -/

/-- How far ahead of the cursor a place is, around the end. -/
def distance (n cursor place : ℕ) : ℕ := (place + (n - cursor % n)) % n

lemma distance_lt {n cursor place : ℕ} (h : 0 < n) : distance n cursor place < n := Nat.mod_lt _ h

lemma distance_eq {n cursor place : ℕ} (hp : place < n) : distance n cursor place =
    if cursor % n ≤ place then place - cursor % n else place + n - cursor % n := by
  have hlt : cursor % n < n := Nat.mod_lt _ (by omega)
  unfold distance
  split
  · rw [Nat.mod_eq_sub_mod (by omega), Nat.mod_eq_of_lt (by omega)]
    omega
  · rw [Nat.mod_eq_of_lt (by omega)]
    omega

lemma add_distance {n cursor place : ℕ} (hp : place < n) :
    (distance n cursor place + cursor % n) % n = place := by
  have hlt : cursor % n < n := Nat.mod_lt _ (by omega)
  rw [distance_eq hp]
  split
  · rw [Nat.sub_add_cancel ‹_›, Nat.mod_eq_of_lt hp]
  · rw [Nat.sub_add_cancel (by omega), Nat.add_mod_right, Nat.mod_eq_of_lt hp]

/-- A tick that does not reach a place comes nearer by the cap. -/
lemma distance_step {n c cursor place : ℕ} (hcn : c < n) (hp : place < n)
    (hfar : c ≤ distance n cursor place) :
    distance n ((cursor % n + c) % n) place + c = distance n cursor place := by
  have hlt : cursor % n < n := Nat.mod_lt _ (by omega)
  rw [distance_eq hp] at hfar ⊢
  rw [distance_eq hp, Nat.mod_mod]
  have hnext : (cursor % n + c) % n =
      if cursor % n + c < n then cursor % n + c else cursor % n + c - n := by
    split
    · exact Nat.mod_eq_of_lt ‹_›
    · rw [Nat.mod_eq_sub_mod (by omega), Nat.mod_eq_of_lt (by omega)]
  rw [hnext]
  split_ifs at hfar ⊢ <;> omega

section Run
variable {c : Config} {f : Fleet} {s : Source} {r : Round}

lemma before_eq {i : String} (hlist : f.registry.rows.length ≤ c.sourceListMax) :
    before c f i = listedBefore f.registry i := by
  unfold before listedBefore
  rw [sources_eq_listing hlist]

/-- The place of a listed source. -/
lemma place_eq (hs : s ∈ f.registry) (hid : s.id ≠ "")
    (hlist : f.registry.rows.length ≤ c.sourceListMax) :
    (sources c f)[(before c f s.id).length]? = some s := by
  rw [before_eq hlist, sources_eq_listing hlist]
  exact listing_place hs hid

/-- A place that is nearer than the cap is in the window. -/
lemma mem_window_of_near (hlist : f.registry.rows.length ≤ c.sourceListMax) (hs : s ∈ f.registry)
    (hid : s.id ≠ "") (hn : c.maxSources < (sources c f).length)
    (hnear : distance (sources c f).length f.cursor (before c f s.id).length < c.maxSources) :
    s ∈ window c f := by
  have hplace := place_eq hs hid hlist
  obtain ⟨hp, -⟩ := List.getElem?_eq_some_iff.mp hplace
  rw [window_eq_rotate hn]
  refine List.mem_of_getElem? (i := distance (sources c f).length f.cursor
    (before c f s.id).length) ?_
  rw [List.getElem?_take_of_lt hnear, List.getElem?_rotate (distance_lt (by omega)),
    add_distance hp]
  exact hplace

/-- A tick keeps the place of a source that stays behind those that are indexed. -/
lemma place_tick (hs : s ∈ f.registry) (hid : s.id ≠ "")
    (hlist : f.registry.rows.length ≤ c.sourceListMax) (h : StaysBehind c s.id f r) :
    s ∈ (tick c f r).registry ∧ (tick c f r).registry.rows.length ≤ c.sourceListMax ∧
      (sources c (tick c f r)).length = (sources c f).length ∧
      (before c (tick c f r) s.id).length = (before c f s.id).length := by
  unfold StaysBehind at h
  rw [before_eq hlist, keyOf_of_mem hs] at h
  obtain ⟨hs', hids, hlen⟩ := listedBefore_saved r.finished hid hs h
  have hrows : (tick c f r).registry.rows.length ≤ c.sourceListMax := by
    have hcount := congrArg List.length hids
    rw [List.length_map, List.length_map] at hcount
    exact hcount.trans_le hlist
  refine ⟨hs', hrows, ?_, ?_⟩
  · rw [sources_eq_listing hrows, sources_eq_listing hlist, length_listing, length_listing]
    exact congrArg (fun ids : List String => (ids.filter fun i => decide (i ≠ "")).length) hids
  · rw [before_eq hrows, before_eq hlist]
    exact hlen

/-- A tick that has not reached the source finds those that are indexed before it. -/
def MayPass (c : Config) (i : String) (f : Fleet) (r : Round) : Prop :=
  (∀ x ∈ window c f, x.id ≠ i) → StaysBehind c i f r

/-- The distance to the cursor runs out before the ticks do. -/
lemma checkedIn_of_near (hid : s.id ≠ "") (rounds : List Round) : ∀ {f : Fleet},
    s ∈ f.registry → f.registry.rows.length ≤ c.sourceListMax →
    c.maxSources < (sources c f).length →
    distance (sources c f).length f.cursor (before c f s.id).length <
      rounds.length * c.maxSources →
    Guarded.Along (tick c) (MayPass c s.id) f rounds → checkedIn c s.id f rounds := by
  induction rounds with
  | nil => exact fun _ _ _ h => absurd h (by simp)
  | cons r rounds ih =>
    intro f hs hlist hn hnear ⟨hpass, hrest⟩
    unfold checkedIn
    rw [Bool.or_eq_true]
    by_cases hchecked : ∃ x ∈ window c f, x.id = s.id
    · obtain ⟨x, hx, hxs⟩ := hchecked
      exact .inl (List.any_eq_true.mpr ⟨x, hx, decide_eq_true hxs⟩)
    · right
      have hfar : c.maxSources ≤
          distance (sources c f).length f.cursor (before c f s.id).length := by
        by_contra hlt
        exact hchecked ⟨s, mem_window_of_near hlist hs hid hn (Nat.lt_of_not_le hlt), rfl⟩
      obtain ⟨hplace, -⟩ := List.getElem?_eq_some_iff.mp (place_eq hs hid hlist)
      obtain ⟨hs', hlist', hlen, hsame⟩ := place_tick hs hid hlist
        (hpass fun x hx hxs => hchecked ⟨x, hx, hxs⟩)
      refine ih hs' hlist' (hlen ▸ hn) ?_ hrest
      have hstep := distance_step hn hplace hfar
      have hcursor : (tick c f r).cursor =
          (f.cursor % (sources c f).length + c.maxSources) % (sources c f).length := if_pos hn
      rw [hlen, hsame, hcursor]
      rw [List.length_cons, Nat.add_mul, Nat.one_mul] at hnear
      omega

end Run

/-- **The rotation covers the fleet** where it is not overtaken: of a fleet that fits the listing,
each source is checked within `ceil(n / c)` ticks, if in none of them that has not reached it a
source listed behind it is indexed, nor itself. -/
theorem checked_within (c : Config) (hc : 1 ≤ c.maxSources) (f : Fleet) (s : Source)
    (hs : s ∈ f.registry) (hid : s.id ≠ "") (hlist : f.registry.rows.length ≤ c.sourceListMax)
    (rounds : List Round)
    (hlen : rounds.length = ticksToCover (sources c f).length c.maxSources)
    (h : Guarded.Along (tick c) (MayPass c s.id) f rounds) : checkedIn c s.id f rounds := by
  have hmem : s ∈ sources c f := by
    rw [sources_eq_listing hlist]
    exact mem_listing.mpr ⟨hs, hid⟩
  have hpos : 0 < (sources c f).length := List.length_pos_of_mem hmem
  have hcover : (sources c f).length ≤ rounds.length * c.maxSources := by
    rw [hlen]
    unfold ticksToCover
    have hdiv := Nat.div_add_mod ((sources c f).length + c.maxSources - 1) c.maxSources
    have hmod := Nat.mod_lt ((sources c f).length + c.maxSources - 1) hc
    rw [Nat.mul_comm] at hdiv
    omega
  by_cases hn : c.maxSources < (sources c f).length
  · exact checkedIn_of_near hid rounds hs hlist hn
      (Nat.lt_of_lt_of_le (distance_lt hpos) hcover) h
  · cases rounds with
    | nil =>
      rw [List.length_nil, Nat.zero_mul] at hcover
      exact absurd hcover (Nat.not_le_of_lt hpos)
    | cons r rounds =>
      unfold checkedIn
      have hwindow := checked_of_small hlist (Nat.le_of_not_lt hn) hs hid
      rw [Bool.or_eq_true]
      exact .inl (List.any_eq_true.mpr ⟨s, hwindow, decide_eq_true rfl⟩)

/-! ### Two Sources and a Cap of One -/

def oneCheck : Config := ⟨10, 1, 10000⟩

/-- `a` is listed before `b`. -/
def twoSources : Fleet := ⟨⟨[⟨"a", some 2, "old"⟩, ⟨"b", some 1, "old"⟩], by decide⟩, 0⟩

def rechecked (finished : List Source) : Round := ⟨fun _ => some "new", fun _ => none, finished⟩

/-- `a` is indexed after the tick that checked it. -/
theorem twoSources_checked : checkedIn oneCheck "b" twoSources
    [rechecked [⟨"a", some 5, "new"⟩], rechecked []] := by
  have hb : ⟨"b", some 1, "old"⟩ ∈ twoSources.registry.rows := by decide
  refine checked_within oneCheck (by decide) twoSources ⟨"b", some 1, "old"⟩ hb (by decide)
    (by decide) _ (by decide) ⟨fun _ => ?_, fun _ => nofun, trivial⟩
  unfold StaysBehind
  decide

/-- What a tick indexes, among the sources it checked, comes to the front of the listing. -/
def Fronts (c : Config) (f : Fleet) (r : Round) : Prop :=
  ∀ x ∈ r.finished, x.id ∈ enqueued c f r ∧ ∀ y ∈ f.registry.rows, y.key < x.key

/-- After a tick that checked `a`, one checks `b` and has it indexed. That pushes `a` back to where
the cursor has been, and the next tick checks `b` once more. -/
theorem pushed_back_unchecked :
    ¬ ∀ (c : Config) (f : Fleet) (s : Source) (rounds : List Round), 1 ≤ c.maxSources →
      s ∈ f.registry → s.id ≠ "" → f.registry.rows.length ≤ c.sourceListMax →
      rounds.length = ticksToCover (sources c f).length c.maxSources →
      Guarded.Along (tick c) (Fronts c) f rounds → checkedIn c s.id f rounds := by
  intro h
  have hrow : ⟨"a", some 2, "old"⟩ ∈
      (tick oneCheck twoSources (rechecked [])).registry.rows := by decide
  have ha := h oneCheck (tick oneCheck twoSources (rechecked [])) ⟨"a", some 2, "old"⟩
    [rechecked [⟨"b", some 5, "new"⟩], rechecked []] (by decide) hrow (by decide) (by decide)
    (by decide) ⟨?_, nofun, trivial⟩
  · revert ha
    decide
  · unfold Fronts
    decide

end Treeweft.FleetRotation
