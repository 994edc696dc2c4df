import Mathlib.Data.List.Nodup
import Mathlib.Data.List.Perm.Basic

/-!
A table with a primary key, as a list of rows.

The rows keep the order they were inserted in, and the key is unique by construction: the
invariant is a field, so no operation has to be shown to respect it twice. `put` is
`INSERT .. ON CONFLICT (key) DO UPDATE`, `insertNew` is `.. DO NOTHING`.
-/

namespace Treeweft

/-- A list of rows in which no key occurs twice. -/
structure Keyed {α κ : Type} (key : α → κ) where
  rows : List α
  uniq : (rows.map key).Nodup

namespace Keyed

variable {α κ : Type} {key : α → κ}

instance [DecidableEq α] : DecidableEq (Keyed key) := fun s t =>
  if h : s.rows = t.rows then .isTrue (by cases s; cases t; cases h; rfl)
  else .isFalse fun e => h (e ▸ rfl)

@[ext] lemma ext {s t : Keyed key} (h : s.rows = t.rows) : s = t := by
  cases s; cases t; cases h; rfl

instance : Membership α (Keyed key) := ⟨fun t a => a ∈ t.rows⟩

@[simp] lemma mem_rows {t : Keyed key} {a : α} : a ∈ t.rows ↔ a ∈ t := Iff.rfl

/-- Two rows with one key are one row. -/
lemma eq_of_key {t : Keyed key} {a b : α} (ha : a ∈ t) (hb : b ∈ t) (h : key a = key b) :
    a = b :=
  List.inj_on_of_nodup_map t.uniq ha hb h

def empty : Keyed key := ⟨[], List.nodup_nil⟩

@[simp] lemma not_mem_empty {a : α} : a ∉ (empty : Keyed key) := List.not_mem_nil

/-- The rows that satisfy `p`. -/
def filter (p : α → Bool) (t : Keyed key) : Keyed key :=
  ⟨t.rows.filter p, (List.filter_sublist.map key).nodup t.uniq⟩

@[simp] lemma mem_filter {p : α → Bool} {t : Keyed key} {a : α} :
    a ∈ t.filter p ↔ a ∈ t ∧ p a = true := List.mem_filter

/-- Rewrite every row without touching its key. -/
def map (f : α → α) (hf : ∀ a, key (f a) = key a) (t : Keyed key) : Keyed key :=
  ⟨t.rows.map f, by
    have : key ∘ f = key := funext hf
    rw [List.map_map, this]; exact t.uniq⟩

@[simp] lemma mem_map {f : α → α} {hf : ∀ a, key (f a) = key a} {t : Keyed key} {a : α} :
    a ∈ t.map f hf ↔ ∃ b ∈ t, f b = a := List.mem_map

section Lookup
variable [DecidableEq κ]

def get? (t : Keyed key) (k : κ) : Option α := t.rows.find? fun a => key a = k

lemma get?_eq_some {t : Keyed key} {k : κ} {a : α} : t.get? k = some a ↔ a ∈ t ∧ key a = k := by
  constructor
  · intro h
    exact ⟨List.mem_of_find?_eq_some h, by simpa using List.find?_some h⟩
  · rintro ⟨ha, rfl⟩
    have hs : (t.get? (key a)).isSome := List.find?_isSome.2 ⟨a, ha, by simp⟩
    obtain ⟨b, hb⟩ := Option.isSome_iff_exists.1 hs
    have hbt : b ∈ t := List.mem_of_find?_eq_some hb
    have hbk : key b = key a := by simpa using List.find?_some hb
    rw [hb, eq_of_key hbt ha hbk]

lemma get?_of_mem {t : Keyed key} {a : α} (h : a ∈ t) : t.get? (key a) = some a :=
  get?_eq_some.2 ⟨h, rfl⟩

lemma mem_of_get? {t : Keyed key} {k : κ} {a : α} (h : t.get? k = some a) : a ∈ t :=
  (get?_eq_some.1 h).1

lemma key_of_get? {t : Keyed key} {k : κ} {a : α} (h : t.get? k = some a) : key a = k :=
  (get?_eq_some.1 h).2

lemma get?_eq_none {t : Keyed key} {k : κ} : t.get? k = none ↔ ∀ a ∈ t, key a ≠ k := by
  simp [get?, List.find?_eq_none]

/-- The rows with a given key are the one that a lookup finds. -/
lemma filter_key (t : Keyed key) (k : κ) :
    (t.rows.filter fun a => key a = k) = (t.get? k).toList := by
  cases h : t.get? k with
  | none => exact List.filter_eq_nil_iff.2 fun a ha => by simpa using get?_eq_none.1 h a ha
  | some a =>
    obtain ⟨ha, rfl⟩ := get?_eq_some.1 h
    have hnd : (t.rows.filter fun b => key b = key a).Nodup :=
      (List.Nodup.of_map key t.uniq).filter _
    refine List.perm_singleton.1 ((List.perm_ext_iff_of_nodup hnd (List.nodup_singleton a)).2 ?_)
    intro b
    rw [List.mem_filter, List.mem_singleton, decide_eq_true_eq]
    exact ⟨fun hb => eq_of_key hb.1 ha hb.2, fun hb => by rw [hb]; exact ⟨ha, rfl⟩⟩
/-- Drop the row with the given key. -/
def erase (t : Keyed key) (k : κ) : Keyed key := t.filter fun a => key a ≠ k

@[simp] lemma mem_erase {t : Keyed key} {k : κ} {a : α} : a ∈ t.erase k ↔ a ∈ t ∧ key a ≠ k := by
  simp [erase]

/-- Replace the row with the key of `x`, in place, or append `x`. -/
def put (x : α) (t : Keyed key) : Keyed key :=
  if h : key x ∈ t.rows.map key then
    ⟨t.rows.map fun a => if key a = key x then x else a, by
      have : (key ∘ fun a => if key a = key x then x else a) = key := by
        funext a; by_cases h : key a = key x <;> simp [h]
      rw [List.map_map, this]; exact t.uniq⟩
  else ⟨t.rows ++ [x], by
    rw [List.map_append, List.nodup_append]
    refine ⟨t.uniq, List.nodup_singleton _, ?_⟩
    rintro a ha b hb rfl
    simp only [List.map_cons, List.map_nil, List.mem_singleton] at hb
    exact h (hb ▸ ha)⟩

lemma mem_put {x a : α} {t : Keyed key} :
    a ∈ t.put x ↔ a = x ∨ (a ∈ t ∧ key a ≠ key x) := by
  unfold put
  split
  · rename_i h
    obtain ⟨y, hy, hyx⟩ := List.mem_map.1 h
    change a ∈ t.rows.map _ ↔ _
    rw [List.mem_map]
    constructor
    · rintro ⟨b, hb, rfl⟩
      by_cases hk : key b = key x
      · simp [hk]
      · simp only [hk, if_false]
        exact Or.inr ⟨hb, hk⟩
    · rintro (rfl | ⟨ha, hk⟩)
      · exact ⟨y, hy, by simp [hyx]⟩
      · exact ⟨a, ha, by simp [hk]⟩
  · rename_i h
    change a ∈ t.rows ++ [x] ↔ _
    rw [List.mem_append, List.mem_singleton]
    constructor
    · rintro (ha | rfl)
      · exact Or.inr ⟨ha, fun hk => h (hk ▸ List.mem_map_of_mem ha)⟩
      · exact Or.inl rfl
    · rintro (rfl | ⟨ha, -⟩)
      · exact Or.inr rfl
      · exact Or.inl ha

lemma mem_put_self {x : α} {t : Keyed key} : x ∈ t.put x := mem_put.2 (.inl rfl)

lemma get?_put (x : α) (t : Keyed key) (k : κ) :
    (t.put x).get? k = if k = key x then some x else t.get? k := by
  by_cases hk : k = key x
  · rw [if_pos hk]
    exact get?_eq_some.2 ⟨mem_put_self, hk.symm⟩
  · rw [if_neg hk]
    cases h : t.get? k with
    | none =>
      rw [get?_eq_none] at h ⊢
      intro a ha
      rcases mem_put.1 ha with rfl | ⟨ha, -⟩
      · exact fun e => hk e.symm
      · exact h a ha
    | some a =>
      obtain ⟨ha, hak⟩ := get?_eq_some.1 h
      exact get?_eq_some.2 ⟨mem_put.2 (.inr ⟨ha, hak ▸ hk⟩), hak⟩

lemma get?_erase (t : Keyed key) (k j : κ) :
    (t.erase k).get? j = if j = k then none else t.get? j := by
  by_cases hj : j = k
  · rw [if_pos hj, get?_eq_none]
    intro a ha
    rw [hj]
    exact (mem_erase.1 ha).2
  · rw [if_neg hj]
    cases h : t.get? j with
    | none =>
      rw [get?_eq_none] at h ⊢
      exact fun a ha => h a (mem_erase.1 ha).1
    | some a =>
      obtain ⟨ha, hak⟩ := get?_eq_some.1 h
      exact get?_eq_some.2 ⟨mem_erase.2 ⟨ha, hak ▸ hj⟩, hak⟩

/-- Counting the rows without the one with a given key. -/
lemma countP_erase {t : Keyed key} {k : κ} {a : α} (h : t.get? k = some a) (p : α → Bool) :
    t.rows.countP p = (t.erase k).rows.countP p + if p a then 1 else 0 := by
  obtain ⟨ha, rfl⟩ := get?_eq_some.1 h
  obtain ⟨xs, ys, hrows⟩ := List.append_of_mem (show a ∈ t.rows from ha)
  have hne : ∀ b ∈ xs ++ ys, key b ≠ key a := by
    have hu := t.uniq
    rw [hrows, List.map_append, List.map_cons, List.nodup_append] at hu
    obtain ⟨-, hy, hxy⟩ := hu
    intro b hb hk
    rcases List.mem_append.1 hb with hb | hb
    · exact hxy _ (List.mem_map_of_mem hb) _ (List.mem_cons_self ..) hk
    · exact (List.nodup_cons.1 hy).1 (hk ▸ List.mem_map_of_mem hb)
  have herase : (t.erase (key a)).rows = xs ++ ys := by
    change t.rows.filter _ = _
    rw [hrows, List.filter_append, List.filter_cons_of_neg (by simp), ← List.filter_append,
      List.filter_eq_self.2]
    exact fun b hb => decide_eq_true (hne b hb)
  rw [herase, hrows, List.countP_append, List.countP_cons, List.countP_append]
  omega

/-- Counting the rows with a new one. -/
lemma countP_put {t : Keyed key} {x : α} (h : t.get? (key x) = none) (p : α → Bool) :
    (t.put x).rows.countP p = t.rows.countP p + if p x then 1 else 0 := by
  have hx : key x ∉ t.rows.map key := by
    intro hmem
    obtain ⟨a, ha, hk⟩ := List.mem_map.1 hmem
    exact get?_eq_none.1 h a ha hk
  unfold put
  rw [dif_neg hx, List.countP_append, List.countP_singleton]

lemma get?_map {f : α → α} {hf : ∀ a, key (f a) = key a} (t : Keyed key) (k : κ) :
    (t.map f hf).get? k = (t.get? k).map f := by
  cases h : t.get? k with
  | none =>
    rw [get?_eq_none] at h
    refine get?_eq_none.2 fun a ha => ?_
    obtain ⟨b, hb, rfl⟩ := mem_map.1 ha
    rw [hf]
    exact h b hb
  | some a =>
    obtain ⟨ha, rfl⟩ := get?_eq_some.1 h
    exact get?_eq_some.2 ⟨mem_map.2 ⟨a, ha, rfl⟩, hf a⟩

/-- Append `x` unless its key is taken. -/
def insertNew (x : α) (t : Keyed key) : Keyed key :=
  if key x ∈ t.rows.map key then t else t.put x

lemma mem_insertNew {x a : α} {t : Keyed key} :
    a ∈ t.insertNew x ↔ a ∈ t ∨ (a = x ∧ ∀ b ∈ t, key b ≠ key x) := by
  unfold insertNew
  split
  · rename_i h
    obtain ⟨y, hy, hyx⟩ := List.mem_map.1 h
    constructor
    · exact Or.inl
    · rintro (ha | ⟨-, hn⟩)
      · exact ha
      · exact absurd hyx (hn y hy)
  · rename_i h
    have hn : ∀ b ∈ t, key b ≠ key x := fun b hb e => h (e ▸ List.mem_map_of_mem hb)
    rw [mem_put]
    constructor
    · rintro (rfl | ⟨ha, -⟩)
      · exact .inr ⟨rfl, hn⟩
      · exact .inl ha
    · rintro (ha | ⟨rfl, -⟩)
      · exact .inr ⟨ha, hn a ha⟩
      · exact .inl rfl

lemma get?_insertNew (x : α) (t : Keyed key) (k : κ) :
    (t.insertNew x).get? k = if k = key x then some ((t.get? k).getD x) else t.get? k := by
  unfold insertNew
  split
  · rename_i h
    obtain ⟨y, hy, hyx⟩ := List.mem_map.1 h
    split
    · rename_i hk
      rw [hk, ← hyx, get?_of_mem hy, Option.getD_some]
    · rfl
  · rename_i h
    rw [get?_put]
    split
    · rename_i hk
      have hnone : t.get? k = none :=
        get?_eq_none.2 fun b hb e => h (List.mem_map.2 ⟨b, hb, e.trans hk⟩)
      rw [hnone, Option.getD_none]
    · rfl

end Lookup

end Keyed

end Treeweft
