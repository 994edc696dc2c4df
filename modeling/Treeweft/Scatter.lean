import Mathlib.Data.List.Forall2
import Mathlib.Data.Option.Basic
import Mathlib.Logic.Function.Basic

/-!
Values put back where they belong: written at an index, dealt out in order to the places that wait
for one, or written under a key after they were asked for in groups.
-/

namespace Treeweft.Scatter

variable {α β γ : Type*}

/-- All of them answer, or none is heard. -/
lemma mapM_eq_some_iff {f : α → Option β} {xs : List α} {ys : List β} :
    xs.mapM f = some ys ↔ xs.map f = ys.map some := by
  induction xs generalizing ys with
  | nil => cases ys <;> simp
  | cons x xs ih =>
    cases ys with
    | nil => simp [List.mapM_cons, Option.bind_eq_some_iff]
    | cons y ys =>
      rw [List.mapM_cons, List.map_cons, List.map_cons, List.cons.injEq, ← ih]
      cases f x <;> cases xs.mapM f <;> simp

lemma exists_mapM {f : α → Option β} {xs : List α} (h : ∀ x ∈ xs, ∃ y, f x = some y) :
    ∃ ys, xs.mapM f = some ys := by
  refine ⟨xs.filterMap f, mapM_eq_some_iff.2 ?_⟩
  induction xs with
  | nil => rfl
  | cons x xs ih =>
    obtain ⟨y, hy⟩ := h x List.mem_cons_self
    rw [List.map_cons, List.filterMap_cons_some hy, List.map_cons, hy,
      ih fun x hx => h x (List.mem_cons_of_mem _ hx)]

lemma rel_of_forall₂ {R : α → β → Prop} {as : List α} {bs : List β}
    (h : List.Forall₂ R as bs) {i : ℕ} {a : α} {b : β} (ha : as[i]? = some a)
    (hb : bs[i]? = some b) : R a b := by
  obtain ⟨hi, rfl⟩ := List.getElem?_eq_some_iff.1 ha
  obtain ⟨hi', rfl⟩ := List.getElem?_eq_some_iff.1 hb
  exact h.get hi hi'

/-! ### By Index -/

def assign (out : List α) (writes : List (ℕ × α)) : List α :=
  writes.foldl (fun out w => out.set w.1 w.2) out

@[simp] lemma assign_nil (out : List α) : assign out [] = out := rfl
@[simp] lemma assign_cons (out : List α) (w : ℕ × α) (writes : List (ℕ × α)) :
    assign out (w :: writes) = assign (out.set w.1 w.2) writes := rfl
lemma assign_append (out : List α) (us vs : List (ℕ × α)) :
    assign out (us ++ vs) = assign (assign out us) vs := List.foldl_append

@[simp] lemma length_assign (out : List α) (writes : List (ℕ × α)) :
    (assign out writes).length = out.length := by
  induction writes generalizing out with
  | nil => rfl
  | cons w writes ih => rw [assign_cons, ih, List.length_set]

/-- Where all writes to a place agree, their order and their number do not matter. -/
lemma getElem?_assign {f : ℕ → α} {writes : List (ℕ × α)} (h : ∀ w ∈ writes, w.2 = f w.1)
    (out : List α) (i : ℕ) :
    (assign out writes)[i]? =
      if i ∈ writes.map Prod.fst ∧ i < out.length then some (f i) else out[i]? := by
  induction writes generalizing out with
  | nil => simp
  | cons w writes ih =>
    rw [assign_cons, ih (fun u hu => h u (List.mem_cons_of_mem _ hu)), List.length_set]
    simp only [List.map_cons, List.mem_cons]
    by_cases hi : i = w.1
    · subst hi
      by_cases hlt : w.1 < out.length
      · simp [hlt, h w List.mem_cons_self]
      · simp [hlt]
    · rw [List.getElem?_set_ne (Ne.symm hi)]
      simp only [hi, false_or]

/-- Every place is written. -/
lemma assign_eq_map {f : ℕ → α} {writes : List (ℕ × α)} (h : ∀ w ∈ writes, w.2 = f w.1)
    {out : List α} (hall : ∀ i < out.length, i ∈ writes.map Prod.fst) :
    assign out writes = (List.range out.length).map f := by
  refine List.ext_getElem? fun i => ?_
  rw [getElem?_assign h, List.getElem?_map]
  by_cases hi : i < out.length
  · rw [if_pos ⟨hall i hi, hi⟩, List.getElem?_range hi, Option.map_some]
  · rw [if_neg fun h => hi h.2, List.getElem?_eq_none (Nat.not_lt.1 hi),
      List.getElem?_eq_none (by rw [List.length_range]; exact Nat.not_lt.1 hi), Option.map_none]

/-! ### In Order -/

/-- A place that waits takes the next value; `none` where there is no next one. -/
def deal (waits : α → Option γ) : List α → List β → Option (List (Option β))
  | [], _ => some []
  | a :: as, bs =>
    match waits a with
    | none => (deal waits as bs).map (none :: ·)
    | some _ =>
      match bs with
      | [] => none
      | b :: bs => (deal waits as bs).map (some b :: ·)

/-- As many values as there are places that wait, made of them in their order: each place takes
the one that is made of it. -/
theorem deal_eq_some {waits : α → Option γ} {R : γ → β → Prop} {as : List α} {bs : List β}
    (h : List.Forall₂ R (as.filterMap waits) bs) :
    ∃ out, deal waits as bs = some out ∧
      List.Forall₂ (fun a o => Option.Rel R (waits a) o) as out := by
  induction as generalizing bs with
  | nil => exact ⟨[], rfl, .nil⟩
  | cons a as ih =>
    cases ha : waits a with
    | none =>
      rw [List.filterMap_cons_none ha] at h
      obtain ⟨out, hout, hR⟩ := ih h
      exact ⟨none :: out, by simp only [deal, ha, hout, Option.map_some], .cons (ha ▸ .none) hR⟩
    | some c =>
      rw [List.filterMap_cons_some ha] at h
      obtain ⟨b, bs, hb, hbs, rfl⟩ := List.forall₂_cons_left_iff.1 h
      obtain ⟨out, hout, hR⟩ := ih hbs
      exact ⟨some b :: out, by simp only [deal, ha, hout, Option.map_some],
        .cons (ha ▸ .some hb) hR⟩

/-! ### By Key -/

section Groups
variable {κ : Type*} [DecidableEq κ]

def addTo (k : κ) (a : α) : List (κ × List α) → List (κ × List α)
  | [] => [(k, [a])]
  | g :: gs => if g.1 = k then (k, g.2 ++ [a]) :: gs else g :: addTo k a gs

/-- What has one key, in groups in the order in which their keys came. -/
def group (entries : List (κ × α)) : List (κ × List α) :=
  entries.foldl (fun gs e => addTo e.1 e.2 gs) []

/-- `a` stands in a group of key `k`. -/
def InGroup (gs : List (κ × List α)) (k : κ) (a : α) : Prop := ∃ g ∈ gs, g.1 = k ∧ a ∈ g.2

omit [DecidableEq κ] in
lemma inGroup_cons {g : κ × List α} {gs : List (κ × List α)} {k : κ} {a : α} :
    InGroup (g :: gs) k a ↔ g.1 = k ∧ a ∈ g.2 ∨ InGroup gs k a := by
  simp [InGroup]

lemma inGroup_addTo {gs : List (κ × List α)} {k k' : κ} {a a' : α} :
    InGroup (addTo k a gs) k' a' ↔ InGroup gs k' a' ∨ k' = k ∧ a' = a := by
  induction gs with
  | nil => simp [InGroup, addTo, eq_comm]
  | cons g gs ih =>
    rw [addTo]
    split_ifs with hg
    · subst hg
      rw [inGroup_cons, inGroup_cons, List.mem_append, List.mem_singleton, eq_comm (a := k')]
      tauto
    · rw [inGroup_cons, inGroup_cons, ih, or_assoc]

lemma keys_addTo (k : κ) (a : α) (gs : List (κ × List α)) : (addTo k a gs).map Prod.fst =
    if k ∈ gs.map Prod.fst then gs.map Prod.fst else gs.map Prod.fst ++ [k] := by
  induction gs with
  | nil => rfl
  | cons g gs ih =>
    rw [addTo]
    by_cases hg : g.1 = k
    · simp [hg]
    · simp only [hg, if_false, List.map_cons, ih, List.mem_cons, Ne.symm hg, false_or]
      split_ifs <;> rfl

/-- Every entry is in the group of its key, and nothing else is. -/
lemma inGroup_group {entries : List (κ × α)} {k : κ} {a : α} :
    InGroup (group entries) k a ↔ (k, a) ∈ entries := by
  have h : ∀ gs : List (κ × List α),
      InGroup (entries.foldl (fun gs e => addTo e.1 e.2 gs) gs) k a ↔
        InGroup gs k a ∨ (k, a) ∈ entries := by
    induction entries with
    | nil => simp
    | cons e entries ih =>
      intro gs
      rw [List.foldl_cons, ih, inGroup_addTo, or_assoc, List.mem_cons, Prod.ext_iff]
  rw [group, h]
  simp [InGroup]

/-- No two groups have one key. -/
lemma nodup_keys_group (entries : List (κ × α)) : ((group entries).map Prod.fst).Nodup := by
  have h : ∀ gs : List (κ × List α), (gs.map Prod.fst).Nodup →
      ((entries.foldl (fun gs e => addTo e.1 e.2 gs) gs).map Prod.fst).Nodup := by
    induction entries with
    | nil => exact fun _ => id
    | cons e entries ih =>
      intro gs hgs
      refine ih _ ?_
      rw [keys_addTo]
      split_ifs with hk
      · exact hgs
      · exact List.nodup_append.2 ⟨hgs, List.pairwise_singleton _ _, fun k' hk' _ he => by
          rw [List.mem_singleton] at he
          rintro rfl
          exact hk (he ▸ hk')⟩
  exact h [] List.nodup_nil

/-! ### Under a Key -/

def putAll (m : κ → Option β) (writes : List (κ × β)) : κ → Option β :=
  writes.foldl (fun m w => Function.update m w.1 (some w.2)) m

/-- What is there stays. -/
def setDefaults (m : κ → Option β) (writes : List (κ × β)) : κ → Option β :=
  writes.foldl (fun m w => if (m w.1).isSome then m else Function.update m w.1 (some w.2)) m

/-- A value is kept under the key of every entry that has one. -/
lemma putAll_filterMap (key : α → κ) (val : κ → Option β) (entries : List α)
    (m : κ → Option β) (k : κ) :
    putAll m (entries.filterMap fun e => (val (key e)).map (key e, ·)) k =
      if k ∈ entries.map key then (val k).or (m k) else m k := by
  induction entries generalizing m with
  | nil => rfl
  | cons e entries ih =>
    cases he : val (key e) with
    | none =>
      rw [List.filterMap_cons_none (by rw [he]; rfl), ih]
      by_cases hk : k = key e
      · subst hk
        simp [he]
      · simp only [List.map_cons, List.mem_cons, hk, false_or]
    | some b =>
      rw [List.filterMap_cons_some (b := (key e, b)) (by rw [he]; rfl)]
      refine (ih (Function.update m (key e) (some b))).trans ?_
      by_cases hk : k = key e
      · subst hk
        simp [he]
      · rw [Function.update_of_ne hk]
        simp only [List.map_cons, List.mem_cons, hk, false_or]

lemma setDefaults_filterMap (key : α → κ) (val : κ → Option β) (entries : List α)
    (m : κ → Option β) (k : κ) :
    setDefaults m (entries.filterMap fun e => (val (key e)).map (key e, ·)) k =
      (m k).or (if k ∈ entries.map key then val k else none) := by
  induction entries generalizing m with
  | nil => exact Option.or_none.symm
  | cons e entries ih =>
    cases he : val (key e) with
    | none =>
      rw [List.filterMap_cons_none (by rw [he]; rfl), ih]
      by_cases hk : k = key e
      · subst hk
        simp [he]
      · simp only [List.map_cons, List.mem_cons, hk, false_or]
    | some b =>
      rw [List.filterMap_cons_some (b := (key e, b)) (by rw [he]; rfl)]
      refine (ih (if (m (key e)).isSome then m
        else Function.update m (key e) (some b))).trans ?_
      by_cases hk : k = key e
      · subst hk
        cases hm : m (key e) <;> simp [hm, he]
      · simp only [List.map_cons, List.mem_cons, hk, false_or]
        split_ifs <;> simp [Function.update_of_ne hk]

end Groups

end Treeweft.Scatter
