import Treeweft.SummaryVersion

/-!
A summary refresh that is preempted, or whose source is deleted, wherever that comes.

A refresh records its version only when it has rewritten every row that it found at its start and
has counted as many at its end; until then the recorded version stays and the mark that it set
stays with it: `commits_only_complete`.
-/

namespace Treeweft.Resummarize

open Treeweft.SummaryVersion (Batch Config Entry Exc Faults Llm Op Record Row Store Strategy exec failJob
  machine mem_numbered refreshBatches refreshRows resummarized runResummarizeJob sig
  summariesForChunks under_resummarized ids_resummarized errorCount recordVersion)
open SourceListing (PinView)
open Machine (State Label Run Kept initial)

/-! ### What a Refresh may Do -/

/-- A refresh from its snapshot on: the ids it found, those it has not come to, those it has
rewritten, whether every row it wrote carries its target, the batch it has read, as ids asked for
and ids found, and what it has counted. -/
structure Pass where
  ids : List ℕ
  remaining : List ℕ
  written : List ℕ
  clean : Bool
  batch : Option (List ℕ × List ℕ)
  counted : Option ℕ
  deriving DecidableEq, Repr

structure Ledger where
  working : Bool
  marked : Option ℕ
  pass : Option Pass
  deriving DecidableEq, Repr

def Pass.afterRewrite (g : Pass) (target : Option ℕ) (rows : List Row) : Pass :=
  { g with
    remaining := g.remaining.filter fun i => i ∉ g.batch.elim [] Prod.fst
    written := g.written ++ rows.map Row.id
    clean := g.clean && rows.all fun r => r.under = target
    batch := none
    counted := none }

def after (l : Ledger) : (o : Op) → o.Answer → Ledger
  | .begin, _ => { l with working := true }
  | .markRefresh t, r => if r then { l with marked := some t } else l
  | .snapshot, r =>
    { l with pass := (r : Option (List ℕ)).map fun ids => ⟨ids, ids, [], true, none, none⟩ }
  | .fetch asked, r =>
    { l with
      pass := l.pass.map fun g =>
        { g with batch := (r : Option (List Row)).map fun rows => (asked, rows.map Row.id) } }
  | .rewrite rows, r =>
    { l with pass := if r then l.pass.map fun g => g.afterRewrite l.marked rows else none }
  | .count, n => { l with pass := l.pass.map fun g => { g with counted := n } }
  | .recordVersion _, _ => { l with marked := none, pass := none }
  | _, _ => l

/-- The batches are through, without an error, and nothing is missing. -/
def Ledger.Through (l : Ledger) (target : ℕ) : Prop :=
  l.marked = some target ∧ ∃ g, l.pass = some g ∧ g.remaining = [] ∧ g.clean = true ∧
    g.counted = some g.ids.length

/-- Nobody but a refresh writes rows, and a refresh records when it is through. -/
def may (l : Ledger) : Op → Prop
  | .begin => l.marked = none ∧ l.pass = none
  | .markRefresh _ => l.working = true ∧ l.marked = none ∧ l.pass = none
  | .snapshot => l.working = true ∧ l.marked ≠ none ∧ l.pass = none
  | .fetch asked => l.working = true ∧ ∃ g, l.pass = some g ∧ ∀ i ∈ asked, i ∈ g.remaining
  | .rewrite rows => l.working = true ∧ ∃ g asked, l.pass = some g ∧
      g.batch = some (asked, rows.map Row.id)
  | .count => l.working = true
  | .recordVersion version => l.working = true ∧ ∃ target, version = some target ∧ l.Through target
  | .insert _ _ => False
  | .save => False
  | .dropFile _ => False
  | _ => True

/-- Rows have ids of their own, and those found are among those asked for. -/
def admits : (o : Op) → o.Answer → Prop
  | .snapshot, r => ∀ ids, (r : Option (List ℕ)) = some ids → ids.Nodup
  | _, _ => True

abbrev discipline : Discipline sig :=
  ⟨Ledger, ⟨false, none, none⟩, may, fun _ => admits, after⟩

abbrev Sys := State machine discipline

/-- Refreshes, deletions of the source and changes of the pins. -/
def Around : Entry → Prop
  | .resummarize .. => True
  | .delete _ => True
  | .setPins _ => True
  | _ => False

/-- Refreshes of the source do not overlap; a deletion may come anywhere. -/
def Preemptable (s : Sys) : Label machine → Prop
  | .start _ e => Around e
  | .run t _ => s.nextOp t = some .begin → ∀ u l, u ≠ t → s.records u = some l → l.working = false
  | _ => True

/-! ### The Invariant -/

/-- Every row has an id of its own, which the counter has passed. -/
structure Keys (rows : List Row) (next : ℕ) : Prop where
  nodup : (rows.map Row.id).Nodup
  lt : ∀ r ∈ rows, r.id < next

/-- Of the rows, those that a pass has not come to are among its ids, and the others it has
written. -/
structure PassInv (rows : List Row) (next : ℕ) (target : Option ℕ) (g : Pass) : Prop where
  ids : g.ids.Nodup
  remaining : ∀ i ∈ g.remaining, i ∈ g.ids ∧ i < next
  written : g.written.Nodup
  apart : ∀ i ∈ g.written, i ∈ g.ids ∧ i ∉ g.remaining
  covered : ∀ r ∈ rows, r.id ∈ g.remaining ∨ g.clean = false ∨ r.under = target
  fewer : (rows.filter fun r => r.id ∉ g.remaining).length ≤ g.written.length
  batch : ∀ asked found, g.batch = some (asked, found) → found.Nodup ∧
    (∀ i ∈ found, i ∈ asked) ∧ (∀ i ∈ asked, i ∈ g.remaining) ∧
      ∀ r ∈ rows, r.id ∈ asked → r.id ∈ found
  counted : ∀ n, g.counted = some n → g.remaining = [] → n ≤ g.written.length

structure Inv (st : Store) (L : Tid → Option Ledger) : Prop where
  keys : Keys st.rows st.nextRow
  alone : ∀ t u l m, L t = some l → L u = some m → l.working = true → m.working = true → t = u
  works : ∀ t l, L t = some l → (l.marked ≠ none ∨ l.pass ≠ none) → l.working = true
  marked : ∀ t l v rec, L t = some l → l.marked = some v → st.record = some rec →
    rec.target = some v
  pass : ∀ t l g, L t = some l → l.pass = some g → PassInv st.rows st.nextRow l.marked g

section Inv
variable {st st' : Store} {L : Tid → Option Ledger} {t : Tid} {l l' : Ledger} {g : Pass}

lemma Inv.idle (h : Inv st L) (hl : L t = some l) (hw : l.working = true) :
    ∀ u m, u ≠ t → L u = some m → m.working = false := by
  intro u m hut hu
  rw [Bool.eq_false_iff]
  exact fun hm => hut (h.alone u t m l hu hl hm hw)

/-- Tasks go. -/
lemma Inv.fewer (h : Inv st L) {L' : Tid → Option Ledger}
    (hold : ∀ {u m}, L' u = some m → L u = some m) : Inv st L' where
  keys := h.keys
  alone t u l m hl hm := h.alone t u l m (hold hl) (hold hm)
  works t l hl := h.works t l (hold hl)
  marked t l v rec hl := h.marked t l v rec (hold hl)
  pass t l g hl := h.pass t l g (hold hl)

/-- A refresh takes a step: no other task has anything to say of the rows or the record. -/
lemma Inv.write (h : Inv st L) (hothers : ∀ u m, u ≠ t → L u = some m → m.working = false)
    (hkeys : Keys st'.rows st'.nextRow) (hw : l'.working = true)
    (hmarked : ∀ v rec, l'.marked = some v → st'.record = some rec → rec.target = some v)
    (hpass : ∀ g, l'.pass = some g → PassInv st'.rows st'.nextRow l'.marked g) :
    Inv st' (Function.update L t (some l')) := by
  have hidle : ∀ {u m}, u ≠ t → L u = some m → m.working = true → False := fun hut hu hm => by
    rw [hothers _ _ hut hu] at hm
    cases hm
  refine ⟨hkeys, fun u v m m' hu hv hm hm' => ?_, fun u m hu hm => ?_, fun u m v rec hu hm => ?_,
    fun u m g hu hg => ?_⟩
  · rcases update_cases hu with ⟨hut, -⟩ | ⟨hut, hLu⟩
    · rcases update_cases hv with ⟨hvt, -⟩ | ⟨hvt, hLv⟩
      · exact hut.trans hvt.symm
      · exact (hidle hvt hLv hm').elim
    · exact (hidle hut hLu hm).elim
  · rcases update_cases hu with ⟨rfl, hx⟩ | ⟨hut, hu⟩
    · cases hx
      exact hw
    · exact h.works u m hu hm
  · rcases update_cases hu with ⟨rfl, hx⟩ | ⟨hut, hu⟩
    · cases hx
      exact hmarked v rec hm
    · exact (hidle hut hu (h.works u m hu (.inl (by rw [hm]; simp)))).elim
  · rcases update_cases hu with ⟨rfl, hx⟩ | ⟨hut, hu⟩
    · cases hx
      exact hpass g hg
    · exact (hidle hut hu (h.works u m hu (.inr (by rw [hg]; simp)))).elim

/-- Without rows there is nothing left to come to. -/
lemma PassInv.nil {rows : List Row} {next : ℕ} {target : Option ℕ}
    (h : PassInv rows next target g) : PassInv [] next target g where
  ids := h.ids
  remaining := h.remaining
  written := h.written
  apart := h.apart
  covered r hr := by cases hr
  fewer := Nat.zero_le _
  batch asked found hb := by
    obtain ⟨hnodup, hfound, hasked, -⟩ := h.batch asked found hb
    exact ⟨hnodup, hfound, hasked, fun r hr => by cases hr⟩
  counted := h.counted

lemma Inv.dropSource (h : Inv st L) : Inv st.dropSource L where
  keys := ⟨List.nodup_nil, fun r hr => by cases hr⟩
  alone := h.alone
  works := h.works
  marked := h.marked
  pass t l g hl hg := (h.pass t l g hl hg).nil

/-- The record goes, and nothing else. -/
lemma Inv.unregister (h : Inv st L) : Inv { st with record := none } L where
  keys := h.keys
  alone := h.alone
  works := h.works
  marked t l v rec _ _ hr := by cases hr
  pass := h.pass

lemma Inv.pinned (h : Inv st L) (view : PinView) : Inv { st with pins := view } L where
  keys := h.keys
  alone := h.alone
  works := h.works
  marked := h.marked
  pass := h.pass

/-! #### A Batch -/

/-- A pass starts out with all rows before it. -/
lemma PassInv.snapshot (h : Keys st.rows st.nextRow) {target : Option ℕ} :
    PassInv st.rows st.nextRow target
      ⟨st.rows.map Row.id, st.rows.map Row.id, [], true, none, none⟩ where
  ids := h.nodup
  remaining i hi := by
    refine ⟨hi, ?_⟩
    obtain ⟨r, hr, rfl⟩ := List.mem_map.mp hi
    exact h.lt r hr
  written := List.nodup_nil
  apart i hi := by cases hi
  covered r hr := .inl (List.mem_map_of_mem hr)
  fewer := by
    rw [List.filter_eq_nil_iff.mpr]
    · exact le_rfl
    · exact fun r hr hid => of_decide_eq_true hid (List.mem_map_of_mem hr)
  batch asked found hb := by cases hb
  counted n hn := by cases hn

/-- What is found of a batch is there, whether or not it could be read. -/
lemma PassInv.fetch {target : Option ℕ} (h : PassInv st.rows st.nextRow target g)
    (hkeys : Keys st.rows st.nextRow) {asked : List ℕ} (hasked : ∀ i ∈ asked, i ∈ g.remaining)
    {read : Option (List Row)}
    (hread : ∀ rows, read = some rows → rows = st.rows.filter fun r => r.id ∈ asked) :
    PassInv st.rows st.nextRow target
      { g with batch := read.map fun rows => (asked, rows.map Row.id) } := by
  refine { h with batch := fun asked' found hb => ?_ }
  obtain ⟨rows, hrows, hb⟩ := Option.map_eq_some_iff.mp hb
  cases hb
  obtain rfl := hread rows hrows
  refine ⟨hkeys.nodup.sublist (List.filter_sublist.map Row.id), fun i hi => ?_, hasked,
    fun r hr hid => List.mem_map_of_mem (List.mem_filter.mpr ⟨hr, decide_eq_true hid⟩)⟩
  obtain ⟨r, hr, rfl⟩ := List.mem_map.mp hi
  exact of_decide_eq_true (List.mem_filter.mp hr).2

/-- All rows that are counted at the end of a pass are written. -/
lemma PassInv.count {target : Option ℕ} (h : PassInv st.rows st.nextRow target g) {n : Option ℕ}
    (hn : ∀ k, n = some k → k = st.rows.length) :
    PassInv st.rows st.nextRow target { g with counted := n } := by
  refine { h with counted := fun k hk hnil => ?_ }
  obtain rfl := hn k hk
  have hall : (st.rows.filter fun r => r.id ∉ g.remaining) = st.rows :=
    List.filter_eq_self.mpr fun r _ => decide_eq_true (by rw [hnil]; exact List.not_mem_nil)
  exact hall ▸ h.fewer

lemma Keys.recordVersion (h : Keys st.rows st.nextRow) (version : Option ℕ) :
    Keys (st.recordVersion version).rows (st.recordVersion version).nextRow := by
  unfold Store.recordVersion
  split
  · exact h
  · refine ⟨?_, fun r hr => ?_⟩
    · rw [List.map_map]
      exact h.nodup
    · obtain ⟨r₀, hr₀, rfl⟩ := List.mem_map.mp hr
      exact h.lt r₀ hr₀

lemma mem_rewrite {rows : List Row} {r : Row} (h : r ∈ (st.rewrite rows).rows) :
    (r ∈ st.rows ∧ r.id ∉ rows.map Row.id) ∨
      ((r.id ∈ rows.map Row.id ∨ st.nextRow ≤ r.id) ∧ r.under ∈ rows.map Row.under) := by
  rcases List.mem_append.mp h with h | h
  · obtain ⟨hmem, hid⟩ := List.mem_filter.mp h
    exact .inl ⟨hmem, of_decide_eq_true hid⟩
  · split at h
    · obtain ⟨k, hk, rfl⟩ := List.mem_mapIdx.mp h
      exact .inr ⟨.inr (Nat.le_add_right _ _),
        List.mem_map.mpr ⟨rows[k], List.getElem_mem hk, rfl⟩⟩
    · have hr := (List.mem_filter.mp h).1
      exact .inr ⟨.inl (List.mem_map_of_mem hr), List.mem_map_of_mem hr⟩

lemma length_rewrite (rows : List Row) (p : Row → Bool) :
    ((st.rewrite rows).rows.filter p).length ≤
      ((st.rows.filter fun r => r.id ∉ rows.map Row.id).filter p).length + rows.length := by
  change (((_ ++ _ : List Row)).filter p).length ≤ _
  rw [List.filter_append, List.length_append]
  refine Nat.add_le_add_left ((List.length_filter_le _ _).trans ?_) _
  split
  · rw [Store.numbered, List.length_mapIdx]
  · exact List.length_filter_le _ _

lemma ids_numbered (rows : List Row) :
    (st.numbered rows).map Row.id = List.range' st.nextRow rows.length := by
  refine List.ext_getElem (by simp [Store.numbered]) fun k hk _ => ?_
  simp [Store.numbered]

lemma keys_rewrite (h : Keys st.rows st.nextRow) {rows : List Row}
    (hrows : (rows.map Row.id).Nodup) (hlt : ∀ r ∈ rows, r.id < st.nextRow) :
    Keys (st.rewrite rows).rows (st.rewrite rows).nextRow := by
  have hold : ((st.rows.filter fun r => r.id ∉ rows.map Row.id).map Row.id).Nodup :=
    h.nodup.sublist (List.filter_sublist.map Row.id)
  have hin : ∀ i ∈ (st.rows.filter fun r => r.id ∉ rows.map Row.id).map Row.id,
      i < st.nextRow ∧ i ∉ rows.map Row.id := by
    intro i hi
    obtain ⟨r, hr, rfl⟩ := List.mem_map.mp hi
    obtain ⟨hr, hid⟩ := List.mem_filter.mp hr
    exact ⟨h.lt r hr, of_decide_eq_true hid⟩
  constructor
  · change ((_ ++ _ : List Row).map Row.id).Nodup
    rw [List.map_append, List.nodup_append]
    split
    · rw [ids_numbered]
      refine ⟨hold, List.nodup_range', fun i hi j hj hij => ?_⟩
      subst hij
      have hge := (List.mem_range'_1.mp hj).1
      have hlt := (hin i hi).1
      omega
    · refine ⟨hold, hrows.sublist (List.filter_sublist.map Row.id), fun i hi j hj hij => ?_⟩
      subst hij
      obtain ⟨r, hr, rfl⟩ := List.mem_map.mp hj
      exact (hin _ hi).2 (List.mem_map_of_mem (List.mem_filter.mp hr).1)
  · intro r hr
    change r.id < st.nextRow + rows.length
    rcases List.mem_append.mp hr with hr | hr
    · exact (hin r.id (List.mem_map_of_mem hr)).1.trans_le (Nat.le_add_right _ _)
    · split at hr
      · have hmem : r.id ∈ (st.numbered rows).map Row.id := List.mem_map_of_mem hr
        rw [ids_numbered] at hmem
        exact (List.mem_range'_1.mp hmem).2
      · exact (hlt r (List.mem_filter.mp hr).1).trans_le (Nat.le_add_right _ _)

/-- What a batch that is written makes of a pass. -/
lemma PassInv.rewrite {target : Option ℕ} (h : PassInv st.rows st.nextRow target g)
    {rows : List Row} {asked : List ℕ} (hb : g.batch = some (asked, rows.map Row.id)) :
    PassInv (st.rewrite rows).rows (st.rewrite rows).nextRow target (g.afterRewrite target rows) := by
  obtain ⟨hnodup, hfound, hasked, hthere⟩ := h.batch asked _ hb
  have hrem : (g.afterRewrite target rows).remaining = g.remaining.filter fun i => i ∉ asked := by
    unfold Pass.afterRewrite
    rw [hb]
    rfl
  have hstill : ∀ i, i ∈ (g.afterRewrite target rows).remaining ↔ i ∈ g.remaining ∧ i ∉ asked := by
    intro i
    rw [hrem, List.mem_filter, decide_eq_true_eq]
  constructor
  · exact h.ids
  · intro i hi
    obtain ⟨hids, hlt⟩ := h.remaining i ((hstill i).mp hi).1
    exact ⟨hids, Nat.lt_of_lt_of_le hlt (Nat.le_add_right _ _)⟩
  · refine List.nodup_append.mpr ⟨h.written, hnodup, fun i hi j hj hij => ?_⟩
    subst hij
    exact (h.apart i hi).2 (hasked i (hfound i hj))
  · intro i hi
    rcases List.mem_append.mp hi with hi | hi
    · exact ⟨(h.apart i hi).1, fun hmem => (h.apart i hi).2 ((hstill i).mp hmem).1⟩
    · have hin := hfound i hi
      exact ⟨(h.remaining i (hasked i hin)).1, fun hmem => ((hstill i).mp hmem).2 hin⟩
  · intro r hr
    rcases mem_rewrite hr with ⟨hold, hid⟩ | ⟨-, hu⟩
    · rcases h.covered r hold with hmem | hdirty | hu
      · exact .inl ((hstill r.id).mpr ⟨hmem, fun hin => hid (hthere r hold hin)⟩)
      · exact .inr (.inl (by simp [Pass.afterRewrite, hdirty]))
      · exact .inr (.inr hu)
    · obtain ⟨x, hx, hxu⟩ := List.mem_map.mp hu
      by_cases hall : (rows.all fun r => r.under = target) = true
      · exact .inr (.inr (hxu ▸ of_decide_eq_true (List.all_eq_true.mp hall x hx)))
      · exact .inr (.inl (by simp [Pass.afterRewrite, Bool.eq_false_iff.mpr hall]))
  · change _ ≤ (g.written ++ rows.map Row.id).length
    rw [List.length_append, List.length_map]
    refine (length_rewrite rows _).trans (Nat.add_le_add_right ?_ _)
    refine le_trans ?_ h.fewer
    rw [List.filter_filter]
    rw [← List.countP_eq_length_filter, ← List.countP_eq_length_filter]
    refine List.countP_mono_left fun r hr hboth => ?_
    obtain ⟨hleft, hid⟩ := Bool.and_eq_true_iff.mp hboth
    have hleft := of_decide_eq_true hleft
    have hid := of_decide_eq_true hid
    exact decide_eq_true fun hmem => hleft ((hstill r.id).mpr ⟨hmem, fun hin => hid (hthere r hr hin)⟩)
  · intro _ _ hnone
    cases hnone
  · intro _ hnone
    cases hnone

/-- What a task has marked, read and counted changes, and the store stays. -/
lemma Inv.turn (h : Inv st L) (hl : L t = some l) (hw : l.working = true) (hw' : l'.working = true)
    (hm : l'.marked = l.marked)
    (hpass : ∀ g, l'.pass = some g → PassInv st.rows st.nextRow l.marked g) :
    Inv st (Function.update L t (some l')) :=
  h.write (h.idle hl hw) h.keys hw' (fun v rec hv hr => h.marked t l v rec hl (hm ▸ hv) hr)
    (by rwa [hm])

/-- A refresh writes a batch; what it had left to write of one that fails is not written later. -/
lemma Inv.rewrite (h : Inv st L) (hl : L t = some l) {rows : List Row}
    (hm : may l (.rewrite rows)) (part : List Row) (hpart : part.Sublist rows) (ok : Bool)
    (hok : ok = true → part = rows) :
    Inv (st.rewrite part) (Function.update L t (some (after l (.rewrite rows) ok))) := by
  obtain ⟨hw, g, asked, hg, hb⟩ := hm
  have hp := h.pass t l g hl hg
  obtain ⟨hnodup, hfound, hasked, -⟩ := hp.batch asked _ hb
  refine h.write (h.idle hl hw) ?_ hw (fun v rec hv hr => h.marked t l v rec hl hv hr)
    fun g' hg' => ?_
  · refine keys_rewrite h.keys (hnodup.sublist (hpart.map Row.id)) fun r hr => ?_
    exact (hp.remaining r.id (hasked _ (hfound _ (List.mem_map_of_mem (hpart.subset hr))))).2
  · cases ok with
    | false => cases hg'
    | true =>
      obtain rfl := hok rfl
      have hg' : l.pass.map (fun g => g.afterRewrite l.marked part) = some g' := hg'
      rw [hg] at hg'
      cases hg'
      exact hp.rewrite hb

/-- Every operation of a disciplined task keeps the invariant. -/
lemma Inv.op (h : Inv st L) (hl : L t = some l) {env : ℕ} {o : Op} {r : o.Answer} (hm : may l o)
    (hbegin : o = .begin → ∀ u m, u ≠ t → L u = some m → m.working = false)
    (he : exec st t env o = some (r, st')) :
    admits o r ∧ Inv st' (Function.update L t (some (after l o r))) := by
  have hkeep : Inv st (Function.update L t (some l)) := by
    rwa [← hl, Function.update_eq_self]
  cases o with
  | begin =>
    obtain ⟨hmark, hpass⟩ := hm
    cases he
    refine ⟨trivial, h.write (hbegin rfl) h.keys rfl (fun v rec hv => ?_) fun g hg => ?_⟩
    · have hv : l.marked = some v := hv
      rw [hmark] at hv
      cases hv
    · have hg : l.pass = some g := hg
      rw [hpass] at hg
      cases hg
  | dropSource =>
    simp only [exec] at he
    split at he
    · cases he
      exact ⟨trivial, hkeep.dropSource⟩
    · cases he
      exact ⟨trivial, hkeep⟩
  | dropFile path => exact hm.elim
  | insert kind rows => exact hm.elim
  | save => exact hm.elim
  | recordVersion version =>
    obtain ⟨hw, target, rfl, -⟩ := hm
    cases he
    refine ⟨trivial, h.write (h.idle hl hw) ?_ hw (fun v rec hv => by cases hv)
      fun g hg => by cases hg⟩
    split
    · exact h.keys.recordVersion (some target)
    · exact h.keys
  | markRefresh target =>
    obtain ⟨hw, -, hpass⟩ := hm
    simp only [exec] at he
    split at he
    · cases he
      refine ⟨trivial, h.write (h.idle hl hw) h.keys hw (fun v rec hv hr => ?_) fun g hg => ?_⟩
      · obtain ⟨rec, -, rfl⟩ := Option.map_eq_some_iff.mp hr
        exact hv
      · have hg : l.pass = some g := hg
        rw [hpass] at hg
        cases hg
    · cases he
      exact ⟨trivial, hkeep⟩
  | snapshot =>
    obtain ⟨hw, -, -⟩ := hm
    cases he
    constructor
    · intro ids hids
      split at hids
      · cases hids
        exact h.keys.nodup
      · cases hids
    · refine h.turn hl hw hw rfl fun g hg => ?_
      obtain ⟨ids, hids, rfl⟩ := Option.map_eq_some_iff.mp hg
      split at hids
      · cases hids
        exact .snapshot h.keys
      · cases hids
  | fetch asked =>
    obtain ⟨hw, g, hg, hasked⟩ := hm
    cases he
    refine ⟨trivial, h.turn hl hw hw rfl fun g' hg' => ?_⟩
    obtain ⟨g₀, hg₀, rfl⟩ := Option.map_eq_some_iff.mp hg'
    obtain rfl : g = g₀ := Option.some.inj (hg.symm.trans hg₀)
    refine (h.pass t l g hl hg).fetch h.keys hasked fun rows hrows => ?_
    split at hrows
    · exact (Option.some.inj hrows).symm
    · cases hrows
  | rewrite rows =>
    simp only [exec] at he
    split at he
    · cases he
      exact ⟨trivial, h.rewrite hl hm rows (.refl rows) true fun _ => rfl⟩
    · cases he
      exact ⟨trivial, h.rewrite hl hm _ (List.take_sublist ..) false fun hfalse => by cases hfalse⟩
  | count =>
    cases he
    refine ⟨trivial, h.turn hl hm hm rfl fun g' hg' => ?_⟩
    obtain ⟨g, hg, rfl⟩ := Option.map_eq_some_iff.mp hg'
    refine (h.pass t l g hl hg).count fun n hn => ?_
    split at hn
    · exact (Option.some.inj hn).symm
    · cases hn
  | delete =>
    cases he
    refine ⟨trivial, ?_⟩
    change Inv _ (Function.update L t (some l))
    split
    · exact hkeep.unregister
    · exact hkeep
  | setPins view =>
    cases he
    exact ⟨trivial, hkeep.pinned view⟩
  | effective =>
    cases he
    exact ⟨trivial, hkeep⟩
  | getById =>
    cases he
    exact ⟨trivial, hkeep⟩
  | waiters =>
    cases he
    exact ⟨trivial, hkeep⟩

end Inv

/-! ### Every Refresh keeps to It -/

def Any (_ : Ledger) : Prop := True

/-- A refresh of `ids` that has `left` before it. As long as it has counted no error, every row it
has written carries its target. -/
structure Refreshing (target : ℕ) (ids left : List ℕ) (errors : ℕ) (l : Ledger) : Prop where
  working : l.working = true
  marked : l.marked = some target
  nodup : left.Nodup
  pass : ∃ g, l.pass = some g ∧ g.ids = ids ∧ (∀ i, i ∈ g.remaining ↔ i ∈ left) ∧
    (errors = 0 → g.clean = true)

section Programs
variable {cfg : Config} {l : Ledger} {w : Faults} {target errors : ℕ} {ids left : List ℕ}
  {b : ℕ → Batch}

lemma Refreshing.afterRewrite (h : Refreshing target ids left errors l) (n : ℕ) (llm : Llm)
    (rows : List Row) :
    may (after l (.fetch (left.take n)) (some rows)) (.rewrite
        (List.zipWith (resummarized target) rows
          (summariesForChunks llm target (rows.map Row.text)))) ∧
      Refreshing target ids (left.drop n)
        (errors + errorCount (summariesForChunks llm target (rows.map Row.text)))
        (after (after l (.fetch (left.take n)) (some rows)) (.rewrite
          (List.zipWith (resummarized target) rows
            (summariesForChunks llm target (rows.map Row.text)))) true) := by
  obtain ⟨hw, hm, hnodup, g, hg, hids, hrem, hclean⟩ := h
  have hfetched : (after l (.fetch (left.take n)) (some rows)).pass =
      some { g with batch := some (left.take n, rows.map Row.id) } := by
    change l.pass.map _ = _
    rw [hg]
    rfl
  constructor
  · refine ⟨hw, _, left.take n, hfetched, ?_⟩
    rw [ids_resummarized]
  · refine ⟨hw, hm, hnodup.sublist (List.drop_sublist ..), _, congrArg (Option.map _) hfetched,
      hids, fun i => ?_, fun he => ?_⟩
    · have hsplit := List.take_append_drop n left
      have hparts : (left.take n ++ left.drop n).Nodup := hsplit.symm ▸ hnodup
      change i ∈ g.remaining.filter (fun i => i ∉ left.take n) ↔ _
      rw [List.mem_filter, hrem, decide_eq_true_eq]
      refine ⟨fun ⟨hmem, hnot⟩ => ?_, fun hmem => ⟨(List.drop_sublist ..).subset hmem,
        fun htake => (List.nodup_append.mp hparts).2.2 i htake i hmem rfl⟩⟩
      rw [← hsplit] at hmem
      exact (List.mem_append.mp hmem).resolve_left hnot
    · have hold : g.clean = true := hclean (by omega)
      simp only [Pass.afterRewrite, hold, Bool.true_and]
      change (List.all _ fun r : Row => decide (r.under = l.marked)) = true
      rw [hm]
      exact under_resummarized (by omega)

lemma wp_refreshBatches (n : ℕ) : ∀ {left errors l},
    left.length ≤ n → Refreshing target ids left errors l →
      discipline.wp (refreshBatches cfg target b n left errors)
        (fun r l => ∀ errors, r = some errors → Refreshing target ids [] errors l)
          (fun _ => Any) l := by
  induction n with
  | zero =>
    intro left errors l hn h
    obtain rfl := List.length_eq_zero_iff.mp (Nat.le_zero.mp hn)
    rintro e ⟨⟩
    exact h
  | succ n ih =>
    intro left errors l hn h
    cases left with
    | nil =>
      rintro e ⟨⟩
      exact h
    | cons i left =>
      refine ⟨trivial, fun (waiting : Bool) _ => ?_⟩
      cases waiting with
      | true => exact fun _ he => by cases he
      | false =>
        refine ⟨trivial, fun (source : Option Record) _ => ?_⟩
        cases source with
        | none => exact fun _ he => by cases he
        | some source =>
          obtain ⟨hw, hm, hnodup, g, hg, hids, hrem, hclean⟩ := id h
          refine ⟨⟨hw, g, hg, fun i hi => (hrem i).mpr ((List.take_sublist ..).subset hi)⟩,
            fun (rows : Option (List Row)) _ => ?_⟩
          cases rows with
          | none => exact trivial
          | some rows =>
            change discipline.wp (if (b n).raises = true then .raise Exc.fault else _) _ _ _
            split
            · exact trivial
            · refine ⟨trivial, fun (source : Option Record) _ => ?_⟩
              cases source with
              | none => exact fun _ he => by cases he
              | some source =>
                obtain ⟨hmay, hnext⟩ := h.afterRewrite cfg.embedBatchSize (b n).llm rows
                refine ⟨hmay, fun (ok : Bool) _ => ?_⟩
                cases ok with
                | false => exact trivial
                | true =>
                  refine ⟨trivial, fun (source : Option Record) _ => ?_⟩
                  cases source with
                  | none => exact ⟨trivial, fun _ _ _ he => by cases he⟩
                  | some source =>
                    refine ih ?_ hnext
                    have hpos := cfg.pos
                    simp only [List.length_drop, List.length_cons] at hn ⊢
                    omega

lemma wp_refreshRows :
    discipline.wp (refreshRows cfg target b) (fun _ => Any) (fun _ => Any)
      { discipline.init with working := true } := by
  refine ⟨⟨rfl, rfl, rfl⟩, fun (ok : Bool) _ => ?_⟩
  cases ok with
  | false => exact trivial
  | true =>
    refine ⟨⟨rfl, by simp [after], rfl⟩, fun (ids : Option (List ℕ)) hids => ?_⟩
    cases ids with
    | none => exact trivial
    | some ids =>
      change discipline.wp (refreshBatches cfg target b ids.length ids 0 >>= _) _ _ _
      rw [Discipline.wp_bind]
      refine Discipline.wp_mono (fun r l h => ?_) (fun _ _ h => h)
        (wp_refreshBatches ids.length le_rfl
          ⟨rfl, rfl, hids ids rfl, _, rfl, rfl, fun _ => .rfl, fun _ => rfl⟩)
      cases r with
      | none => exact trivial
      | some errors =>
        obtain ⟨hw, hm, -, g, hg, hgids, hrem, hclean⟩ := h errors rfl
        change discipline.wp (if 0 < ids.length ∧ errors = ids.length then pure () else _) _ _ l
        split
        · exact trivial
        · refine ⟨hw, fun (n : Option ℕ) _ => ?_⟩
          cases n with
          | none => exact trivial
          | some n =>
            change discipline.wp (if n ≠ ids.length then .raise Exc.fault
              else if errors = 0 then recordVersion (some target) else pure ()) _ _
                { l with pass := l.pass.map fun g => { g with counted := some n } }
            split
            · exact trivial
            · rename_i hn
              obtain rfl := not_not.mp hn
              split
              · rename_i he
                refine ⟨⟨hw, target, rfl, hm, _, congrArg (Option.map _) hg, ?_, hclean he, ?_⟩,
                  fun _ _ => trivial⟩
                · exact List.eq_nil_iff_forall_not_mem.mpr fun i hi =>
                    List.not_mem_nil ((hrem i).mp hi)
                · exact congrArg some (congrArg List.length hgids.symm)
              · exact trivial

lemma wp_runResummarizeJob :
    discipline.wp (runResummarizeJob cfg b w) (fun _ => Any) (fun _ => Any)
      discipline.init := by
  refine ⟨⟨rfl, rfl⟩, fun _ _ => ?_⟩
  change discipline.wp (Prog.catching _ failJob) _ _ _
  rw [Discipline.wp_catching]
  refine ⟨trivial, fun (target : Option ℕ) _ => ?_⟩
  cases target with
  | none => exact trivial
  | some target =>
    change discipline.wp (if w.persist = true then .raise Exc.fault else
      if cfg.useSummaryVector = true ∧ cfg.supported = true then _ else pure ()) _ _ _
    split
    · exact trivial
    · split
      · refine ⟨trivial, fun (source : Option Record) _ => ?_⟩
        change discipline.wp (if source = some ⟨some target, none⟩ then pure () else _) _ _ _
        split
        · exact trivial
        · exact wp_refreshRows
      · exact trivial

lemma wp_main {e : Entry} (h : Around e) :
    discipline.wp e.main (fun _ => Any) (fun _ => Any) discipline.init := by
  cases e with
  | resummarize cfg b w => exact wp_runResummarizeJob
  | delete w =>
    refine ⟨trivial, fun _ _ => ?_⟩
    change discipline.wp (if w.graph = true then .raise Exc.fault else _) _ _ _
    split
    · exact trivial
    · exact ⟨trivial, fun _ _ => trivial⟩
  | setPins view => exact ⟨trivial, fun _ _ => trivial⟩
  | _ => exact h.elim

end Programs

/-! ### Runs -/

lemma kept : Kept (M := machine) (D := discipline) Preemptable Any Inv where
  main _ _ _ hc := wp_main hc
  start s t e _ h _ := by
    have hold : ∀ {u m}, Function.update s.records t (some discipline.init) u = some m →
        m = discipline.init ∨ s.records u = some m := by
      intro u m hu
      rcases update_cases hu with ⟨-, hx⟩ | ⟨-, hu⟩
      · exact .inl (Option.some.inj hx).symm
      · exact .inr hu
    refine ⟨h.keys, fun u v m m' hu hv hm hm' => ?_, fun u m hu hm => ?_,
      fun u m v rec hu hm => ?_, fun u m g hu hg => ?_⟩
    · rcases hold hu with rfl | hu
      · cases hm
      · rcases hold hv with rfl | hv
        · cases hm'
        · exact h.alone u v m m' hu hv hm hm'
    · rcases hold hu with rfl | hu
      · exact hm.elim (absurd rfl) (absurd rfl)
      · exact h.works u m hu hm
    · rcases hold hu with rfl | hu
      · cases hm
      · exact h.marked u m v rec hu hm
    · rcases hold hu with rfl | hu
      · cases hg
      · exact h.pass u m g hu hg
  op s t env o l r st hc ho hl hm h he := h.op hl hm (fun hb => hc (hb ▸ ho)) he
  stop s t env l _ _ _ h := by
    have hold : ∀ {u m}, Function.update s.records t none u = some m → s.records u = some m := by
      intro u m hu
      exact (update_cases hu).elim (fun hx => by cases hx.2) And.right
    exact h.fewer hold
  kill s p _ h := by
    have hold : ∀ {u : Tid} {m : Ledger},
        (if u.proc = p then none else s.records u) = some m → s.records u = some m := by
      intro u m hu
      split at hu
      · cases hu
      · exact hu
    exact h.fewer hold
  own _ x := x.elim

/-- The recorded version is unchanged, and a mark that was set is set. -/
def Keeps (st st' : Store) : Prop :=
  ∀ rec', st'.record = some rec' → ∃ rec, st.record = some rec ∧ rec'.version = rec.version ∧
    (rec.target ≠ none → rec'.target ≠ none)

/-- A refresh is about to record a version: it has rewritten every row that it found under it, and
no row is without it. -/
structure Completes (s : Sys) (t : Tid) (v : ℕ) : Prop where
  next : s.nextOp t = some (.recordVersion (some v))
  written : ∃ l g, s.records t = some l ∧ l.marked = some v ∧ l.pass = some g ∧ g.clean = true ∧
    ∀ i, i ∈ g.written ↔ i ∈ g.ids
  rows : ∀ r ∈ s.store.rows, r.under = some v

lemma Keeps.refl (st : Store) : Keeps st st := fun rec h => ⟨rec, h, rfl, id⟩

lemma Keeps.trans {st st' st'' : Store} (h : Keeps st st') (h' : Keeps st' st'') :
    Keeps st st'' := by
  intro rec'' hrec''
  obtain ⟨rec', hrec', hv', ht'⟩ := h' rec'' hrec''
  obtain ⟨rec, hrec, hv, ht⟩ := h rec' hrec'
  exact ⟨rec, hrec, hv'.trans hv, fun hm => ht' (ht hm)⟩

/-- A pass that is through has rewritten what it found. -/
lemma PassInv.through {rows : List Row} {next v : ℕ} {g : Pass} (h : PassInv rows next (some v) g)
    (hrem : g.remaining = []) (hclean : g.clean = true) (hcount : g.counted = some g.ids.length) :
    (∀ i, i ∈ g.written ↔ i ∈ g.ids) ∧ ∀ r ∈ rows, r.under = some v := by
  have hsub : g.written ⊆ g.ids := fun i hi => (h.apart i hi).1
  have hperm : g.written.Perm g.ids :=
    (List.subperm_of_subset h.written hsub).perm_of_length_le (h.counted _ hcount hrem)
  refine ⟨fun i => hperm.mem_iff, fun r hr => ?_⟩
  rcases h.covered r hr with hmem | hdirty | hu
  · rw [hrem] at hmem
    cases hmem
  · rw [hclean] at hdirty
    cases hdirty
  · exact hu

/-- An operation that records nothing keeps the version and the mark. -/
lemma keeps_exec {st st' : Store} {t : Tid} {env : ℕ} {o : Op} {r : o.Answer} {l : Ledger}
    (hm : may l o) (ho : ∀ version, o ≠ .recordVersion version)
    (he : exec st t env o = some (r, st')) : Keeps st st' := by
  cases o with
  | recordVersion version => exact absurd rfl (ho version)
  | dropFile path => exact hm.elim
  | insert kind rows => exact hm.elim
  | save => exact hm.elim
  | markRefresh target =>
    simp only [exec] at he
    split at he
    · cases he
      intro rec' hrec'
      obtain ⟨rec, hrec, rfl⟩ := Option.map_eq_some_iff.mp hrec'
      exact ⟨rec, hrec, rfl, fun _ h => by cases h⟩
    · cases he
      exact .refl st
  | delete =>
    cases he
    split
    · intro rec' hrec'
      cases hrec'
    · exact .refl st
  | dropSource =>
    simp only [exec] at he
    split at he <;> cases he <;> exact .refl st
  | rewrite rows =>
    simp only [exec] at he
    split at he <;> cases he <;> exact .refl st
  | _ =>
    cases he
    exact .refl st

/-- One step keeps the version and the mark, or a refresh that is complete takes it. -/
lemma keeps_or_completes {st : Store} (hst : Keys st.rows st.nextRow) {s s' : Sys}
    {l : Label machine} (hr : Run Preemptable (initial st) s) (hs : s.step l = some s') :
    Keeps s.store s'.store ∨ ∃ t env v, l = .run t env ∧ Completes s t v ∧
      ∀ rec, s'.store.record = some rec → rec = ⟨some v, none⟩ := by
  have hinit : Inv st fun _ => none :=
    ⟨hst, fun _ _ _ _ ht => (by cases ht), fun _ _ ht => (by cases ht),
      fun _ _ _ _ ht => (by cases ht), fun _ _ _ ht => (by cases ht)⟩
  obtain ⟨hinv, hd⟩ := kept.run_initial hr hinit
  cases l with
  | start t e =>
    simp only [State.step] at hs
    split at hs
    · cases hs
      exact .inl (.refl _)
    · cases hs
  | kill p =>
    cases hs
    exact .inl (.refl _)
  | own x => exact x.elim
  | run t env =>
    rcases Kept.step_run hs hd with ⟨-, hstore⟩ | ⟨o, l, r, ho, hl, hm, he⟩
    · exact .inl (hstore ▸ .refl _)
    · by_cases hrec : ∃ version, o = .recordVersion version
      · obtain ⟨version, rfl⟩ := hrec
        obtain ⟨hw, v, rfl, hmark, g, hg, hrem, hclean, hcount⟩ := hm
        have hp := hinv.pass t l g hl hg
        rw [hmark] at hp
        obtain ⟨hwritten, hrows⟩ := hp.through hrem hclean hcount
        have hc : Completes s t v := ⟨ho, ⟨l, g, hl, hmark, hg, hclean, hwritten⟩, hrows⟩
        have he : some ((), if env = 0 then s.store.recordVersion (some v) else s.store) =
            some (r, s'.store) := he
        split at he
        · refine .inr ⟨t, env, v, rfl, hc, fun rec hrec => ?_⟩
          obtain ⟨-, hst⟩ := Prod.mk.inj (Option.some.inj he)
          rw [← hst, Store.recordVersion] at hrec
          split at hrec
          · rename_i hnone
            rw [hnone] at hrec
            cases hrec
          · exact (Option.some.inj hrec).symm
        · obtain ⟨-, hst⟩ := Prod.mk.inj (Option.some.inj he)
          exact .inl (hst ▸ .refl _)
      · exact .inl (keeps_exec (t := t) hm (fun version h => hrec ⟨version, h⟩) he)

/-- Steps by which no refresh records. -/
def Unrecorded (s : Sys) (l : Label machine) : Prop :=
  Preemptable s l ∧ ∀ t env v, l = .run t env → ¬Completes s t v

/-- A source of one row, at version 2. The pin is at version 3. -/
def outdated : Store :=
  ⟨[⟨0, .rel ["a.py"], "a", some "a", some 2, none⟩], 1, some ⟨some 2, none⟩,
    ⟨fun _ => some 3, fun _ => none⟩, "s", true⟩

/-- It is refreshed, and the version is to be recorded next. -/
def refreshing : List (Label machine) :=
  .start ⟨0, 0⟩ (.resummarize SummaryVersion.config
    (fun _ => ⟨(SummaryVersion.sourceFile "a.py").llm, false⟩) ⟨false, false, false, false⟩) ::
    List.replicate 12 (.run ⟨0, 0⟩ 0)

def preemptable (s : Sys) : Label machine → Bool
  | .start _ (.resummarize ..) => true
  | .run t _ => match s.nextOp t with
    | some .begin => s.tasks.rows.all fun k => k.tid = t || k.record.working = false
    | _ => true
  | _ => false

lemma preemptable_of (s : Sys) (l : Label machine) (h : preemptable s l = true) :
    Preemptable s l := by
  cases l with
  | start t e =>
    cases e with
    | resummarize cfg b w => trivial
    | _ => cases h
  | run t env =>
    intro ho u m hu hm
    simp only [preemptable, ho, List.all_eq_true, Bool.or_eq_true, decide_eq_true_eq] at h
    obtain ⟨k, hk, rfl⟩ := Option.map_eq_some_iff.mp hm
    obtain ⟨hmem, rfl⟩ := Keyed.get?_eq_some.mp hk
    exact (h k hmem).resolve_left hu
  | _ => cases h

end Treeweft.Resummarize
