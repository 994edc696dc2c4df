import Treeweft.EmbeddingProxy
import Mathlib.Data.List.Perm.Subperm

/-!
What a batch has tried when `_embed_batch` raises.

The loop stops when the tried URLs are as many as the listed backends, or when a selection finds
nobody. The count goes wrong with a reload that takes tried backends away, the selection with a
preferred class that is open; otherwise every eligible backend has been tried.
-/

namespace Treeweft.EmbeddingProxy.Failover

open Machine (State Label Run Kept initial)

/-! ### Selection -/

section Selection
variable {require_cpu : Bool} {tried : List Url} {views : List View} {v : View}

lemma leastLoaded_eq_none : leastLoaded views = none ↔ views = [] := by
  cases views with
  | nil => exact ⟨fun _ => rfl, fun _ => rfl⟩
  | cons b bs =>
    refine ⟨fun h => ?_, nofun⟩
    simp only [leastLoaded] at h
    split at h
    · cases h
    · split at h <;> cases h

lemma leastLoaded_mem (h : leastLoaded views = some v) : v ∈ views := by
  induction views generalizing v with
  | nil => cases h
  | cons b bs ih =>
    simp only [leastLoaded] at h
    split at h
    · cases h
      exact List.mem_cons_self ..
    · rename_i least hc
      split at h
      · cases h
        exact List.mem_cons_self ..
      · cases h
        exact List.mem_cons_of_mem _ (ih hc)

lemma mem_untried :
    v ∈ views.filter (fun b => decide (b.url ∉ tried)) ↔ v ∈ views ∧ v.url ∉ tried := by
  rw [List.mem_filter, decide_eq_true_iff]

/-- The pool holds all untried backends, or some of the CPU class and all those of that class. -/
lemma pool_cases (require_cpu : Bool) (tried : List Url) (views : List View) :
    (∀ v, v ∈ pool require_cpu tried views ↔ v ∈ views ∧ v.url ∉ tried) ∨
      require_cpu = true ∧ (∃ v, v ∈ pool require_cpu tried views) ∧
        ∀ v, v ∈ pool require_cpu tried views ↔ (v ∈ views ∧ v.url ∉ tried) ∧ v.klass = .cpu := by
  unfold pool
  cases require_cpu with
  | false =>
    refine .inl fun v => ?_
    simp only [Bool.false_eq_true, if_false, ite_self]
    exact mem_untried
  | true =>
    simp only [if_true, true_and]
    split
    · exact .inl fun v => mem_untried
    · rename_i hne
      refine .inr ⟨List.exists_mem_of_ne_nil _ hne, fun v => ?_⟩
      rw [List.mem_filter, mem_untried, decide_eq_true_iff]

lemma mem_pool (h : v ∈ pool require_cpu tried views) : v ∈ views ∧ v.url ∉ tried := by
  rcases pool_cases require_cpu tried views with hall | ⟨-, -, hcpu⟩
  · exact (hall v).1 h
  · exact ((hcpu v).1 h).1

lemma select_untried (h : select require_cpu tried views = some v) : v.url ∉ tried :=
  (mem_pool (List.mem_filter.1 (leastLoaded_mem h)).1).2

/-- A backend of another class is eligible while the untried ones of the CPU class are all open. -/
def Shadowed (require_cpu : Bool) (tried : List Url) (views : List View) : Prop :=
  require_cpu = true ∧ (∃ v ∈ views, v.klass = .cpu ∧ v.url ∉ tried) ∧
    (∀ v ∈ views, v.klass = .cpu → v.url ∉ tried → v.cb_state = .opened) ∧
    ∃ v ∈ views, v.url ∉ tried ∧ v.cb_state ≠ .opened

/-- Apart from this, nobody is left when a selection finds nobody. -/
lemma tried_of_select_eq_none (h : select require_cpu tried views = none)
    (hs : ¬Shadowed require_cpu tried views) :
    ∀ v ∈ views, v.cb_state ≠ .opened → v.url ∈ tried := by
  intro v hv hopen
  by_contra hu
  have hnone : ∀ w ∈ pool require_cpu tried views, w.cb_state = .opened := by
    intro w hw
    by_contra hw'
    have hmem : w ∈ (pool require_cpu tried views).filter
        fun b => decide (b.cb_state ≠ .opened) := List.mem_filter.2 ⟨hw, decide_eq_true hw'⟩
    rw [leastLoaded_eq_none.1 h] at hmem
    cases hmem
  rcases pool_cases require_cpu tried views with hall | ⟨hcpu, ⟨w, hw⟩, hmem⟩
  · exact hopen (hnone v ((hall v).2 ⟨hv, hu⟩))
  · have hw' := (hmem w).1 hw
    exact hs ⟨hcpu, ⟨w, hw'.1.1, hw'.2, hw'.1.2⟩,
      fun x hx hxcpu hxu => hnone x ((hmem x).2 ⟨⟨hx, hxu⟩, hxcpu⟩), v, hv, hu, hopen⟩

/-- The tried URLs that are still listed are as many as the backends: they are the backends. -/
lemma tried_of_count (hn : tried.Nodup)
    (h : views.length ≤ (tried.filter fun u => decide (u ∈ views.map View.url)).length) :
    ∀ u ∈ views.map View.url, u ∈ tried := by
  have hsub : tried.filter (fun u => decide (u ∈ views.map View.url)) ⊆ views.map View.url :=
    fun u hu => of_decide_eq_true (List.mem_filter.1 hu).2
  have hperm := ((hn.filter _).subperm hsub).perm_of_length_le ((List.length_map ..).trans_le h)
  exact fun u hu => (List.mem_filter.1 (hperm.mem_iff.2 hu)).1

end Selection

/-! ### The search of a batch -/

/-- The URLs a batch has tried, the backend it is on, and the list at the last selection and when
the search last looked at it. -/
structure Search where
  tried : List Url
  picked : Option ℕ
  last : List View
  now : List View

/-- Every backend that was eligible at the last selection has been tried, and so has every one that
is when the search ends. -/
def Exhausted (l : Search) : Prop :=
  (∀ v ∈ l.last, v.cb_state ≠ .opened → v.url ∈ l.tried) ∧
    ∀ v ∈ l.now, v.cb_state ≠ .opened → v.url ∈ l.tried

def Search.look (l : Search) (require_cpu : Bool) (tried : List Url) (views : List View) : Search :=
  if tried.length < views.length then
    match select require_cpu tried views with
    | some b => ⟨b.url :: l.tried, some b.ref, views, views⟩
    | none => ⟨l.tried, none, views, views⟩
  else { l with now := views }

/-- The search stops by count for the sake of URLs that are listed, and nobody it passed over at the
last selection has gone since. -/
def Counted (l : Search) (tried : List Url) (views : List View) : Prop :=
  views.length ≤ (tried.filter fun u => decide (u ∈ views.map View.url)).length ∧
    ∀ v ∈ l.last, v.cb_state ≠ .opened → v.url ∈ tried ∨ v.url ∈ views.map View.url

/-- A look that misleads nobody. -/
def Fair (l : Search) (require_cpu : Bool) (tried : List Url) (views : List View) : Prop :=
  if tried.length < views.length then ¬Shadowed require_cpu tried views else Counted l tried views

variable {V : Type} {c : Settings V}

/-- A reply over which the search goes on, or need not. -/
def proper : Reply V → Bool
  | .response r => decide (200 ≤ r.status ∧ r.status < 300 → r.vectors.isSome)
  | .readTimeout => true
  | .raised http => http

def may (l : Search) : Op V → Prop
  | .survey _ tried => tried = l.tried
  | .cap b => l.picked = some b
  | .post b _ => l.picked = some b
  | .raised _ => Exhausted l
  | _ => True

def admits (l : Search) : (o : Op V) → o.Answer V → Prop
  | .survey require_cpu tried, views => Fair l require_cpu tried views
  | .await .., false => False
  | .sleep, false => False
  | .reply .., r => proper r = true
  | _, _ => True

def after (l : Search) : (o : Op V) → o.Answer V → Search
  | .maxChunkCost _, _ => ⟨[], none, [], []⟩
  | .survey require_cpu tried, views => l.look require_cpu tried views
  | _, _ => l

abbrev discipline (V : Type) : Discipline (signature V) where
  Local := Search
  init := ⟨[], none, [], []⟩
  may := may
  admits := admits
  after := after

lemma overlooks : Overlooks (discipline V) := by
  intro l o ho
  cases o <;> first | exact ho.elim | exact ⟨trivial, fun _ _ => rfl⟩

/-- A request leaves the search as it is, and no other exceptions than those of httpx come of it. -/
lemma requests (b : ℕ) (batch : List String) (l₀ : Search) (hb : l₀.picked = some b) :
    Requests (discipline V) b batch (fun l => l = l₀) (fun l => l = l₀) (fun l => l = l₀)
      (fun r l => l = l₀ ∧ proper (.response r) = true) (fun e l => l = l₀ ∧ e.isHttp = true) where
  post := by
    rintro _ rfl
    exact ⟨hb, fun _ _ => rfl⟩
  reply := by
    rintro _ rfl
    refine ⟨trivial, fun r hr => ?_⟩
    cases r with
    | readTimeout => rfl
    | response r => exact ⟨rfl, hr⟩
    | raised http =>
      obtain rfl : http = true := hr
      exact ⟨rfl, rfl⟩
  heard _ _ h := h.1
  resend _ h := h
  http _ _ h he := ⟨h, he⟩
  opened _ h := ⟨h, rfl⟩
  cancelled _ _ _ h := h.elim
  woken _ _ h := h.elim
  succeed _ _ := ⟨trivial, fun _ _ => rfl⟩
  fail _ _ _ _ := ⟨trivial, fun _ _ => rfl⟩

lemma wp_postOne_picked {b : ℕ} {batch : List String} {l : Search} (hb : l.picked = some b) :
    (discipline V).wp (postOne b batch) (fun _ l' => l' = l)
      (fun e l' => l' = l ∧ e.isHttp = true) l := by
  refine wp_postOne batch overlooks (fun batch => requests b batch l hb) ?_ ?_ rfl
  · rintro _ rfl
    exact ⟨hb, fun _ _ => rfl⟩
  · intro r l' hr hstatus hnone
    have := of_decide_eq_true hr.2 hstatus
    rw [hnone] at this
    cases this

lemma wp_failover (require_cpu : Bool) (batch : List String) (turns : ℕ) (tried : List Url)
    (last : Option Exc) {l : Search} (hl : l.tried = tried) (hn : tried.Nodup) :
    (discipline V).wp (failover require_cpu batch turns tried last) (fun _ _ => True)
      (fun _ => Exhausted) l := by
  induction turns generalizing tried last l with
  | zero => trivial
  | succ turns ih =>
    refine wp_perform.2 ⟨hl.symm, fun (backends : List View) hfair => ?_⟩
    have hfair : Fair l require_cpu tried backends := hfair
    change (discipline V).wp _ _ _ (l.look require_cpu tried backends)
    unfold Fair at hfair
    unfold Search.look
    split
    · rename_i hlt
      rw [if_pos hlt] at hfair
      cases hs : select require_cpu tried backends with
      | none =>
        have := tried_of_select_eq_none hs hfair
        subst hl
        exact ⟨this, this⟩
      | some b =>
        refine wp_tryAct (wp_postOne_picked rfl) (fun _ _ _ => trivial) fun e l' h => ?_
        obtain ⟨rfl, he⟩ := h
        simp only [he, if_true]
        exact ih (b.url :: tried) (some e) (congrArg _ hl)
          (List.nodup_cons.2 ⟨select_untried hs, hn⟩)
    · -- the loop is over by count
      rename_i hge
      rw [if_neg hge] at hfair
      have hall := tried_of_count hn hfair.1
      subst hl
      exact ⟨fun v hv ho => (hfair.2 v hv ho).elim id (hall _),
        fun v hv _ => hall _ (List.mem_map_of_mem hv)⟩

lemma wp_call (gpu_max_tokens max_batch_size turns : ℕ) (texts : List String) :
    (discipline V).wp (call gpu_max_tokens max_batch_size turns texts) (fun _ _ => True)
      (fun _ _ => True) (discipline V).init := by
  have hbatch : ∀ batch l, (discipline V).wp (embedBatch gpu_max_tokens turns batch)
      (fun _ _ => True) (fun _ => Exhausted) l := fun batch l =>
    wp_perform.2 ⟨trivial, fun (cost : ℕ) _ => wp_failover _ batch turns [] none rfl List.nodup_nil⟩
  have hslices : ∀ batches l, (discipline V).wp (embedSlices gpu_max_tokens turns batches)
      (fun _ _ => True) (fun _ => Exhausted) l := by
    intro batches
    induction batches with
    | nil => exact fun _ => trivial
    | cons batch batches ih =>
      refine fun l => Discipline.wp_seq (hbatch batch l) (fun o l' _ => ?_) fun _ _ h => h
      cases o with
      | none => trivial
      | some out =>
        refine Discipline.wp_seq (ih l') (fun o' l'' _ => ?_) fun _ _ h => h
        cases o' <;> trivial
  have hembed : (discipline V).wp (embed gpu_max_tokens max_batch_size turns texts)
      (fun _ _ => True) (fun _ => Exhausted) (discipline V).init := by
    unfold embed
    split
    · exact ⟨nofun, nofun⟩
    · exact hslices _ _
  refine wp_tryAct hembed (fun o l _ => ?_) fun e l h => wp_perform.2 ⟨h, fun _ _ => trivial⟩
  cases o with
  | none => trivial
  | some out => exact wp_perform.2 ⟨trivial, fun _ _ => trivial⟩

/-! ### Runs -/

abbrev Sys (c : Settings V) : Type := State (machine c) (discipline V)

/-- Nothing but errors of httpx comes of the waits and requests of a call. -/
def calm (p : Proxy V c) (env : ℕ) : Op V → Bool
  | .await .. => env == 0
  | .sleep => env == 0
  | .reply b batch => (p.heap[b]?).all fun x => proper (replyOf c x.url batch env)
  | _ => true

instance (require_cpu : Bool) (tried : List Url) (views : List View) :
    Decidable (Shadowed require_cpu tried views) :=
  inferInstanceAs (Decidable (_ ∧ _))

instance (l : Search) (tried : List Url) (views : List View) : Decidable (Counted l tried views) :=
  inferInstanceAs (Decidable (_ ∧ _))

instance (l : Search) (require_cpu : Bool) (tried : List Url) (views : List View) :
    Decidable (Fair l require_cpu tried views) :=
  inferInstanceAs (Decidable (ite ..))

/-- A selection passes over nobody for the sake of a class that is open, and the count stops the
search only for listed backends. -/
def fair (p : Proxy V c) (l : Search) : Op V → Bool
  | .survey require_cpu tried => Fair l require_cpu tried (p.surveyed require_cpu tried).views
  | _ => true

/-- Every operation is calm and fair. -/
def careful (s : Sys c) : Label (machine c) → Bool
  | .run t env => (s.nextOp t).all fun (o : Op V) =>
    calm s.store env o && (s.records t).all fun (l : Search) => fair s.store l o
  | _ => true

/-- In runs whose steps all pass `C`, a batch that raises has tried every backend. -/
def Exhaustive (C : Sys c → Label (machine c) → Bool) (p : Proxy V c) : Prop :=
  ∀ s, Run (fun s l => C s l = true) (initial p) s → ∀ t e, s.nextOp t = some (.raised e) →
    ∃ l, s.records t = some l ∧ Exhausted l

lemma admits_of_careful {s : Sys c} {t : Tid} {env : ℕ} {o : Op V} {l : Search}
    {r : o.Answer V} {p' : Proxy V c} (hc : careful s (.run t env) = true)
    (ho : s.nextOp t = some o) (hl : s.records t = some l)
    (he : exec s.store t env o = some (r, p')) : admits l o r := by
  have hgood : calm s.store env o = true ∧ fair s.store l o = true := by
    rw [careful, ho, hl] at hc
    exact Bool.and_eq_true_iff.1 hc
  obtain ⟨hcalm, hfair⟩ := hgood
  cases o with
  | survey require_cpu tried =>
    cases he
    exact (of_decide_eq_true hfair : Fair l require_cpu tried _)
  | await b call =>
    obtain rfl : env = 0 := of_decide_eq_true hcalm
    obtain ⟨x, x', -, hx, -⟩ := on_eq_some.1 he
    cases r with
    | true => trivial
    | false =>
      unfold Backend.awaited at hx
      split at hx
      · rw [if_pos rfl] at hx
        obtain ⟨y, -, hy⟩ := Option.map_eq_some_iff.1 hx
        cases hy
      · cases hx
  | sleep =>
    obtain rfl : env = 0 := of_decide_eq_true hcalm
    cases he
    trivial
  | reply b batch =>
    obtain ⟨x, x', hx, hreply, -⟩ := on_eq_some.1 he
    obtain ⟨hr, -⟩ := Prod.mk.inj (Option.some.inj hreply)
    change (s.store.heap[b]?).all (fun x => proper (replyOf c x.url batch env)) = true at hcalm
    rw [hx, Option.all_some] at hcalm
    exact hr ▸ hcalm
  | _ => trivial

lemma kept (c : Settings V) : Kept (M := machine c) (D := discipline V)
    (fun s l => careful s l = true) (fun _ => True) fun _ _ => True where
  main _ _ e _ := wp_call _ _ e.turns e.texts
  start _ _ _ _ _ _ := trivial
  op _ _ _ _ _ _ _ hc ho hl _ _ he := ⟨admits_of_careful hc ho hl he, trivial⟩
  stop _ _ _ _ _ _ _ _ := trivial
  kill _ _ _ _ := trivial
  own _ _ _ _ _ _ := trivial

/-- **Failover is exhaustive** when the selections and the count are fair and no call is cancelled
or given a body it cannot read. -/
theorem failover_exhaustive (c : Settings V) (p : Proxy V c) : Exhaustive careful p := by
  intro s hr t e ho
  obtain ⟨-, hd⟩ := (kept c).run_initial hr trivial
  exact Kept.may_of_nextOp hd ho

/-! ### Backends left untried -/

def plain : Settings Unit where
  slots := EmbeddingSlots.pair
  gpu_max_tokens := 100
  max_batch_size := 1
  embedding _ _ _ := ()

def ofClasses (a b : BackendClass) : Proxy Unit plain := .new plain [⟨"a", a⟩, ⟨"b", b⟩]

def turn (n k env : ℕ) : List (Label (machine plain)) := List.replicate k (.run ⟨0, n⟩ env)

/-- Call `n` of one text is about to hear from the first backend. -/
def asks (n : ℕ) : List (Label (machine plain)) := .start ⟨0, n⟩ ⟨["x"], 3⟩ :: turn n 7 0

/-- Backend `a` fails call `n`, and `b` serves it. -/
def falters (n : ℕ) : List (Label (machine plain)) := asks n ++ turn n 1 4 ++ turn n 17 0

/-- After five failures backend `a`, the only one of the CPU class, is open; a text too long for
another class is refused although `b` answers. -/
def refused : List (Label (machine plain)) :=
  (List.range 5).flatMap falters ++ [.start ⟨0, 5⟩ ⟨["x"], 3⟩] ++ turn 5 1 101 ++ turn 5 1 0

/-- Backend `a` is taken from the registry while it has the batch, and fails it. -/
def replaced : List (Label (machine plain)) :=
  asks 0 ++ [.own (.reload [⟨"b", .gpu⟩])] ++ turn 0 1 4 ++ turn 0 4 0

/-- No call is disturbed, and the registry stays as it is. -/
def settled (s : Sys c) : Label (machine c) → Bool
  | .run t env => (s.nextOp t).all fun (o : Op V) => calm s.store env o
  | .own (.reload _) => false
  | _ => true

/-- No call is disturbed, and none needs the CPU class. -/
def light (s : Sys c) : Label (machine c) → Bool
  | .run t env => (s.nextOp t).all fun (o : Op V) => calm s.store env o &&
    match o with
    | .survey require_cpu _ => !require_cpu
    | _ => true
  | _ => true

/-- What a call raises, and whether it has tried every backend. -/
def outcome (s : Sys c) (t : Tid) : Option (Exc × Option (List Url × List Url)) :=
  match s.nextOp t with
  | some (.raised e) => some (e, (s.records t).map fun (l : Search) =>
      (l.tried, (l.now.filter fun v => decide (v.cb_state ≠ .opened)).map View.url))
  | _ => none

lemma not_exhaustive {C : Sys plain → Label (machine plain) → Bool} {p : Proxy Unit plain}
    {ls : List (Label (machine plain))} {n : ℕ} {e : Exc} {tried eligible : List Url}
    (h : ((initial p : Sys plain).runChecked C ls).map (fun s => outcome s ⟨0, n⟩) =
      some (some (e, some (tried, eligible)))) (hne : ∃ u ∈ eligible, u ∉ tried) :
    ¬Exhaustive C p := by
  intro hclaim
  obtain ⟨s, hs, hx⟩ := Option.map_eq_some_iff.1 h
  unfold outcome at hx
  split at hx
  · rename_i e' ho
    obtain ⟨-, hl⟩ := Prod.mk.inj (Option.some.inj hx)
    obtain ⟨l, hl, hn⟩ := Option.map_eq_some_iff.1 hl
    obtain ⟨l', hl', hex⟩ := hclaim s (Machine.run_of_runChecked (fun _ _ hc => hc) hs) _ _ ho
    obtain rfl : l = l' := Option.some.inj (hl.symm.trans hl')
    obtain ⟨rfl, rfl⟩ := Prod.mk.inj hn
    obtain ⟨u, hu, hnot⟩ := hne
    obtain ⟨v, hv, rfl⟩ := List.mem_map.1 hu
    obtain ⟨hv, hopen⟩ := List.mem_filter.1 hv
    exact hnot (hex.2 v hv (of_decide_eq_true hopen))
  · cases hx

/-- A backend that answers is left untried without any reload, and with calls for no class. -/
theorem backend_left_untried :
    ¬Exhaustive settled (ofClasses .cpu .gpu) ∧ ¬Exhaustive light (ofClasses .gpu .gpu) := by
  have hrefused : ((initial (ofClasses .cpu .gpu) : Sys plain).runChecked settled refused).map
      (fun s => outcome s ⟨0, 5⟩) = some (some (.unavailable, some ([], ["b"]))) := by
    decide +kernel
  have hreplaced : ((initial (ofClasses .gpu .gpu) : Sys plain).runChecked light replaced).map
      (fun s => outcome s ⟨0, 0⟩) = some (some (.http, some (["a"], ["b"]))) := by
    decide +kernel
  exact ⟨not_exhaustive hrefused ⟨"b", by decide⟩, not_exhaustive hreplaced ⟨"b", by decide⟩⟩

/-- Both backends fail a batch. -/
theorem failover_exhaustive_of_down : ∃ s : Sys plain,
    outcome s ⟨0, 0⟩ = some (.http, some (["b", "a"], ["a", "b"])) ∧
    ∀ t e, s.nextOp t = some (.raised e) → ∃ l, s.records t = some l ∧ Exhausted l := by
  have h : ((initial (ofClasses .gpu .gpu) : Sys plain).runChecked careful
      (asks 0 ++ turn 0 1 4 ++ turn 0 9 0 ++ turn 0 1 4 ++ turn 0 4 0)).map
        (fun s => outcome s ⟨0, 0⟩) = some (some (.http, some (["b", "a"], ["a", "b"]))) := by
    decide +kernel
  obtain ⟨s, hs, hx⟩ := Option.map_eq_some_iff.1 h
  exact ⟨s, hx, failover_exhaustive plain _ s (Machine.run_of_runChecked (fun _ _ hc => hc) hs)⟩

end Treeweft.EmbeddingProxy.Failover
