import Treeweft.Interleaving

/-!
The view of the prompt pins that a process has in memory.

Reloads overlap, and the table changes between their reads. The lock around a reload keeps the
reads in the order of the swaps, so that the view only ever goes to later states of the table.
-/

namespace Treeweft.PromptPins

open Machine (State Label Run Kept initial)

/-! ### Pins -/

/-- A row of `prompt_pins`, without its time and author. -/
structure PinRow where
  operation : String
  scope : String
  version : ℕ
  deriving DecidableEq, Repr

structure PinView where
  deployment : String → Option ℕ
  overrides : String → Option ℕ

/-- The versions that the process knows, by operation. -/
def registry : List (String × List ℕ) := [("chunk_summary", [3]), ("hyde", [1])]

def isRegistered (operation : String) (version : ℕ) : Bool :=
  registry.any fun (op, versions) => op = operation && version ∈ versions

def PinView.add (v : PinView) (row : PinRow) : PinView :=
  if row.scope = "deployment" then
    { v with deployment := Function.update v.deployment row.operation (some row.version) }
  else { v with overrides := Function.update v.overrides row.scope (some row.version) }

/-- `_build_view`; `none` stands for its `RuntimeError`. -/
def buildView (rows : List PinRow) : Option PinView :=
  rows.foldlM (fun v row => if isRegistered row.operation row.version then some (v.add row) else none)
    ⟨fun _ => none, fun _ => none⟩

/-- Every operation has a pin for the deployment. -/
def PinView.complete (v : PinView) : Bool := registry.all fun (op, _) => (v.deployment op).isSome

/-! ### A reload -/

inductive Exc
  | error
  | cancelled
  deriving DecidableEq, Repr

inductive Reply (α : Type)
  | ok (a : α)
  | raised (e : Exc)

/-- The read is three steps: a connection, the statement, its rows. -/
inductive Op
  | acquire
  | connect
  | send
  | receive
  | oldHyde
  | swap (v : PinView)
  | clearHydeCache
  | release

def Op.Answer : Op → Type
  | .acquire => Reply Unit
  | .connect => Reply Unit
  | .send => Reply Unit
  | .receive => Reply (List PinRow)
  | .oldHyde => Option ℕ
  | .swap _ => Unit
  | .clearHydeCache => Unit
  | .release => Unit

abbrev signature : Signature := ⟨Op, Op.Answer⟩

abbrev P := Prog signature Exc

def Reply.get {α : Type} : Reply α → P α
  | .ok a => .ret a
  | .raised e => .raise e

/-- `list_all`. -/
def listAll : P (List PinRow) :=
  .op .connect fun (r : Reply Unit) => r.get.bind fun _ =>
    .op .send fun (r : Reply Unit) => r.get.bind fun _ =>
      .op .receive fun (r : Reply (List PinRow)) => r.get

/-- `none` after an exception that `except Exception` catches. -/
def readView : P (Option PinView) :=
  .catching
    (listAll.bind fun rows =>
      match buildView rows with
      | none => .raise .error
      | some v => .ret (some v))
    fun e =>
      match e with
      | .error => .ret none
      | .cancelled => .raise .cancelled

def install (v : PinView) : P Unit :=
  if v.complete then
    .op .oldHyde fun (old : Option ℕ) => .op (.swap v) fun _ =>
      if v.deployment "hyde" ≠ old then .op .clearHydeCache fun _ => .ret () else .ret ()
  else .ret ()

def reload (database_url : Bool) : P Unit :=
  if database_url then
    .op .acquire fun (r : Reply Unit) => r.get.bind fun _ =>
      (readView.bind fun v =>
        match v with
        | none => .ret ()
        | some v => install v).attempt.bind fun e =>
      .op .release fun _ =>
        match e with
        | none => .ret ()
        | some e => .raise e
  else .ret ()

/-! ### The process and the table -/

/-- The states that the table had, the last one now; the view with the number of the state it is
of; the state that the last statement of a task read. -/
structure Store where
  history : List (List PinRow)
  view : PinView
  shown : ℕ
  seen : Tid → ℕ
  lock : Option Tid
  hyde_cache : List String

def reply {α : Type} (env : ℕ) (a : α) : Reply α :=
  match env with
  | 0 => .ok a
  | 1 => .raised .error
  | _ => .raised .cancelled

def exec (st : Store) (t : Tid) (env : ℕ) : (o : Op) → Option (o.Answer × Store)
  | .acquire =>
    if env = 0 then
      if st.lock = none then some (Reply.ok (), { st with lock := some t }) else none
    else some (Reply.raised (α := Unit) .cancelled, st)
  | .connect => some (reply env (), st)
  | .send => some (reply env (),
      { st with seen := Function.update st.seen t (st.history.length - 1) })
  | .receive => some (reply env (st.history.getD (st.seen t) []), st)
  | .oldHyde => some (st.view.deployment "hyde", st)
  | .swap v => some ((), { st with view := v, shown := st.seen t })
  | .clearHydeCache => some ((), { st with hyde_cache := [] })
  | .release => some ((), { st with lock := none })

/-- A step of the table is a commit, of this process or another, or an edit by hand. -/
def machine : Machine signature Exc where
  Store := Store
  exec := exec
  Entry := Bool
  main := reload
  kill _ st := st
  Own := List PinRow
  own st rows := some { st with history := st.history ++ [rows] }

/-- The view is the one of the state of the table that it is said to be of. -/
structure Store.Shows (st : Store) : Prop where
  lt : st.shown < st.history.length
  view : buildView (st.history.getD st.shown []) = some st.view

/-- `load_and_seed` has run, and nothing else of this module. -/
structure Store.Loaded (st : Store) : Prop extends st.Shows where
  lock : st.lock = none

/-! ### Where a reload is -/

inductive Phase
  | out
  | held
  | asked
  | got (rows : Option (List PinRow))
  | swapped

/-- The view that a read leads to. -/
def usable (rows : List PinRow) : Option PinView := (buildView rows).filter PinView.complete

def may (l : Phase) : Op → Prop
  | .acquire => l = .out
  | .connect => l = .held
  | .send => l = .held
  | .receive => l = .asked
  | .oldHyde => ∃ rows v, l = .got (some rows) ∧ usable rows = some v
  | .swap v => ∃ rows, l = .got (some rows) ∧ usable rows = some v
  | .clearHydeCache => l = .swapped
  | .release => l ≠ .out

def after (l : Phase) : (o : Op) → o.Answer → Phase
  | .acquire, .ok _ => .held
  | .acquire, .raised _ => .out
  | .connect, .ok _ => .held
  | .connect, .raised _ => .got none
  | .send, .ok _ => .asked
  | .send, .raised _ => .got none
  | .receive, .ok rows => .got (some rows)
  | .receive, .raised _ => .got none
  | .oldHyde, _ => l
  | .swap _, _ => .swapped
  | .clearHydeCache, _ => l
  | .release, _ => .out

abbrev discipline : Discipline signature where
  Local := Phase
  init := .out
  may := may
  admits _ _ _ := True
  after := after

abbrev St := State machine discipline

lemma wp_readView : discipline.wp readView
    (fun v l => ∃ read, l = .got read ∧
      ∀ w, v = some w → ∃ rows, read = some rows ∧ buildView rows = some w)
    (fun _ l => l ≠ .out) .held := by
  have hcaught : ∀ e : Exc, discipline.wp
      (match e with
        | .error => (.ret none : P (Option PinView))
        | .cancelled => .raise .cancelled)
      (fun v l => ∃ read, l = .got read ∧
        ∀ w, v = some w → ∃ rows, read = some rows ∧ buildView rows = some w)
      (fun _ l => l ≠ .out) (.got none) := by
    intro e
    cases e with
    | error => exact ⟨none, rfl, by simp⟩
    | cancelled => exact Phase.noConfusion
  rw [readView, Discipline.wp_catching, Discipline.wp_bind']
  refine ⟨rfl, fun (r : Reply Unit) _ => ?_⟩
  cases r with
  | raised e => exact hcaught e
  | ok _ =>
    refine ⟨rfl, fun (r : Reply Unit) _ => ?_⟩
    cases r with
    | raised e => exact hcaught e
    | ok _ =>
      refine ⟨rfl, fun (r : Reply (List PinRow)) _ => ?_⟩
      cases r with
      | raised e => exact hcaught e
      | ok rows =>
        change discipline.wp
          (match buildView rows with
            | none => (.raise .error : P (Option PinView))
            | some v => .ret (some v)) _ _ (.got (some rows))
        cases hv : buildView rows with
        | none => exact ⟨some rows, rfl, by simp⟩
        | some v => exact ⟨some rows, rfl, fun w hw => ⟨rows, rfl, hv.trans hw⟩⟩

lemma wp_install {v : PinView} {rows : List PinRow} (hv : buildView rows = some v) :
    discipline.wp (install v) (fun _ l => l ≠ .out) (fun _ l => l ≠ .out) (.got (some rows)) := by
  unfold install
  split
  · rename_i hc
    have hu : usable rows = some v := by simp [usable, hv, hc]
    refine ⟨⟨rows, v, rfl, hu⟩, fun (old : Option ℕ) _ => ⟨⟨rows, rfl, hu⟩, fun _ _ => ?_⟩⟩
    change discipline.wp _ _ _ .swapped
    split
    · exact ⟨rfl, fun _ _ => Phase.noConfusion⟩
    · exact Phase.noConfusion
  · exact Phase.noConfusion

lemma wp_reload (database_url : Bool) :
    discipline.wp (reload database_url) (fun _ l => l = .out) (fun _ l => l = .out) .out := by
  unfold reload
  split
  · refine ⟨rfl, fun (r : Reply Unit) _ => ?_⟩
    cases r with
    | raised e => rfl
    | ok _ =>
      have hlocked : discipline.wp (readView.bind fun v =>
          match v with
          | none => .ret ()
          | some v => install v) (fun _ l => l ≠ .out) (fun _ l => l ≠ .out) .held := by
        rw [Discipline.wp_bind']
        refine Discipline.wp_mono (fun v l hv => ?_) (fun _ _ h => h) wp_readView
        obtain ⟨read, rfl, hv⟩ := hv
        cases v with
        | none => exact Phase.noConfusion
        | some v =>
          obtain ⟨rows, rfl, hrows⟩ := hv v rfl
          exact wp_install hrows
      change discipline.wp (Prog.bind (Prog.attempt _) _) _ _ .held
      rw [Discipline.wp_bind', Discipline.wp_attempt]
      refine Discipline.wp_mono (fun _ l hl => ?_) (fun e l hl => ?_) hlocked
      · exact ⟨hl, fun _ _ => rfl⟩
      · exact ⟨hl, fun _ _ => rfl⟩
  · rfl

/-! ### One reload at a time -/

/-- The statement of the reload has been sent, and its rows are not known to be lost. -/
def Phase.Reads (l : Phase) : Prop := l = .asked ∨ ∃ rows, l = .got (some rows)

/-- A reload that has read holds the lock, and has read what is shown or a later state. -/
structure Inv (st : Store) (L : Tid → Option Phase) : Prop extends st.Shows where
  holds : ∀ t l, L t = some l → (l ≠ .out ↔ st.lock = some t)
  owner : ∀ t, st.lock = some t → L t ≠ none
  seen : ∀ t l, L t = some l → l.Reads → st.shown ≤ st.seen t ∧ st.seen t < st.history.length
  rows : ∀ t rows, L t = some (.got (some rows)) → rows = st.history.getD (st.seen t) []

section Inv
variable {st : Store} {L : Tid → Option Phase} {t : Tid} {l l' : Phase}

/-- A reload goes on, and the lock stays as it is. -/
lemma Inv.step (h : Inv st L) (hl : L t = some l) (hout : l' = .out ↔ l = .out) (k : ℕ)
    (hreads : l'.Reads → st.shown ≤ k ∧ k < st.history.length)
    (hrows : ∀ rows, l' = .got (some rows) → rows = st.history.getD k []) :
    Inv { st with seen := Function.update st.seen t k } (Function.update L t (some l')) where
  toShows := ⟨h.lt, h.view⟩
  holds u m hu := by
    rcases update_cases hu with ⟨rfl, hm⟩ | ⟨-, hu⟩
    · obtain rfl := Option.some.inj hm
      rw [ne_eq, hout]
      exact h.holds u l hl
    · exact h.holds u m hu
  owner u hu := by
    by_cases hut : u = t
    · rw [hut, Function.update_self]
      simp
    · rw [Function.update_of_ne hut]
      exact h.owner u hu
  seen u m hu hr := by
    rcases update_cases hu with ⟨rfl, hm⟩ | ⟨hut, hu⟩
    · obtain rfl := Option.some.inj hm
      simpa using hreads hr
    · simpa [Function.update_of_ne hut] using h.seen u m hu hr
  rows u rows hu := by
    rcases update_cases hu with ⟨rfl, hm⟩ | ⟨hut, hu⟩
    · simpa using hrows rows (Option.some.inj hm)
    · simpa [Function.update_of_ne hut] using h.rows u rows hu

/-- The same, with nothing sent. -/
lemma Inv.stay (h : Inv st L) (hl : L t = some l) (hout : l' = .out ↔ l = .out)
    (hreads : l'.Reads → l.Reads)
    (hrows : ∀ rows, l' = .got (some rows) → rows = st.history.getD (st.seen t) []) :
    Inv st (Function.update L t (some l')) := by
  have h' := h.step hl hout (st.seen t) (fun hr => h.seen t l hl (hreads hr)) hrows
  rwa [Function.update_eq_self] at h'

lemma Inv.lock_of (h : Inv st L) (hl : L t = some l) (hne : l ≠ .out) : st.lock = some t :=
  (h.holds t l hl).1 hne

/-- Tasks that are outside come and go. -/
lemma Inv.idle (h : Inv st L) (ht : st.lock ≠ some t) {y : Option Phase}
    (hy : ∀ m, y = some m → m = .out) : Inv st (Function.update L t y) where
  toShows := h.toShows
  holds u m hu := by
    rcases update_cases hu with ⟨rfl, hm⟩ | ⟨-, hu⟩
    · simp [hy m hm, ht]
    · exact h.holds u m hu
  owner u hu := by
    have hut : u ≠ t := fun hut => ht (hut ▸ hu)
    rw [Function.update_of_ne hut]
    exact h.owner u hu
  seen u m hu hr := by
    rcases update_cases hu with ⟨rfl, hm⟩ | ⟨-, hu⟩
    · rw [hy m hm] at hr
      rcases hr with hr | ⟨rows, hr⟩ <;> cases hr
    · exact h.seen u m hu hr
  rows u rows hu := by
    rcases update_cases hu with ⟨rfl, hm⟩ | ⟨-, hu⟩
    · cases hy _ hm
    · exact h.rows u rows hu

lemma Inv.start (h : Inv st L) (hn : L t = none) : Inv st (Function.update L t (some .out)) :=
  h.idle (fun hlock => h.owner t hlock hn) fun _ hm => (Option.some.inj hm).symm

lemma Inv.stop (h : Inv st L) (hl : L t = some .out) : Inv st (Function.update L t none) :=
  h.idle (fun hlock => (h.holds t _ hl).2 hlock rfl) fun _ hm => by cases hm

lemma not_reads {l : Phase} (h : l = .out ∨ l = .held ∨ l = .got none ∨ l = .swapped) :
    ¬ l.Reads := by
  rintro (rfl | ⟨rows, rfl⟩) <;> simp at h

lemma Inv.acquire (h : Inv st L) (hfree : st.lock = none) :
    Inv { st with lock := some t } (Function.update L t (some .held)) where
  toShows := ⟨h.lt, h.view⟩
  holds u m hu := by
    rcases update_cases hu with ⟨rfl, hm⟩ | ⟨hut, hu⟩
    · obtain rfl := Option.some.inj hm
      simp
    · have hm : m = .out := by
        by_contra hm
        exact absurd (h.lock_of hu hm) (by simp [hfree])
      simp [hm, Ne.symm hut]
  owner u hu := by
    obtain rfl : t = u := Option.some.inj hu
    simp
  seen u m hu hr := by
    rcases update_cases hu with ⟨rfl, hm⟩ | ⟨-, hu⟩
    · obtain rfl := Option.some.inj hm
      exact absurd hr (not_reads (by simp))
    · exact h.seen u m hu hr
  rows u rows hu := by
    rcases update_cases hu with ⟨-, hm⟩ | ⟨-, hu⟩
    · cases hm
    · exact h.rows u rows hu

lemma Inv.release (h : Inv st L) (hl : L t = some l) (hne : l ≠ .out) :
    Inv { st with lock := none } (Function.update L t (some .out)) where
  toShows := ⟨h.lt, h.view⟩
  holds u m hu := by
    rcases update_cases hu with ⟨rfl, hm⟩ | ⟨hut, hu⟩
    · obtain rfl := Option.some.inj hm
      simp
    · have hm : m = .out := by
        by_contra hm
        have hlock := (h.lock_of hu hm).symm.trans (h.lock_of hl hne)
        exact hut (Option.some.inj hlock)
      simp [hm]
  owner u hu := by cases hu
  seen u m hu hr := by
    rcases update_cases hu with ⟨rfl, hm⟩ | ⟨-, hu⟩
    · obtain rfl := Option.some.inj hm
      exact absurd hr (not_reads (by simp))
    · exact h.seen u m hu hr
  rows u rows hu := by
    rcases update_cases hu with ⟨-, hm⟩ | ⟨-, hu⟩
    · cases hm
    · exact h.rows u rows hu

/-- Nothing else has read when a reload swaps the view. -/
lemma Inv.swap (h : Inv st L) {rows : List PinRow} {v : PinView}
    (hl : L t = some (.got (some rows))) (hv : usable rows = some v) :
    Inv { st with view := v, shown := st.seen t } (Function.update L t (some .swapped)) where
  lt := (h.seen t _ hl (.inr ⟨rows, rfl⟩)).2
  view := by
    rw [← h.rows t rows hl]
    exact (Option.filter_eq_some_iff.1 hv).1
  holds u m hu := by
    rcases update_cases hu with ⟨rfl, hm⟩ | ⟨-, hu⟩
    · obtain rfl := Option.some.inj hm
      simp [h.lock_of hl (by simp)]
    · exact h.holds u m hu
  owner u hu := by
    by_cases hut : u = t
    · rw [hut, Function.update_self]
      simp
    · rw [Function.update_of_ne hut]
      exact h.owner u hu
  seen u m hu hr := by
    rcases update_cases hu with ⟨rfl, hm⟩ | ⟨hut, hu⟩
    · obtain rfl := Option.some.inj hm
      exact absurd hr (not_reads (by simp))
    · have hm : m ≠ .out := by
        rintro rfl
        exact not_reads (by simp) hr
      have hlock := (h.lock_of hu hm).symm.trans (h.lock_of hl (by simp))
      exact absurd (Option.some.inj hlock) hut
  rows u rows hu := by
    rcases update_cases hu with ⟨-, hm⟩ | ⟨-, hu⟩
    · cases hm
    · exact h.rows u rows hu

lemma reply_ok {α : Type} {env : ℕ} {a b : α} (h : reply env a = .ok b) : b = a := by
  unfold reply at h
  split at h <;> cases h
  rfl

/-- What one operation of a reload does. -/
structure Step (st st' : Store) (l' : Phase) : Prop where
  shown : st.shown ≤ st'.shown
  history : st'.history = st.history
  view : st'.view = st.view ∨ l' = .swapped

lemma Step.of_eq {st' : Store} (hs : st'.shown = st.shown) (hh : st'.history = st.history)
    (hv : st'.view = st.view) : Step st st' l' :=
  ⟨Nat.le_of_eq hs.symm, hh, .inl hv⟩

theorem Inv.op (h : Inv st L) (hl : L t = some l) {o : Op} {env : ℕ} {r : o.Answer} {st' : Store}
    (hm : may l o) (he : exec st t env o = some (r, st')) :
    Inv st' (Function.update L t (some (after l o r))) ∧ Step st st' (after l o r) := by
  cases o with
  | acquire =>
    obtain rfl : l = .out := hm
    simp only [exec] at he
    split at he
    · split at he
      · rename_i hfree
        cases he
        exact ⟨h.acquire hfree, .of_eq rfl rfl rfl⟩
      · cases he
    · cases he
      exact ⟨h.stay hl Iff.rfl id (by simp [after]), .of_eq rfl rfl rfl⟩
  | connect =>
    obtain rfl : l = .held := hm
    cases he
    refine ⟨?_, .of_eq rfl rfl rfl⟩
    cases hr : reply env () with
    | ok _ => exact h.stay hl Iff.rfl id (by simp [after])
    | raised e =>
      exact h.stay hl (by simp [after]) (fun hr => absurd hr (not_reads (by simp [after])))
        (by simp [after])
  | send =>
    obtain rfl : l = .held := hm
    cases he
    refine ⟨?_, .of_eq rfl rfl rfl⟩
    have hlt := h.lt
    cases hr : reply env () with
    | ok _ =>
      exact h.step hl (by simp [after]) _ (fun _ => by omega) (by simp [after])
    | raised e =>
      exact h.step hl (by simp [after]) _ (fun _ => by omega) (by simp [after])
  | receive =>
    obtain rfl : l = .asked := hm
    cases he
    refine ⟨?_, .of_eq rfl rfl rfl⟩
    cases hr : reply env (st.history.getD (st.seen t) []) with
    | ok rows =>
      refine h.stay hl (by simp [after]) (fun _ => .inl rfl) fun rows' hrows => ?_
      have heq : rows' = rows := by
        have hrows : Phase.got (some rows) = .got (some rows') := hrows
        cases hrows
        rfl
      rw [heq, reply_ok hr]
    | raised e =>
      exact h.stay hl (by simp [after]) (fun _ => .inl rfl) (by simp [after])
  | oldHyde =>
    cases he
    refine ⟨h.stay hl Iff.rfl id fun rows hrows => ?_, .of_eq rfl rfl rfl⟩
    obtain rfl : l = .got (some rows) := hrows
    exact h.rows t rows hl
  | swap v =>
    obtain ⟨rows, rfl, hv⟩ := hm
    cases he
    exact ⟨h.swap hl hv, (h.seen t _ hl (.inr ⟨rows, rfl⟩)).1, rfl, .inr rfl⟩
  | clearHydeCache =>
    obtain rfl : l = .swapped := hm
    cases he
    have h' : Inv { st with hyde_cache := [] } L := ⟨⟨h.lt, h.view⟩, h.holds, h.owner, h.seen, h.rows⟩
    exact ⟨h'.stay hl Iff.rfl id (by simp [after]), .of_eq rfl rfl rfl⟩
  | release =>
    cases he
    exact ⟨h.release hl hm, .of_eq rfl rfl rfl⟩

/-- A commit does not touch what has been read. -/
lemma Inv.commit (h : Inv st L) (rows : List PinRow) :
    Inv { st with history := st.history ++ [rows] } L where
  lt := by
    have hlt := h.lt
    simp
    omega
  view := by
    simpa [List.getElem?_append_left h.lt] using h.view
  holds := h.holds
  owner := h.owner
  seen u m hu hr := by
    have hlt := (h.seen u m hu hr)
    simp
    omega
  rows u rows' hu := by
    have hlt := (h.seen u _ hu (.inr ⟨rows', rfl⟩)).2
    simpa [List.getElem?_append_left hlt] using h.rows u rows' hu

lemma ne_out_of_swapped {o : Op} {r : o.Answer} (hm : may l o) (h : after l o r = .swapped) :
    l ≠ .out := by
  rintro rfl
  cases o with
  | acquire => cases r <;> cases h
  | connect => cases hm
  | send => cases hm
  | receive => cases hm
  | oldHyde =>
    obtain ⟨rows, v, hm, -⟩ := hm
    cases hm
  | swap v =>
    obtain ⟨rows, hm, -⟩ := hm
    cases hm
  | clearHydeCache => cases hm
  | release => exact hm rfl

lemma after_swapped {o : Op} {r : o.Answer} (hm : may .swapped o) :
    after .swapped o r = .swapped ∨ after .swapped o r = .out := by
  cases o with
  | acquire => cases hm
  | connect => cases hm
  | send => cases hm
  | receive => cases hm
  | oldHyde =>
    obtain ⟨rows, v, hm, -⟩ := hm
    cases hm
  | swap v =>
    obtain ⟨rows, hm, -⟩ := hm
    cases hm
  | clearHydeCache => exact .inl rfl
  | release => exact .inr rfl

end Inv

/-! ### Runs -/

/-- The process lives. -/
def Live (_ : St) (l : Label machine) : Prop := ∀ p, l ≠ .kill p

/-- The view goes forward through the states of the table. -/
theorem kept_forward (n : ℕ) (h₀ : List (List PinRow)) : Kept (M := machine) (D := discipline) Live
    (· = .out) fun st L => Inv st L ∧ n ≤ st.shown ∧ h₀ <+: st.history where
  main s t e _ := wp_reload e
  start s t e _ hI hn := ⟨hI.1.start hn, hI.2⟩
  op s t env o l r st _ ho hl hm hI he := by
    obtain ⟨h, hstep⟩ := hI.1.op hl hm he
    exact ⟨trivial, h, Nat.le_trans hI.2.1 hstep.shown, hstep.history ▸ hI.2.2⟩
  stop s t env l _ hl hE hI := ⟨hI.1.stop (hE ▸ hl), hI.2⟩
  kill s p hC := absurd rfl (hC p)
  own s x st _ hI he := by
    cases he
    exact ⟨hI.1.commit x, hI.2.1, hI.2.2.trans (List.prefix_append _ _)⟩

/-- While a reload holds the lock, the view stays as it is until it swaps it. -/
theorem kept_held (t : Tid) (v : PinView) : Kept (M := machine) (D := discipline)
    (fun s l => Live s l ∧ s.store.lock = some t) (· = .out) fun st L => Inv st L ∧
      ∀ l, L t = some l → l ≠ .out → l ≠ .swapped → st.view = v where
  main s t e _ := wp_reload e
  start s u e hC hI hn := by
    have hut : t ≠ u := by
      rintro rfl
      exact hI.1.owner t hC.2 hn
    exact ⟨hI.1.start hn, fun l hl => hI.2 l (by rwa [Function.update_of_ne hut] at hl)⟩
  op s u env o l r st hC ho hl hm hI he := by
    obtain ⟨h, hstep⟩ := hI.1.op hl hm he
    refine ⟨trivial, h, fun m hm' hout hswap => ?_⟩
    by_cases hut : u = t
    · -- the reload itself: it has not swapped the view, as it still has to
      subst hut
      rw [Function.update_self] at hm'
      obtain rfl := Option.some.inj hm'
      have hview := hstep.view.resolve_right hswap
      rw [hview]
      refine hI.2 l hl ((hI.1.holds u l hl).2 hC.2) ?_
      rintro rfl
      rcases after_swapped (r := r) hm with h | h
      · exact hswap h
      · exact hout h
    · rw [Function.update_of_ne (Ne.symm hut)] at hm'
      have hview : st.view = s.store.view := by
        refine hstep.view.resolve_right fun hr => ?_
        have hlock := hI.1.lock_of hl (ne_out_of_swapped hm hr)
        exact hut (Option.some.inj (hlock.symm.trans hC.2))
      rw [hview]
      exact hI.2 m hm' hout hswap
  stop s u env l hC hl hE hI := by
    refine ⟨hI.1.stop (hE ▸ hl), fun m hm => ?_⟩
    rcases update_cases hm with ⟨-, hm⟩ | ⟨-, hm⟩
    · cases hm
    · exact hI.2 m hm
  kill s p hC := absurd rfl (hC.1 p)
  own s x st hC hI he := by
    cases he
    exact ⟨hI.1.commit x, hI.2⟩

/-- The read of the reload failed, or what it read cannot be shown. -/
def ReadFailed (s : St) (t : Tid) : Prop :=
  ∃ read, s.records t = some (.got read) ∧ ∀ rows, read = some rows → usable rows = none

/-- A reload whose read failed gives the lock back next. -/
lemma release_of_failed {s s' : St} {t : Tid} {env : ℕ} 
    (hd : Machine.Disciplined (fun l : Phase => l = .out) s)
    (hf : ReadFailed s t) (hs : s.step (.run t env) = some s') :
    s'.store = { s.store with lock := none } := by
  obtain ⟨read, hread, hfailed⟩ := hf
  rcases Kept.step_run hs hd with ⟨hnone, -⟩ | ⟨o, l, r, -, hl, hm, he⟩
  · obtain ⟨k, hk, hrec⟩ := Option.map_eq_some_iff.1 hread
    have hw := hd k (Keyed.mem_of_get? hk)
    cases hp : k.prog with
    | ret a =>
      rw [hp] at hw
      cases hw.symm.trans hrec
    | raise e =>
      rw [hp] at hw
      cases hw.symm.trans hrec
    | op o c => simp [State.nextOp, hk, hp] at hnone
  · obtain rfl : .got read = l := Option.some.inj (hread.symm.trans hl)
    have hno : ∀ rows v, Phase.got read = .got (some rows) → usable rows ≠ some v := by
      rintro rows v hrows hu
      cases hrows
      cases (hfailed rows rfl).symm.trans hu
    cases o with
    | acquire => cases hm
    | connect => cases hm
    | send => cases hm
    | receive => cases hm
    | oldHyde =>
      obtain ⟨rows, v, hm, hu⟩ := hm
      exact absurd hu (hno rows v hm)
    | swap v =>
      obtain ⟨rows, hm, hu⟩ := hm
      exact absurd hu (hno rows v hm)
    | clearHydeCache => cases hm
    | release => exact (congrArg Prod.snd (Option.some.inj he)).symm

/-- In every run the view goes forward through the states of the table, and is always the one of a
state that the table had. From where a reload has the lock to where its read has failed the view
stays as it is, and then the reload ends. -/
theorem view_forward {st : Store} (hst : st.Loaded) {s : St} (hs : Run Live (initial st) s) :
    (∀ s', Run Live s s' → s'.store.Shows ∧ s.store.history <+: s'.store.history ∧
      s.store.shown ≤ s'.store.shown) ∧
    ∀ t s', s.records t = some .held → Run (fun s l => Live s l ∧ s.store.lock = some t) s s' →
      ReadFailed s' t → s'.store.view = s.store.view ∧ ∀ env s'', s'.step (.run t env) = some s'' →
        s''.store.view = s.store.view ∧ s''.store.lock = none := by
  have hinit : Inv st fun _ => none :=
    ⟨hst.toShows, by simp, by simp [hst.lock], by simp, by simp⟩
  obtain ⟨⟨hinv, -⟩, hd⟩ := (kept_forward 0 []).run_initial hs ⟨hinit, Nat.zero_le _, by simp⟩
  constructor
  · intro s' hr
    obtain ⟨⟨h, hshown, hhist⟩, -⟩ := (kept_forward s.store.shown s.store.history).run hr
      ⟨hinv, Nat.le_refl _, List.prefix_refl _⟩ hd
    exact ⟨h.toShows, hhist, hshown⟩
  · rintro t s' ht hr ⟨read, hread, hfailed⟩
    obtain ⟨⟨h, hview⟩, hd'⟩ := (kept_held t s.store.view).run hr
      ⟨hinv, fun _ _ _ _ => rfl⟩ hd
    have hview := hview _ hread (by simp) (by simp)
    refine ⟨hview, fun env s'' hs'' => ?_⟩
    rw [release_of_failed hd' ⟨read, hread, hfailed⟩ hs'']
    exact ⟨hview, rfl⟩

/-! A reload reads, the table changes, the reload shows what it read; the next one fails to read. -/

def pins (version : ℕ) : List PinRow :=
  [⟨"chunk_summary", "deployment", 3⟩, ⟨"hyde", "deployment", 1⟩, ⟨"chunk_summary", "s", version⟩]

def seeded : Store :=
  { history := [pins 3], view := (buildView (pins 3)).getD ⟨fun _ => none, fun _ => none⟩,
    shown := 0, seen := fun _ => 0, lock := none, hyde_cache := [] }

lemma seeded_loaded : seeded.Loaded := ⟨⟨by decide, rfl⟩, rfl⟩

def live : St → Label machine → Bool
  | _, .kill _ => false
  | _, _ => true

lemma live_of (s : St) (l : Label machine) (h : live s l = true) : Live s l := by
  rintro p rfl
  cases h

def first : Tid := ⟨0, 0⟩

def second : Tid := ⟨0, 1⟩

def beforeLock : List (Label machine) :=
  [.start first true, .start second true, .run first 0, .own (pins 3), .run first 0, .run first 0,
    .own (pins 3), .run first 0, .run first 0, .run first 0, .run first 0, .run first 0,
    .run second 0]

def locked : Option St := (initial seeded : St).runChecked live beforeLock

def failed : Option St := locked.bind fun s => s.step (.run second 1)

theorem view_forward_twice : ∃ s s' : St, locked = some s ∧ failed = some s' ∧
    s'.store.view = s.store.view ∧ s.store.shown = 1 ∧ s.store.shown ≤ s'.store.shown := by
  have hlocked : locked.isSome = true := rfl
  obtain ⟨s, hs⟩ := Option.isSome_iff_exists.1 hlocked
  have hfailed : failed.isSome = true := rfl
  obtain ⟨s', hs'⟩ := Option.isSome_iff_exists.1 hfailed
  have hstep : s.step (.run second 1) = some s' := by
    rw [failed, hs] at hs'
    exact hs'
  have hheld : s.records second = some .held := by
    have h : locked.bind (fun s => s.records second) = some .held := rfl
    rwa [hs] at h
  have hlock : s.store.lock = some second := by
    have h : locked.bind (fun s => s.store.lock) = some second := rfl
    rwa [hs] at h
  have hshown : s.store.shown = 1 := by
    have h : locked.map (fun s => s.store.shown) = some 1 := rfl
    rw [hs] at h
    exact Option.some.inj h
  have hread : ReadFailed s' second := by
    have h : failed.bind (fun s => s.records second) = some (.got none) := rfl
    rw [hs'] at h
    exact ⟨none, h, by simp⟩
  have hlive : ∀ p, (.run second 1 : Label machine) ≠ .kill p := fun p => by simp
  obtain ⟨hforward, hkept⟩ := view_forward seeded_loaded (Machine.run_of_runChecked live_of hs)
  refine ⟨s, s', hs, hs', (hkept second s' hheld ?_ hread).1, hshown, (hforward s' ?_).2.2⟩
  · exact .tail (.refl s) ⟨hlive, hlock⟩ hstep
  · exact .tail (.refl s) hlive hstep

end Treeweft.PromptPins
