import Treeweft.Mutex
import Treeweft.SlidingWindow
import Mathlib.Data.List.Perm.Subperm
import Mathlib.Algebra.Group.Int.Defs

/-!
The login attempts on one username.

An attempt counts the ones before it and records itself in one transaction, behind a lock on the
username. It is recorded only if neither limit is reached, and only then goes on to the password.
Its time is the one at which its transaction began; it asked for the window before that, and
reaches the password after it.
-/

namespace Treeweft.LoginThrottle

open Machine (State Label Run Kept initial)
open Mutex (Held)
open SlidingWindow (recent recent_anti recent_eq_zero Limited)

/-! ### The limits -/

structure Config where
  window_seconds : ℤ
  max_attempts : ℤ
  max_per_username : ℤ
  retention_seconds : ℤ

/-- The window in microseconds, the unit of all times. -/
def Config.window (cfg : Config) : ℕ := 1000000 * cfg.window_seconds.toNat

def Config.retention (cfg : Config) : ℕ := 1000000 * cfg.retention_seconds.toNat

/-- A limit that is not positive never locks. -/
def isLocked (failure_count : ℕ) (max_attempts : ℤ) : Bool :=
  if max_attempts ≤ 0 then false else (failure_count : ℤ) ≥ max_attempts

def retryAfterSeconds (failure_count : ℕ) (window_seconds max_attempts : ℤ) : ℤ :=
  if window_seconds ≤ 0 then 1
  else if max_attempts ≤ 0 then window_seconds
  else
    let base := max (window_seconds / max_attempts) 1
    let beyond := ((failure_count : ℤ) - max_attempts).toNat
    max 1 (min (base * 2 ^ beyond) window_seconds)

def Config.locked (cfg : Config) (per_ip per_username : ℕ) : Bool :=
  isLocked per_ip cfg.max_attempts || isLocked per_username cfg.max_per_username

/-! ### An attempt -/

inductive Exc
  | contention
  | other
  deriving DecidableEq, Repr

inductive Reply (α : Type)
  | ok (a : α)
  | raised (e : Exc)

inductive Op
  | getPool
  | now
  | begin
  | lock
  | countIp (ip : String) (asked : ℕ)
  | countUsername (asked : ℕ)
  | insert (ip : String)
  | commit
  | rollback
  /-- `get_by_username`. -/
  | lookup
  /-- `verify_password`, of the user's hash or of the dummy. -/
  | verify
  | refuse (retry_after : ℤ)

def Op.Answer : Op → Type
  | .getPool => Reply Unit
  | .now => ℕ
  | .begin => Reply Unit
  | .lock => Reply Unit
  | .countIp .. => Reply ℕ
  | .countUsername _ => Reply ℕ
  | .insert _ => Reply Unit
  | .commit => Reply Unit
  | .rollback => Unit
  | .lookup => Reply Unit
  | .verify => Unit
  | .refuse _ => Unit

abbrev signature : Signature := ⟨Op, Op.Answer⟩

abbrev P := Prog signature Exc

def Reply.get {α : Type} : Reply α → P α
  | .ok a => .ret a
  | .raised e => .raise e

/-- `async with conn.transaction()`. -/
def transaction {α : Type} (body : P α) : P α :=
  Prog.transact (.op .commit fun (r : Reply Unit) => r.get) (.op .rollback fun _ => .ret ()) body

/-- What is done under the lock, for a window that begins `cfg.window` before `asked`. -/
def countAndRecord (cfg : Config) (ip : String) (asked : ℕ) : P (ℕ × ℕ) :=
  .op .lock fun (r : Reply Unit) => r.get.bind fun _ =>
    .op (.countIp ip asked) fun (r : Reply ℕ) => r.get.bind fun per_ip =>
      .op (.countUsername asked) fun (r : Reply ℕ) => r.get.bind fun per_username =>
        if cfg.locked per_ip per_username then .ret (per_ip, per_username)
        else .op (.insert ip) fun (r : Reply Unit) => r.get.bind fun _ =>
          .ret (per_ip, per_username)

def atomicRecordAndCount (cfg : Config) (ip : String) : P (ℕ × ℕ) :=
  .op .getPool fun (r : Reply Unit) => r.get.bind fun _ =>
    .op .now fun (asked : ℕ) =>
      .op .begin fun (r : Reply Unit) => r.get.bind fun _ =>
        transaction (countAndRecord cfg ip asked)

/-- `auth_login`, for an attempt that does not succeed. -/
def authLogin (cfg : Config) (ip : String) : P Unit :=
  (Prog.catching ((atomicRecordAndCount cfg ip).bind fun counts => .ret (some counts)) fun e =>
    match e with
    | .contention => .op (.refuse cfg.window_seconds) fun _ => .ret none
    | .other => .raise .other).bind fun counts =>
  match counts with
  | none => .ret ()
  | some (failures, username_failures) =>
    if cfg.locked failures username_failures then
      .op (.refuse (max (retryAfterSeconds failures cfg.window_seconds cfg.max_attempts)
        (retryAfterSeconds username_failures cfg.window_seconds cfg.max_per_username))) fun _ =>
        .ret ()
    else .op .lookup fun (r : Reply Unit) => r.get.bind fun _ => .op .verify fun _ => .ret ()

/-! ### The table -/

/-- A row that an attempt inserted. -/
structure Row where
  client_ip : String
  attempted_at : ℕ
  owner : Tid
  deriving DecidableEq, Repr

/-- The rows now and all there ever were; which of those have reached the password, and when. Of an
attempt in progress: when its transaction began, its row before the commit, and the number of its
row after. -/
structure Store where
  clock : ℕ
  table : List Row
  recorded : List Row
  reached : List ℕ
  reachedAt : List ℕ
  lock : Option Tid
  began : Tid → ℕ
  pending : Tid → Option Row
  mine : Tid → ℕ

def reply {α : Type} (env : ℕ) (a : α) : Reply α := if env = 0 then .ok a else .raised .other

def Store.flush (st : Store) (t : Tid) : Store :=
  { st with
    table := st.table ++ (st.pending t).toList
    recorded := st.recorded ++ (st.pending t).toList
    mine := Function.update st.mine t st.recorded.length }

def Store.unlock (st : Store) (t : Tid) : Store :=
  { st with lock := if st.lock = some t then none else st.lock
            pending := Function.update st.pending t none }

def ofIp (ip : String) (row : Row) : Bool := row.client_ip = ip

def anyIp (_ : Row) : Bool := true

def exec (cfg : Config) (st : Store) (t : Tid) (env : ℕ) : (o : Op) → Option (o.Answer × Store)
  | .getPool => some (reply env (), st)
  | .now => some (st.clock, st)
  | .begin => some (reply env (), { st with
      began := Function.update st.began t st.clock
      pending := Function.update st.pending t none })
  | .lock =>
    match env with
    | 0 => if st.lock = none then some (Reply.ok (), { st with lock := some t }) else none
    | 1 => some (Reply.raised .contention, st)
    | _ => some (Reply.raised .other, st)
  | .countIp ip asked =>
    some (reply env (recent Row.attempted_at cfg.window (ofIp ip) asked st.table), st)
  | .countUsername asked =>
    some (reply env (recent Row.attempted_at cfg.window anyIp asked st.table), st)
  | .insert ip => some (reply env (),
      if env = 0 then
        { st with pending := Function.update st.pending t (some ⟨ip, st.began t, t⟩) }
      else st)
  | .commit =>
    -- the answer to a commit may be lost, whether it was made or not
    some (reply env (), (if env = 1 then st else st.flush t).unlock t)
  | .rollback => some ((), st.unlock t)
  | .lookup => some (reply env (), st)
  | .verify => some ((), { st with
      reached := st.mine t :: st.reached
      reachedAt := st.clock :: st.reachedAt })
  | .refuse _ => some ((), st)

/-- The clock goes on, or a purge deletes the rows older than its retention. -/
inductive Own
  | tick (microseconds : ℕ)
  | purge

def machine (cfg : Config) : Machine signature Exc where
  Store := Store
  exec := exec cfg
  Entry := String
  main := authLogin cfg
  kill p st := { st with lock := st.lock.filter fun t => t.proc ≠ p }
  Own := Own
  own st
    | .tick n => some { st with clock := st.clock + n }
    | .purge => some { st with
        table := st.table.filter fun row => st.clock ≤ row.attempted_at + cfg.retention }

/-! ### Where an attempt is -/

inductive Phase
  | outside
  | cut (asked : ℕ)
  | begun (asked : ℕ)
  | locked (asked : ℕ)
  | half (asked : ℕ) (ip : String) (per_ip : ℕ)
  | counted (asked : ℕ) (ip : String) (per_ip per_username : ℕ)
  | inserted (asked : ℕ) (ip : String) (per_ip per_username : ℕ)
  | admitted
  | ended

/-- It has the lock. -/
def Phase.holds : Phase → Bool
  | .locked _ | .half .. | .counted .. | .inserted .. => true
  | _ => false

/-- Its transaction has begun and it has not counted yet. -/
def Phase.counting : Phase → Bool
  | .begun _ | .locked _ | .half .. => true
  | _ => false

def may (cfg : Config) (l : Phase) : Op → Prop
  | .getPool => l = .outside
  | .now => l = .outside
  | .begin => ∃ asked, l = .cut asked
  | .lock => ∃ asked, l = .begun asked
  | .countIp _ asked => l = .locked asked
  | .countUsername asked => ∃ ip a, l = .half asked ip a
  | .insert ip => ∃ asked a b, l = .counted asked ip a b ∧ cfg.locked a b = false
  | .commit => ∃ asked ip a b,
      (l = .counted asked ip a b ∧ cfg.locked a b = true) ∨ l = .inserted asked ip a b
  | .rollback => l.holds = true ∨ ∃ asked, l = .begun asked
  | .lookup => l = .admitted
  | .verify => l = .admitted
  | .refuse _ => l = .ended

def after (l : Phase) : (o : Op) → o.Answer → Phase
  | .getPool, .ok _ => l
  | .getPool, .raised _ => .ended
  | .now, asked => .cut asked
  | .begin, .ok _ =>
    match l with
    | .cut asked => .begun asked
    | _ => l
  | .begin, .raised _ => .ended
  | .lock, .ok _ =>
    match l with
    | .begun asked => .locked asked
    | _ => l
  | .lock, .raised _ => l
  | .countIp ip asked, .ok a => .half asked ip a
  | .countIp .., .raised _ => l
  | .countUsername asked, .ok b =>
    match l with
    | .half _ ip a => .counted asked ip a b
    | _ => l
  | .countUsername _, .raised _ => l
  | .insert _, .ok _ =>
    match l with
    | .counted asked ip a b => .inserted asked ip a b
    | _ => l
  | .insert _, .raised _ => l
  | .commit, .ok _ =>
    match l with
    | .inserted .. => .admitted
    | _ => .ended
  | .commit, .raised _ => .ended
  | .rollback, _ => .ended
  | .lookup, .ok _ => l
  | .lookup, .raised _ => .ended
  | .verify, _ => .ended
  | .refuse _, _ => .ended

abbrev discipline (cfg : Config) : Discipline signature where
  Local := Phase
  init := .outside
  may := may cfg
  admits _ _ _ := True
  after := after

abbrev St (cfg : Config) := State (machine cfg) (discipline cfg)

/-- The counts that the attempt goes on with, and whether it has recorded itself. -/
def Counted (cfg : Config) (asked : ℕ) (ip : String) (counts : ℕ × ℕ) (l : Phase) : Prop :=
  (l = .counted asked ip counts.1 counts.2 ∧ cfg.locked counts.1 counts.2 = true) ∨
    (l = .inserted asked ip counts.1 counts.2 ∧ cfg.locked counts.1 counts.2 = false)

def MayRollBack (l : Phase) : Prop := l.holds = true ∨ ∃ asked, l = .begun asked

lemma wp_countAndRecord (cfg : Config) (ip : String) (asked : ℕ) :
    (discipline cfg).wp (countAndRecord cfg ip asked) (Counted cfg asked ip)
      (fun _ l => MayRollBack l) (.begun asked) := by
  refine ⟨⟨asked, rfl⟩, fun (r : Reply Unit) _ => ?_⟩
  cases r with
  | raised e => exact .inr ⟨asked, rfl⟩
  | ok _ =>
    refine ⟨rfl, fun (r : Reply ℕ) _ => ?_⟩
    cases r with
    | raised e => exact .inl rfl
    | ok a =>
      refine ⟨⟨ip, a, rfl⟩, fun (r : Reply ℕ) _ => ?_⟩
      cases r with
      | raised e => exact .inl rfl
      | ok b =>
        change (discipline cfg).wp (if cfg.locked a b then .ret (a, b)
          else .op (.insert ip) fun (r : Reply Unit) => r.get.bind fun _ => .ret (a, b)) _ _
          (.counted asked ip a b)
        cases hl : cfg.locked a b with
        | true => exact .inl ⟨rfl, hl⟩
        | false =>
          refine ⟨⟨asked, a, b, rfl, hl⟩, fun (r : Reply Unit) _ => ?_⟩
          cases r with
          | raised e => exact .inl rfl
          | ok _ => exact .inr ⟨rfl, hl⟩

/-- An attempt that is not locked out has recorded itself. -/
def Settled (cfg : Config) (counts : ℕ × ℕ) (l : Phase) : Prop :=
  if cfg.locked counts.1 counts.2 then l = .ended else l = .admitted

lemma wp_transaction (cfg : Config) (ip : String) (asked : ℕ) :
    (discipline cfg).wp (transaction (countAndRecord cfg ip asked)) (Settled cfg)
      (fun _ l => l = .ended) (.begun asked) := by
  unfold transaction
  rw [Discipline.wp_transact]
  refine Discipline.wp_mono (fun counts l hl => ?_) (fun e l hl => ?_)
    (wp_countAndRecord cfg ip asked)
  · refine ⟨⟨asked, ip, counts.1, counts.2, hl.imp id And.left⟩, fun (r : Reply Unit) _ => ?_⟩
    cases r with
    | raised e => rfl
    | ok _ =>
      rcases hl with ⟨rfl, hlock⟩ | ⟨rfl, hlock⟩
      · change Settled cfg counts .ended
        simp [Settled, hlock]
      · change Settled cfg counts .admitted
        simp [Settled, hlock]
  · exact ⟨hl, fun _ _ => rfl⟩

lemma wp_authLogin (cfg : Config) (ip : String) :
    (discipline cfg).wp (authLogin cfg ip) (fun _ l => l = .ended) (fun _ l => l = .ended)
      .outside := by
  have hrecord : (discipline cfg).wp (atomicRecordAndCount cfg ip) (Settled cfg)
      (fun _ l => l = .ended) .outside := by
    refine ⟨rfl, fun (r : Reply Unit) _ => ?_⟩
    cases r with
    | raised e => rfl
    | ok _ =>
      refine ⟨rfl, fun (asked : ℕ) _ => ⟨⟨asked, rfl⟩, fun (r : Reply Unit) _ => ?_⟩⟩
      cases r with
      | raised e => rfl
      | ok _ => exact wp_transaction cfg ip asked
  unfold authLogin
  rw [Discipline.wp_bind', Discipline.wp_catching, Discipline.wp_bind']
  refine Discipline.wp_mono (fun counts l hl => ?_) (fun e l hl => ?_) hrecord
  · change (discipline cfg).wp (if cfg.locked counts.1 counts.2 then _ else _) _ _ l
    unfold Settled at hl
    split at hl
    · rename_i hlock
      rw [if_pos hlock]
      exact ⟨hl, fun _ _ => rfl⟩
    · rename_i hlock
      rw [if_neg hlock]
      subst hl
      refine ⟨rfl, fun (r : Reply Unit) _ => ?_⟩
      cases r with
      | raised e => rfl
      | ok _ => exact ⟨rfl, fun _ _ => rfl⟩
  · cases e with
    | contention => exact ⟨hl, fun _ _ => rfl⟩
    | other => exact hl

/-! ### What an attempt knows -/

section Know
variable (cfg : Config)

/-- The rows in the window that ends at `c` are all there. -/
def Store.Intact (st : Store) (c : ℕ) : Prop :=
  st.table.filter (fun row => c ≤ row.attempted_at + cfg.window) =
    st.recorded.filter fun row => c ≤ row.attempted_at + cfg.window

def countOf (p : Row → Bool) (c : ℕ) (st : Store) : ℕ :=
  recent Row.attempted_at cfg.window p c st.recorded

/-- A count of one that asked at `c`, which misses nothing since `began`. -/
def Between (st : Store) (p : Row → Bool) (c began n : ℕ) : Prop :=
  countOf cfg p began st ≤ n ∧ n ≤ countOf cfg p c st

/-- What is the case where an attempt is. -/
def At (st : Store) (t : Tid) : Phase → Prop
  | .outside => True
  | .cut c => c ≤ st.clock
  | .begun c => c ≤ st.began t ∧ st.pending t = none ∧ st.Intact cfg (st.began t)
  | .locked c => c ≤ st.began t ∧ st.pending t = none ∧ st.Intact cfg (st.began t)
  | .half c ip a => (c ≤ st.began t ∧ st.pending t = none ∧ st.Intact cfg (st.began t)) ∧
      Between cfg st (ofIp ip) c (st.began t) a
  | .counted c ip a b => st.pending t = none ∧
      Between cfg st (ofIp ip) c (st.began t) a ∧ Between cfg st anyIp c (st.began t) b
  | .inserted c ip a b => st.pending t = some ⟨ip, st.began t, t⟩ ∧ cfg.locked a b = false ∧
      Between cfg st (ofIp ip) c (st.began t) a ∧ Between cfg st anyIp c (st.began t) b
  | .admitted => (st.recorded[st.mine t]?).map Row.owner = some t ∧ st.mine t ∉ st.reached
  | .ended => True

/-- Each row was recorded below both limits, and is of one attempt that reaches the password. -/
structure Bounded (st : Store) : Prop where
  now : ∀ c, st.clock ≤ c → st.Intact cfg c
  subset : st.table.Sublist st.recorded
  perIp : 0 < cfg.max_attempts → ∀ ip,
    Limited Row.attempted_at cfg.window cfg.max_attempts.toNat (ofIp ip) st.recorded
  perUsername : 0 < cfg.max_per_username →
    Limited Row.attempted_at cfg.window cfg.max_per_username.toNat anyIp st.recorded
  nodup : st.reached.Nodup
  lt : ∀ i ∈ st.reached, i < st.recorded.length

structure Inv (st : Store) (L : Tid → Option Phase) : Prop extends Bounded cfg st where
  held : Held Phase.holds st.lock L
  at_ : ∀ t l, L t = some l → At cfg st t l

end Know

section Steps
variable {cfg : Config} {st st' : Store} {L : Tid → Option Phase} {t : Tid} {l l' : Phase}

lemma recent_table {p : Row → Bool} {c : ℕ} (h : st.Intact cfg c) :
    recent Row.attempted_at cfg.window p c st.table = countOf cfg p c st := by
  have hfilter : ∀ rows : List Row, recent Row.attempted_at cfg.window p c rows =
      (rows.filter fun row => c ≤ row.attempted_at + cfg.window).countP p := fun rows => by
    rw [recent, List.countP_filter]
  rw [countOf, hfilter, hfilter, h]

lemma between_table (h : Bounded cfg st) {p : Row → Bool} {c began : ℕ} (hle : c ≤ began)
    (hi : st.Intact cfg began) :
    Between cfg st p c began (recent Row.attempted_at cfg.window p c st.table) :=
  ⟨recent_table hi ▸ recent_anti hle, h.subset.countP_le⟩

/-- What an attempt knows does not depend on what the others do, short of a new row. -/
lemma At.frame (h : At cfg st t l) (hbegan : st'.began t = st.began t)
    (hpending : st'.pending t = st.pending t) (hmine : st'.mine t = st.mine t)
    (hclock : st.clock ≤ st'.clock)
    (hintact : l.counting = true → st.Intact cfg (st.began t) → st'.Intact cfg (st.began t))
    (hrecorded : st'.recorded = st.recorded) (hreached : st'.reached = st.reached) :
    At cfg st' t l := by
  have hcount : ∀ {p c n}, Between cfg st p c (st.began t) n →
      Between cfg st' p c (st.began t) n := by
    intro p c n hb
    rw [Between, countOf, countOf, hrecorded]
    exact hb
  cases l with
  | outside => trivial
  | cut c => exact le_trans h hclock
  | begun c =>
    obtain ⟨hb, hp, hi⟩ := h
    exact ⟨hbegan ▸ hb, hpending.trans hp, hbegan ▸ hintact rfl hi⟩
  | locked c =>
    obtain ⟨hb, hp, hi⟩ := h
    exact ⟨hbegan ▸ hb, hpending.trans hp, hbegan ▸ hintact rfl hi⟩
  | half c ip a =>
    obtain ⟨⟨hb, hp, hi⟩, hc⟩ := h
    exact ⟨⟨hbegan ▸ hb, hpending.trans hp, hbegan ▸ hintact rfl hi⟩, hbegan ▸ hcount hc⟩
  | counted c ip a b =>
    obtain ⟨hp, hc, hu⟩ := h
    exact ⟨hpending.trans hp, hbegan ▸ hcount hc, hbegan ▸ hcount hu⟩
  | inserted c ip a b =>
    obtain ⟨hp, hl, hc, hu⟩ := h
    exact ⟨by rw [hpending, hp, hbegan], hl, hbegan ▸ hcount hc, hbegan ▸ hcount hu⟩
  | admitted => exact ⟨by rw [hrecorded, hmine]; exact h.1, by rw [hreached, hmine]; exact h.2⟩
  | ended => trivial

lemma inv_put (hb : Bounded cfg st')
    (hheld : Held Phase.holds st'.lock (Function.update L t (some l'))) (hat : At cfg st' t l')
    (hothers : ∀ u m, u ≠ t → L u = some m → At cfg st' u m) :
    Inv cfg st' (Function.update L t (some l')) where
  toBounded := hb
  held := hheld
  at_ u m hu := by
    rcases update_cases hu with ⟨rfl, hm⟩ | ⟨hut, hu⟩
    · obtain rfl := Option.some.inj hm
      exact hat
    · exact hothers u m hut hu

/-- Only what the attempt keeps of itself has changed. -/
structure Quiet (st st' : Store) (t : Tid) : Prop where
  clock : st'.clock = st.clock
  table : st'.table = st.table
  recorded : st'.recorded = st.recorded
  reached : st'.reached = st.reached
  lock : st'.lock = st.lock
  mine : st'.mine = st.mine
  began : ∀ u, u ≠ t → st'.began u = st.began u
  pending : ∀ u, u ≠ t → st'.pending u = st.pending u

lemma Quiet.refl (st : Store) (t : Tid) : Quiet st st t :=
  ⟨rfl, rfl, rfl, rfl, rfl, rfl, fun _ _ => rfl, fun _ _ => rfl⟩

lemma Quiet.intact (hq : Quiet st st' t) (c : ℕ) : st'.Intact cfg c ↔ st.Intact cfg c := by
  rw [Store.Intact, Store.Intact, hq.table, hq.recorded]

lemma Quiet.bounded (hq : Quiet st st' t) (h : Bounded cfg st) : Bounded cfg st' where
  now c hc := (hq.intact c).2 (h.now c (hq.clock ▸ hc))
  subset := by
    rw [hq.table, hq.recorded]
    exact h.subset
  perIp := hq.recorded ▸ h.perIp
  perUsername := hq.recorded ▸ h.perUsername
  nodup := hq.reached ▸ h.nodup
  lt := by
    rw [hq.reached, hq.recorded]
    exact h.lt

lemma Quiet.at_ (hq : Quiet st st' t) {u : Tid} (hu : u ≠ t) {m : Phase} (h : At cfg st u m) :
    At cfg st' u m :=
  h.frame (hq.began u hu) (hq.pending u hu) (congrFun hq.mine u) (le_of_eq hq.clock.symm)
    (fun _ hi => (hq.intact _).2 hi) hq.recorded hq.reached

lemma Inv.quiet (h : Inv cfg st L) (hl : L t = some l) (hq : Quiet st st' t)
    (hholds : l'.holds = l.holds) (hat : At cfg st' t l') :
    Inv cfg st' (Function.update L t (some l')) :=
  inv_put (hq.bounded h.toBounded) (hq.lock ▸ h.held.keep hl hholds) hat fun u m hut hu =>
    hq.at_ hut (h.at_ u m hu)

/-- The same, with the store as it was. -/
lemma Inv.stay (h : Inv cfg st L) (hl : L t = some l) (hholds : l'.holds = l.holds)
    (hat : At cfg st t l') : Inv cfg st (Function.update L t (some l')) :=
  h.quiet hl (.refl st t) hholds hat

lemma intact_flush {c : ℕ} (h : st.Intact cfg c) (t : Tid) : (st.flush t).Intact cfg c := by
  have h : st.table.filter _ = st.recorded.filter _ := h
  simp only [Store.Intact, Store.flush, List.filter_append, h]

lemma lt_of_not_isLocked {n : ℕ} {m : ℤ} (h : isLocked n m = false) (hm : 0 < m) :
    n < m.toNat := by
  unfold isLocked at h
  rw [if_neg (not_le.2 hm)] at h
  have h : ¬ (n : ℤ) ≥ m := by simpa using h
  omega

/-- A row of an attempt that neither limit stops. -/
lemma bounded_flush (h : Bounded cfg st) {c a b : ℕ} {ip : String}
    (hat : At cfg st t (.inserted c ip a b)) : Bounded cfg (st.flush t) := by
  obtain ⟨hp, hlocked, ha, hb⟩ := hat
  obtain ⟨hip, huser⟩ := Bool.or_eq_false_iff.1 hlocked
  have hrec : (st.flush t).recorded = st.recorded ++ [⟨ip, st.began t, t⟩] := by
    simp [Store.flush, hp]
  refine ⟨fun c' hc => intact_flush (h.now c' hc) t, h.subset.append (List.Sublist.refl _),
    fun hpos ip' => ?_, fun hpos => ?_, h.nodup, fun i hi => ?_⟩
  · rw [hrec]
    refine (h.perIp hpos ip').append fun hip' => ?_
    obtain rfl : ip = ip' := by simpa [ofIp] using hip'
    exact ha.1.trans_lt (lt_of_not_isLocked hip hpos)
  · rw [hrec]
    exact (h.perUsername hpos).append fun _ => hb.1.trans_lt (lt_of_not_isLocked huser hpos)
  · rw [hrec, List.length_append]
    exact Nat.lt_add_right _ (h.lt i hi)

lemma bounded_flush_none (h : Bounded cfg st) (hp : st.pending t = none) :
    Bounded cfg (st.flush t) := by
  have hrec : (st.flush t).recorded = st.recorded := by simp [Store.flush, hp]
  exact ⟨fun c hc => intact_flush (h.now c hc) t, h.subset.append (List.Sublist.refl _),
    hrec ▸ h.perIp, hrec ▸ h.perUsername, h.nodup, hrec ▸ h.lt⟩

lemma Bounded.unlock (h : Bounded cfg st) : Bounded cfg (st.unlock t) :=
  ⟨h.now, h.subset, h.perIp, h.perUsername, h.nodup, h.lt⟩

lemma At.unlock {u : Tid} (hut : u ≠ t) (h : At cfg st u l) : At cfg (st.unlock t) u l :=
  h.frame rfl (Function.update_of_ne hut ..) rfl le_rfl (fun _ hi => hi) rfl rfl

/-- A new row is nothing to an attempt that has not counted. -/
lemma At.flush {u : Tid} (hut : u ≠ t) (hh : l.holds = false) (h : At cfg st u l) :
    At cfg (st.flush t) u l := by
  cases l with
  | outside => trivial
  | cut c => exact h
  | begun c => exact ⟨h.1, h.2.1, intact_flush h.2.2 t⟩
  | admitted =>
    have hmine : (st.flush t).mine u = st.mine u := Function.update_of_ne hut ..
    have hlt : st.mine u < st.recorded.length := by
      by_contra hge
      have hnone := h.1
      rw [List.getElem?_eq_none (Nat.le_of_not_lt hge)] at hnone
      cases hnone
    refine ⟨?_, by rw [hmine]; exact h.2⟩
    rw [hmine]
    simp only [Store.flush]
    rw [List.getElem?_append_left hlt]
    exact h.1
  | ended => trivial
  | locked c => cases hh
  | half c ip a => cases hh
  | counted c ip a b => cases hh
  | inserted c ip a b => cases hh

lemma Inv.rollback (h : Inv cfg st L) :
    Inv cfg (st.unlock t) (Function.update L t (some .ended)) :=
  inv_put h.toBounded.unlock (h.held.release rfl) trivial fun u m hut hu => (h.at_ u m hu).unlock hut

/-- The end of a transaction, which has the lock, with or without its row. -/
lemma Inv.commit (h : Inv cfg st L) (hl : L t = some l) (hh : l.holds = true)
    (hb : Bounded cfg (st.flush t)) (hout : l'.holds = false)
    (hat : At cfg ((st.flush t).unlock t) t l') :
    Inv cfg ((st.flush t).unlock t) (Function.update L t (some l')) :=
  inv_put hb.unlock (h.held.release hout) hat fun u m hut hu =>
    ((h.at_ u m hu).flush hut (h.held.exclusive hl hh hu hut)).unlock hut

lemma Inv.acquire (h : Inv cfg st L) {c : ℕ} (hl : L t = some (.begun c)) (hfree : st.lock = none) :
    Inv cfg { st with lock := some t } (Function.update L t (some (.locked c))) :=
  inv_put ⟨h.now, h.subset, h.perIp, h.perUsername, h.nodup, h.lt⟩ ((hfree ▸ h.held).acquire rfl)
    (h.at_ t _ hl) fun u m _ hu =>
      (h.at_ u m hu).frame rfl rfl rfl le_rfl (fun _ hi => hi) rfl rfl

lemma Inv.verify (h : Inv cfg st L) (hl : L t = some .admitted) :
    Inv cfg { st with
      reached := st.mine t :: st.reached
      reachedAt := st.clock :: st.reachedAt } (Function.update L t (some .ended)) := by
  obtain ⟨howner, hnew⟩ := h.at_ t _ hl
  have hlt : st.mine t < st.recorded.length := by
    by_contra hge
    rw [List.getElem?_eq_none (Nat.le_of_not_lt hge)] at howner
    cases howner
  refine inv_put ⟨h.now, h.subset, h.perIp, h.perUsername, List.nodup_cons.2 ⟨hnew, h.nodup⟩, ?_⟩
    (h.held.keep hl rfl) trivial fun u m hut hu => ?_
  · intro i hi
    rcases List.mem_cons.1 hi with rfl | hi
    · exact hlt
    · exact h.lt i hi
  · by_cases hm : m = .admitted
    · -- two attempts have rows of their own
      subst hm
      obtain ⟨howner', hnew'⟩ := h.at_ u _ hu
      refine ⟨howner', fun hmem => ?_⟩
      rcases List.mem_cons.1 hmem with heq | hmem
      · rw [show st.mine u = st.mine t from heq, howner] at howner'
        exact hut (Option.some.inj howner').symm
      · exact hnew' hmem
    · have hat := h.at_ u m hu
      cases m with
      | admitted => exact absurd rfl hm
      | _ => exact hat

/-- What the commit of an attempt leaves, which has counted or recorded itself. -/
lemma Inv.op_commit (h : Inv cfg st L) {c a b : ℕ} {ip : String} (hl : L t = some l)
    (hm : (l = .counted c ip a b ∧ cfg.locked a b = true) ∨ l = .inserted c ip a b)
    (env : ℕ) :
    Inv cfg ((if env = 1 then st else st.flush t).unlock t)
      (Function.update L t (some (after l .commit (reply env ())))) := by
  have hh : l.holds = true := by rcases hm with ⟨rfl, -⟩ | rfl <;> rfl
  have hat := h.at_ t l hl
  by_cases h1 : env = 1
  · subst h1
    exact h.rollback
  · rw [if_neg h1]
    rcases hm with ⟨rfl, -⟩ | rfl
    · have hafter : after (.counted c ip a b) .commit (reply env ()) = .ended := by
        cases reply env () <;> rfl
      rw [hafter]
      exact h.commit hl hh (bounded_flush_none h.toBounded hat.1) rfl trivial
    · have hb := bounded_flush h.toBounded hat
      cases hr : reply env () with
      | raised e => exact h.commit hl hh hb rfl trivial
      | ok _ =>
        refine h.commit hl hh hb rfl ⟨?_, fun hmem => ?_⟩
        · simp [Store.unlock, Store.flush, hat.1]
        · have hlt := h.lt _ hmem
          simp [Store.unlock, Store.flush] at hlt

theorem Inv.op (h : Inv cfg st L) (hl : L t = some l) {o : Op} {env : ℕ} {r : o.Answer}
    (hm : may cfg l o) (he : exec cfg st t env o = some (r, st')) :
    Inv cfg st' (Function.update L t (some (after l o r))) := by
  have hat := h.at_ t l hl
  cases o with
  | getPool =>
    obtain rfl : l = .outside := hm
    cases he
    cases reply env () with
    | ok _ => exact h.stay hl rfl trivial
    | raised e => exact h.stay hl rfl trivial
  | now =>
    obtain rfl : l = .outside := hm
    cases he
    exact h.stay hl rfl (le_refl st.clock)
  | begin =>
    obtain ⟨c, rfl⟩ := hm
    cases he
    have hq : Quiet st { st with
        began := Function.update st.began t st.clock
        pending := Function.update st.pending t none } t :=
      ⟨rfl, rfl, rfl, rfl, rfl, rfl, fun u hu => Function.update_of_ne hu ..,
        fun u hu => Function.update_of_ne hu ..⟩
    cases reply env () with
    | ok _ =>
      refine h.quiet hl hq rfl ⟨?_, Function.update_self .., ?_⟩
      · have hat : c ≤ st.clock := hat
        simpa using hat
      · rw [hq.intact]
        exact h.now _ (by simp)
    | raised e => exact h.quiet hl hq rfl trivial
  | lock =>
    obtain ⟨c, rfl⟩ := hm
    simp only [exec] at he
    split at he
    · split at he
      · rename_i hfree
        cases he
        exact h.acquire hl hfree
      · cases he
    · cases he
      exact h.stay hl rfl hat
    · cases he
      exact h.stay hl rfl hat
  | countIp ip c =>
    obtain rfl : l = .locked c := hm
    cases he
    cases hr : reply env (recent Row.attempted_at cfg.window (ofIp ip) c st.table) with
    | ok a =>
      refine h.stay hl rfl ⟨hat, ?_⟩
      unfold reply at hr
      split at hr <;> cases hr
      exact between_table h.toBounded hat.1 hat.2.2
    | raised e => exact h.stay hl rfl hat
  | countUsername c =>
    obtain ⟨ip, a, rfl⟩ := hm
    cases he
    cases hr : reply env (recent Row.attempted_at cfg.window anyIp c st.table) with
    | ok b =>
      refine h.stay hl rfl ⟨hat.1.2.1, hat.2, ?_⟩
      unfold reply at hr
      split at hr <;> cases hr
      exact between_table h.toBounded hat.1.1 hat.1.2.2
    | raised e => exact h.stay hl rfl hat
  | insert ip =>
    obtain ⟨c, a, b, rfl, hfree⟩ := hm
    cases he
    by_cases h0 : env = 0
    · simp only [reply, if_pos h0]
      exact h.quiet hl ⟨rfl, rfl, rfl, rfl, rfl, rfl, fun _ _ => rfl,
        fun u hu => Function.update_of_ne hu ..⟩ rfl ⟨Function.update_self .., hfree, hat.2⟩
    · simp only [reply, if_neg h0]
      exact h.stay hl rfl hat
  | commit =>
    obtain ⟨c, ip, a, b, hm⟩ := hm
    cases he
    exact h.op_commit hl hm env
  | rollback =>
    cases he
    exact h.rollback
  | lookup =>
    obtain rfl : l = .admitted := hm
    cases he
    cases reply env () with
    | ok _ => exact h.stay hl rfl hat
    | raised e => exact h.stay hl rfl trivial
  | verify =>
    obtain rfl : l = .admitted := hm
    cases he
    exact h.verify hl
  | refuse n =>
    obtain rfl : l = .ended := hm
    cases he
    exact h.stay hl rfl trivial

/-- Only an attempt that neither limit stops writes to the table. -/
lemma Inv.writes (h : Inv cfg st L) (hl : L t = some l) {o : Op} {env : ℕ} {r : o.Answer}
    (hm : may cfg l o) (he : exec cfg st t env o = some (r, st')) :
    (st'.recorded = st.recorded ∧ st'.table = st.table) ∨
      ∃ c ip a b, l = .inserted c ip a b ∧ cfg.locked a b = false := by
  have hat := h.at_ t l hl
  cases o with
  | commit =>
    obtain ⟨c, ip, a, b, ⟨rfl, -⟩ | rfl⟩ := hm
    · cases he
      have hp : st.pending t = none := hat.1
      by_cases h1 : env = 1
      · simp [h1, Store.unlock]
      · simp [h1, Store.unlock, Store.flush, hp]
    · exact .inr ⟨c, ip, a, b, rfl, hat.2.1⟩
  | lock =>
    left
    simp only [exec] at he
    split at he
    · split at he <;> cases he
      exact ⟨rfl, rfl⟩
    · cases he
      exact ⟨rfl, rfl⟩
    · cases he
      exact ⟨rfl, rfl⟩
  | insert ip =>
    left
    cases he
    split <;> exact ⟨rfl, rfl⟩
  | getPool | now | begin | countIp | countUsername | rollback | lookup | verify | refuse =>
    cases he
    exact .inl ⟨rfl, rfl⟩

end Steps

/-! ### Runs -/

section Runs
variable {cfg : Config}

/-- A purge does not reach into the window of a transaction that has not counted yet. -/
def Safe (cfg : Config) (s : St cfg) (l : Label (machine cfg)) : Prop :=
  l = .own .purge → cfg.window ≤ cfg.retention ∧ ∀ t m, s.records t = some m →
    m.counting = true → s.store.clock + cfg.window ≤ s.store.began t + cfg.retention

lemma intact_purge {st : Store} {c : ℕ} (h : st.Intact cfg c)
    (hc : st.clock + cfg.window ≤ c + cfg.retention) :
    Store.Intact cfg { st with
      table := st.table.filter fun row => st.clock ≤ row.attempted_at + cfg.retention } c := by
  have h : st.table.filter (fun row => c ≤ row.attempted_at + cfg.window) =
    st.recorded.filter fun row => c ≤ row.attempted_at + cfg.window := h
  unfold Store.Intact
  rw [List.filter_filter, ← h]
  refine List.filter_congr fun row _ => ?_
  simp only [Bool.and_eq_left_iff_imp, decide_eq_true_eq]
  omega

theorem kept (cfg : Config) : Kept (M := machine cfg) (D := discipline cfg) (Safe cfg) (· = .ended)
    (Inv cfg) where
  main s t ip _ := wp_authLogin cfg ip
  start s t ip _ hI hn := by
    exact inv_put hI.toBounded (hI.held.start hn rfl) trivial fun u m _ hu => hI.at_ u m hu
  op s t env o l r st _ ho hl hm hI he := ⟨trivial, hI.op hl hm he⟩
  stop s t env l _ hl hE hI := by
    subst hE
    refine ⟨hI.toBounded, hI.held.stop hl rfl, fun u m hu => ?_⟩
    rcases update_cases hu with ⟨-, hm⟩ | ⟨-, hu⟩
    · cases hm
    · exact hI.at_ u m hu
  kill s p _ hI := by
    refine ⟨⟨hI.now, hI.subset, hI.perIp, hI.perUsername, hI.nodup, hI.lt⟩, hI.held.kill p,
      fun u m hu => ?_⟩
    obtain ⟨-, hu⟩ := Option.ite_none_left_eq_some.1 hu
    exact (hI.at_ u m hu).frame rfl rfl rfl le_rfl (fun _ hi => hi) rfl rfl
  own s x st hC hI he := by
    cases x with
    | tick n =>
      cases he
      refine ⟨⟨fun c hc => hI.now c (Nat.le_of_add_right_le hc), hI.subset, hI.perIp,
        hI.perUsername, hI.nodup, hI.lt⟩, hI.held, fun u m hu => ?_⟩
      exact (hI.at_ u m hu).frame rfl rfl rfl (Nat.le_add_right _ _) (fun _ hi => hi) rfl rfl
    | purge =>
      cases he
      obtain ⟨hret, hpend⟩ := hC rfl
      refine ⟨⟨fun c hc => intact_purge (hI.now c hc) ?_, List.filter_sublist.trans hI.subset,
        hI.perIp, hI.perUsername, hI.nodup, hI.lt⟩, hI.held, fun u m hu => ?_⟩
      · have hc : s.store.clock ≤ c := hc
        omega
      · exact (hI.at_ u m hu).frame rfl rfl rfl le_rfl
          (fun hc hi => intact_purge hi (hpend u m hu hc)) rfl rfl

/-- Nobody has tried to log in yet. -/
structure Store.Fresh (st : Store) : Prop where
  table : st.table = []
  recorded : st.recorded = []
  reached : st.reached = []
  lock : st.lock = none

lemma inv_fresh {st : Store} (h : st.Fresh) : Inv cfg st fun _ => none where
  now c _ := by rw [Store.Intact, h.table, h.recorded]
  subset := by rw [h.table, h.recorded]
  perIp _ _ := h.recorded ▸ SlidingWindow.limited_nil
  perUsername _ := h.recorded ▸ SlidingWindow.limited_nil
  nodup := h.reached ▸ List.nodup_nil
  lt := by simp [h.reached]
  held := h.lock ▸ .nobody
  at_ _ _ ht := by cases ht

/-- How many attempts of the kind that were made in the window from `x` have reached the
password. -/
def Store.verifiedIn (st : Store) (cfg : Config) (p : Row → Bool) (x : ℕ) : ℕ :=
  st.reached.countP fun i => (st.recorded[i]?).any fun row =>
    p row && decide (x ≤ row.attempted_at ∧ row.attempted_at ≤ x + cfg.window)

lemma countP_range {α : Type} (q : α → Bool) (l : List α) :
    (List.range l.length).countP (fun i => (l[i]?).any q) = l.countP q := by
  induction l using List.reverseRecOn with
  | nil => rfl
  | append_singleton l a ih =>
    rw [List.length_append, List.length_singleton, List.range_succ, List.countP_append,
      List.countP_append, ← ih]
    congr 1
    · refine List.countP_congr fun i hi => ?_
      rw [List.getElem?_append_left (List.mem_range.1 hi)]
    · simp

lemma Bounded.verifiedIn_le {st : Store} (h : Bounded cfg st) {p : Row → Bool} {limit : ℤ}
    (hl : Limited Row.attempted_at cfg.window limit.toNat p st.recorded) (hpos : 0 < limit)
    (x : ℕ) : (st.verifiedIn cfg p x : ℤ) ≤ limit := by
  have hsub : st.reached.Subperm (List.range st.recorded.length) :=
    List.Nodup.subperm h.nodup fun i hi => List.mem_range.2 (h.lt i hi)
  have hle := hsub.countP_le fun i => (st.recorded[i]?).any fun row =>
    p row && decide (x ≤ row.attempted_at ∧ row.attempted_at ≤ x + cfg.window)
  rw [countP_range] at hle
  have hlimit := hle.trans (hl.countP_le x)
  change st.verifiedIn cfg p x ≤ limit.toNat at hlimit
  omega

/-- Once the last row is older than the window, an attempt is not locked out. -/
lemma Inv.not_locked {st : Store} {L : Tid → Option Phase} (h : Inv cfg st L) {t : Tid}
    {c a b : ℕ} {ip : String} (hl : L t = some (.counted c ip a b))
    (hold : ∀ row ∈ st.recorded, row.attempted_at + cfg.window < c) :
    cfg.locked a b = false := by
  obtain ⟨-, ⟨-, ha⟩, -, hb⟩ := h.at_ t _ hl
  have hzero : ∀ p, countOf cfg p c st = 0 := fun p => recent_eq_zero hold
  obtain rfl : a = 0 := by have := hzero (ofIp ip); omega
  obtain rfl : b = 0 := by have := hzero anyIp; omega
  have hfree : ∀ m, isLocked 0 m = false := fun m => by
    unfold isLocked
    split <;> simp_all
  simp [Config.locked, hfree]

/-- Per address and over all of them no window has more verified attempts than the limit, only an
attempt that neither limit stops adds to the table, and a window after the last row no limit
stops an attempt. -/
theorem throttle {st : Store} (hf : st.Fresh) {s : St cfg} (hr : Run (Safe cfg) (initial st) s) :
    (0 < cfg.max_attempts →
      ∀ ip x, (s.store.verifiedIn cfg (ofIp ip) x : ℤ) ≤ cfg.max_attempts) ∧
    (0 < cfg.max_per_username →
      ∀ x, (s.store.verifiedIn cfg anyIp x : ℤ) ≤ cfg.max_per_username) ∧
    (∀ l s', s.step l = some s' →
      (s'.store.recorded = s.store.recorded ∧ s'.store.table.Sublist s.store.table) ∨
      ∃ t env c ip a b, l = .run t env ∧ s.records t = some (.inserted c ip a b) ∧
        cfg.locked a b = false) ∧
    ∀ t c ip a b, s.records t = some (.counted c ip a b) →
      (∀ row ∈ s.store.recorded, row.attempted_at + cfg.window < c) →
      cfg.locked a b = false := by
  obtain ⟨hI, hd⟩ := (kept cfg).run_initial hr (inv_fresh hf)
  refine ⟨fun hpos ip x => hI.verifiedIn_le (hI.perIp hpos ip) hpos x,
    fun hpos x => hI.verifiedIn_le (hI.perUsername hpos) hpos x, fun l s' hs => ?_,
    fun t c ip a b hl hold => hI.not_locked hl hold⟩
  cases l with
  | start t ip =>
    simp only [State.step] at hs
    split at hs <;> cases hs
    exact .inl ⟨rfl, .refl _⟩
  | run t env =>
    obtain ⟨-, hst⟩ | ⟨o, l, r, -, hl, hm, he⟩ := Kept.step_run hs hd
    · rw [hst]
      exact .inl ⟨rfl, .refl _⟩
    · obtain ⟨hrec, htab⟩ | ⟨c, ip, a, b, rfl, hfree⟩ := hI.writes hl hm he
      · exact .inl ⟨hrec, htab ▸ .refl _⟩
      · exact .inr ⟨t, env, c, ip, a, b, rfl, hl, hfree⟩
  | kill p =>
    cases hs
    exact .inl ⟨rfl, .refl _⟩
  | own x =>
    obtain ⟨st', hx, rfl⟩ := Option.map_eq_some_iff.1 hs
    cases x with
    | tick n =>
      cases hx
      exact .inl ⟨rfl, .refl _⟩
    | purge =>
      cases hx
      exact .inl ⟨rfl, List.filter_sublist⟩

end Runs

/-! ### Runs of a few attempts -/

section Examples
variable {cfg : Config}

def empty : Store := ⟨0, [], [], [], [], none, fun _ => 0, fun _ => none, fun _ => 0⟩

lemma fresh_empty : empty.Fresh := ⟨rfl, rfl, rfl, rfl⟩

def goes (n k : ℕ) : List (Label (machine cfg)) := List.replicate k (.run ⟨0, n⟩ 0)

/-- Attempt `n` up to the commit of its row. -/
def records (n : ℕ) : List (Label (machine cfg)) := .start ⟨0, n⟩ "192.0.2.1" :: goes n 8

/-- One attempt in ten seconds. -/
def single : Config := ⟨10, 1, 1, 10⟩

/-- Nothing is purged. -/
def unpurged (_ : St cfg) : Label (machine cfg) → Bool
  | .own .purge => false
  | _ => true

lemma safe_of_unpurged (s : St cfg) (l : Label (machine cfg)) (h : unpurged s l = true) :
    Safe cfg s l := by
  rintro rfl
  cases h

/-- Two attempts more than ten seconds apart, and a third. -/
theorem throttle_three : ∃ s : St single, s.store.reached.length = 2 ∧
    (0 < single.max_attempts →
      ∀ ip x, (s.store.verifiedIn single (ofIp ip) x : ℤ) ≤ single.max_attempts) ∧
    (0 < single.max_per_username →
      ∀ x, (s.store.verifiedIn single anyIp x : ℤ) ≤ single.max_per_username) ∧
    (∀ l s', s.step l = some s' →
      (s'.store.recorded = s.store.recorded ∧ s'.store.table.Sublist s.store.table) ∨
      ∃ t env c ip a b, l = .run t env ∧ s.records t = some (.inserted c ip a b) ∧
        single.locked a b = false) ∧
    ∀ t c ip a b, s.records t = some (.counted c ip a b) →
      (∀ row ∈ s.store.recorded, row.attempted_at + single.window < c) →
      single.locked a b = false := by
  have h : ((initial empty : St single).runChecked unpurged
      (records 0 ++ goes 0 2 ++ [.own (.tick 10000001)] ++ records 1 ++ goes 1 2 ++
        records 2)).map (fun s => s.store.reached.length) = some 2 := by decide +kernel
  obtain ⟨s, hs, hx⟩ := Option.map_eq_some_iff.1 h
  exact ⟨s, hx, throttle fresh_empty (Machine.run_of_runChecked safe_of_unpurged hs)⟩

/-- With a limit of zero an attempt reaches the password; two attempts more than ten seconds apart
reach it in the same second; and of two that are five seconds apart the second counts nobody, as
the first has been purged since it began. -/
theorem windows_exceeded :
    (¬∀ (cfg : Config) (s : St cfg), Run (fun _ _ => True) (initial empty) s →
      ∀ x, (s.store.verifiedIn cfg anyIp x : ℤ) ≤ cfg.max_per_username) ∧
    (¬∀ s : St single, Run (Safe single) (initial empty) s → ∀ x,
      s.store.reachedAt.countP (fun at_ => x ≤ at_ ∧ at_ ≤ x + single.window) ≤ 1) ∧
    ¬∀ s : St single, Run (fun _ _ => True) (initial empty) s →
      ∀ x, s.store.verifiedIn single anyIp x ≤ 1 := by
  refine ⟨fun hclaim => ?_, fun hclaim => ?_, fun hclaim => ?_⟩
  · have h : ((initial empty : St ⟨10, 0, 0, 40⟩).runChecked (fun _ _ => true)
        (records 0 ++ goes 0 2)).map (fun s => s.store.verifiedIn ⟨10, 0, 0, 40⟩ anyIp 0) =
        some 1 := by decide +kernel
    obtain ⟨s, hs, hx⟩ := Option.map_eq_some_iff.1 h
    have hle := hclaim _ s (Machine.run_of_runChecked (fun _ _ _ => trivial) hs) 0
    rw [hx] at hle
    exact absurd hle (by decide)
  · have h : ((initial empty : St single).runChecked unpurged
        (records 0 ++ [.own (.tick 10000001)] ++ records 1 ++ goes 1 2 ++ goes 0 2)).map
        (fun s => s.store.reachedAt) = some [10000001, 10000001] := by decide +kernel
    obtain ⟨s, hs, hx⟩ := Option.map_eq_some_iff.1 h
    have hle := hclaim s (Machine.run_of_runChecked safe_of_unpurged hs) 10000001
    rw [hx] at hle
    exact absurd hle (by decide)
  · have h : ((initial empty : St single).runChecked (fun _ _ => true)
        (records 0 ++ goes 0 2 ++ [.own (.tick 5000000), .start ⟨0, 1⟩ "192.0.2.1"] ++ goes 1 3 ++
          [.own (.tick 6000000), .own .purge] ++ goes 1 7)).map
        (fun s => s.store.verifiedIn single anyIp 0) = some 2 := by decide +kernel
    obtain ⟨s, hs, hx⟩ := Option.map_eq_some_iff.1 h
    have hle := hclaim s (Machine.run_of_runChecked (fun _ _ _ => trivial) hs) 0
    rw [hx] at hle
    exact absurd hle (by decide)

end Examples

end Treeweft.LoginThrottle
