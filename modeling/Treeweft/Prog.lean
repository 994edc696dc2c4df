import Mathlib.Data.Nat.Notation
import Mathlib.Logic.Basic

/-!
Programs made of atomic operations.

A program stops with a value, stops with an exception, or performs one operation and goes on
with the answer. Nothing is said here of what an operation does; `Discipline` says what a
program may do by a record of what it has done, and `wp` computes from where it keeps to that.
-/

namespace Treeweft

/-- Operations, and the type of the answer to each. -/
structure Signature where
  Op : Type
  Answer : Op → Type

/-- A program over `S` with results in `α` and exceptions in `ε`. -/
inductive Prog (S : Signature) (ε α : Type) : Type
  | ret (a : α)
  | raise (e : ε)
  | op (o : S.Op) (k : S.Answer o → Prog S ε α)

namespace Prog

variable {S : Signature} {ε α β : Type}

def bind : Prog S ε α → (α → Prog S ε β) → Prog S ε β
  | ret a, f => f a
  | raise e, _ => raise e
  | op o k, f => op o fun r => bind (k r) f

instance : Monad (Prog S ε) where
  pure := ret
  bind := bind

lemma bind_assoc {γ : Type} (p : Prog S ε α) (f : α → Prog S ε β) (g : β → Prog S ε γ) :
    p >>= f >>= g = p >>= fun a => f a >>= g := by
  induction p with
  | ret a => rfl
  | raise e => rfl
  | op o k ih => exact congrArg (op o) (funext ih)

/-- `try: p` with `except: h`. -/
def catching : Prog S ε α → (ε → Prog S ε α) → Prog S ε α
  | ret a, _ => ret a
  | raise e, h => h e
  | op o k, h => op o fun r => catching (k r) h

/-- Run `p`, and say what it raised. -/
def attempt (p : Prog S ε Unit) : Prog S ε (Option ε) :=
  catching (p.bind fun _ => ret none) fun e => ret (some e)

/-- Run `p` and ignore what it raises. -/
def swallow (p : Prog S ε Unit) : Prog S ε Unit := catching p fun _ => ret ()

/-- Run `p`, and then `commit` if it returned and `rollback` if it raised. -/
def transact (commit rollback : Prog S ε Unit) (p : Prog S ε α) : Prog S ε α :=
  (catching (p.bind fun a => ret (.ok a)) fun e => ret (.error e) : Prog S ε (Except ε α)).bind
    fun out =>
      match out with
      | .ok a => commit.bind fun _ => ret a
      | .error e => rollback.bind fun _ => raise e

/-- `for x in xs: f x`. -/
def forEach (xs : List α) (f : α → Prog S ε Unit) : Prog S ε Unit :=
  match xs with
  | [] => ret ()
  | x :: xs => (f x).bind fun _ => forEach xs f

/-- `f` for `n`, `n - 1`, .., `1`. -/
def times : ℕ → Prog S ε Unit → Prog S ε Unit
  | 0, _ => ret ()
  | n + 1, p => p.bind fun _ => times n p

end Prog

/-- What a program may do. `Local` records what it has done; an operation is allowed or not by
that record, the answer is one of those `admits` lists, and the record is brought up to date. -/
structure Discipline (S : Signature) where
  Local : Type
  init : Local
  may : Local → S.Op → Prop
  admits : Local → (o : S.Op) → S.Answer o → Prop
  after : Local → (o : S.Op) → S.Answer o → Local

namespace Discipline

variable {S : Signature} {ε α β : Type} (D : Discipline S)

/-- From the record `l`, `p` keeps to the discipline, and ends as `Q` says if it returns and as
`X` says if it raises. -/
def wp : Prog S ε α → (α → D.Local → Prop) → (ε → D.Local → Prop) → D.Local → Prop
  | .ret a, Q, _, l => Q a l
  | .raise e, _, X, l => X e l
  | .op o k, Q, X, l => D.may l o ∧ ∀ r, D.admits l o r → wp (k r) Q X (D.after l o r)

variable {D} {Q : α → D.Local → Prop} {X : ε → D.Local → Prop} {l : D.Local}

@[simp] lemma wp_ret {a : α} : D.wp (.ret a : Prog S ε α) Q X = Q a := rfl

@[simp] lemma wp_pure {a : α} : D.wp (pure a : Prog S ε α) Q X = Q a := rfl

@[simp] lemma wp_raise {e : ε} : D.wp (.raise e : Prog S ε α) Q X = X e := rfl

@[simp] lemma wp_op {o : S.Op} {k : S.Answer o → Prog S ε α} :
    D.wp (.op o k) Q X =
      fun l => D.may l o ∧ ∀ r, D.admits l o r → D.wp (k r) Q X (D.after l o r) := rfl

/-- An operation that leaves the record as it is. -/
lemma wp_op_same {o : S.Op} {k : S.Answer o → Prog S ε α}
    (h : D.may l o ∧ ∀ r, D.admits l o r → D.after l o r = l) (hk : ∀ r, D.wp (k r) Q X l) :
    D.wp (.op o k) Q X l :=
  ⟨h.1, fun r hr => (h.2 r hr).symm ▸ hk r⟩

lemma wp_mono {p : Prog S ε α} {Q' : α → D.Local → Prop} {X' : ε → D.Local → Prop}
    (hQ : ∀ a l, Q a l → Q' a l) (hX : ∀ e l, X e l → X' e l) (h : D.wp p Q X l) :
    D.wp p Q' X' l := by
  induction p generalizing l with
  | ret a => exact hQ a l h
  | raise e => exact hX e l h
  | op o k ih => exact ⟨h.1, fun r hr => ih r (h.2 r hr)⟩

lemma wp_bind' {p : Prog S ε α} {f : α → Prog S ε β} {Q : β → D.Local → Prop} :
    D.wp (p.bind f) Q X = D.wp p (fun a => D.wp (f a) Q X) X := by
  funext l
  induction p generalizing l with
  | ret a => rfl
  | raise e => rfl
  | op o k ih =>
    simp only [Prog.bind, wp, ih]

@[simp] lemma wp_bind {p : Prog S ε α} {f : α → Prog S ε β} {Q : β → D.Local → Prop} :
    D.wp (p >>= f) Q X = D.wp p (fun a => D.wp (f a) Q X) X := wp_bind'

/-- **Sequence rule**. -/
lemma wp_seq {p : Prog S ε α} {f : α → Prog S ε β} {Q : β → D.Local → Prop}
    {Q' : α → D.Local → Prop} {X' : ε → D.Local → Prop} (hp : D.wp p Q' X' l)
    (hQ : ∀ a l, Q' a l → D.wp (f a) Q X l) (hX : ∀ e l, X' e l → X e l) :
    D.wp (p >>= f) Q X l := by
  rw [wp_bind]
  exact wp_mono hQ hX hp

@[simp] lemma wp_catching {p : Prog S ε α} {h : ε → Prog S ε α} :
    D.wp (p.catching h) Q X = D.wp p Q (fun e => D.wp (h e) Q X) := by
  funext l
  induction p generalizing l with
  | ret a => rfl
  | raise e => rfl
  | op o k ih => simp only [Prog.catching, wp, ih]

@[simp] lemma wp_attempt {p : Prog S ε Unit} {Q : Option ε → D.Local → Prop} :
    D.wp p.attempt Q X = D.wp p (fun _ => Q none) (fun e => Q (some e)) := by
  simp only [Prog.attempt, wp_catching, wp_bind', wp_ret]

/-- **Transaction rule**. -/
lemma wp_transact {commit rollback : Prog S ε Unit} {p : Prog S ε α} :
    D.wp (Prog.transact commit rollback p) Q X =
      D.wp p (fun a => D.wp commit (fun _ => Q a) X) fun e =>
        D.wp rollback (fun _ => X e) X := by
  unfold Prog.transact
  rw [wp_bind', wp_catching, wp_bind']
  congr 1
  · funext a
    rw [wp_ret, wp_bind']
    rfl
  · funext e
    rw [wp_ret, wp_bind']
    rfl

@[simp] lemma wp_swallow {p : Prog S ε Unit} {Q : Unit → D.Local → Prop} :
    D.wp p.swallow Q X = D.wp p Q (fun _ => Q ()) := by
  simp only [Prog.swallow, wp_catching, wp_ret]

/-- **Loop rule**: what every round keeps, the loop keeps. -/
lemma wp_forEach {I : D.Local → Prop} {xs : List α} {f : α → Prog S ε Unit}
    (hf : ∀ x ∈ xs, ∀ l, I l → D.wp (f x) (fun _ => I) X l) (hl : I l) :
    D.wp (Prog.forEach xs f) (fun _ => I) X l := by
  induction xs generalizing l with
  | nil => exact hl
  | cons x xs ih =>
    rw [Prog.forEach, wp_bind']
    refine wp_mono (fun _ l hl => ?_) (fun _ _ h => h) (hf x (by simp) l hl)
    exact ih (fun y hy => hf y (by simp [hy])) hl

end Discipline

/-- Every operation of the program is one of `A`, whatever the answers. -/
def Uses {S : Signature} {ε α : Type} (A : S.Op → Prop) : Prog S ε α → Prop
  | .ret _ => True
  | .raise _ => True
  | .op o k => A o ∧ ∀ r, Uses A (k r)

section Uses
variable {S : Signature} {ε α β : Type} {A B : S.Op → Prop}

@[simp] lemma uses_ret {a : α} : Uses A (.ret a : Prog S ε α) := trivial

@[simp] lemma uses_pure {a : α} : Uses A (pure a : Prog S ε α) := trivial

@[simp] lemma uses_raise {e : ε} : Uses A (.raise e : Prog S ε α) := trivial

@[simp] lemma uses_op {o : S.Op} {k : S.Answer o → Prog S ε α} :
    Uses A (.op o k) ↔ A o ∧ ∀ r, Uses A (k r) := Iff.rfl

lemma Uses.mono {p : Prog S ε α} (hAB : ∀ o, A o → B o) (h : Uses A p) : Uses B p := by
  induction p with
  | ret a => trivial
  | raise e => trivial
  | op o k ih => exact ⟨hAB o h.1, fun r => ih r (h.2 r)⟩

lemma Uses.bind' {p : Prog S ε α} {f : α → Prog S ε β} (hp : Uses A p) (hf : ∀ a, Uses A (f a)) :
    Uses A (p.bind f) := by
  induction p with
  | ret a => exact hf a
  | raise e => trivial
  | op o k ih => exact ⟨hp.1, fun r => ih r (hp.2 r)⟩

lemma Uses.bind {p : Prog S ε α} {f : α → Prog S ε β} (hp : Uses A p) (hf : ∀ a, Uses A (f a)) :
    Uses A (p >>= f) := hp.bind' hf

lemma Uses.catching {p : Prog S ε α} {h : ε → Prog S ε α} (hp : Uses A p)
    (hh : ∀ e, Uses A (h e)) : Uses A (p.catching h) := by
  induction p with
  | ret a => trivial
  | raise e => exact hh e
  | op o k ih => exact ⟨hp.1, fun r => ih r (hp.2 r)⟩

lemma Uses.of_catching {p : Prog S ε α} {h : ε → Prog S ε α} (hp : Uses A (p.catching h)) :
    Uses A p := by
  induction p with
  | ret a => trivial
  | raise e => trivial
  | op o k ih => exact ⟨hp.1, fun r => ih r (hp.2 r)⟩

lemma Uses.attempt {p : Prog S ε Unit} (hp : Uses A p) : Uses A p.attempt :=
  (hp.bind' fun _ => uses_ret).catching fun _ => uses_ret

lemma Uses.swallow {p : Prog S ε Unit} (hp : Uses A p) : Uses A p.swallow :=
  hp.catching fun _ => uses_ret

lemma Uses.forEach {xs : List α} {f : α → Prog S ε Unit} (hf : ∀ x ∈ xs, Uses A (f x)) :
    Uses A (Prog.forEach xs f) := by
  induction xs with
  | nil => trivial
  | cons x xs ih => exact (hf x (by simp)).bind' fun _ => ih fun y hy => hf y (by simp [hy])

lemma Uses.times {n : ℕ} {p : Prog S ε Unit} (hp : Uses A p) : Uses A (Prog.times n p) := by
  induction n with
  | zero => trivial
  | succ n ih => exact hp.bind' fun _ => ih

/-- A program whose operations all keep `I` ends in `I`, whichever way it ends. -/
lemma Uses.wp {D : Discipline S} {I : D.Local → Prop} {p : Prog S ε α} {l : D.Local}
    (hp : Uses A p)
    (h : ∀ o, A o → ∀ l, I l → D.may l o ∧ ∀ r, D.admits l o r → I (D.after l o r)) (hl : I l) :
    D.wp p (fun _ => I) (fun _ => I) l := by
  induction p generalizing l with
  | ret a => exact hl
  | raise e => exact hl
  | op o k ih =>
    obtain ⟨hm, hr⟩ := h o hp.1 l hl
    exact ⟨hm, fun r hadm => ih r (hp.2 r) (hr r hadm)⟩

end Uses

/-- Operations of `A`, and from some point on operations of `B`. -/
def Phased {S : Signature} {ε α : Type} (A B : S.Op → Prop) : Prog S ε α → Prop
  | .ret _ => True
  | .raise _ => True
  | .op o k => (A o ∧ ∀ r, Phased A B (k r)) ∨ (B o ∧ ∀ r, Uses B (k r))

section Phased
variable {S : Signature} {ε α β : Type} {A B C : S.Op → Prop}

lemma Uses.phased {p : Prog S ε α} (hp : Uses B p) : Phased A B p := by
  cases p with
  | ret a => trivial
  | raise e => trivial
  | op o k => exact .inr hp

lemma Uses.bind_phased {p : Prog S ε α} {f : α → Prog S ε β} (hp : Uses A p)
    (hf : ∀ a, Phased A B (f a)) : Phased A B (p >>= f) := by
  induction p with
  | ret a => exact hf a
  | raise e => trivial
  | op o k ih => exact .inl ⟨hp.1, fun r => ih r (hp.2 r)⟩

lemma Phased.catching {p : Prog S ε α} {h : ε → Prog S ε α} (hp : Phased A B p)
    (hh : ∀ e, Uses B (h e)) : Phased A B (p.catching h) := by
  induction p with
  | ret a => trivial
  | raise e => exact (hh e).phased
  | op o k ih =>
    rcases hp with ⟨ho, hk⟩ | ⟨ho, hk⟩
    · exact .inl ⟨ho, fun r => ih r (hk r)⟩
    · exact .inr ⟨ho, fun r => (hk r).catching hh⟩

lemma Phased.of_catching {p : Prog S ε α} {h : ε → Prog S ε α} (hp : Phased A B (p.catching h)) :
    Phased A B p := by
  induction p with
  | ret a => trivial
  | raise e => trivial
  | op o k ih =>
    rcases hp with ⟨ho, hk⟩ | ⟨ho, hk⟩
    · exact .inl ⟨ho, fun r => ih r (hk r)⟩
    · exact .inr ⟨ho, fun r => (hk r).of_catching⟩

lemma Phased.mono {p : Prog S ε α} (hBC : ∀ o, B o → C o) (hp : Phased A B p) : Phased A C p := by
  induction p with
  | ret a => trivial
  | raise e => trivial
  | op o k ih =>
    rcases hp with ⟨ho, hk⟩ | ⟨ho, hk⟩
    · exact .inl ⟨ho, fun r => ih r (hk r)⟩
    · exact .inr ⟨hBC o ho, fun r => (hk r).mono hBC⟩

lemma Phased.uses {p : Prog S ε α} (hA : ∀ o, A o → C o) (hB : ∀ o, B o → C o)
    (hp : Phased A B p) : Uses C p := by
  induction p with
  | ret a => trivial
  | raise e => trivial
  | op o k ih =>
    rcases hp with ⟨ho, hk⟩ | ⟨ho, hk⟩
    · exact ⟨hA o ho, fun r => ih r (hk r)⟩
    · exact ⟨hB o ho, fun r => (hk r).mono hB⟩

/-- The operations of the first phase keep `I`, which is stronger than the `J` that those of the
second keep. -/
lemma Phased.wp {D : Discipline S} {I J : D.Local → Prop} {p : Prog S ε α} {l : D.Local}
    (hp : Phased A B p)
    (hA : ∀ o, A o → ∀ l, I l → D.may l o ∧ ∀ r, D.admits l o r → I (D.after l o r))
    (hB : ∀ o, B o → ∀ l, J l → D.may l o ∧ ∀ r, D.admits l o r → J (D.after l o r))
    (hIJ : ∀ l, I l → J l) (hl : I l) : D.wp p (fun _ => J) (fun _ => J) l := by
  induction p generalizing l with
  | ret a => exact hIJ l hl
  | raise e => exact hIJ l hl
  | op o k ih =>
    rcases hp with ⟨ho, hk⟩ | ⟨ho, hk⟩
    · obtain ⟨hm, hr⟩ := hA o ho l hl
      exact ⟨hm, fun r hadm => ih r (hk r) (hr r hadm)⟩
    · obtain ⟨hm, hr⟩ := hB o ho l (hIJ l hl)
      exact ⟨hm, fun r hadm => (hk r).wp hB (hr r hadm)⟩

/-- `p` returns only right after an operation of `T`. -/
def ReturnsAfter (T : S.Op → Prop) : Prog S ε α → Prop
  | .ret _ => False
  | .raise _ => True
  | .op o k => ∀ r, ReturnsAfter T (k r) ∨ (T o ∧ ∃ a, k r = .ret a)

/-- `p` ends, whichever way, only right after an operation of `T`. -/
def EndsAfter (T : S.Op → Prop) : Prog S ε α → Prop
  | .ret _ => False
  | .raise _ => False
  | .op o k => ∀ r, EndsAfter T (k r) ∨ (T o ∧ ((∃ a, k r = .ret a) ∨ ∃ e, k r = .raise e))

variable {T : S.Op → Prop}

lemma EndsAfter.returnsAfter {p : Prog S ε α} (hp : EndsAfter T p) : ReturnsAfter T p := by
  induction p with
  | ret a => exact hp
  | raise e => trivial
  | op o k ih =>
    intro r
    rcases hp r with hr | ⟨ho, hr | ⟨e, hr⟩⟩
    · exact .inl (ih r hr)
    · exact .inr ⟨ho, hr⟩
    · exact .inl (hr ▸ trivial)

lemma ReturnsAfter.bind {p : Prog S ε α} {f : α → Prog S ε β} (hf : ∀ a, ReturnsAfter T (f a)) :
    ReturnsAfter T (p >>= f) := by
  induction p with
  | ret a => exact hf a
  | raise e => trivial
  | op o k ih => exact fun r => .inl (ih r)

lemma ReturnsAfter.catching {p : Prog S ε α} {h : ε → Prog S ε α} (hp : ReturnsAfter T p)
    (hh : ∀ e, EndsAfter T (h e)) : EndsAfter T (p.catching h) := by
  induction p with
  | ret a => exact hp
  | raise e => exact hh e
  | op o k ih =>
    intro r
    rcases hp r with hr | ⟨ho, a, hr⟩
    · exact .inl (ih r hr)
    · exact .inr ⟨ho, .inl ⟨a, congrArg (·.catching h) hr⟩⟩

/-- What is raised at once after `p`. -/
lemma EndsAfter.bind_raise {p : Prog S ε α} {e : ε} (hp : EndsAfter T p) :
    EndsAfter T (p >>= fun _ => (.raise e : Prog S ε β)) := by
  induction p with
  | ret a => exact hp
  | raise e => exact hp
  | op o k ih =>
    intro r
    rcases hp r with hr | ⟨ho, ⟨a, hr⟩ | ⟨e', hr⟩⟩
    · exact .inl (ih r hr)
    · refine .inr ⟨ho, .inr ⟨e, ?_⟩⟩
      change (k r).bind (fun _ => (.raise e : Prog S ε β)) = .raise e
      rw [hr]
      rfl
    · refine .inr ⟨ho, .inr ⟨e', ?_⟩⟩
      change (k r).bind (fun _ => (.raise e : Prog S ε β)) = .raise e'
      rw [hr]
      rfl

/-- Where the last operation is one of `T`, the end is as an operation of `T` leaves it. -/
lemma EndsAfter.wp {D : Discipline S} {J E : D.Local → Prop} {p : Prog S ε α} {l : D.Local}
    (he : EndsAfter T p) (hp : Uses B p)
    (hB : ∀ o, B o → ∀ l, J l → D.may l o ∧ ∀ r, D.admits l o r → J (D.after l o r))
    (hT : ∀ o, T o → ∀ l, J l → ∀ r, D.admits l o r → E (D.after l o r)) (hl : J l) :
    D.wp p (fun _ => E) (fun _ => E) l := by
  induction p generalizing l with
  | ret a => exact he.elim
  | raise e => exact he.elim
  | op o k ih =>
    obtain ⟨hm, hr⟩ := hB o hp.1 l hl
    refine ⟨hm, fun r hadm => ?_⟩
    rcases he r with hk | ⟨ho, ⟨a, hk⟩ | ⟨e, hk⟩⟩
    · exact ih r hk (hp.2 r) (hr r hadm)
    · rw [hk]
      exact hT o ho l hl r hadm
    · rw [hk]
      exact hT o ho l hl r hadm

/-- The rule of `Phased.wp`, with the end as an operation of `T` leaves it. -/
lemma Phased.wp_ends {D : Discipline S} {I J E : D.Local → Prop} {p : Prog S ε α} {l : D.Local}
    (hp : Phased A B p) (he : EndsAfter T p)
    (hA : ∀ o, A o → ∀ l, I l → D.may l o ∧ ∀ r, D.admits l o r → I (D.after l o r))
    (hB : ∀ o, B o → ∀ l, J l → D.may l o ∧ ∀ r, D.admits l o r → J (D.after l o r))
    (hT : ∀ o, T o → ∀ l, J l → ∀ r, D.admits l o r → E (D.after l o r))
    (hIJ : ∀ l, I l → J l) (hl : I l) : D.wp p (fun _ => E) (fun _ => E) l := by
  induction p generalizing l with
  | ret a => exact he.elim
  | raise e => exact he.elim
  | op o k ih =>
    rcases hp with ⟨ho, hk⟩ | hB'
    · obtain ⟨hm, hr⟩ := hA o ho l hl
      refine ⟨hm, fun r hadm => ?_⟩
      rcases he r with hend | ⟨hTo, ⟨a, hend⟩ | ⟨e, hend⟩⟩
      · exact ih r (hk r) hend (hr r hadm)
      · rw [hend]
        exact hT o hTo l (hIJ l hl) r hadm
      · rw [hend]
        exact hT o hTo l (hIJ l hl) r hadm
    · exact EndsAfter.wp (p := .op o k) he hB' hB hT (hIJ l hl)

end Phased

/-- `p` may come to perform `o`, each answer being one that `A` lists. -/
inductive Reaches {S : Signature} {ε α : Type} (A : (o : S.Op) → S.Answer o → Prop) :
    Prog S ε α → S.Op → Prop
  | here {o : S.Op} {k : S.Answer o → Prog S ε α} : Reaches A (.op o k) o
  | there {o o' : S.Op} {k : S.Answer o → Prog S ε α} (r : S.Answer o) (h : A o r)
      (hk : Reaches A (k r) o') : Reaches A (.op o k) o'

/-- `p` may return `a`, each answer being one that `A` lists. -/
inductive Returns {S : Signature} {ε α : Type} (A : (o : S.Op) → S.Answer o → Prop) :
    Prog S ε α → α → Prop
  | ret {a : α} : Returns A (.ret a) a
  | op {o : S.Op} {k : S.Answer o → Prog S ε α} {a : α} (r : S.Answer o) (h : A o r)
      (hk : Returns A (k r) a) : Returns A (.op o k) a

section Reaches
variable {S : Signature} {ε α : Type} {A : (o : S.Op) → S.Answer o → Prop} {o o' : S.Op}

lemma reaches_op {k : S.Answer o → Prog S ε α} :
    Reaches A (.op o k) o' ↔ o' = o ∨ ∃ r, A o r ∧ Reaches A (k r) o' := by
  constructor
  · intro h
    cases h with
    | here => exact .inl rfl
    | there r hr hk => exact .inr ⟨r, hr, hk⟩
  · rintro (rfl | ⟨r, hr, hk⟩)
    · exact .here
    · exact .there r hr hk

lemma returns_op {k : S.Answer o → Prog S ε α} {a : α} :
    Returns A (.op o k) a ↔ ∃ r, A o r ∧ Returns A (k r) a := by
  constructor
  · intro h
    cases h with
    | op r hr hk => exact ⟨r, hr, hk⟩
  · rintro ⟨r, hr, hk⟩
    exact .op r hr hk

lemma returns_pure {a b : α} : Returns A (pure a : Prog S ε α) b ↔ a = b := by
  constructor
  · intro h
    cases h
    rfl
  · rintro rfl
    exact .ret

/-- The operations of `B` in any order; what a program returns is still told by `wp`. -/
def Discipline.only (B : S.Op → Prop) : Discipline S :=
  ⟨Unit, (), fun _ o => B o, fun _ _ _ => True, fun _ _ _ => ()⟩

lemma Uses.wp_only {B : S.Op → Prop} {p : Prog S ε α} (hp : Uses B p) :
    (Discipline.only B).wp p (fun _ _ => True) (fun _ _ => True) () :=
  hp.wp (fun _ ho _ _ => ⟨ho, fun _ _ => trivial⟩) trivial

lemma Discipline.of_reaches {B : S.Op → Prop} {p : Prog S ε α} {Q : α → Unit → Prop}
    {X : ε → Unit → Prop} (hp : (Discipline.only B).wp p Q X ()) (h : Reaches A p o) : B o := by
  induction h with
  | here => exact hp.1
  | there r _ _ ih => exact ih (hp.2 r trivial)

end Reaches

/-! ### Programs driven by an environment -/

section Drive
variable {S : Signature} {ε α σ μ : Type}

/-- Run a program on a state. Each operation is answered by `handle`, which is given what the
environment has in store for it. -/
def Prog.drive (handle : σ → μ → (o : S.Op) → S.Answer o × σ) : (ℕ → μ) → σ → Prog S ε α → σ
  | _, s, .ret _ => s
  | _, s, .raise _ => s
  | env, s, .op o k =>
    Prog.drive handle (fun n => env (n + 1)) (handle s (env 0) o).2 (k (handle s (env 0) o).1)

/-- **Driving rule**: what the allowed operations keep between record and state holds at the end. -/
lemma Discipline.wp_drive {D : Discipline S} {Q : α → D.Local → Prop} {X : ε → D.Local → Prop}
    {R : D.Local → σ → Prop} {handle : σ → μ → (o : S.Op) → S.Answer o × σ}
    (hstep : ∀ l s m o, R l s → D.may l o → D.admits l o (handle s m o).1 ∧
      R (D.after l o (handle s m o).1) (handle s m o).2)
    {p : Prog S ε α} : ∀ {l : D.Local} {s : σ} (env : ℕ → μ), D.wp p Q X l → R l s →
      ∃ l', R l' (p.drive handle env s) := by
  induction p with
  | ret a => exact fun _ _ hR => ⟨_, hR⟩
  | raise e => exact fun _ _ hR => ⟨_, hR⟩
  | op o k ih =>
    intro l s env h hR
    obtain ⟨hadm, hR'⟩ := hstep l s (env 0) o hR h.1
    exact ih _ _ (h.2 _ hadm) hR'

end Drive

end Treeweft
