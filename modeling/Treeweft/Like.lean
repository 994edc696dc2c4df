import Mathlib.Data.List.Infix

/-!
Patterns of the SQL `LIKE` operator.

A dialect says which character escapes, if any, and how characters are compared. The question a
caller has is when a string followed by `%` matches just the strings that start with it:
`startsLike_iff`.
-/

namespace Treeweft.Like

structure Dialect where
  escape : Option Char
  /-- Two characters are the same to the operator when their images are equal. -/
  fold : Char → Char
  escape_ne : escape ≠ some '%' ∧ escape ≠ some '_'

inductive Token
  | any
  | one
  | lit (c : Char)
  deriving DecidableEq, Repr

/-- No escape, and ASCII letters compare without case. -/
def sqlite : Dialect := ⟨none, Char.toLower, by decide⟩

variable (D : Dialect)

/-- An escape at the very end stands for itself. -/
def parse : List Char → List Token
  | [] => []
  | [c] =>
    if D.escape = some c then [.lit c]
    else if c = '%' then [.any] else if c = '_' then [.one] else [.lit c]
  | c :: d :: cs =>
    if D.escape = some c then .lit d :: parse cs
    else if c = '%' then .any :: parse (d :: cs)
    else if c = '_' then .one :: parse (d :: cs)
    else .lit c :: parse (d :: cs)

def accepts : List Token → List Char → Bool
  | [], s => s.isEmpty
  | .any :: ts, s => s.tails.any fun t => accepts ts t
  | .one :: ts, s =>
    match s with
    | [] => false
    | _ :: s => accepts ts s
  | .lit c :: ts, s =>
    match s with
    | [] => false
    | x :: s => D.fold x = D.fold c && accepts ts s

example : accepts sqlite (parse sqlite ['%']) [] = true := by
  simp [parse, accepts, sqlite]

/-- `s LIKE pattern`. -/
def like (pattern s : List Char) : Bool := accepts D (parse D pattern) s

/-- The character stands for more than itself in a pattern. -/
def Special (c : Char) : Prop :=
  c = '%' ∨ c = '_' ∨ D.escape = some c ∨ ∃ d, d ≠ c ∧ D.fold d = D.fold c

variable {D}

/-! ### Matching -/

lemma accepts_any {ts : List Token} {s : List Char} :
    accepts D (.any :: ts) s = true ↔ ∃ t, t <:+ s ∧ accepts D ts t = true := by
  simp [accepts, List.any_eq_true, List.mem_tails]

lemma accepts_any_of {ts : List Token} {s : List Char} (h : accepts D ts s = true) :
    accepts D (.any :: ts) s = true :=
  accepts_any.mpr ⟨s, List.suffix_refl s, h⟩

@[simp] lemma accepts_any_nil (s : List Char) : accepts D [.any] s = true :=
  accepts_any.mpr ⟨[], List.nil_suffix, rfl⟩

@[simp] lemma accepts_lit {c x : Char} {ts : List Token} {s : List Char} :
    accepts D (.lit c :: ts) (x :: s) = true ↔ D.fold x = D.fold c ∧ accepts D ts s = true := by
  simp [accepts]

@[simp] lemma accepts_lit_nil {c : Char} {ts : List Token} :
    accepts D (.lit c :: ts) [] = false := rfl

@[simp] lemma accepts_one {x : Char} {ts : List Token} {s : List Char} :
    accepts D (.one :: ts) (x :: s) = accepts D ts s := rfl

/-! ### Reading a Pattern -/

section Parse
variable {c : Char} {cs : List Char}

lemma parse_escape (hc : D.escape = some c) (d : Char) :
    parse D (c :: d :: cs) = .lit d :: parse D cs := by
  rw [parse, if_pos hc]

lemma parse_any (cs : List Char) : parse D ('%' :: cs) = .any :: parse D cs := by
  have h := D.escape_ne.1
  cases cs <;> simp [parse, h]

lemma parse_one (cs : List Char) : parse D ('_' :: cs) = .one :: parse D cs := by
  have h := D.escape_ne.2
  cases cs <;> simp [parse, h]

lemma parse_lit (he : D.escape ≠ some c) (ha : c ≠ '%') (ho : c ≠ '_') (cs : List Char) :
    parse D (c :: cs) = .lit c :: parse D cs := by
  cases cs <;> simp [parse, he, ha, ho]

end Parse

@[simp] lemma like_any (s : List Char) : like D ['%'] s = true := by
  rw [like, parse_any]
  exact accepts_any_nil s

/-! ### A String as a Prefix -/

/-- Without wildcards and escapes the pattern asks for a prefix, in the dialect's comparison. -/
lemma startsLike_fold {p : List Char} (hp : ∀ c ∈ p, c ≠ '%' ∧ c ≠ '_' ∧ D.escape ≠ some c)
    (s : List Char) : like D (p ++ ['%']) s = true ↔ p.map D.fold <+: s.map D.fold := by
  induction p generalizing s with
  | nil => simp
  | cons c p ih =>
    obtain ⟨⟨ha, ho, he⟩, hp⟩ := List.forall_mem_cons.mp hp
    unfold like at ih ⊢
    rw [List.cons_append, parse_lit he ha ho]
    cases s with
    | nil => simp
    | cons x s =>
      rw [accepts_lit, ih hp, List.map_cons, List.map_cons, List.cons_prefix_cons, eq_comm]

/-- A character without a second meaning matches itself alone. -/
lemma fold_eq_iff {c x : Char} (hc : ¬Special D c) : D.fold c = D.fold x ↔ c = x := by
  constructor
  · intro h
    by_contra hne
    exact hc (.inr (.inr (.inr ⟨x, Ne.symm hne, h.symm⟩)))
  · rintro rfl
    rfl

lemma parse_not_special {c : Char} (hc : ¬Special D c) (cs : List Char) :
    parse D (c :: cs) = .lit c :: parse D cs :=
  parse_lit (fun h => hc (.inr (.inr (.inl h)))) (fun h => hc (.inl h))
    (fun h => hc (.inr (.inl h))) cs

/-- Without special characters the pattern says what it means. -/
lemma startsLike_of_plain {p : List Char} (hp : ∀ c ∈ p, ¬Special D c) (s : List Char) :
    like D (p ++ ['%']) s = true ↔ p <+: s := by
  rw [startsLike_fold fun c hc => ⟨fun h => hp c hc (.inl h), fun h => hp c hc (.inr (.inl h)),
    fun h => hp c hc (.inr (.inr (.inl h)))⟩]
  induction p generalizing s with
  | nil => simp
  | cons c p ih =>
    cases s with
    | nil => simp
    | cons x s =>
      rw [List.map_cons, List.map_cons, List.cons_prefix_cons, List.cons_prefix_cons,
        fold_eq_iff (hp c List.mem_cons_self), ih fun d hd => hp d (List.mem_cons_of_mem c hd)]

/-- Wildcards only widen: a string that starts with the text matches it. -/
lemma like_of_startsWith {p : List Char} (hp : ∀ c ∈ p, D.escape ≠ some c) {s : List Char}
    (h : p <+: s) : like D (p ++ ['%']) s = true := by
  induction p generalizing s with
  | nil => simp
  | cons c p ih =>
    obtain ⟨t, rfl⟩ := h
    unfold like at ih ⊢
    have hrest := ih (fun d hd => hp d (List.mem_cons_of_mem c hd)) (List.prefix_append p t)
    rw [List.cons_append, List.cons_append]
    by_cases ha : c = '%'
    · subst ha
      rw [parse_any]
      exact accepts_any.mpr ⟨_, List.suffix_cons '%' _, hrest⟩
    by_cases ho : c = '_'
    · subst ho
      rw [parse_one]
      exact hrest
    rw [parse_lit (hp c List.mem_cons_self) ha ho]
    exact accepts_lit.mpr ⟨rfl, hrest⟩

/-- One more character of the pattern asks for one more character at most. -/
lemma exists_like_cons {c : Char} (hc : D.escape ≠ some c) {r : List Char}
    (h : ∃ w, w.length ≤ r.length ∧ like D (r ++ ['%']) w = true) :
    ∃ w, w.length ≤ (c :: r).length ∧ like D (c :: r ++ ['%']) w = true := by
  obtain ⟨w, hlen, hw⟩ := h
  unfold like at hw ⊢
  rw [List.cons_append, List.length_cons]
  by_cases ha : c = '%'
  · subst ha
    rw [parse_any]
    exact ⟨w, by omega, accepts_any_of hw⟩
  by_cases ho : c = '_'
  · subst ho
    rw [parse_one]
    exact ⟨'x' :: w, by simpa using hlen, hw⟩
  rw [parse_lit hc ha ho]
  exact ⟨c :: w, by simpa using hlen, accepts_lit.mpr ⟨rfl, hw⟩⟩

/-- Every pattern matches something no longer than itself. -/
lemma exists_like (r : List Char) :
    ∃ w, w.length ≤ r.length ∧ like D (r ++ ['%']) w = true := by
  induction r using List.twoStepInduction with
  | nil => exact ⟨[], le_rfl, like_any []⟩
  | singleton c =>
    by_cases hc : D.escape = some c
    · refine ⟨['%'], le_rfl, ?_⟩
      rw [like, List.cons_append, List.nil_append, parse_escape hc]
      simp [parse, accepts]
    · exact exists_like_cons hc ⟨[], le_rfl, like_any []⟩
  | cons_cons c d r ih ih' =>
    by_cases hc : D.escape = some c
    · obtain ⟨w, hlen, hw⟩ := ih
      refine ⟨d :: w, by simp only [List.length_cons]; omega, ?_⟩
      rw [like, List.cons_append, List.cons_append, parse_escape hc]
      exact accepts_lit.mpr ⟨rfl, hw⟩
    · exact exists_like_cons hc (ih' d)

lemma not_prefix_of_length {p s : List Char} (h : s.length < p.length) : ¬p <+: s := by
  intro hp
  have := hp.length_le
  omega

/-- A special character lets in a string that does not start with the text. -/
lemma exists_of_special {c : Char} (hc : Special D c) (r : List Char) :
    ∃ s, like D (c :: r ++ ['%']) s = true ∧ ¬(c :: r) <+: s := by
  obtain ⟨w, hlen, hw⟩ := exists_like (D := D) r
  unfold like at hw ⊢
  rw [List.cons_append]
  by_cases he : D.escape = some c
  · cases r with
    | nil =>
      refine ⟨['%'], ?_, ?_⟩
      · rw [List.nil_append, parse_escape he]
        simp [parse, accepts]
      · intro hp
        have hcp : c = '%' := (List.cons_prefix_cons.mp hp).1
        exact D.escape_ne.1 (hcp ▸ he)
    | cons d r =>
      obtain ⟨v, hlen', hv⟩ := exists_like (D := D) r
      refine ⟨d :: v, ?_, not_prefix_of_length (by simp only [List.length_cons]; omega)⟩
      rw [List.cons_append, parse_escape he]
      exact accepts_lit.mpr ⟨rfl, hv⟩
  by_cases ha : c = '%'
  · subst ha
    refine ⟨w, ?_, not_prefix_of_length (by simp only [List.length_cons]; omega)⟩
    rw [parse_any]
    exact accepts_any_of hw
  by_cases ho : c = '_'
  · subst ho
    refine ⟨'x' :: w, ?_, fun hp => absurd (List.cons_prefix_cons.mp hp).1 (by decide)⟩
    rw [parse_one]
    exact hw
  obtain ⟨d, hne, hd⟩ : ∃ d, d ≠ c ∧ D.fold d = D.fold c := by
    rcases hc with h | h | h | h
    · exact absurd h ha
    · exact absurd h ho
    · exact absurd h he
    · exact h
  refine ⟨d :: w, ?_, fun hp => hne (List.cons_prefix_cons.mp hp).1.symm⟩
  rw [parse_lit he ha ho]
  exact accepts_lit.mpr ⟨hd, hw⟩

/-- **When `LIKE` compares a prefix**: a text followed by `%` matches just the strings that start
with it, if and only if none of its characters is special. -/
theorem startsLike_iff (p : List Char) :
    (∀ s, like D (p ++ ['%']) s = true ↔ p <+: s) ↔ ∀ c ∈ p, ¬Special D c := by
  refine ⟨fun h => ?_, startsLike_of_plain⟩
  induction p with
  | nil => simp
  | cons c p ih =>
    have hc : ¬Special D c := by
      intro hc
      obtain ⟨s, hs, hnot⟩ := exists_of_special hc p
      exact hnot ((h s).mp hs)
    refine List.forall_mem_cons.mpr ⟨hc, ih fun s => ?_⟩
    have hcs := h (c :: s)
    rw [like, List.cons_append, parse_not_special hc, accepts_lit, List.cons_prefix_cons] at hcs
    simpa [like] using hcs

end Treeweft.Like
