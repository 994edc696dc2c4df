import Treeweft.JsonSchema

/-!
The classification of schema changes.

Two schemas are compared keyword by keyword, and recursively where a keyword has schemas in it. A
union with the null type is compared as its other branch, where there is one and it agrees with the
keywords beside it; unions are compared branch by branch without the null type.
-/

namespace Treeweft.Contracts

open JsonSchema

/-! ### Equality in Python -/

/-- A leaf as `==` sees it, to which `True` is `1`. -/
def py : Atom → Atom
  | .bool b => .num (if b then 1 else 0) false
  | .num q _ => .num q false
  | a => a

def pyJson (v w : Json) : Bool := v.map py = w.map py

def pyJsons (l m : List Json) : Bool := l.map (Json.map py) = m.map (Json.map py)

def limits : List Limit :=
  [.maxLength, .maxItems, .maxProperties, .maximum, .exclusiveMaximum, .minLength, .minItems,
    .minProperties, .minimum, .exclusiveMinimum]

def optional {α : Type} (eq : α → α → Bool) : Option α → Option α → Bool
  | none, none => true
  | some a, some b => eq a b
  | _, _ => false

mutual

/-- `==` of two schemas. -/
def pyEq : Schema → Schema → Bool
  | ⟨type, properties, required, enum, items, default, limit, anyOf⟩,
    ⟨type', properties', required', enum', items', default', limit', anyOf'⟩ =>
    type == type' && pyProperties properties properties' && required == required' &&
      optional pyJsons enum enum' && pyItems items items' && optional pyJson default default' &&
      (limits.all fun k => limit k == limit' k) && pyAnyOf anyOf anyOf'

def pyFields : List (String × Schema) → List (String × Schema) → Bool
  | [], [] => true
  | (k, a) :: l, (k', b) :: m => k == k' && pyEq a b && pyFields l m
  | _, _ => false

def pyAll : List Schema → List Schema → Bool
  | [], [] => true
  | a :: l, b :: m => pyEq a b && pyAll l m
  | _, _ => false

def pyProperties : Option (List (String × Schema)) → Option (List (String × Schema)) → Bool
  | none, none => true
  | some l, some m => pyFields l m
  | _, _ => false

def pyItems : Option Schema → Option Schema → Bool
  | none, none => true
  | some a, some b => pyEq a b
  | _, _ => false

def pyAnyOf : Option (List Schema) → Option (List Schema) → Bool
  | none, none => true
  | some l, some m => pyAll l m
  | _, _ => false

end

/-! ### Unions with the null type -/

/-- `_NULL`. -/
def isNull (S : Schema) : Bool :=
  S.type = some (.one "null") && S.properties.isNone && S.required.isNone && S.enum.isNone &&
    S.items.isNone && S.default.isNone && (limits.all fun k => (S.limit k).isNone) && S.anyOf.isNone

/-- `outer.get(k, v) == v`. -/
def agree {α : Type} (eq : α → α → Bool) : Option α → Option α → Bool
  | some a, some b => eq a b
  | _, _ => true

/-- No keyword beside the union has another value in the branch. -/
def agrees (S T : Schema) : Bool :=
  agree (· == ·) S.type T.type && agree pyFields S.properties T.properties &&
    agree (· == ·) S.required T.required && agree pyJsons S.enum T.enum &&
    agree pyEq S.items T.items && agree pyJson S.default T.default &&
    limits.all fun k => agree (· == ·) (S.limit k) (T.limit k)

/-- `{**T, **outer}`. -/
def merge (S T : Schema) : Schema where
  type := S.type.or T.type
  properties := S.properties.or T.properties
  required := S.required.or T.required
  enum := S.enum.or T.enum
  items := S.items.or T.items
  default := S.default.or T.default
  limit k := (S.limit k).or (T.limit k)
  anyOf := T.anyOf

/-- The branch that a union has beside the null type, if it can stand for the union. -/
def soleBranch (S : Schema) : Option Schema :=
  match S.branches.filter fun b => !isNull b with
  | [T] => if agrees S T then some T else none
  | _ => none

/-- `_split_nullable`. -/
def splitNullable (S : Schema) : Schema × Bool :=
  if S.branches.any isNull then
    match soleBranch S with
    | some T => (merge S T, true)
    | none => (S, true)
  else (S, false)

/-- `_branches`. -/
def branches (S : Schema) : List (Schema × ℕ) := S.branches.zipIdx.filter fun p => !isNull p.1

/-! ### Changes -/

inductive Direction
  /-- The client sends it. -/
  | input
  /-- The client receives it. -/
  | output
  deriving DecidableEq

inductive Kind
  | breaking
  | additive
  deriving DecidableEq

inductive What
  | replaced
  | nullable (now : Bool)
  | type (was now : Option Types)
  | removed
  | added
  | addedAsRequired
  | required (now : Bool)
  | enumRemoved (values : List Json)
  | enumAdded (values : List Json)
  | default (was now : Option Json)
  | limit (key : Limit) (was now : Option ℚ)
  | unclassified

structure Change where
  kind : Kind
  place : String
  what : What

/-- `_widening`. -/
def widening (widened : Bool) (direction : Direction) : Kind :=
  if widened = decide (direction = .input) then .additive else .breaking

section Diff
variable (direction : Direction) (place : String) (old new : Schema)

def diffNullable (was now : Bool) : List Change :=
  if was ≠ now then [⟨widening now direction, place, .nullable now⟩] else []

def at_ (name : String) : String := place ++ "." ++ name

def diffNames : List Change :=
  ((old.names.filter fun name => !new.names.contains name).map fun name =>
    ⟨.breaking, at_ place name, .removed⟩) ++
  (new.names.filter fun name => !old.names.contains name).map fun name =>
    if direction = .input ∧ name ∈ new.required.getD [] then
      ⟨.breaking, at_ place name, .addedAsRequired⟩
    else ⟨.additive, at_ place name, .added⟩

def diffRequired (name : String) : List Change :=
  let was := (old.required.getD []).contains name
  let now := (new.required.getD []).contains name
  if was ≠ now then
    let tightened := if direction = .input then now else was
    [⟨if tightened then .breaking else .additive, at_ place name, .required now⟩]
  else []

/-- The values are compared by their text. -/
def diffEnum : List Change :=
  let removed := (old.enum.getD []).filter fun v => !(new.enum.getD []).contains v
  let added := (new.enum.getD []).filter fun v => !(old.enum.getD []).contains v
  (if removed ≠ [] then [⟨.breaking, place, .enumRemoved removed⟩] else []) ++
    if added ≠ [] then [⟨.additive, place, .enumAdded added⟩] else []

def diffDefault : List Change :=
  if pyJson (old.default.getD (.atom .null)) (new.default.getD (.atom .null)) then []
  else [⟨.additive, place, .default old.default new.default⟩]

/-- The limit is looser now. -/
def looser (k : Limit) : Option ℚ → Option ℚ → Bool
  | _, none => true
  | none, some _ => false
  | some was, some now => if k.upper then was < now else now < was

/-- `_diff_limits`. -/
def diffLimits : List Change :=
  limits.flatMap fun k =>
    if old.limit k = new.limit k then []
    else [⟨widening (looser k (old.limit k) (new.limit k)) direction, place,
      .limit k (old.limit k) (new.limit k)⟩]

end Diff

lemma soleBranch_mem {S T : Schema} (h : soleBranch S = some T) : T ∈ S.branches := by
  unfold soleBranch at h
  split at h
  · rename_i b hb
    split at h <;> cases h
    exact (List.mem_filter.1 (hb ▸ List.mem_singleton_self _)).1
  · cases h

lemma fields_merge (S T : Schema) :
    (merge S T).fields = S.fields ∧ S.properties.isSome ∨
      (merge S T).fields = T.fields ∧ S.properties = none := by
  cases h : S.properties <;> simp [Schema.fields, merge, h]

/-- A schema that is compared as a part of this one. -/
def Part (S s : Schema) : Prop :=
  (∃ p ∈ S.fields, p.2 = s) ∨ S.items = some s ∨ s ∈ S.branches

lemma Part.sizeOf_lt {S s : Schema} (h : Part S s) : sizeOf s < sizeOf S := by
  obtain ⟨p, hp, rfl⟩ | h | h := h
  · exact Schema.sizeOf_field hp
  · exact Schema.sizeOf_items h
  · exact Schema.sizeOf_branch h

lemma part_of_merge {S T s : Schema} (h : Part (merge S T) s) : Part S s ∨ Part T s := by
  obtain ⟨p, hp, rfl⟩ | h | h := h
  · obtain ⟨heq, -⟩ | ⟨heq, -⟩ := fields_merge S T
    · exact .inl (.inl ⟨p, heq ▸ hp, rfl⟩)
    · exact .inr (.inl ⟨p, heq ▸ hp, rfl⟩)
  · obtain h | ⟨-, h⟩ := Option.or_eq_some_iff.1 h
    · exact .inl (.inr (.inl h))
    · exact .inr (.inr (.inl h))
  · exact .inr (.inr (.inr h))

/-- What is compared next is smaller. -/
lemma sizeOf_part {S s : Schema} (h : Part (splitNullable S).1 s) : sizeOf s < sizeOf S := by
  unfold splitNullable at h
  split at h
  · split at h
    · rename_i T hT
      obtain h | h := part_of_merge h
      · exact h.sizeOf_lt
      · exact h.sizeOf_lt.trans (Schema.sizeOf_branch (soleBranch_mem hT))
    · exact h.sizeOf_lt
  · exact h.sizeOf_lt

lemma mem_branches {S : Schema} {p : Schema × ℕ} (h : p ∈ branches S) : p.1 ∈ S.branches :=
  List.fst_mem_of_mem_zipIdx (List.mem_filter.1 h).1

/-- `diff_schema`. -/
def diffSchema (direction : Direction) (place : String) (old new : Schema) : List Change :=
  if pyEq old new then []
  else
    let o := splitNullable old
    let n := splitNullable new
    diffNullable direction place o.2 n.2 ++
      if o.1.type ≠ n.1.type then [⟨.breaking, place, .type o.1.type n.1.type⟩]
      else
        diffNames direction place o.1 n.1 ++
        (o.1.fields.attach.flatMap fun p =>
          match n.1.fields.lookup p.1.1 with
          | none => []
          | some b => diffSchema direction (at_ place p.1.1) p.1.2 b ++
              diffRequired direction place o.1 n.1 p.1.1) ++
        diffEnum place o.1 n.1 ++
        (match _h : o.1.items, n.1.items with
        | none, none => []
        | some a, some b => diffSchema direction (place ++ "[]") a b
        | _, _ => [⟨.breaking, place ++ "[]", .replaced⟩]) ++
        diffDefault place o.1 n.1 ++ diffLimits direction place o.1 n.1 ++
        if pyAll ((branches o.1).map Prod.fst) ((branches n.1).map Prod.fst) then []
        else if (branches o.1).length = (branches n.1).length then
          ((branches o.1).zip (branches n.1)).attach.flatMap fun p =>
            diffSchema direction (place ++ "<" ++ toString p.1.2.2 ++ ">") p.1.1.1 p.1.2.1
        else [⟨.breaking, place, .unclassified⟩]
termination_by sizeOf old
decreasing_by
  · exact sizeOf_part (.inl ⟨p.1, p.2, rfl⟩)
  · exact sizeOf_part (.inr (.inl _h))
  · exact sizeOf_part (.inr (.inr (mem_branches (List.of_mem_zip p.2).1)))

/-! ### What the pieces are -/

section Pieces
variable {S T : Schema} {r : Reading} {v : Json}

def nonNull (S : Schema) : List Schema := S.branches.filter fun b => !isNull b

/-- A union of nothing beside the null type. -/
def Void (S : Schema) : Prop := S.anyOf ≠ none ∧ nonNull S = []

/-- The keywords beside the union accept null. -/
structure AdmitsNull (S : Schema) : Prop where
  type : ∀ ty, S.type = some ty → ty.admits (.atom .null) = true
  enum : ∀ l, S.enum = some l → (Json.atom .null).IsIn l

/-- What is said beside the union. -/
structure Keywords (r : Reading) (S : Schema) (v : Json) : Prop where
  own : Own r S v
  properties : ∀ name s fields x, S.fields.lookup name = some s → v = .obj fields →
    (name, x) ∈ fields → Accepts r s x
  items : ∀ s l x, S.items = some s → v = .arr l → x ∈ l → Accepts r s x

/-- A schema without the null type in its union. -/
structure Base (r : Reading) (S : Schema) (v : Json) : Prop extends Keywords r S v where
  branch : nonNull S = [] ∨ ∃ b ∈ nonNull S, Accepts r b v

lemma isNull_type (h : isNull S = true) : S.type = some (.one "null") := by
  simp only [isNull, Bool.and_eq_true_iff, decide_eq_true_iff] at h
  exact h.1.1.1.1.1.1.1

lemma eq_null_of_isNull (h : isNull S = true) (ha : Accepts r S v) : v = .atom .null := by
  cases ha with
  | intro branch own =>
    have hty := own.type _ (isNull_type h)
    cases v with
    | atom a =>
      cases a with
      | null => rfl
      | _ => simp [Types.admits, Json.isA] at hty
    | arr l => simp [Types.admits, Json.isA] at hty
    | obj l => simp [Types.admits, Json.isA] at hty

lemma measure_null (k : Limit) : (Json.atom .null).measure k = none := by cases k <;> rfl

/-- Null is accepted where the keywords beside the union accept it and so does the union. -/
lemma accepts_null (branch : Option Schema) (h : AdmitsNull S) (hp : Picks S branch)
    (hb : ∀ b, branch = some b → Accepts r b (.atom .null)) : Accepts r S (.atom .null) :=
  .intro branch ⟨h.type, nofun, fun l hl => .inl (h.enum l hl),
    fun k bound m _ hm => by simp [measure_null] at hm, .inr nofun⟩ hp hb nofun nofun

lemma accepts_isNull (h : isNull S = true) : Accepts r S (.atom .null) := by
  have hty := isNull_type h
  simp only [isNull, Bool.and_eq_true_iff, decide_eq_true_iff, Option.isNone_iff_eq_none] at h
  obtain ⟨⟨⟨⟨⟨⟨⟨-, -⟩, -⟩, henum⟩, -⟩, -⟩, -⟩, hany⟩ := h
  refine accepts_null none ⟨fun ty h => ?_, fun l hl => ?_⟩ ?_ nofun
  · obtain rfl := Option.some.inj (hty.symm.trans h)
    rfl
  · rw [henum] at hl
    cases hl
  · rw [Picks, hany]

lemma accepts_of_base (h : Base r S v) (hv : ¬Void S) : Accepts r S v := by
  cases hS : S.anyOf with
  | none => exact .intro none h.own (by rw [Picks, hS]) nofun h.properties h.items
  | some bs =>
    obtain hnil | ⟨b, hb, ha⟩ := h.branch
    · exact absurd ⟨by simp [hS], hnil⟩ hv
    · have hmem : b ∈ S.branches := (List.mem_filter.1 hb).1
      rw [Schema.branches, hS] at hmem
      refine .intro (some b) h.own ?_ (fun b' hb' => Option.some.inj hb' ▸ ha) h.properties h.items
      rw [Picks, hS]
      exact ⟨b, hmem, rfl⟩

/-- What a schema accepts it accepts without the null type, or it is null. -/
lemma base_of_accepts (h : Accepts strict S v) :
    (Base strict S v ∧ ¬Void S) ∨
      (v = .atom .null ∧ S.branches.any isNull = true ∧ AdmitsNull S) := by
  cases h with
  | intro branch own pick inner properties items =>
    cases hS : S.anyOf with
    | none =>
      have hnil : nonNull S = [] := by simp [nonNull, Schema.branches, hS]
      exact .inl ⟨⟨⟨own, properties, items⟩, .inl hnil⟩, fun h => h.1 hS⟩
    | some bs =>
      rw [Picks, hS] at pick
      obtain ⟨b, hb, rfl⟩ := pick
      have hmem : b ∈ S.branches := by rw [Schema.branches, hS]; exact hb
      cases hn : isNull b with
      | true =>
        obtain rfl := eq_null_of_isNull hn (inner b rfl)
        exact .inr ⟨rfl, List.any_eq_true.2 ⟨b, hmem, hn⟩, own.type,
          fun l hl => (own.enum l hl).resolve_right id⟩
      | false =>
        have hb : b ∈ nonNull S := List.mem_filter.2 ⟨hmem, by simp [hn]⟩
        exact .inl ⟨⟨⟨own, properties, items⟩, .inr ⟨b, hb, inner b rfl⟩⟩,
          fun h => by simp [h.2] at hb⟩

end Pieces

/-! ### A union that is compared as its branch -/

section Merge
variable {S T : Schema} {r : Reading} {v : Json}

lemma soleBranch_eq_some (h : soleBranch S = some T) : nonNull S = [T] ∧ agrees S T = true := by
  unfold soleBranch at h
  split at h
  · rename_i b hb
    split at h <;> cases h
    exact ⟨hb, ‹_›⟩
  · cases h

lemma names_eq_of_pyFields {l m : List (String × Schema)} (h : pyFields l m = true) :
    l.map Prod.fst = m.map Prod.fst := by
  induction l generalizing m with
  | nil =>
    cases m with
    | nil => rfl
    | cons p m => simp [pyFields] at h
  | cons p l ih =>
    cases m with
    | nil => simp [pyFields] at h
    | cons q m =>
      obtain ⟨k, a⟩ := p
      obtain ⟨k', b⟩ := q
      simp only [pyFields, Bool.and_eq_true_iff, beq_iff_eq] at h
      rw [List.map_cons, List.map_cons, h.1.1, ih h.2]

structure Agrees (S T : Schema) : Prop where
  type : ∀ a b, S.type = some a → T.type = some b → a = b
  names : S.properties ≠ none → T.properties ≠ none → S.names = T.names
  required : ∀ a b, S.required = some a → T.required = some b → a = b
  limit : ∀ k a b, S.limit k = some a → T.limit k = some b → a = b

lemma eq_of_agree {α : Type} [BEq α] [LawfulBEq α] {x y : Option α}
    (h : agree (· == ·) x y = true) (a b : α) (ha : x = some a) (hb : y = some b) : a = b := by
  subst ha hb
  exact eq_of_beq h

lemma mem_limits (k : Limit) : k ∈ limits := by cases k <;> decide

lemma Agrees.of_agrees (h : agrees S T = true) : Agrees S T := by
  simp only [agrees, Bool.and_eq_true_iff, List.all_eq_true] at h
  obtain ⟨⟨⟨⟨⟨⟨htype, hprops⟩, hreq⟩, -⟩, -⟩, -⟩, hlimit⟩ := h
  refine ⟨eq_of_agree htype, fun hS hT => ?_, eq_of_agree hreq, fun k =>
    eq_of_agree (hlimit k (mem_limits k))⟩
  obtain ⟨l, hl⟩ := Option.ne_none_iff_exists'.1 hS
  obtain ⟨m, hm⟩ := Option.ne_none_iff_exists'.1 hT
  rw [hl, hm] at hprops
  have hnames : l.map Prod.fst = m.map Prod.fst :=
    names_eq_of_pyFields (show pyFields l m = true from hprops)
  rw [Schema.names, Schema.names, Schema.fields, Schema.fields, hl, hm]
  exact hnames

/-- No keyword beside the union has a value in the branch that is another to a schema. -/
structure TrulyAgrees (S T : Schema) : Prop where
  enum : ∀ l m, S.enum = some l → T.enum = some m → ∀ v : Json, v.IsIn l → v.IsIn m
  properties : ∀ name a b, S.fields.lookup name = some a → T.fields.lookup name = some b → a.Same b
  items : ∀ a b, S.items = some a → T.items = some b → a.Same b

lemma own_merge (hS : Own r S v) (hT : Own r T v) : Own r (merge S T) v where
  type ty h := (Option.or_eq_some_iff.1 h).elim (hS.type ty) fun h => hT.type ty h.2
  required fields hv name hname := by
    cases hr : S.required with
    | none => exact hT.required fields hv name (by simpa [merge, hr] using hname)
    | some l => exact hS.required fields hv name (by simpa [merge, hr] using hname)
  enum l h := (Option.or_eq_some_iff.1 h).elim (hS.enum l) fun h => hT.enum l h.2
  limit k bound m h hm :=
    (Option.or_eq_some_iff.1 h).elim (hS.limit k bound m · hm) fun h => hT.limit k bound m h.2 hm
  closed := by
    obtain ⟨heq, hsome⟩ | ⟨heq, hnone⟩ := fields_merge S T
    · refine hS.closed.imp id fun hc fields _ hv p hmem => ?_
      rw [Schema.names, heq]
      exact hc fields (Option.isSome_iff_ne_none.1 hsome) hv p hmem
    · refine hT.closed.imp id fun hc fields hp hv p hmem => ?_
      rw [Schema.names, heq]
      exact hc fields (by simpa [merge, hnone] using hp) hv p hmem

/-- A value of the union that is not null has all keywords of the branch. -/
lemma base_merge (hS : Keywords r S v) (hT : Base r T v) :
    Base r (merge S T) v where
  own := own_merge hS.own hT.own
  properties name s fields x hs hv hx := by
    obtain ⟨heq, -⟩ | ⟨heq, -⟩ := fields_merge S T
    · exact hS.properties name s fields x (heq ▸ hs) hv hx
    · exact hT.properties name s fields x (heq ▸ hs) hv hx
  items s l x hs hv hx :=
    (Option.or_eq_some_iff.1 hs).elim (hS.items s l x · hv hx) fun h => hT.items s l x h.2 hv hx
  branch := hT.branch

/-- A keyword of the branch is one of the merged schema, as the one beside the union is no other. -/
lemma or_eq_some {α : Type} {x y : Option α} {b : α} (h : ∀ a b, x = some a → y = some b → a = b)
    (hy : y = some b) : x.or y = some b := by
  cases x with
  | none => exact hy
  | some a => rw [h a b rfl hy, Option.some_or]

lemma own_of_merge (ha : Agrees S T) (ht : TrulyAgrees S T) (h : Own r (merge S T) v) :
    Own r S v ∧ Own r T v := by
  constructor
  · refine ⟨fun ty hty => h.type ty (by simp [merge, hty]), fun fields hv name hname => ?_,
      fun l hl => h.enum l (by simp [merge, hl]),
      fun k bound m hb hm => h.limit k bound m (by simp [merge, hb]) hm,
      h.closed.imp id fun hc fields hp hv p hmem => ?_⟩
    · refine h.required fields hv name ?_
      cases hr : S.required with
      | none => simp [hr] at hname
      | some l => simpa [merge, hr] using hname
    · obtain ⟨heq, -⟩ | ⟨-, hnone⟩ := fields_merge S T
      · rw [Schema.names, ← heq]
        refine hc fields ?_ hv p hmem
        obtain ⟨l, hl⟩ := Option.ne_none_iff_exists'.1 hp
        simp [merge, hl]
      · exact absurd hnone hp
  · refine ⟨fun ty hty => h.type ty (or_eq_some ha.type hty), fun fields hv name hname => ?_,
      fun l hl => ?_, fun k bound m hb hm => h.limit k bound m (or_eq_some (ha.limit k) hb) hm,
      h.closed.imp id fun hc fields hp hv p hmem => ?_⟩
    · cases hr : T.required with
      | none => simp [hr] at hname
      | some l =>
        have hm : (merge S T).required = some l := or_eq_some ha.required hr
        exact h.required fields hv name (by simpa [hm, hr] using hname)
    · cases hS : S.enum with
      | none => exact h.enum l (by simp [merge, hS, hl])
      | some m =>
        exact (h.enum m (by simp [merge, hS])).imp (ht.enum m l hS hl v) id
    · have hmp : (merge S T).properties ≠ none := by
        cases hS : S.properties with
        | none => simpa [merge, hS] using hp
        | some l => simp [merge, hS]
      have hnames : (merge S T).names = T.names := by
        obtain ⟨heq, hsome⟩ | ⟨heq, -⟩ := fields_merge S T
        · rw [← ha.names (Option.isSome_iff_ne_none.1 hsome) hp, Schema.names, heq]
          rfl
        · rw [Schema.names, heq]
          rfl
      exact hnames ▸ hc fields hmp hv p hmem

lemma keywords_of_merge (ha : Agrees S T) (ht : TrulyAgrees S T) (h : Base r (merge S T) v) :
    Keywords r S v ∧ Base r T v := by
  obtain ⟨hS, hT⟩ := own_of_merge ha ht h.own
  refine ⟨⟨hS, fun name s fields x hs hv hx => ?_, fun s l x hs hv hx => ?_⟩,
    ⟨hT, fun name t fields x htf hv hx => ?_, fun t l x hti hv hx => ?_⟩, h.branch⟩
  · obtain ⟨heq, -⟩ | ⟨-, hnone⟩ := fields_merge S T
    · exact h.properties name s fields x (heq ▸ hs) hv hx
    · simp [Schema.fields, hnone] at hs
  · exact h.items s l x (by simp [merge, hs]) hv hx
  · obtain ⟨heq, hsome⟩ | ⟨heq, -⟩ := fields_merge S T
    · have hTp : T.properties ≠ none := fun hn => by simp [Schema.fields, hn] at htf
      have hname : name ∈ S.names :=
        ha.names (Option.isSome_iff_ne_none.1 hsome) hTp ▸ mem_names_iff_lookup.2 ⟨t, htf⟩
      obtain ⟨s, hs⟩ := mem_names_iff_lookup.1 hname
      exact (h.properties name s fields x (heq ▸ hs) hv hx).congr (ht.properties name s t hs htf)
    · exact h.properties name t fields x (heq ▸ htf) hv hx
  · cases hi : S.items with
    | none => exact h.items t l x (by simp [merge, hi, hti]) hv hx
    | some s => exact (h.items s l x (by simp [merge, hi]) hv hx).congr (ht.items s t hi hti)

/-- What a schema accepts is accepted by what it is compared as, or it is null. -/
lemma base_split (h : Accepts strict S v) :
    (Base strict (splitNullable S).1 v ∧ ¬Void (splitNullable S).1) ∨
      (v = .atom .null ∧ (splitNullable S).2 = true ∧ AdmitsNull S) := by
  unfold splitNullable
  obtain ⟨hb, hv⟩ | ⟨rfl, hnull, hadmits⟩ := base_of_accepts h
  · split
    · split
      · rename_i T hT
        obtain ⟨hone, -⟩ := soleBranch_eq_some hT
        obtain ⟨b, hmem, hab⟩ := hb.branch.resolve_left (by simp [hone])
        obtain rfl : b = T := by simpa [hone] using hmem
        obtain ⟨hbase, hvoid⟩ | ⟨rfl, -, -⟩ := base_of_accepts hab
        · exact .inl ⟨base_merge hb.toKeywords hbase, hvoid⟩
        · exact .inr ⟨rfl, rfl, hb.own.type, fun l hl => (hb.own.enum l hl).resolve_right id⟩
      · exact .inl ⟨hb, hv⟩
    · exact .inl ⟨hb, hv⟩
  · right
    rw [if_pos hnull]
    split <;> exact ⟨rfl, rfl, hadmits⟩

/-- Where a schema is compared as its branch, the two agree. -/
def Faithful (S : Schema) : Prop :=
  ∀ T, S.branches.any isNull = true → soleBranch S = some T → TrulyAgrees S T

/-- A schema accepts what is accepted by what it is compared as, and null if that is said. -/
lemma accepts_split (hf : Faithful S) (h : Base r (splitNullable S).1 v)
    (hv : ¬Void (splitNullable S).1) : Accepts r S v := by
  unfold splitNullable at h hv
  split at h
  · rename_i hnull
    rw [if_pos hnull] at hv
    split at h
    · rename_i T hT
      rw [hT] at hv
      obtain ⟨hone, hagrees⟩ := soleBranch_eq_some hT
      obtain ⟨hS, hbT⟩ := keywords_of_merge (.of_agrees hagrees) (hf T hnull hT) h
      have hmem : T ∈ nonNull S := hone ▸ List.mem_singleton_self T
      exact accepts_of_base ⟨hS, .inr ⟨T, hmem, accepts_of_base hbT hv⟩⟩ fun h => by
        simp [h.2] at hmem
    · rename_i hT
      rw [hT] at hv
      exact accepts_of_base h hv
  · rename_i hnull
    rw [if_neg hnull] at hv
    exact accepts_of_base h hv

lemma accepts_null_of_split (h : (splitNullable S).2 = true) (ha : AdmitsNull S) :
    Accepts r S (.atom .null) := by
  have hnull : S.branches.any isNull = true := by
    unfold splitNullable at h
    split at h
    · assumption
    · cases h
  obtain ⟨b, hb, hbn⟩ := List.any_eq_true.1 hnull
  refine accepts_null (some b) ha ?_ fun b' hb' => Option.some.inj hb' ▸ accepts_isNull hbn
  unfold Picks
  cases hS : S.anyOf with
  | none => simp [Schema.branches, hS] at hb
  | some bs =>
    rw [Schema.branches, hS] at hb
    exact ⟨b, hb, rfl⟩

end Merge

/-! ### Where the comparison misses nothing -/

/-- The side whose values are there. -/
def giver {α : Type} (d : Direction) (old new : α) : α :=
  match d with
  | .input => old
  | .output => new

/-- The side that has to take them. -/
def taker {α : Type} (d : Direction) (old new : α) : α :=
  match d with
  | .input => new
  | .output => old

lemma giver_apply {α β : Type} (f : α → β) (d : Direction) (old new : α) :
    f (giver d old new) = giver d (f old) (f new) := by cases d <;> rfl

lemma taker_apply {α β : Type} (f : α → β) (d : Direction) (old new : α) :
    f (taker d old new) = taker d (f old) (f new) := by cases d <;> rfl

/-- None of what the comparison of two schemas overlooks is there. -/
structure Plain (d : Direction) (old new : Schema) : Prop where
  /-- No enum, and no list of properties, where there was none. -/
  enum : d = .input → (splitNullable new).1.enum ≠ none → (splitNullable old).1.enum ≠ none
  properties : d = .input → (splitNullable new).1.properties ≠ none →
    (splitNullable old).1.properties ≠ none
  /-- No enum without values that is dropped. -/
  noValues : d = .output → (splitNullable old).1.enum = some [] →
    (splitNullable new).1.enum ≠ none
  /-- A name that only the taker requires is that of a property that is looked at. -/
  required : ∀ name ∈ (taker d (splitNullable old).1 (splitNullable new).1).required.getD [],
    name ∉ (giver d (splitNullable old).1 (splitNullable new).1).required.getD [] →
    name ∈ (splitNullable old).1.names ∨ d = .input ∧ name ∈ (splitNullable new).1.names
  /-- No union of nothing but the null type where the other side has no union. -/
  void : Void (taker d (splitNullable old).1 (splitNullable new).1) →
    nonNull (giver d (splitNullable old).1 (splitNullable new).1) = [] →
    Void (giver d (splitNullable old).1 (splitNullable new).1)
  /-- No keyword beside the union that keeps null out. -/
  null : (splitNullable old).2 = true → (splitNullable new).2 = true →
    AdmitsNull (giver d old new) → AdmitsNull (taker d old new)
  faithful : Faithful (taker d old new)

/-- The same of all schemas that are compared, and Python finds none equal that differ. -/
inductive Clear (d : Direction) : Schema → Schema → Prop
  | same {old new : Schema} (eq : pyEq old new = true) (same : old.Same new) : Clear d old new
  | differ {old new : Schema} (ne : pyEq old new = false)
      (plain : (splitNullable old).1.type = (splitNullable new).1.type → Plain d old new)
      (properties : (splitNullable old).1.type = (splitNullable new).1.type → ∀ name a b,
        (splitNullable old).1.fields.lookup name = some a →
        (splitNullable new).1.fields.lookup name = some b → Clear d a b)
      (items : (splitNullable old).1.type = (splitNullable new).1.type → ∀ a b,
        (splitNullable old).1.items = some a → (splitNullable new).1.items = some b → Clear d a b)
      (branches : (splitNullable old).1.type = (splitNullable new).1.type →
        (nonNull (splitNullable old).1).length = (nonNull (splitNullable new).1).length →
        ∀ (i : ℕ) a b, (nonNull (splitNullable old).1)[i]? = some a →
          (nonNull (splitNullable new).1)[i]? = some b → Clear d a b) : Clear d old new

/-! ### The parts of a comparison -/

section Parts
variable (d : Direction) (place : String) (o n : Schema)

def diffProperties : List Change :=
  o.fields.flatMap fun p =>
    match n.fields.lookup p.1 with
    | none => []
    | some b => diffSchema d (at_ place p.1) p.2 b ++ diffRequired d place o n p.1

def diffItems : List Change :=
  match o.items, n.items with
  | none, none => []
  | some a, some b => diffSchema d (place ++ "[]") a b
  | _, _ => [⟨.breaking, place ++ "[]", .replaced⟩]

def diffBranches : List Change :=
  if pyAll ((branches o).map Prod.fst) ((branches n).map Prod.fst) then []
  else if (branches o).length = (branches n).length then
    ((branches o).zip (branches n)).flatMap fun p =>
      diffSchema d (place ++ "<" ++ toString p.2.2 ++ ">") p.1.1 p.2.1
  else [⟨.breaking, place, .unclassified⟩]

end Parts

lemma flatMap_attach {α β : Type} (l : List α) (f : α → List β) :
    (l.attach.flatMap fun x => f x.1) = l.flatMap f := by
  conv_rhs => rw [← List.attach_map_subtype_val l, List.flatMap_map]

lemma diffItems_eq (d : Direction) (place : String) (o n : Schema) :
    (match _h : o.items, n.items with
      | none, none => []
      | some a, some b => diffSchema d (place ++ "[]") a b
      | _, _ => [⟨.breaking, place ++ "[]", .replaced⟩]) = diffItems d place o n := by
  unfold diffItems
  cases o.items <;> cases n.items <;> rfl

lemma diffSchema_of_pyEq {d : Direction} {place : String} {old new : Schema}
    (h : pyEq old new = true) : diffSchema d place old new = [] := by
  rw [diffSchema, if_pos h]

lemma diffSchema_of_ne {d : Direction} {place : String} {old new : Schema}
    (h : pyEq old new = false) :
    diffSchema d place old new =
      diffNullable d place (splitNullable old).2 (splitNullable new).2 ++
        if (splitNullable old).1.type ≠ (splitNullable new).1.type then
          [⟨.breaking, place, .type (splitNullable old).1.type (splitNullable new).1.type⟩]
        else
          diffNames d place (splitNullable old).1 (splitNullable new).1 ++
          diffProperties d place (splitNullable old).1 (splitNullable new).1 ++
          diffEnum place (splitNullable old).1 (splitNullable new).1 ++
          diffItems d place (splitNullable old).1 (splitNullable new).1 ++
          diffDefault place (splitNullable old).1 (splitNullable new).1 ++
          diffLimits d place (splitNullable old).1 (splitNullable new).1 ++
          diffBranches d place (splitNullable old).1 (splitNullable new).1 := by
  rw [diffSchema, if_neg (by simp [h]), diffProperties,
    ← flatMap_attach (splitNullable old).1.fields, diffBranches,
    ← flatMap_attach ((branches (splitNullable old).1).zip (branches (splitNullable new).1)),
    ← diffItems_eq]

/-! ### What it means that nothing is breaking -/

/-- No change is breaking, and the values added to enums are excused from what the client gets. -/
structure Fine (d : Direction) (r : Reading) (cs : List Change) : Prop where
  kind : ∀ c ∈ cs, c.kind ≠ .breaking
  excused : d = .output → ∀ c ∈ cs, ∀ values, c.what = .enumAdded values →
    ∀ w ∈ values, ∀ v, w.Same v → r.excused v

section Facts
variable {d : Direction} {r : Reading} {place : String} {o n : Schema} {cs cs' : List Change}

lemma Fine.subset (h : Fine d r cs) (hs : cs' ⊆ cs) : Fine d r cs' :=
  ⟨fun c hc => h.kind c (hs hc), fun hd c hc => h.excused hd c (hs hc)⟩

lemma Fine.left (h : Fine d r (cs ++ cs')) : Fine d r cs := h.subset (List.subset_append_left _ _)

lemma Fine.right (h : Fine d r (cs ++ cs')) : Fine d r cs' :=
  h.subset (List.subset_append_right _ _)

lemma Fine.flatMap {α : Type} {l : List α} {f : α → List Change} (h : Fine d r (l.flatMap f))
    {a : α} (ha : a ∈ l) : Fine d r (f a) :=
  h.subset fun _ hc => List.mem_flatMap.2 ⟨a, ha, hc⟩

lemma Fine.not_breaking {place : String} {what : What}
    (h : Fine d r [⟨.breaking, place, what⟩]) : False :=
  h.kind _ (List.mem_singleton_self _) rfl

lemma Fine.nullable {was now : Bool} (h : Fine d r (diffNullable d place was now))
    (hg : giver d was now = true) : taker d was now = true := by
  by_contra ht
  have hne : was ≠ now := by
    rintro rfl
    cases d <;> exact ht hg
  rw [diffNullable, if_pos hne] at h
  refine h.kind _ (List.mem_singleton_self _) ?_
  cases d <;> cases was <;> cases now <;> simp_all [giver, taker, widening]

lemma Fine.removed (h : Fine d r (diffNames d place o n)) {name : String} (ho : name ∈ o.names) :
    name ∈ n.names := by
  by_contra hn
  refine h.left.kind _ (List.mem_map_of_mem (a := name) (List.mem_filter.2 ⟨ho, ?_⟩)) rfl
  simpa using hn

lemma Fine.added (h : Fine .input r (diffNames .input place o n)) {name : String}
    (hn : name ∈ n.names) (ho : name ∉ o.names) : name ∉ n.required.getD [] := by
  intro hreq
  have hmem := h.right.kind _
    (List.mem_map_of_mem (a := name) (List.mem_filter.2 ⟨hn, by simpa using ho⟩))
  rw [if_pos ⟨rfl, hreq⟩] at hmem
  exact hmem rfl

lemma Fine.property (h : Fine d r (diffProperties d place o n)) {name : String} {a b : Schema}
    (ha : o.fields.lookup name = some a) (hb : n.fields.lookup name = some b) :
    Fine d r (diffSchema d (at_ place name) a b) ∧ Fine d r (diffRequired d place o n name) := by
  have hone := h.flatMap (mem_of_lookup ha)
  rw [hb] at hone
  exact ⟨hone.left, hone.right⟩

lemma Fine.required {name : String} (h : Fine d r (diffRequired d place o n name))
    (ht : name ∈ (taker d o n).required.getD []) : name ∈ (giver d o n).required.getD [] := by
  by_contra hg
  have ht := List.contains_iff_mem.2 ht
  have hg : ((giver d o n).required.getD []).contains name = false := by simpa using hg
  unfold diffRequired at h
  cases d with
  | input =>
    have ht : (n.required.getD []).contains name = true := ht
    have hg : (o.required.getD []).contains name = false := hg
    simp only [ht, hg, ne_eq, Bool.false_eq_true, not_false_eq_true, if_true] at h
    exact h.not_breaking
  | output =>
    have ht : (o.required.getD []).contains name = true := ht
    have hg : (n.required.getD []).contains name = false := hg
    simp only [ht, hg, ne_eq, Bool.true_eq_false, not_false_eq_true, if_true, reduceCtorEq,
      if_false] at h
    exact h.not_breaking

lemma Fine.enumRemoved (h : Fine d r (diffEnum place o n)) {w : Json} (hw : w ∈ o.enum.getD []) :
    w ∈ n.enum.getD [] := by
  by_contra hn
  have hmem : w ∈ (o.enum.getD []).filter fun v => !(n.enum.getD []).contains v :=
    List.mem_filter.2 ⟨hw, by simpa using hn⟩
  have h := h.left
  rw [if_pos (List.ne_nil_of_mem hmem)] at h
  exact h.not_breaking

lemma Fine.enumAdded (h : Fine .output r (diffEnum place o n)) {w v : Json}
    (hw : w ∈ n.enum.getD []) (ho : w ∉ o.enum.getD []) (hv : w.Same v) : r.excused v := by
  have hmem : w ∈ (n.enum.getD []).filter fun v => !(o.enum.getD []).contains v :=
    List.mem_filter.2 ⟨hw, by simpa using ho⟩
  have h := h.right
  rw [if_pos (List.ne_nil_of_mem hmem)] at h
  exact h.excused rfl _ (List.mem_singleton_self _) _ rfl w hmem v hv

lemma Fine.limit (h : Fine d r (diffLimits d place o n)) {k : Limit} {bound : ℚ}
    (ht : (taker d o n).limit k = some bound) :
    ∃ bound', (giver d o n).limit k = some bound' ∧ k.Looser bound' bound := by
  have hrefl : ∀ b, k.Looser b b := fun b => by unfold Limit.Looser; split <;> exact le_refl b
  have h := h.flatMap (mem_limits k)
  by_cases heq : o.limit k = n.limit k
  · refine ⟨bound, ?_, hrefl bound⟩
    cases d
    · exact heq.trans ht
    · exact heq.symm.trans ht
  · rw [if_neg heq] at h
    have hkind := h.kind _ (List.mem_singleton_self _)
    cases d with
    | input =>
      have ht : n.limit k = some bound := ht
      cases ho : o.limit k with
      | none => simp [widening, looser, ho, ht] at hkind
      | some was =>
        refine ⟨was, ho, ?_⟩
        unfold Limit.Looser
        cases hk : k.upper <;> simp [widening, looser, ho, ht, hk] at hkind ⊢ <;> exact le_of_lt hkind
    | output =>
      have ht : o.limit k = some bound := ht
      cases hn : n.limit k with
      | none => simp [widening, looser, hn, ht] at hkind
      | some now =>
        refine ⟨now, hn, ?_⟩
        unfold Limit.Looser
        cases hk : k.upper <;> simpa [widening, looser, hn, ht, hk] using hkind

lemma Fine.items (h : Fine d r (diffItems d place o n)) {b : Schema}
    (ht : (taker d o n).items = some b) :
    ∃ a, (giver d o n).items = some a ∧
      Fine d r (diffSchema d (place ++ "[]") (giver d a b) (taker d a b)) := by
  unfold diffItems at h
  cases d with
  | input =>
    have ht : n.items = some b := ht
    cases ho : o.items with
    | none =>
      rw [ho, ht] at h
      exact h.not_breaking.elim
    | some a =>
      rw [ho, ht] at h
      exact ⟨a, ho, h⟩
  | output =>
    have ht : o.items = some b := ht
    cases hn : n.items with
    | none =>
      rw [ht, hn] at h
      exact h.not_breaking.elim
    | some a =>
      rw [ht, hn] at h
      exact ⟨a, hn, h⟩

lemma map_branches (S : Schema) : (branches S).map Prod.fst = nonNull S := by
  have hzip : (S.branches.zipIdx.map Prod.fst).filter (fun b => !isNull b) = nonNull S := by
    rw [List.zipIdx_map_fst, nonNull]
  rw [← hzip, List.filter_map]
  rfl

lemma pyEq_of_pyAll {l m : List Schema} (h : pyAll l m = true) :
    l.length = m.length ∧ ∀ (i : ℕ) a b, l[i]? = some a → m[i]? = some b → pyEq a b = true := by
  induction l generalizing m with
  | nil =>
    cases m with
    | nil => exact ⟨rfl, fun i a b ha => by simp at ha⟩
    | cons b m => simp [pyAll] at h
  | cons a l ih =>
    cases m with
    | nil => simp [pyAll] at h
    | cons b m =>
      simp only [pyAll, Bool.and_eq_true_iff] at h
      obtain ⟨hlen, hall⟩ := ih h.2
      refine ⟨by simp [hlen], fun i a' b' ha hb => ?_⟩
      cases i with
      | zero =>
        obtain rfl := Option.some.inj ha
        obtain rfl := Option.some.inj hb
        exact h.1
      | succ i => exact hall i a' b' ha hb

/-- The branches are compared one by one. -/
lemma Fine.branches (h : Fine d r (diffBranches d place o n)) :
    (nonNull o).length = (nonNull n).length ∧ ∀ (i : ℕ) a b, (nonNull o)[i]? = some a →
      (nonNull n)[i]? = some b → ∃ place', Fine d r (diffSchema d place' a b) := by
  unfold diffBranches at h
  rw [map_branches, map_branches] at h
  split at h
  · rename_i hall
    obtain ⟨hlen, hall⟩ := pyEq_of_pyAll hall
    refine ⟨hlen, fun i a b ha hb => ⟨place, ?_⟩⟩
    rw [diffSchema_of_pyEq (hall i a b ha hb)]
    exact h
  · split at h
    · rename_i hlen
      rw [← map_branches, ← map_branches]
      refine ⟨by simpa using hlen, fun i a b ha hb => ?_⟩
      rw [List.getElem?_map, Option.map_eq_some_iff] at ha hb
      obtain ⟨p, hp, rfl⟩ := ha
      obtain ⟨q, hq, rfl⟩ := hb
      have hmem : (p, q) ∈ (Contracts.branches o).zip (Contracts.branches n) :=
        List.mem_of_getElem? (i := i) (by rw [List.getElem?_zip_eq_some]; exact ⟨hp, hq⟩)
      exact ⟨_, h.flatMap hmem⟩
    · exact h.not_breaking.elim

end Facts

/-! ### Soundness -/

section Soundness
variable {d : Direction} {r : Reading} {place : String} {o n : Schema} {v : Json}

lemma required_subset (hN : Fine d r (diffNames d place o n))
    (hP : Fine d r (diffProperties d place o n))
    (hreq : ∀ name ∈ (taker d o n).required.getD [], name ∉ (giver d o n).required.getD [] →
      name ∈ o.names ∨ d = .input ∧ name ∈ n.names) {name : String}
    (ht : name ∈ (taker d o n).required.getD []) : name ∈ (giver d o n).required.getD [] := by
  by_contra hg
  have hboth : name ∉ o.names := fun ho => by
    obtain ⟨a, ha⟩ := mem_names_iff_lookup.1 ho
    obtain ⟨b, hb⟩ := mem_names_iff_lookup.1 (hN.removed ho)
    exact hg ((hP.property ha hb).2.required ht)
  obtain ho | ⟨rfl, hn⟩ := hreq name ht hg
  · exact hboth ho
  · exact hN.added hn hboth ht

lemma enum_taker (hin : d = .input → n.enum ≠ none → o.enum ≠ none)
    (hout : d = .output → o.enum = some [] → n.enum ≠ none) (hE : Fine d r (diffEnum place o n))
    (h : ∀ l, (giver d o n).enum = some l → v.IsIn l) {l : List Json}
    (hl : (taker d o n).enum = some l) : v.IsIn l ∨ r.excused v := by
  cases d with
  | input =>
    have hl : n.enum = some l := hl
    obtain ⟨m, hm⟩ := Option.ne_none_iff_exists'.1 (hin rfl (by simp [hl]))
    obtain ⟨w, hw, hsame⟩ := h m hm
    have hmem := hE.enumRemoved (w := w) (by rw [hm]; exact hw)
    rw [hl] at hmem
    exact .inl ⟨w, hmem, hsame⟩
  | output =>
    have hl : o.enum = some l := hl
    cases hn : n.enum with
    | none =>
      cases l with
      | nil => exact absurd hn (hout rfl hl)
      | cons w l =>
        have hmem := hE.enumRemoved (w := w) (by rw [hl]; exact List.mem_cons_self)
        simp [hn] at hmem
    | some m =>
      obtain ⟨w, hw, hsame⟩ := h m hn
      by_cases ho : w ∈ l
      · exact .inl ⟨w, ho, hsame⟩
      · exact .inr (hE.enumAdded (w := w) (by rw [hn]; exact hw) (by rw [hl]; exact ho) hsame)

lemma closed_taker (hd : d = .output → r.lenient = true)
    (hprops : d = .input → n.properties ≠ none → o.properties ≠ none)
    (hN : Fine d r (diffNames d place o n)) (h : Own strict (giver d o n) v) :
    r.lenient = true ∨ ∀ fields, (taker d o n).properties ≠ none → v = .obj fields →
      ∀ p ∈ fields, p.1 ∈ (taker d o n).names := by
  cases d with
  | output => exact .inl (hd rfl)
  | input =>
    have hc := h.closed.resolve_left nofun
    exact .inr fun fields hp hv p hmem => hN.removed (hc fields (hprops rfl hp) hv p hmem)

/-- Where a value has a property of the taker, the giver has it too. -/
lemma property_giver (hprops : d = .input → n.properties ≠ none → o.properties ≠ none)
    (hN : Fine d r (diffNames d place o n)) (h : Own strict (giver d o n) v)
    {fields : List (String × Json)} {name : String} {x : Json} {s : Schema}
    (hs : (taker d o n).fields.lookup name = some s) (hv : v = .obj fields)
    (hx : (name, x) ∈ fields) : ∃ a b, o.fields.lookup name = some a ∧
      n.fields.lookup name = some b ∧ taker d a b = s := by
  cases d with
  | input =>
    have hs : n.fields.lookup name = some s := hs
    have hp : n.properties ≠ none := fun hp => by simp [Schema.fields, hp] at hs
    have hc := h.closed.resolve_left nofun fields (hprops rfl hp) hv _ hx
    obtain ⟨a, ha⟩ := mem_names_iff_lookup.1 hc
    exact ⟨a, s, ha, hs, rfl⟩
  | output =>
    have hs : o.fields.lookup name = some s := hs
    obtain ⟨b, hb⟩ := mem_names_iff_lookup.1 (hN.removed (mem_names_iff_lookup.2 ⟨s, hs⟩))
    exact ⟨s, b, hs, hb, rfl⟩

lemma nonNull_giver (hB : Fine d r (diffBranches d place o n)) (h : nonNull (taker d o n) = []) :
    nonNull (giver d o n) = [] := by
  obtain ⟨hlen, -⟩ := hB.branches
  cases d
  · exact List.eq_nil_of_length_eq_zero (hlen.trans (congrArg List.length h))
  · exact List.eq_nil_of_length_eq_zero (hlen.symm.trans (congrArg List.length h))

/-- The parts of a comparison, of which none has a breaking change. -/
structure FineParts (d : Direction) (r : Reading) (place : String) (o n : Schema) : Prop where
  names : Fine d r (diffNames d place o n)
  properties : Fine d r (diffProperties d place o n)
  enum : Fine d r (diffEnum place o n)
  items : Fine d r (diffItems d place o n)
  limits : Fine d r (diffLimits d place o n)
  branches : Fine d r (diffBranches d place o n)

/-- Of schemas that are compared, what the giver accepts the taker accepts. -/
def Passes (d : Direction) (r : Reading) (a b : Schema) : Prop :=
  ∀ {place v}, Fine d r (diffSchema d place a b) → Accepts strict (giver d a b) v →
    Accepts r (taker d a b) v

lemma own_taker {old new : Schema} (hplain : Plain d old new) (hd : d = .output → r.lenient = true)
    (ho : (splitNullable old).1 = o) (hn : (splitNullable new).1 = n) (htype : o.type = n.type)
    (hp : FineParts d r place o n) (h : Own strict (giver d o n) v) : Own r (taker d o n) v := by
  obtain ⟨henum, hprops, hno, hreq, -, -, -⟩ := hplain
  rw [ho, hn] at henum hprops hno hreq
  refine ⟨fun ty hty => h.type ty ?_, fun fields hv name ht => ?_, fun l hl => ?_,
    fun k bound m hb hm => ?_, closed_taker hd hprops hp.names h⟩
  · cases d
    · exact htype.trans hty
    · exact htype.symm.trans hty
  · exact h.required fields hv name (required_subset hp.names hp.properties hreq ht)
  · exact enum_taker henum hno hp.enum (fun l hl => (h.enum l hl).resolve_right id) hl
  · obtain ⟨bound', hg, hloose⟩ := hp.limits.limit hb
    exact (h.limit k bound' m hg hm).mono hloose

lemma base_taker {old new : Schema} (hplain : Plain d old new) (hd : d = .output → r.lenient = true)
    (ho : (splitNullable old).1 = o) (hn : (splitNullable new).1 = n) (htype : o.type = n.type)
    (hp : FineParts d r place o n)
    (ihp : ∀ name a b, o.fields.lookup name = some a → n.fields.lookup name = some b →
      Passes d r a b)
    (ihi : ∀ a b, o.items = some a → n.items = some b → Passes d r a b)
    (ihb : (nonNull o).length = (nonNull n).length → ∀ (i : ℕ) a b, (nonNull o)[i]? = some a →
      (nonNull n)[i]? = some b → Passes d r a b)
    (h : Base strict (giver d o n) v) : Base r (taker d o n) v := by
  have hprops := hplain.properties
  rw [ho, hn] at hprops
  refine ⟨⟨own_taker hplain hd ho hn htype hp h.own, fun name s fields x hs hv hx => ?_,
    fun s l x hs hv hx => ?_⟩, ?_⟩
  · obtain ⟨a, b, ha, hb, rfl⟩ := property_giver hprops hp.names h.own hs hv hx
    refine ihp name a b ha hb (hp.properties.property ha hb).1 ?_
    cases d
    · exact h.properties name a fields x ha hv hx
    · exact h.properties name b fields x hb hv hx
  · obtain ⟨a, hg, hF⟩ := hp.items.items hs
    have hx := h.items a l x hg hv hx
    cases d
    · exact ihi a s hg hs hF hx
    · exact ihi s a hs hg hF hx
  · obtain ⟨hlen, hall⟩ := hp.branches.branches
    have hpair : ∀ (i : ℕ) a b, (nonNull o)[i]? = some a → (nonNull n)[i]? = some b →
        Accepts strict (giver d a b) v → Accepts r (taker d a b) v := by
      intro i a b ha hb hab
      obtain ⟨place', hF⟩ := hall i a b ha hb
      exact ihb hlen i a b ha hb hF hab
    obtain hnil | ⟨b, hb, hab⟩ := h.branch
    · left
      cases d
      · exact List.eq_nil_of_length_eq_zero (hlen.symm.trans (congrArg List.length hnil))
      · exact List.eq_nil_of_length_eq_zero (hlen.trans (congrArg List.length hnil))
    · right
      obtain ⟨i, hi⟩ := List.getElem?_of_mem hb
      cases d with
      | input =>
        have hi : (nonNull o)[i]? = some b := hi
        have hlt : i < (nonNull n).length := hlen ▸ (List.getElem?_eq_some_iff.1 hi).1
        exact ⟨(nonNull n)[i], List.getElem_mem hlt,
          hpair i b _ hi (List.getElem?_eq_getElem hlt) hab⟩
      | output =>
        have hi : (nonNull n)[i]? = some b := hi
        have hlt : i < (nonNull o).length := hlen ▸ (List.getElem?_eq_some_iff.1 hi).1
        exact ⟨(nonNull o)[i], List.getElem_mem hlt,
          hpair i _ b (List.getElem?_eq_getElem hlt) hi hab⟩

/-- No breaking change is reported, and what the giver accepts the taker accepts. -/
theorem accepts_of_clear {old new : Schema} (h : Clear d old new) :
    ∀ {r}, (d = .output → r.lenient = true) → Passes d r old new := by
  induction h with
  | same eq same =>
    intro r _ place v _ ha
    cases d
    · exact (ha.congr same).relax
    · exact (ha.congr same.symm).relax
  | @differ old new ne plain properties items branches ihp ihi ihb =>
    intro r hd place v hF ha
    rw [diffSchema_of_ne ne] at hF
    have hnull := hF.left
    by_cases htype : (splitNullable old).1.type = (splitNullable new).1.type
    swap
    · have h := hF.right
      rw [if_pos htype] at h
      exact h.not_breaking.elim
    have hparts := hF.right
    rw [if_neg (not_not.2 htype)] at hparts
    have plain := plain htype
    obtain ⟨hbase, hvoid⟩ | ⟨rfl, hsplit, hadmits⟩ := base_split ha
    · rw [giver_apply splitNullable, giver_apply Prod.fst] at hbase hvoid
      refine accepts_split plain.faithful ?_ ?_
      all_goals rw [taker_apply splitNullable, taker_apply Prod.fst]
      · exact base_taker plain hd rfl rfl htype
          ⟨hparts.left.left.left.left.left.left, hparts.left.left.left.left.left.right,
            hparts.left.left.left.left.right, hparts.left.left.left.right, hparts.left.right,
            hparts.right⟩
          (fun name a b ha hb => ihp htype name a b ha hb hd) (fun a b ha hb => ihi htype a b ha hb hd)
          (fun hlen i a b ha hb => ihb htype hlen i a b ha hb hd) hbase
      · exact fun hv => hvoid (plain.void hv (nonNull_giver hparts.right hv.2))
    · rw [giver_apply splitNullable, giver_apply Prod.snd] at hsplit
      have htaker := hnull.nullable hsplit
      have hboth : (splitNullable old).2 = true ∧ (splitNullable new).2 = true := by
        cases d
        · exact ⟨hsplit, htaker⟩
        · exact ⟨htaker, hsplit⟩
      refine accepts_null_of_split ?_ (plain.null hboth.1 hboth.2 hadmits)
      rw [taker_apply splitNullable, taker_apply Prod.snd]
      exact htaker

end Soundness

inductive Bump
  | major
  | minor
  deriving DecidableEq

/-- `required_bump`. -/
def requiredBump (changes : List Change) : Option Bump :=
  if changes.any fun c => c.kind = .breaking then some .major
  else if changes.any fun c => c.kind = .additive then some .minor
  else none

lemma not_breaking_of_bump {cs : List Change} (h : requiredBump cs ≠ some .major) :
    ∀ c ∈ cs, c.kind ≠ .breaking := by
  intro c hc hk
  have hany : (cs.any fun c => c.kind = .breaking) = true :=
    List.any_eq_true.2 ⟨c, hc, decide_eq_true hk⟩
  exact h (by rw [requiredBump, if_pos hany])

/-- The old schema up to added fields and the values that the changes add to enums. -/
def upTo (cs : List Change) : Reading :=
  ⟨true, fun v => ∃ c ∈ cs, ∃ values, c.what = .enumAdded values ∧ v.IsIn values⟩

/-- What the client sends is accepted still, and what it receives was allowed. -/
def Compatible (d : Direction) (changes : List Change) (old new : Schema) (v : Json) : Prop :=
  match d with
  | .input => Accepts strict old v → Accepts strict new v
  | .output => Accepts strict new v → Accepts (upTo changes) old v

/-- **Soundness of the differ**: no major bump is asked for only where no value is lost. -/
theorem diff_sound {d : Direction} {place : String} {old new : Schema} (h : Clear d old new)
    (hb : requiredBump (diffSchema d place old new) ≠ some .major) (v : Json) :
    Compatible d (diffSchema d place old new) old new v := by
  have hkind := not_breaking_of_bump hb
  cases d with
  | input => exact fun ha => accepts_of_clear h nofun ⟨hkind, nofun⟩ ha
  | output =>
    refine fun ha => accepts_of_clear h (fun _ => rfl) ⟨hkind, ?_⟩ ha
    exact fun _ c hc values hw w hmem v hv => ⟨c, hc, values, hw, w, hmem, hv⟩

/-! ### Schemas of a few keywords -/

section Examples

def ofType (name : String) : Schema := { Schema.any with type := some (.one name) }

def object (properties : List (String × Schema)) (required : List String) : Schema :=
  { ofType "object" with properties := some properties, required := some required }

def text (s : String) : Json := .atom (.str s)

/-- A query, and a query with an optional limit. -/
theorem diff_sound_added :
    requiredBump (diffSchema .input "x" (object [("q", ofType "string")] ["q"])
      (object [("k", ofType "integer"), ("q", ofType "string")] ["q"])) = some .minor ∧
    ∀ v, Compatible .input (diffSchema .input "x" (object [("q", ofType "string")] ["q"])
      (object [("k", ofType "integer"), ("q", ofType "string")] ["q"]))
      (object [("q", ofType "string")] ["q"])
      (object [("k", ofType "integer"), ("q", ofType "string")] ["q"]) v := by
  have hb : requiredBump (diffSchema .input "x" (object [("q", ofType "string")] ["q"])
      (object [("k", ofType "integer"), ("q", ofType "string")] ["q"])) = some .minor := by
    decide +kernel
  refine ⟨hb, diff_sound (.differ (by decide +kernel) (fun _ => ?_) (fun _ name a b ha hq => ?_)
    (fun _ a b ha => by cases ha) fun _ _ i a b ha => by cases ha) (by rw [hb]; decide)⟩
  · exact ⟨fun _ h => absurd rfl h, fun _ _ => Option.some_ne_none _, nofun,
      fun name ht hg => absurd ht hg, fun h => absurd rfl h.1, nofun, nofun⟩
  · have hmem : (name, a) ∈ [("q", ofType "string")] := mem_of_lookup ha
    obtain ⟨rfl, rfl⟩ : name = "q" ∧ a = ofType "string" := by simpa using hmem
    obtain rfl := Option.some.inj hq
    exact .same (by decide +kernel) (.refl _)

/-- No major bump is asked for, and the value is lost. -/
def Loses (d : Direction) (old new : Schema) (v : Json) : Prop :=
  requiredBump (diffSchema d "x" old new) ≠ some .major ∧
    ¬Compatible d (diffSchema d "x" old new) old new v

lemma accepts_flat {r : Reading} {S : Schema} {v : Json} (hp : S.properties = none)
    (hi : S.items = none) (ha : S.anyOf = none) (h : Own r S v) : Accepts r S v :=
  .intro none h (by rw [Picks, ha]) nofun (fun _ _ _ _ hs => by simp [Schema.fields, hp] at hs)
    fun _ _ _ hs => by simp [hi] at hs

lemma own_any {r : Reading} (v : Json) : Own r .any v :=
  ⟨nofun, nofun, nofun, nofun, .inr fun _ h => absurd rfl h⟩

lemma own_ofType {r : Reading} {name : String} {v : Json} (h : v.isA name = true) :
    Own r (ofType name) v :=
  ⟨fun _ hty => Option.some.inj hty ▸ h, nofun, nofun, nofun, .inr fun _ h => absurd rfl h⟩

/-- No major bump for a first enum, a first list of properties or of required names, a union of the
null type, a type beside a union, a value that is `True` to Python, and an enum that is dropped. -/
lemma no_major :
    requiredBump (diffSchema .input "x" (ofType "string")
      { ofType "string" with enum := some [text "a"] }) ≠ some .major ∧
    requiredBump (diffSchema .input "x" .any { Schema.any with properties := some [] }) ≠
      some .major ∧
    requiredBump (diffSchema .input "x" (ofType "object")
      { ofType "object" with required := some ["x"] }) ≠ some .major ∧
    requiredBump (diffSchema .input "x" .any { Schema.any with anyOf := some [ofType "null"] }) ≠
      some .major ∧
    requiredBump (diffSchema .input "x"
      { Schema.any with anyOf := some [ofType "string", ofType "null"] }
      { ofType "string" with anyOf := some [ofType "string", ofType "null"] }) ≠ some .major ∧
    requiredBump (diffSchema .input "x" { Schema.any with enum := some [.atom (.num 1 false)] }
      { Schema.any with enum := some [.atom (.bool true)] }) ≠ some .major ∧
    (diffSchema .output "x" { Schema.any with enum := some [] } .any).length = 0 := by
  decide +kernel

/-- An enum or a list of properties where there was none. -/
lemma loses_introduced :
    Loses .input (ofType "string") { ofType "string" with enum := some [text "a"] } (text "b") ∧
    Loses .input .any { Schema.any with properties := some [] } (.obj [("b", text "b")]) := by
  refine ⟨⟨no_major.1, fun h => ?_⟩, no_major.2.1, fun h => ?_⟩
  · obtain h | h := (h (accepts_flat rfl rfl rfl (own_ofType rfl))).own.enum _ rfl
    · exact absurd h (by decide)
    · exact h
  · have hc := (h (accepts_flat rfl rfl rfl (own_any _))).own.closed.resolve_left nofun
    exact absurd (hc _ (Option.some_ne_none _) rfl _ List.mem_cons_self) (by decide)

/-- A required name that no property has. -/
lemma loses_required :
    Loses .input (ofType "object") { ofType "object" with required := some ["x"] } (.obj []) := by
  refine ⟨no_major.2.2.1, fun h => ?_⟩
  have hreq := (h (accepts_flat rfl rfl rfl (own_ofType rfl))).own.required _ rfl "x"
    List.mem_cons_self
  exact absurd hreq (by decide)

/-- A union of the null type alone. -/
lemma loses_void :
    Loses .input .any { Schema.any with anyOf := some [ofType "null"] } (text "b") := by
  refine ⟨no_major.2.2.2.1, fun h => ?_⟩
  cases h (accepts_flat rfl rfl rfl (own_any _)) with
  | intro branch _ pick inner =>
    obtain ⟨b, hb, rfl⟩ := pick
    obtain rfl := List.mem_singleton.1 hb
    exact absurd ((inner _ rfl).own.type _ rfl) (by decide)

/-- A type beside a union with the null type. -/
lemma loses_null :
    Loses .input { Schema.any with anyOf := some [ofType "string", ofType "null"] }
      { ofType "string" with anyOf := some [ofType "string", ofType "null"] } (.atom .null) := by
  refine ⟨no_major.2.2.2.2.1, fun h => ?_⟩
  have hnull : Accepts strict (ofType "null") (.atom .null) :=
    accepts_flat rfl rfl rfl (own_ofType rfl)
  have h := h (.intro (some (ofType "null"))
    ⟨nofun, nofun, nofun, nofun, .inr fun _ hp => absurd rfl hp⟩ ⟨_, by simp, rfl⟩
    (fun b hb => Option.some.inj hb ▸ hnull) nofun nofun)
  exact absurd (h.own.type _ rfl) (by decide)

/-- One that is `True` to Python. -/
lemma loses_one :
    Loses .input { Schema.any with enum := some [.atom (.num 1 false)] }
      { Schema.any with enum := some [.atom (.bool true)] } (.atom (.num 1 false)) := by
  refine ⟨no_major.2.2.2.2.2.1, fun h => ?_⟩
  have hold : Own strict { Schema.any with enum := some [.atom (.num 1 false)] }
      (.atom (.num 1 false)) :=
    ⟨nofun, nofun, fun l hl => Option.some.inj hl ▸ .inl ⟨_, List.mem_cons_self, rfl⟩, nofun,
      .inr fun _ hp => absurd rfl hp⟩
  obtain h | h := (h (accepts_flat rfl rfl rfl hold)).own.enum _ rfl
  · exact absurd h (by decide)
  · exact h

/-- An enum without values that is dropped. -/
lemma loses_empty :
    Loses .output { Schema.any with enum := some [] } .any (text "b") := by
  have hnil : diffSchema .output "x" { Schema.any with enum := some [] } .any = [] :=
    List.eq_nil_of_length_eq_zero no_major.2.2.2.2.2.2
  refine ⟨by rw [hnil]; decide, fun h => ?_⟩
  obtain ⟨w, hw, -⟩ | ⟨c, hc, -⟩ := (h (accepts_flat rfl rfl rfl (own_any _))).own.enum _ rfl
  · cases hw
  · rw [hnil] at hc
    cases hc

/-- The differ asks for no major bump when an enum comes where there was none; the other changes
it overlooks are those that `Plain` and `Clear` name. -/
theorem differ_overlooks :
    (¬∀ (d : Direction) (old new : Schema) (v : Json),
      requiredBump (diffSchema d "x" old new) ≠ some .major →
      Compatible d (diffSchema d "x" old new) old new v) ∧
    Loses .input .any { Schema.any with properties := some [] } (.obj [("b", text "b")]) ∧
    Loses .input (ofType "object") { ofType "object" with required := some ["x"] } (.obj []) ∧
    Loses .input .any { Schema.any with anyOf := some [ofType "null"] } (text "b") ∧
    Loses .input { Schema.any with anyOf := some [ofType "string", ofType "null"] }
      { ofType "string" with anyOf := some [ofType "string", ofType "null"] } (.atom .null) ∧
    Loses .input { Schema.any with enum := some [.atom (.num 1 false)] }
      { Schema.any with enum := some [.atom (.bool true)] } (.atom (.num 1 false)) ∧
    Loses .output { Schema.any with enum := some [] } .any (text "b") :=
  ⟨fun h => loses_introduced.1.2 (h _ _ _ _ loses_introduced.1.1), loses_introduced.2,
    loses_required, loses_void, loses_null, loses_one, loses_empty⟩

end Examples

end Treeweft.Contracts
