import Mathlib.Algebra.Order.Ring.Unbundled.Rat
import Mathlib.Data.List.Basic

/-!
JSON values, schemas of them, and the values a schema accepts.

The keywords of a schema constrain a value independently of one another, and `anyOf` asks for one
branch to accept it too. Objects are closed: where a schema lists properties, an object has no
others. A reading can be lenient in that, and can excuse values from the enums.
-/

namespace Treeweft.JsonSchema

/-! ### Values -/

/-- A number is written with a fraction or exponent, or without. -/
inductive Atom
  | null
  | bool (b : Bool)
  | num (q : ℚ) (float : Bool)
  | str (s : String)
  deriving DecidableEq

/-- Objects have their fields in the order of their names. -/
inductive Json
  | atom (a : Atom)
  | arr (l : List Json)
  | obj (fields : List (String × Json))

namespace Json

mutual

def map (f : Atom → Atom) : Json → Json
  | .atom a => .atom (f a)
  | .arr l => .arr (mapAll f l)
  | .obj fields => .obj (mapFields f fields)

def mapAll (f : Atom → Atom) : List Json → List Json
  | [] => []
  | a :: l => map f a :: mapAll f l

def mapFields (f : Atom → Atom) : List (String × Json) → List (String × Json)
  | [] => []
  | (k, a) :: l => (k, map f a) :: mapFields f l

end

mutual

def decEq : (a b : Json) → Decidable (a = b)
  | .atom a, .atom b => decidable_of_iff (a = b) (by simp)
  | .arr l, .arr m =>
    match decEqAll l m with
    | isTrue h => isTrue (congrArg arr h)
    | isFalse h => isFalse fun he => h (arr.inj he)
  | .obj l, .obj m =>
    match decEqFields l m with
    | isTrue h => isTrue (congrArg obj h)
    | isFalse h => isFalse fun he => h (obj.inj he)
  | .atom _, .arr _ | .atom _, .obj _ | .arr _, .atom _ | .arr _, .obj _ | .obj _, .atom _
  | .obj _, .arr _ => isFalse nofun

def decEqAll : (l m : List Json) → Decidable (l = m)
  | [], [] => isTrue rfl
  | a :: l, b :: m =>
    match decEq a b, decEqAll l m with
    | isTrue h, isTrue h' => isTrue (by rw [h, h'])
    | isFalse h, _ => isFalse fun he => h (List.cons.inj he).1
    | _, isFalse h => isFalse fun he => h (List.cons.inj he).2
  | [], _ :: _ | _ :: _, [] => isFalse nofun

def decEqFields : (l m : List (String × Json)) → Decidable (l = m)
  | [], [] => isTrue rfl
  | (k, a) :: l, (k', b) :: m =>
    match decEq a b, decEqFields l m with
    | isTrue h, isTrue h' => decidable_of_iff (k = k') (by simp [h, h'])
    | isFalse h, _ => isFalse fun he => h (Prod.mk.inj (List.cons.inj he).1).2
    | _, isFalse h => isFalse fun he => h (List.cons.inj he).2
  | [], _ :: _ | _ :: _, [] => isFalse nofun

end

instance : DecidableEq Json := decEq

end Json

/-- The value alone of what is written. -/
def Atom.value : Atom → Atom
  | .num q _ => .num q false
  | a => a

/-- The same JSON value, as a schema sees it. -/
def Json.Same (v w : Json) : Prop := v.map Atom.value = w.map Atom.value

/-- The value is one of these. -/
def Json.IsIn (v : Json) (l : List Json) : Prop := ∃ w ∈ l, w.Same v

instance (v w : Json) : Decidable (v.Same w) := inferInstanceAs (Decidable (_ = _))

instance (v : Json) (l : List Json) : Decidable (v.IsIn l) :=
  inferInstanceAs (Decidable (∃ w ∈ l, w.Same v))

/-! ### Schemas -/

/-- One type, or a list of them. -/
inductive Types
  | one (name : String)
  | many (names : List String)
  deriving DecidableEq

inductive Limit
  | maxLength
  | maxItems
  | maxProperties
  | maximum
  | exclusiveMaximum
  | minLength
  | minItems
  | minProperties
  | minimum
  | exclusiveMinimum
  deriving DecidableEq

structure Schema where
  type : Option Types
  properties : Option (List (String × Schema))
  required : Option (List String)
  enum : Option (List Json)
  items : Option Schema
  default : Option Json
  limit : Limit → Option ℚ
  anyOf : Option (List Schema)

section Lookup
variable {α : Type} {l : List (String × α)} {k : String} {a : α}

lemma mem_of_lookup (h : l.lookup k = some a) : (k, a) ∈ l := by
  obtain ⟨l₁, l₂, rfl, -⟩ := List.lookup_eq_some_iff.1 h
  simp

lemma mem_names_iff_lookup : k ∈ l.map Prod.fst ↔ ∃ a, l.lookup k = some a := by
  rw [← Option.isSome_iff_exists, List.lookup_isSome_iff, List.mem_map]
  exact exists_congr fun p => and_congr_right fun _ => by rw [beq_iff_eq, eq_comm]

end Lookup

namespace Schema

/-- No keyword. -/
def any : Schema := ⟨none, none, none, none, none, none, fun _ => none, none⟩

def fields (S : Schema) : List (String × Schema) := S.properties.getD []

def names (S : Schema) : List String := S.fields.map Prod.fst

def branches (S : Schema) : List Schema := S.anyOf.getD []

section Size
variable {S s : Schema}

lemma sizeOf_field {p : String × Schema} (h : p ∈ S.fields) : sizeOf p.2 < sizeOf S := by
  obtain ⟨type, properties, required, enum, items, default, limit, anyOf⟩ := S
  cases properties with
  | none => cases h
  | some l =>
    have hp := List.sizeOf_lt_of_mem (show p ∈ l from h)
    have hsnd : sizeOf p = 1 + sizeOf p.1 + sizeOf p.2 := Prod.mk.sizeOf_spec ..
    simp only [mk.sizeOf_spec, Option.some.sizeOf_spec]
    omega

lemma sizeOf_items (h : S.items = some s) : sizeOf s < sizeOf S := by
  obtain ⟨type, properties, required, enum, items, default, limit, anyOf⟩ := S
  obtain rfl : items = some s := h
  simp only [mk.sizeOf_spec, Option.some.sizeOf_spec]
  omega

lemma sizeOf_branch (h : s ∈ S.branches) : sizeOf s < sizeOf S := by
  obtain ⟨type, properties, required, enum, items, default, limit, anyOf⟩ := S
  cases anyOf with
  | none => cases h
  | some l =>
    have hs := List.sizeOf_lt_of_mem (show s ∈ l from h)
    simp only [mk.sizeOf_spec, Option.some.sizeOf_spec]
    omega

end Size

end Schema

def Json.isA (v : Json) (name : String) : Bool :=
  match v with
  | .atom .null => name = "null"
  | .atom (.bool _) => name = "boolean"
  | .atom (.num q _) => name = "number" || name = "integer" && q.den = 1
  | .atom (.str _) => name = "string"
  | .arr _ => name = "array"
  | .obj _ => name = "object"

def Types.admits (v : Json) : Types → Bool
  | .one name => v.isA name
  | .many names => names.any v.isA

/-- What a limit is about, if the value has it. -/
def Json.measure (v : Json) : Limit → Option ℚ
  | .maxLength | .minLength =>
    match v with
    | .atom (.str s) => some s.length
    | _ => none
  | .maxItems | .minItems =>
    match v with
    | .arr l => some l.length
    | _ => none
  | .maxProperties | .minProperties =>
    match v with
    | .obj fields => some fields.length
    | _ => none
  | .maximum | .exclusiveMaximum | .minimum | .exclusiveMinimum =>
    match v with
    | .atom (.num q _) => some q
    | _ => none

def Limit.upper : Limit → Bool
  | .maxLength | .maxItems | .maxProperties | .maximum | .exclusiveMaximum => true
  | _ => false

/-- A measure is in the limit. -/
def Limit.Within (k : Limit) (bound m : ℚ) : Prop :=
  match k with
  | .exclusiveMaximum => m < bound
  | .exclusiveMinimum => bound < m
  | k => if k.upper then m ≤ bound else bound ≤ m

/-- The second bound is as loose as the first. -/
def Limit.Looser (k : Limit) (bound bound' : ℚ) : Prop :=
  if k.upper then bound ≤ bound' else bound' ≤ bound

lemma Limit.Within.mono {k : Limit} {bound bound' m : ℚ} (h : k.Within bound m)
    (hb : k.Looser bound bound') : k.Within bound' m := by
  cases k with
  | exclusiveMaximum => exact lt_of_lt_of_le h hb
  | exclusiveMinimum => exact lt_of_le_of_lt hb h
  | maxLength | maxItems | maxProperties | maximum => exact le_trans h hb
  | minLength | minItems | minProperties | minimum => exact le_trans hb h

/-! ### What a schema accepts -/

/-- A lenient reading lets an object have any other property. -/
structure Reading where
  lenient : Bool
  excused : Json → Prop

def strict : Reading := ⟨false, fun _ => False⟩

/-- What the keywords say that have no schemas in them. -/
structure Own (r : Reading) (S : Schema) (v : Json) : Prop where
  type : ∀ ty, S.type = some ty → ty.admits v = true
  required : ∀ fields, v = .obj fields → ∀ name ∈ S.required.getD [], name ∈ fields.map Prod.fst
  enum : ∀ l, S.enum = some l → v.IsIn l ∨ r.excused v
  limit : ∀ k bound m, S.limit k = some bound → v.measure k = some m → k.Within bound m
  closed : r.lenient = true ∨ ∀ fields, S.properties ≠ none → v = .obj fields →
    ∀ p ∈ fields, p.1 ∈ S.names

/-- A branch of the union, if it is one. -/
def Picks (S : Schema) (branch : Option Schema) : Prop :=
  match S.anyOf with
  | none => branch = none
  | some bs => ∃ b ∈ bs, branch = some b

inductive Accepts (r : Reading) : Schema → Json → Prop
  | intro {S : Schema} {v : Json} (branch : Option Schema) (own : Own r S v)
      (pick : Picks S branch) (inner : ∀ b, branch = some b → Accepts r b v)
      (properties : ∀ name s fields x, S.fields.lookup name = some s → v = .obj fields →
        (name, x) ∈ fields → Accepts r s x)
      (items : ∀ s l x, S.items = some s → v = .arr l → x ∈ l → Accepts r s x) :
      Accepts r S v

lemma Accepts.own {r : Reading} {S : Schema} {v : Json} (h : Accepts r S v) : Own r S v := by
  cases h with
  | intro _ own => exact own

section Relax
variable {r : Reading} {S : Schema} {v : Json}

lemma Own.relax (h : Own strict S v) : Own r S v where
  type := h.type
  required := h.required
  enum l hl := (h.enum l hl).imp id False.elim
  limit := h.limit
  closed := .inr (h.closed.resolve_left nofun)

/-- What is accepted strictly is accepted by any reading. -/
lemma Accepts.relax (h : Accepts strict S v) : Accepts r S v := by
  induction h with
  | intro branch own pick _ _ _ ih ihp ihi => exact .intro branch own.relax pick ih ihp ihi

end Relax

/-- The same up to how numbers are written and to the defaults. -/
inductive Schema.Same : Schema → Schema → Prop
  | intro {S S' : Schema} (type : S.type = S'.type)
      (hasProperties : S.properties.isSome = S'.properties.isSome) (names : S.names = S'.names)
      (required : S.required = S'.required)
      (hasEnum : S.enum.isSome = S'.enum.isSome)
      (enum : ∀ v : Json, v.IsIn (S.enum.getD []) ↔ v.IsIn (S'.enum.getD []))
      (limit : S.limit = S'.limit)
      (properties : ∀ name s s', S.fields.lookup name = some s → S'.fields.lookup name = some s' →
        Same s s')
      (hasItems : S.items.isSome = S'.items.isSome)
      (items : ∀ s s', S.items = some s → S'.items = some s' → Same s s')
      (length : S.anyOf.map List.length = S'.anyOf.map List.length)
      (branches : ∀ (i : ℕ) s s', S.branches[i]? = some s → S'.branches[i]? = some s' → Same s s') :
      Same S S'

section Same
variable {r : Reading} {S S' : Schema} {v : Json}

lemma Schema.Same.symm (h : S.Same S') : S'.Same S := by
  induction h with
  | intro type hasProperties names required hasEnum enum limit _ hasItems _ length _ ihp ihi ihb =>
    exact .intro type.symm hasProperties.symm names.symm required.symm hasEnum.symm
      (fun v => (enum v).symm) limit.symm
      (fun name s s' hs hs' => ihp name s' s hs' hs) hasItems.symm
      (fun s s' hs hs' => ihi s' s hs' hs) length.symm fun i s s' hs hs' => ihb i s' s hs' hs

lemma Schema.Same.refl (S : Schema) : S.Same S := by
  refine .intro rfl rfl rfl rfl rfl (fun _ => Iff.rfl) rfl (fun name s s' hs hs' => ?_) rfl (fun s s' hs hs' => ?_) rfl
    fun i s s' hs hs' => ?_
  all_goals
    obtain rfl := Option.some.inj (hs.symm.trans hs')
    exact Schema.Same.refl s
termination_by sizeOf S
decreasing_by
  · exact Schema.sizeOf_field (mem_of_lookup hs)
  · exact Schema.sizeOf_items hs
  · exact Schema.sizeOf_branch (List.mem_of_getElem? hs)

lemma Own.congr (h : Own r S v) (hs : S.Same S') : Own r S' v := by
  cases hs with
  | intro type hasProperties names required hasEnum enum limit =>
    refine ⟨type ▸ h.type, required ▸ h.required, fun l hl => ?_, limit ▸ h.limit,
      h.closed.imp id fun hc fields hp hv p hmem => names ▸ hc fields ?_ hv p hmem⟩
    swap
    · rw [← Option.isSome_iff_ne_none] at hp ⊢
      exact hasProperties.trans hp
    rw [hl] at hasEnum enum
    obtain ⟨l', hl'⟩ := Option.isSome_iff_exists.1 hasEnum
    rw [hl'] at enum
    exact (h.enum l' hl').imp (enum v).1 id

lemma Picks.congr {branch : Option Schema} (h : Picks S branch)
    (hlength : S.anyOf.map List.length = S'.anyOf.map List.length)
    (hbranches : ∀ (i : ℕ) s s', S.branches[i]? = some s → S'.branches[i]? = some s' →
      s.Same s') :
    ∃ branch', Picks S' branch' ∧ ∀ b', branch' = some b' → ∃ b, branch = some b ∧ b.Same b' := by
  unfold Picks at h ⊢
  unfold Schema.branches at hbranches
  cases hS : S.anyOf with
  | none =>
    rw [hS] at h hlength
    have hS' : S'.anyOf = none := Option.map_eq_none_iff.1 hlength.symm
    rw [hS']
    exact ⟨none, rfl, nofun⟩
  | some bs =>
    rw [hS] at h hlength hbranches
    obtain ⟨b, hb, rfl⟩ := h
    obtain ⟨bs', hS', hlen⟩ := Option.map_eq_some_iff.1 hlength.symm
    obtain ⟨i, hi, hget⟩ := List.getElem_of_mem hb
    have hi' : i < bs'.length := hlen.symm ▸ hi
    rw [hS'] at hbranches ⊢
    refine ⟨some bs'[i], ⟨bs'[i], List.getElem_mem hi', rfl⟩, fun b' hb' => ⟨b, rfl, ?_⟩⟩
    obtain rfl := Option.some.inj hb'
    exact hbranches i b bs'[i] (List.getElem?_eq_some_iff.2 ⟨hi, hget⟩)
      (List.getElem?_eq_getElem hi')

/-- Schemas that are the same accept the same values. -/
lemma Accepts.congr (h : Accepts r S v) : ∀ {S'}, S.Same S' → Accepts r S' v := by
  induction h with
  | @intro S v branch own pick inner properties items ih ihp ihi =>
    intro S' hs
    have own' := own.congr hs
    cases hs with
    | intro type hasProperties names required _ _ _ hprops hasItems hitems length hbranches =>
    obtain ⟨branch', hpick', hsome⟩ := pick.congr length hbranches
    refine .intro branch' own' hpick' (fun b' hb' => ?_)
      (fun name s' fields x hs' hv hx => ?_) fun s' l x hs' hv hx => ?_
    · obtain ⟨b, hb, hsame⟩ := hsome b' hb'
      exact ih b hb hsame
    · have hname : name ∈ S.names := names ▸ mem_names_iff_lookup.2 ⟨s', hs'⟩
      obtain ⟨s, hs⟩ := mem_names_iff_lookup.1 hname
      exact ihp name s fields x hs hv hx (hprops name s s' hs hs')
    · obtain ⟨s, hs⟩ := Option.isSome_iff_exists.1 (hasItems.trans (hs' ▸ rfl))
      exact ihi s l x hs hv hx (hitems s s' hs hs')

end Same

end Treeweft.JsonSchema
