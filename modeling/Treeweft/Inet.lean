import Mathlib.Data.Nat.Notation
import Mathlib.Tactic.Common
import Mathlib.Algebra.Group.Nat.Defs

/-!
IPv4 addresses as texts: the dotted quad, and the wider spellings that `inet_aton` takes.

An address is its number. A dotted quad is read alike by both: `aton_of_dottedQuad`.
-/

namespace Treeweft.Inet

/-! ### Numbers -/

def digit (c : Char) : Option ℕ :=
  if '0' ≤ c ∧ c ≤ '9' then some (c.toNat - '0'.toNat)
  else if 'a' ≤ c ∧ c ≤ 'f' then some (c.toNat - 'a'.toNat + 10)
  else if 'A' ≤ c ∧ c ≤ 'F' then some (c.toNat - 'A'.toNat + 10)
  else none

def readDigit (base n : ℕ) (c : Char) : Option ℕ :=
  (digit c).bind fun d => if d < base then some (n * base + d) else none

def number (base : ℕ) (cs : List Char) : Option ℕ :=
  if cs = [] then none else cs.foldlM (readDigit base) 0

/-- Hexadecimal after `0x`, octal after another `0`, decimal otherwise. -/
def partValue : List Char → Option ℕ
  | '0' :: c :: cs => if c = 'x' ∨ c = 'X' then number 16 cs else number 8 (c :: cs)
  | cs => number 10 cs

/-- A decimal byte of at most three digits, without a leading zero. -/
def octet (cs : List Char) : Option ℕ :=
  if cs.length ≤ 3 ∧ (cs.head? = some '0' → cs.length = 1) then (number 10 cs).filter (· < 256)
  else none

/-! ### Addresses -/

/-- What stands between the dots. -/
def fields : List Char → List (List Char)
  | [] => [[]]
  | c :: cs =>
    if c = '.' then [] :: fields cs
    else (c :: (fields cs).headD []) :: (fields cs).tail

/-- `inet_aton`: up to four parts, the last of which fills what is left of the 32 bits. -/
def aton (cs : List Char) : Option ℕ :=
  match (fields cs).mapM partValue with
  | some [a] => if a < 2 ^ 32 then some a else none
  | some [a, b] => if a < 256 ∧ b < 2 ^ 24 then some (a * 2 ^ 24 + b) else none
  | some [a, b, c] =>
    if a < 256 ∧ b < 256 ∧ c < 2 ^ 16 then some (a * 2 ^ 24 + b * 2 ^ 16 + c) else none
  | some [a, b, c, d] =>
    if a < 256 ∧ b < 256 ∧ c < 256 ∧ d < 256 then
      some (a * 2 ^ 24 + b * 2 ^ 16 + c * 2 ^ 8 + d)
    else none
  | _ => none

def dottedQuad (cs : List Char) : Option ℕ :=
  match (fields cs).mapM octet with
  | some [a, b, c, d] => some (a * 2 ^ 24 + b * 2 ^ 16 + c * 2 ^ 8 + d)
  | _ => none

/-! ### One Reading -/

lemma octet_eq_some {cs : List Char} {n : ℕ} (h : octet cs = some n) :
    (cs.head? = some '0' → cs.length = 1) ∧ number 10 cs = some n ∧ n < 256 := by
  unfold octet at h
  split at h
  · rename_i hcs
    obtain ⟨hn, hlt⟩ := Option.filter_eq_some_iff.mp h
    exact ⟨hcs.2, hn, of_decide_eq_true hlt⟩
  · cases h

/-- A byte is no octal number, and no hexadecimal one. -/
lemma partValue_of_octet {cs : List Char} {n : ℕ} (h : octet cs = some n) :
    partValue cs = some n ∧ n < 256 := by
  obtain ⟨hzero, hn, hlt⟩ := octet_eq_some h
  refine ⟨?_, hlt⟩
  unfold partValue
  split
  · exact absurd (hzero rfl) (by simp)
  · exact hn

lemma mapM_partValue {fs : List (List Char)} {ns : List ℕ} (h : fs.mapM octet = some ns) :
    fs.mapM partValue = some ns ∧ ∀ n ∈ ns, n < 256 := by
  induction fs generalizing ns with
  | nil =>
    cases h
    exact ⟨rfl, fun _ hn => by cases hn⟩
  | cons f fs ih =>
    rw [List.mapM_cons] at h
    obtain ⟨n, hn, h⟩ := Option.bind_eq_some_iff.mp h
    obtain ⟨ns', hns, h⟩ := Option.bind_eq_some_iff.mp h
    cases h
    obtain ⟨hpart, hlt⟩ := partValue_of_octet hn
    obtain ⟨hparts, hlts⟩ := ih hns
    refine ⟨?_, List.forall_mem_cons.mpr ⟨hlt, hlts⟩⟩
    rw [List.mapM_cons, hpart, hparts]
    rfl

/-- **A dotted quad means one address.** -/
lemma aton_of_dottedQuad {cs : List Char} {n : ℕ} (h : dottedQuad cs = some n) :
    aton cs = some n := by
  unfold dottedQuad at h
  split at h
  · rename_i a b c d hfs
    cases h
    obtain ⟨hparts, hlt⟩ := mapM_partValue hfs
    have hbytes : a < 256 ∧ b < 256 ∧ c < 256 ∧ d < 256 := by simpa using hlt
    unfold aton
    rw [hparts]
    exact if_pos hbytes
  · cases h

/-! ### What no Dotted Quad has -/

lemma fields_append_dot (cs : List Char) : fields (cs ++ ['.']) = fields cs ++ [[]] := by
  induction cs with
  | nil => rfl
  | cons c cs ih =>
    have hne : fields cs ≠ [] := by
      cases cs with
      | nil => exact List.cons_ne_nil _ _
      | cons c cs =>
        unfold fields
        split <;> exact List.cons_ne_nil _ _
    obtain ⟨f, fs, hfs⟩ := List.exists_cons_of_ne_nil hne
    rw [List.cons_append, fields, fields, ih, hfs]
    split <;> rfl

lemma not_dottedQuad_dot (cs : List Char) : dottedQuad (cs ++ ['.']) = none := by
  have hnone : ∀ fs : List (List Char), (fs ++ [[]]).mapM octet = none := by
    intro fs
    induction fs with
    | nil => rfl
    | cons f fs ih =>
      rw [List.cons_append, List.mapM_cons, ih]
      cases octet f <;> rfl
  unfold dottedQuad
  rw [fields_append_dot, hnone]

lemma mem_fields {cs : List Char} {c : Char} (h : c ∈ cs) (hc : c ≠ '.') :
    ∃ f ∈ fields cs, c ∈ f := by
  induction cs with
  | nil => cases h
  | cons c' cs ih =>
    unfold fields
    rcases List.mem_cons.mp h with rfl | h
    · rw [if_neg hc]
      exact ⟨_, List.mem_cons_self, List.mem_cons_self⟩
    · obtain ⟨f, hf, hmem⟩ := ih h
      split
      · exact ⟨f, List.mem_cons_of_mem _ hf, hmem⟩
      · cases hfs : fields cs with
        | nil =>
          rw [hfs] at hf
          cases hf
        | cons g gs =>
          rw [hfs] at hf
          rcases List.mem_cons.mp hf with rfl | hf
          · exact ⟨_, List.mem_cons_self, List.mem_cons_of_mem _ hmem⟩
          · exact ⟨f, List.mem_cons_of_mem _ hf, hmem⟩

/-- A colon is no digit. -/
lemma colon_notMem {cs : List Char} {n : ℕ} (h : dottedQuad cs = some n) : ':' ∉ cs := by
  intro hmem
  obtain ⟨f, hf, hcolon⟩ := mem_fields hmem (by decide)
  have hfold : ∀ (ds : List Char) (k : ℕ), ':' ∈ ds → ds.foldlM (readDigit 10) k = none := by
    intro ds
    induction ds with
    | nil => exact fun _ hm => by cases hm
    | cons d ds ih =>
      intro k hm
      rw [List.foldlM_cons]
      rcases List.mem_cons.mp hm with rfl | hm
      · rfl
      · cases readDigit 10 k d with
        | none => rfl
        | some k' => exact ih k' hm
  have hoctet : octet f = none := by
    cases ho : octet f with
    | none => rfl
    | some k =>
      have hk := (octet_eq_some ho).2.1
      unfold number at hk
      split at hk
      · cases hk
      · rw [hfold f 0 hcolon] at hk
        cases hk
  have hall : ∀ fs : List (List Char), f ∈ fs → fs.mapM octet = none := by
    intro fs
    induction fs with
    | nil => exact fun hm => by cases hm
    | cons g fs ih =>
      intro hm
      rw [List.mapM_cons]
      rcases List.mem_cons.mp hm with rfl | hm
      · rw [hoctet]
        rfl
      · rw [ih hm]
        cases octet g <;> rfl
  unfold dottedQuad at h
  rw [hall _ hf] at h
  cases h

end Treeweft.Inet
