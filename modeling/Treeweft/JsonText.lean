import Mathlib.Data.List.Basic
import Mathlib.Data.List.Sort
import Mathlib.Data.Rat.Floor
import Mathlib.Tactic.SplitIfs
import Mathlib.Tactic.Ring
import Mathlib.Data.Char
import Mathlib.Data.List.Lex

/-!
JSON texts: a printer that writes `", "` and `": "` between the parts and escapes all but printable
ASCII, and a reader. The reader takes back what the printer wrote and reads no proper beginning of
a printed object.
-/

namespace Treeweft.JsonText

abbrev Text := List Char

/-! ### Values -/

def dropSign (signs : List Char) : Text → Text
  | [] => []
  | c :: t => if c ∈ signs then t else c :: t

def isDigits (t : Text) : Bool := t ≠ [] && t.all Char.isDigit

def isExponent : Text → Bool
  | [] => true
  | c :: t => (c = 'e' || c = 'E') && isDigits (dropSign ['-', '+'] t)

def isFraction (t : Text) : Bool :=
  match t with
  | '.' :: t => t.takeWhile Char.isDigit ≠ [] && isExponent (t.dropWhile Char.isDigit)
  | t => isExponent t

def numeralChar (c : Char) : Bool := c.isDigit || c ∈ ['-', '+', '.', 'e', 'E']

/-- A sign, digits without a leading zero, a fraction and an exponent. -/
def isNumeral (t : Text) : Bool :=
  let u := dropSign ['-'] t
  let whole := u.takeWhile Char.isDigit
  t.all numeralChar && (whole = ['0'] || whole ≠ [] && whole.head? ≠ some '0') &&
    isFraction (u.dropWhile Char.isDigit)

/-- A number is kept as the numeral that writes it. -/
structure Number where
  text : Text
  numeral : isNumeral text
  deriving DecidableEq

inductive Word
  | null
  | true
  | false
  | nan
  | infinity
  | negInfinity
  deriving DecidableEq

def Word.text : Word → Text
  | .null => "null".toList
  | .true => "true".toList
  | .false => "false".toList
  | .nan => "NaN".toList
  | .infinity => "Infinity".toList
  | .negInfinity => "-Infinity".toList

def words : List Word := [.null, .true, .false, .nan, .infinity, .negInfinity]

inductive Value
  | word (w : Word)
  | num (n : Number)
  | str (s : Text)
  | arr (l : List Value)
  | obj (fields : List (Text × Value))

/-! ### Writing -/

def hex4 (n : ℕ) : Text :=
  [(n / 4096 % 16).digitChar, (n / 256 % 16).digitChar, (n / 16 % 16).digitChar, (n % 16).digitChar]

/-- The code units of a character: beyond four hexadecimal digits, two surrogates. -/
def codeUnits (c : Char) : List ℕ :=
  if c.toNat < 65536 then [c.toNat]
  else [55296 + (c.toNat - 65536) / 1024, 56320 + (c.toNat - 65536) % 1024]

def escape (c : Char) : Text :=
  if c = '"' then ['\\', '"']
  else if c = '\\' then ['\\', '\\']
  else if c = '\n' then ['\\', 'n']
  else if c = '\r' then ['\\', 'r']
  else if c = '\t' then ['\\', 't']
  else if c = '\x0c' then ['\\', 'f']
  else if c = '\x08' then ['\\', 'b']
  else if 32 ≤ c.toNat ∧ c.toNat ≤ 126 then [c]
  else (codeUnits c).flatMap fun n => '\\' :: 'u' :: hex4 n

def quote (s : Text) : Text := '"' :: s.flatMap escape ++ ['"']

mutual

def dumps : Value → Text
  | .word w => w.text
  | .num n => n.text
  | .str s => quote s
  | .arr [] => ['[', ']']
  | .arr (v :: l) => '[' :: (dumps v ++ dumpsElements l)
  | .obj [] => ['{', '}']
  | .obj ((k, v) :: fields) => '{' :: (quote k ++ ':' :: ' ' :: (dumps v ++ dumpsMembers fields))

/-- What follows an element of an array. -/
def dumpsElements : List Value → Text
  | [] => [']']
  | v :: l => ',' :: ' ' :: (dumps v ++ dumpsElements l)

/-- What follows a member of an object. -/
def dumpsMembers : List (Text × Value) → Text
  | [] => ['}']
  | (k, v) :: fields =>
    ',' :: ' ' :: (quote k ++ ':' :: ' ' :: (dumps v ++ dumpsMembers fields))

end

/-- The fields in the order of their keys. -/
def sortKeys (fields : List (Text × Value)) : List (Text × Value) :=
  fields.insertionSort fun f g => f.1 ≤ g.1

/-! ### Reading -/

def isSpace (c : Char) : Bool := c ∈ [' ', '\t', '\n', '\r']

def skip (t : Text) : Text := t.dropWhile isSpace

def hexVal (c : Char) : Option ℕ :=
  if c.isDigit then some (c.toNat - 48)
  else if 97 ≤ c.toNat ∧ c.toNat ≤ 102 then some (c.toNat - 87)
  else if 65 ≤ c.toNat ∧ c.toNat ≤ 70 then some (c.toNat - 55)
  else none

def ofHex (a b c d : Char) : Option ℕ := do
  some (4096 * (← hexVal a) + 256 * (← hexVal b) + 16 * (← hexVal c) + (← hexVal d))

def unescape (c : Char) : Option ℕ :=
  (['"', '\\', '/'].find? (· = c)).map Char.toNat <|>
    ([('n', 10), ('r', 13), ('t', 9), ('f', 12), ('b', 8)].lookup c)

/-- The code units of a string up to its closing quote, and the text behind it. -/
def units : Text → Option (List ℕ × Text)
  | [] => none
  | c :: t =>
    if c = '"' then some ([], t)
    else if c = '\\' then
      match t with
      | 'u' :: h₃ :: h₂ :: h₁ :: h₀ :: t =>
        (ofHex h₃ h₂ h₁ h₀).bind fun n => (units t).map fun x => (n :: x.1, x.2)
      | e :: t => (unescape e).bind fun n => (units t).map fun x => (n :: x.1, x.2)
      | [] => none
    else if c.toNat < 32 then none
    else (units t).map fun x => (c.toNat :: x.1, x.2)

example : units ['"'] = some ([], []) := by rw [units.eq_def]; rfl

/-- Two surrogates are one character; a surrogate on its own is none. -/
def decode : List ℕ → Option Text
  | [] => some []
  | [u] => if 55296 ≤ u ∧ u < 57344 then none else some [Char.ofNat u]
  | u :: w :: us =>
    if 55296 ≤ u ∧ u < 56320 ∧ 56320 ≤ w ∧ w < 57344 then
      (decode us).map (Char.ofNat (65536 + (u - 55296) * 1024 + (w - 56320)) :: ·)
    else if 55296 ≤ u ∧ u < 57344 then none
    else (decode (w :: us)).map (Char.ofNat u :: ·)

def string (t : Text) : Option (Text × Text) :=
  (units t).bind fun x => (decode x.1).map (·, x.2)

def takeWord (t : Text) : Option Word := words.find? fun w => w.text.isPrefixOf t

/-- A value of one token that is no string. -/
def leaf (t : Text) : Option (Value × Text) :=
  match takeWord t with
  | some w => some (.word w, t.drop w.text.length)
  | none =>
    if h : isNumeral (t.takeWhile numeralChar) then some (.num ⟨_, h⟩, t.dropWhile numeralChar)
    else none

/-- A later value of a key takes the place of the one before. -/
def put (fields : List (Text × Value)) (f : Text × Value) : List (Text × Value) :=
  if f.1 ∈ fields.map Prod.fst then fields.map fun g => if g.1 = f.1 then f else g
  else fields ++ [f]

def dict (fields : List (Text × Value)) : List (Text × Value) := fields.foldl put []

mutual

/-- The value at the front of the text, and the text behind it. -/
def value : ℕ → Text → Option (Value × Text)
  | 0, _ => none
  | _ + 1, '"' :: t => (string t).map fun x => (.str x.1, x.2)
  | n + 1, '[' :: t =>
    match skip t with
    | ']' :: r => some (.arr [], r)
    | t => (elements n t).map fun x => (.arr x.1, x.2)
  | n + 1, '{' :: t =>
    match skip t with
    | '}' :: r => some (.obj [], r)
    | t => (members n t).map fun x => (.obj (dict x.1), x.2)
  | _ + 1, t => leaf t

def elements : ℕ → Text → Option (List Value × Text)
  | 0, _ => none
  | n + 1, t =>
    (value n t).bind fun x =>
      match skip x.2 with
      | ']' :: r => some ([x.1], r)
      | ',' :: r => (elements n (skip r)).map fun y => (x.1 :: y.1, y.2)
      | _ => none

def members : ℕ → Text → Option (List (Text × Value) × Text)
  | n + 1, '"' :: t =>
    (string t).bind fun k =>
      match skip k.2 with
      | ':' :: r =>
        (value n (skip r)).bind fun x =>
          match skip x.2 with
          | '}' :: r => some ([(k.1, x.1)], r)
          | ',' :: r => (members n (skip r)).map fun y => ((k.1, x.1) :: y.1, y.2)
          | _ => none
      | _ => none
  | _, _ => none

end

/-- The text holds one value; twice its length is fuel enough for any. -/
def loads (t : Text) : Option Value :=
  (value (2 * t.length) (skip t)).bind fun x => if skip x.2 = [] then some x.1 else none

/-! ### Words and Numerals -/

lemma word_unique : ∀ w w' : Word, w.text <+: w'.text → w = w' := by
  intro w w'
  cases w <;> cases w' <;> decide

lemma mem_words (w : Word) : w ∈ words := by cases w <;> decide

lemma prefix_of_takeWord {t : Text} {w : Word} (h : takeWord t = some w) : w.text <+: t := by
  have hpre := List.find?_some h
  exact List.isPrefixOf_iff_prefix.mp hpre

lemma takeWord_of_begins {t : Text} {w : Word} (h : w.text <+: t) : takeWord t = some w := by
  cases hfind : takeWord t with
  | none =>
    have hno := List.find?_eq_none.mp hfind w (mem_words w)
    exact absurd (List.isPrefixOf_iff_prefix.mpr h) hno
  | some w' =>
    rcases List.prefix_or_prefix_of_prefix h (prefix_of_takeWord hfind) with hle | hle
    · rw [word_unique w w' hle]
    · rw [word_unique w' w hle]

lemma word_cons (w : Word) : ∃ a b t, w.text = a :: b :: t ∧
    a.isDigit = false ∧ b.isDigit = false ∧ a ∉ ['"', '[', '{'] := by
  cases w <;> exact ⟨_, _, _, rfl, by decide, by decide, by decide⟩

lemma Number.all_numeralChar (n : Number) : ∀ c ∈ n.text, numeralChar c := by
  have h := n.numeral
  unfold isNumeral at h
  simp only [Bool.and_eq_true, List.all_eq_true] at h
  exact h.1.1

/-- A numeral begins with a digit, or with a minus sign and a digit. -/
lemma Number.head_digit (n : Number) :
    ∃ d u, d.isDigit ∧ (n.text = d :: u ∨ n.text = '-' :: d :: u) := by
  have h := n.numeral
  unfold isNumeral at h
  simp only [Bool.and_eq_true, Bool.or_eq_true, decide_eq_true_eq] at h
  have hwhole : (dropSign ['-'] n.text).takeWhile Char.isDigit ≠ [] := by
    rcases h.1.2 with hzero | hsome
    · rw [hzero]
      exact nofun
    · exact hsome.1
  cases hu : dropSign ['-'] n.text with
  | nil => exact absurd (by rw [hu]; rfl) hwhole
  | cons d u =>
    rw [hu] at hwhole
    have hd : d.isDigit := by
      by_contra hd
      exact hwhole (List.takeWhile_cons_of_neg hd)
    refine ⟨d, u, hd, ?_⟩
    cases ht : n.text with
    | nil =>
      rw [ht] at hu
      cases hu
    | cons c t =>
      rw [ht] at hu
      by_cases hc : c ∈ ['-']
      · rw [dropSign, if_pos hc] at hu
        right
        rw [List.mem_singleton.mp hc, hu]
      · rw [dropSign, if_neg hc] at hu
        exact .inl hu

lemma Number.not_word (n : Number) (rest : Text) : takeWord (n.text ++ rest) = none := by
  rw [takeWord, List.find?_eq_none]
  intro w _ hpre
  rw [List.isPrefixOf_iff_prefix] at hpre
  obtain ⟨a, b, t, hw, ha, hb, -⟩ := word_cons w
  rw [hw] at hpre
  obtain ⟨d, u, hd, hn | hn⟩ := n.head_digit
  · rw [hn, List.cons_append, List.cons_prefix_cons] at hpre
    rw [hpre.1, hd] at ha
    cases ha
  · rw [hn, List.cons_append, List.cons_append, List.cons_prefix_cons,
      List.cons_prefix_cons] at hpre
    rw [hpre.2.1, hd] at hb
    cases hb

lemma leaf_num (n : Number) {rest : Text} (h : ∀ c ∈ rest.head?, numeralChar c = false) :
    leaf (n.text ++ rest) = some (.num n, rest) := by
  have htake : (n.text ++ rest).takeWhile numeralChar = n.text := by
    rw [List.takeWhile_append_of_pos n.all_numeralChar]
    cases rest with
    | nil => simp
    | cons c rest => simp [h c rfl]
  have hdrop : (n.text ++ rest).dropWhile numeralChar = rest := by
    rw [List.dropWhile_append_of_pos n.all_numeralChar]
    cases rest with
    | nil => rfl
    | cons c rest => exact List.dropWhile_cons_of_neg (by simp [h c rfl])
  unfold leaf
  rw [n.not_word]
  simp only [htake, hdrop, n.numeral, dif_pos]

lemma leaf_word (w : Word) (rest : Text) : leaf (w.text ++ rest) = some (.word w, rest) := by
  unfold leaf
  rw [takeWord_of_begins (List.prefix_append _ _)]
  dsimp only
  rw [List.drop_left]

/-- More text behind changes nothing, except right behind a numeral. -/
lemma leaf_append {t r q : Text} {v : Value} (h : leaf t = some (v, r))
    (hr : r ≠ [] ∨ ∀ n, v ≠ .num n) : leaf (t ++ q) = some (v, r ++ q) := by
  unfold leaf at h
  cases hword : takeWord t with
  | some w =>
    rw [hword] at h
    obtain ⟨rfl, rfl⟩ := Prod.mk.inj (Option.some.inj h)
    obtain ⟨u, rfl⟩ := prefix_of_takeWord hword
    rw [List.append_assoc, leaf_word, List.drop_left]
  | none =>
    rw [hword] at h
    dsimp only at h
    split_ifs at h with hnum
    obtain ⟨rfl, rfl⟩ := Prod.mk.inj (Option.some.inj h)
    have hne : t.dropWhile numeralChar ≠ [] := hr.resolve_right fun hno => hno _ rfl
    have hhead : ∀ c ∈ (t.dropWhile numeralChar ++ q).head?, numeralChar c = false := by
      intro c hc
      rw [List.head?_append_of_ne_nil _ hne] at hc
      have hno := List.head?_dropWhile_not numeralChar t
      rw [hc] at hno
      simpa using hno
    have hsplit : t ++ q = t.takeWhile numeralChar ++ (t.dropWhile numeralChar ++ q) := by
      rw [← List.append_assoc, List.takeWhile_append_dropWhile]
    rw [hsplit]
    exact leaf_num ⟨_, hnum⟩ hhead

/-! ### Strings -/

lemma units_quote (t : Text) : units ('"' :: t) = some ([], t) := by
  rw [units.eq_def]
  exact if_pos rfl

lemma units_hex (h₃ h₂ h₁ h₀ : Char) (t : Text) :
    units ('\\' :: 'u' :: h₃ :: h₂ :: h₁ :: h₀ :: t) =
      (ofHex h₃ h₂ h₁ h₀).bind fun n => (units t).map fun x => (n :: x.1, x.2) := by
  rw [units.eq_def]
  dsimp only
  rw [if_neg (by decide), if_pos rfl]
  rfl

lemma units_escaped {e : Char} {t : Text} (h : e ≠ 'u') : units ('\\' :: e :: t) =
    (unescape e).bind fun n => (units t).map fun x => (n :: x.1, x.2) := by
  rw [units.eq_def]
  dsimp only
  rw [if_neg (by decide), if_pos rfl]
  split
  · rename_i heq
    exact absurd (List.cons.inj heq).1 h
  · rename_i heq
    obtain ⟨rfl, rfl⟩ := List.cons.inj heq
    rfl
  · rename_i heq
    cases heq

lemma units_char {c : Char} (hquote : c ≠ '"') (hback : c ≠ '\\') (hplain : ¬ c.toNat < 32)
    (t : Text) : units (c :: t) = (units t).map fun x => (c.toNat :: x.1, x.2) := by
  rw [units.eq_def]
  dsimp only
  rw [if_neg hquote, if_neg hback, if_neg hplain]

lemma units_append {t r q : Text} {us : List ℕ} (h : units t = some (us, r)) :
    units (t ++ q) = some (us, r ++ q) := by
  fun_induction units t generalizing us r with
  | case1 => cases h
  | case2 t =>
    obtain ⟨rfl, rfl⟩ := Prod.mk.inj (Option.some.inj h)
    exact units_quote _
  | case3 h₃ h₂ h₁ h₀ t _ ih =>
    obtain ⟨n, hn, h⟩ := Option.bind_eq_some_iff.mp h
    obtain ⟨x, hx, h⟩ := Option.map_eq_some_iff.mp h
    obtain ⟨rfl, rfl⟩ := Prod.mk.inj h
    change units ('\\' :: 'u' :: h₃ :: h₂ :: h₁ :: h₀ :: (t ++ q)) = _
    rw [units_hex, hn, ih hx]
    rfl
  | case4 e t hno _ ih =>
    obtain ⟨n, hn, h⟩ := Option.bind_eq_some_iff.mp h
    obtain ⟨x, hx, h⟩ := Option.map_eq_some_iff.mp h
    obtain ⟨rfl, rfl⟩ := Prod.mk.inj h
    have he : e ≠ 'u' := by
      rintro rfl
      cases hn
    change units ('\\' :: e :: (t ++ q)) = _
    rw [units_escaped he, hn, ih hx]
    rfl
  | case5 => cases h
  | case6 => cases h
  | case7 c t hquote hback hplain ih =>
    obtain ⟨x, hx, h⟩ := Option.map_eq_some_iff.mp h
    obtain ⟨rfl, rfl⟩ := Prod.mk.inj h
    rw [List.cons_append, units_char hquote hback hplain, ih hx]
    rfl

lemma string_append {t r q s : Text} (h : string t = some (s, r)) :
    string (t ++ q) = some (s, r ++ q) := by
  obtain ⟨⟨us, r'⟩, hu, h⟩ := Option.bind_eq_some_iff.mp h
  obtain ⟨s', hs, h⟩ := Option.map_eq_some_iff.mp h
  obtain ⟨rfl, rfl⟩ := Prod.mk.inj h
  unfold string
  rw [units_append hu]
  exact Option.map_eq_some_iff.mpr ⟨_, hs, rfl⟩

lemma hexVal_digitChar : ∀ d < 16, hexVal d.digitChar = some d := by decide

lemma units_hex4 {n : ℕ} (hn : n < 65536) (t : Text) :
    units ('\\' :: 'u' :: (hex4 n ++ t)) = (units t).map fun x => (n :: x.1, x.2) := by
  have hof : ofHex (n / 4096 % 16).digitChar (n / 256 % 16).digitChar (n / 16 % 16).digitChar
      (n % 16).digitChar = some n := by
    have hval : 4096 * (n / 4096 % 16) + 256 * (n / 256 % 16) + 16 * (n / 16 % 16) + n % 16 =
        n := by
      omega
    unfold ofHex
    have hdigit : ∀ k, hexVal (k % 16).digitChar = some (k % 16) := fun k =>
      hexVal_digitChar _ (Nat.mod_lt _ (by decide))
    rw [hdigit, hdigit, hdigit, hdigit]
    exact congrArg some hval
  change units ('\\' :: 'u' :: _ :: _ :: _ :: _ :: t) = _
  rw [units_hex, hof]
  rfl

lemma units_flatMap_hex4 {us : List ℕ} (h : ∀ n ∈ us, n < 65536) (t : Text) :
    units ((us.flatMap fun n => '\\' :: 'u' :: hex4 n) ++ t) =
      (units t).map fun x => (us ++ x.1, x.2) := by
  induction us with
  | nil => exact Option.map_id'.symm
  | cons n us ih =>
    rw [List.flatMap_cons, List.append_assoc, List.cons_append, List.cons_append,
      units_hex4 (h n List.mem_cons_self), ih fun m hm => h m (List.mem_cons_of_mem _ hm),
      Option.map_map]
    rfl

lemma codeUnits_lt (c : Char) : ∀ n ∈ codeUnits c, n < 65536 := by
  have hc : c.toNat < 1114112 := by
    have hvalid : c.toNat < 55296 ∨ 57343 < c.toNat ∧ c.toNat < 1114112 := c.valid
    omega
  unfold codeUnits
  split_ifs with h
  · simpa using h
  · simp only [List.mem_cons, List.not_mem_nil, or_false]
    omega

lemma units_escape (c : Char) (t : Text) :
    units (escape c ++ t) = (units t).map fun x => (codeUnits c ++ x.1, x.2) := by
  have hshort : ∀ e n, unescape e = some n → e ≠ 'u' → codeUnits c = [n] →
      units ('\\' :: e :: t) = (units t).map fun x => (codeUnits c ++ x.1, x.2) := by
    intro e n he hu hc
    rw [units_escaped hu, he, hc]
    rfl
  unfold escape
  split_ifs with h1 h2 h3 h4 h5 h6 h7 h8
  · exact hshort '"' 34 rfl (by decide) (by rw [h1]; rfl)
  · exact hshort '\\' 92 rfl (by decide) (by rw [h2]; rfl)
  · exact hshort 'n' 10 rfl (by decide) (by rw [h3]; rfl)
  · exact hshort 'r' 13 rfl (by decide) (by rw [h4]; rfl)
  · exact hshort 't' 9 rfl (by decide) (by rw [h5]; rfl)
  · exact hshort 'f' 12 rfl (by decide) (by rw [h6]; rfl)
  · exact hshort 'b' 8 rfl (by decide) (by rw [h7]; rfl)
  · have hunits : codeUnits c = [c.toNat] := if_pos (by omega)
    rw [List.singleton_append, units_char h1 h2 (by omega), hunits]
    rfl
  · exact units_flatMap_hex4 (codeUnits_lt c) t

lemma decode_codeUnits (c : Char) (us : List ℕ) :
    decode (codeUnits c ++ us) = (decode us).map (c :: ·) := by
  have hvalid : c.toNat < 55296 ∨ 57343 < c.toNat ∧ c.toNat < 1114112 := c.valid
  unfold codeUnits
  split_ifs with h
  · have hno : ¬ (55296 ≤ c.toNat ∧ c.toNat < 57344) := by omega
    cases us with
    | nil =>
      change (if 55296 ≤ c.toNat ∧ c.toNat < 57344 then none
        else some [Char.ofNat c.toNat]) = some [c]
      rw [if_neg hno, Char.ofNat_toNat]
    | cons w us =>
      have hpair : ¬ (55296 ≤ c.toNat ∧ c.toNat < 56320 ∧ 56320 ≤ w ∧ w < 57344) := by omega
      rw [List.singleton_append, decode, if_neg hpair, if_neg hno, Char.ofNat_toNat]
  · have hpair : 55296 ≤ 55296 + (c.toNat - 65536) / 1024 ∧
        55296 + (c.toNat - 65536) / 1024 < 56320 ∧ 56320 ≤ 56320 + (c.toNat - 65536) % 1024 ∧
        56320 + (c.toNat - 65536) % 1024 < 57344 := by omega
    have hval : 65536 + (55296 + (c.toNat - 65536) / 1024 - 55296) * 1024 +
        (56320 + (c.toNat - 65536) % 1024 - 56320) = c.toNat := by omega
    rw [List.cons_append, List.singleton_append, decode, if_pos hpair, hval, Char.ofNat_toNat]

lemma decode_flatMap (s : Text) : decode (s.flatMap codeUnits) = some s := by
  induction s with
  | nil => rfl
  | cons c s ih =>
    rw [List.flatMap_cons, decode_codeUnits, ih]
    rfl

/-- A quoted text is read as what it quotes. -/
lemma string_quote (s rest : Text) : string (s.flatMap escape ++ '"' :: rest) = some (s, rest) := by
  have hunits : units (s.flatMap escape ++ '"' :: rest) = some (s.flatMap codeUnits, rest) := by
    induction s with
    | nil => exact units_quote rest
    | cons c s ih =>
      rw [List.flatMap_cons, List.append_assoc, units_escape, ih]
      rfl
  unfold string
  rw [hunits]
  exact Option.map_eq_some_iff.mpr ⟨s, decode_flatMap s, rfl⟩

/-! ### The Reader on Longer Texts -/

lemma length_skip_le (t : Text) : (skip t).length ≤ t.length :=
  (List.dropWhile_suffix isSpace).length_le

lemma skip_append {t q : Text} (h : skip t ≠ []) : skip (t ++ q) = skip t ++ q := by
  unfold skip at h ⊢
  rw [List.dropWhile_append, if_neg (by simpa using h)]

lemma skip_append_cons {t r q : Text} {c : Char} (h : skip t = c :: r) :
    skip (t ++ q) = c :: (r ++ q) := by
  rw [skip_append (by rw [h]; exact nofun), h]
  rfl

lemma skip_of_not_space {c : Char} (h : isSpace c = false) (t : Text) : skip (c :: t) = c :: t :=
  List.dropWhile_cons_of_neg (by simp [h])

lemma length_units {t r : Text} {us : List ℕ} (h : units t = some (us, r)) :
    r.length < t.length := by
  fun_induction units t generalizing us r with
  | case1 => cases h
  | case2 t =>
    obtain ⟨rfl, rfl⟩ := Prod.mk.inj (Option.some.inj h)
    exact Nat.lt_succ_self _
  | case3 h₃ h₂ h₁ h₀ t _ ih =>
    obtain ⟨n, _, h⟩ := Option.bind_eq_some_iff.mp h
    obtain ⟨x, hx, h⟩ := Option.map_eq_some_iff.mp h
    obtain ⟨rfl, rfl⟩ := Prod.mk.inj h
    have hlt := ih hx
    simp only [List.length_cons]
    omega
  | case4 e t _ _ ih =>
    obtain ⟨n, _, h⟩ := Option.bind_eq_some_iff.mp h
    obtain ⟨x, hx, h⟩ := Option.map_eq_some_iff.mp h
    obtain ⟨rfl, rfl⟩ := Prod.mk.inj h
    have hlt := ih hx
    simp only [List.length_cons]
    omega
  | case5 => cases h
  | case6 => cases h
  | case7 c t _ _ _ ih =>
    obtain ⟨x, hx, h⟩ := Option.map_eq_some_iff.mp h
    obtain ⟨rfl, rfl⟩ := Prod.mk.inj h
    have hlt := ih hx
    simp only [List.length_cons]
    omega

lemma length_string {t r s : Text} (h : string t = some (s, r)) : r.length < t.length := by
  obtain ⟨⟨us, r'⟩, hu, h⟩ := Option.bind_eq_some_iff.mp h
  obtain ⟨s', -, h⟩ := Option.map_eq_some_iff.mp h
  obtain ⟨rfl, rfl⟩ := Prod.mk.inj h
  exact length_units hu

lemma length_leaf {t r : Text} {v : Value} (h : leaf t = some (v, r)) : r.length < t.length := by
  unfold leaf at h
  cases hword : takeWord t with
  | some w =>
    rw [hword] at h
    obtain ⟨rfl, rfl⟩ := Prod.mk.inj (Option.some.inj h)
    obtain ⟨u, rfl⟩ := prefix_of_takeWord hword
    obtain ⟨a, b, w', hw, -⟩ := word_cons w
    rw [List.drop_left, hw]
    simp only [List.length_append, List.length_cons]
    omega
  | none =>
    rw [hword] at h
    dsimp only at h
    split_ifs at h with hnum
    obtain ⟨rfl, rfl⟩ := Prod.mk.inj (Option.some.inj h)
    have hne : t.takeWhile numeralChar ≠ [] := by
      obtain ⟨d, u, -, hd | hd⟩ := Number.head_digit ⟨_, hnum⟩ <;>
        exact fun hnil => nomatch hd.symm.trans hnil
    have hlen := congrArg List.length (List.takeWhile_append_dropWhile (p := numeralChar) (l := t))
    rw [List.length_append] at hlen
    have hpos := List.length_pos_iff.mpr hne
    omega

/-- What has been read of a text is read again with fuel in proportion to it, whatever stands
behind the text. -/
def Settled {α : Type} (read : ℕ → Text → Option (α × Text)) (x : α) (t r : Text) : Prop :=
  r.length + 2 ≤ t.length ∧
    ∀ m q, 2 * (t.length - r.length) ≤ m + 2 → read m (t ++ q) = some (x, r ++ q)

/-- The same of a value; a numeral must not go on in what stands behind it. -/
def SettledValue (v : Value) (t r : Text) : Prop :=
  r.length < t.length ∧
    ∀ m q, 2 * (t.length - r.length) ≤ m + 1 → (q = [] ∨ r ≠ [] ∨ ∀ k, v ≠ .num k) →
      value m (t ++ q) = some (v, r ++ q)

section Settled
variable {n : ℕ} {t r : Text}

lemma ne_nil_of_skip {c : Char} {u : Text} (h : skip t = c :: u) : t ≠ [] := by
  rintro rfl
  cases h

lemma elements_settled (ihv : ∀ {t r v}, value n t = some (v, r) → SettledValue v t r)
    (ihe : ∀ {t r l}, elements n t = some (l, r) → Settled elements l t r) {l : List Value}
    (h : elements (n + 1) t = some (l, r)) : Settled elements l t r := by
  rw [elements] at h
  obtain ⟨⟨v, r₁⟩, hv, h⟩ := Option.bind_eq_some_iff.mp h
  obtain ⟨hlen, hmore⟩ := ihv hv
  have hskip := length_skip_le r₁
  dsimp only at h
  split at h
  · rename_i r' hr
    obtain ⟨rfl, rfl⟩ := Prod.mk.inj (Option.some.inj h)
    rw [hr, List.length_cons] at hskip
    refine ⟨by omega, fun m q hm => ?_⟩
    obtain ⟨m, rfl⟩ : ∃ m', m = m' + 1 := ⟨m - 1, by omega⟩
    rw [elements, hmore m q (by omega) (.inr (.inl (ne_nil_of_skip hr)))]
    dsimp only [Option.bind_some]
    rw [skip_append_cons hr]
    rfl
  · rename_i r' hr
    obtain ⟨⟨l', r''⟩, hl, h⟩ := Option.map_eq_some_iff.mp h
    obtain ⟨rfl, rfl⟩ : v :: l' = l ∧ r'' = r := Prod.mk.inj h
    obtain ⟨hlen', hmore'⟩ := ihe hl
    have hskip' := length_skip_le r'
    have hne : skip r' ≠ [] := List.ne_nil_of_length_pos (by omega)
    rw [hr, List.length_cons] at hskip
    refine ⟨by omega, fun m q hm => ?_⟩
    obtain ⟨m, rfl⟩ : ∃ m', m = m' + 1 := ⟨m - 1, by omega⟩
    rw [elements, hmore m q (by omega) (.inr (.inl (ne_nil_of_skip hr)))]
    dsimp only [Option.bind_some]
    rw [skip_append_cons hr]
    change (elements m (skip (r' ++ q))).map (fun y => (v :: y.1, y.2)) = _
    rw [skip_append hne, hmore' m q (by omega)]
    rfl
  · cases h

lemma members_settled (ihv : ∀ {t r v}, value n t = some (v, r) → SettledValue v t r)
    (ihm : ∀ {t r l}, members n t = some (l, r) → Settled members l t r)
    {l : List (Text × Value)} (h : members (n + 1) t = some (l, r)) : Settled members l t r := by
  cases t with
  | nil =>
    rw [members] at h
    · cases h
    · exact fun _ _ _ ht => nomatch ht
  | cons c t =>
    by_cases hc : c = '"'
    swap
    · rw [members] at h
      · cases h
      · exact fun _ _ _ ht => hc (List.cons.inj ht).1
    subst hc
    rw [members] at h
    obtain ⟨⟨k, r₀⟩, hk, h⟩ := Option.bind_eq_some_iff.mp h
    have hlenk := length_string hk
    have hskipk := length_skip_le r₀
    dsimp only at h
    split at h
    · rename_i r₁ hr₁
      obtain ⟨⟨v, r₂⟩, hv, h⟩ := Option.bind_eq_some_iff.mp h
      obtain ⟨hlen, hmore⟩ := ihv hv
      have hskip₁ := length_skip_le r₁
      have hskip₂ := length_skip_le r₂
      have hne : skip r₁ ≠ [] := List.ne_nil_of_length_pos (by omega)
      rw [hr₁, List.length_cons] at hskipk
      dsimp only at h
      split at h
      · rename_i r' hr
        obtain ⟨rfl, rfl⟩ := Prod.mk.inj (Option.some.inj h)
        rw [hr, List.length_cons] at hskip₂
        refine ⟨by simp only [List.length_cons]; omega, fun m q hm => ?_⟩
        rw [List.length_cons] at hm
        obtain ⟨m, rfl⟩ : ∃ m', m = m' + 1 := ⟨m - 1, by omega⟩
        rw [List.cons_append, members, string_append hk]
        dsimp only [Option.bind_some]
        rw [skip_append_cons hr₁]
        change (value m (skip (r₁ ++ q))).bind _ = _
        rw [skip_append hne, hmore m q (by omega) (.inr (.inl (ne_nil_of_skip hr)))]
        dsimp only [Option.bind_some]
        rw [skip_append_cons hr]
        rfl
      · rename_i r' hr
        obtain ⟨⟨l', r''⟩, hl, h⟩ := Option.map_eq_some_iff.mp h
        obtain ⟨rfl, rfl⟩ : (k, v) :: l' = l ∧ r'' = r := Prod.mk.inj h
        obtain ⟨hlen', hmore'⟩ := ihm hl
        have hskip' := length_skip_le r'
        have hne' : skip r' ≠ [] := List.ne_nil_of_length_pos (by omega)
        rw [hr, List.length_cons] at hskip₂
        refine ⟨by simp only [List.length_cons]; omega, fun m q hm => ?_⟩
        rw [List.length_cons] at hm
        obtain ⟨m, rfl⟩ : ∃ m', m = m' + 1 := ⟨m - 1, by omega⟩
        rw [List.cons_append, members, string_append hk]
        dsimp only [Option.bind_some]
        rw [skip_append_cons hr₁]
        change (value m (skip (r₁ ++ q))).bind _ = _
        rw [skip_append hne, hmore m q (by omega) (.inr (.inl (ne_nil_of_skip hr)))]
        dsimp only [Option.bind_some]
        rw [skip_append_cons hr]
        change (members m (skip (r' ++ q))).map (fun y => ((k, v) :: y.1, y.2)) = _
        rw [skip_append hne', hmore' m q (by omega)]
        rfl
      · cases h
    · cases h

lemma append_ne_cons {c : Char} {u q : Text} (hne : u ≠ []) (h : ∀ r, u ≠ c :: r) (r : Text) :
    u ++ q ≠ c :: r := by
  cases u with
  | nil => exact absurd rfl hne
  | cons d u => exact fun heq => h u (by rw [(List.cons.inj heq).1])

lemma value_leaf {c : Char} (h : c ∉ ['"', '[', '{']) (m : ℕ) (t : Text) :
    value (m + 1) (c :: t) = leaf (c :: t) := by
  simp only [List.mem_cons, List.not_mem_nil, or_false, not_or] at h
  rw [value]
  · exact fun _ ht => h.1 (List.cons.inj ht).1
  · exact fun _ ht => h.2.1 (List.cons.inj ht).1
  · exact fun _ ht => h.2.2 (List.cons.inj ht).1

lemma leaf_settled {v : Value} (hread : ∀ m q, value (m + 1) (t ++ q) = leaf (t ++ q))
    (h : leaf t = some (v, r)) : SettledValue v t r := by
  have hlen := length_leaf h
  refine ⟨hlen, fun m q hm hq => ?_⟩
  obtain ⟨m, rfl⟩ : ∃ m', m = m' + 1 := ⟨m - 1, by omega⟩
  rw [hread]
  rcases hq with rfl | hq
  · rw [List.append_nil, List.append_nil, h]
  · exact leaf_append h hq

lemma value_settled (ihe : ∀ {t r l}, elements n t = some (l, r) → Settled elements l t r)
    (ihm : ∀ {t r l}, members n t = some (l, r) → Settled members l t r) {v : Value}
    (h : value (n + 1) t = some (v, r)) : SettledValue v t r := by
  cases t with
  | nil =>
    rw [value] at h
    · exact absurd (length_leaf h) (Nat.not_lt_zero _)
    · exact nofun
    · exact nofun
    · exact nofun
  | cons c t =>
    by_cases hquote : c = '"'
    · subst hquote
      rw [value] at h
      obtain ⟨⟨s, r'⟩, hs, h⟩ := Option.map_eq_some_iff.mp h
      obtain ⟨rfl, rfl⟩ : .str s = v ∧ r' = r := Prod.mk.inj h
      have hlen := length_string hs
      refine ⟨by rw [List.length_cons]; omega, fun m q hm _ => ?_⟩
      rw [List.length_cons] at hm
      obtain ⟨m, rfl⟩ : ∃ m', m = m' + 1 := ⟨m - 1, by omega⟩
      rw [List.cons_append, value, string_append hs]
      rfl
    by_cases hbracket : c = '['
    · subst hbracket
      have hskip := length_skip_le t
      rw [value] at h
      split at h
      · rename_i r' hr
        obtain ⟨rfl, rfl⟩ := Prod.mk.inj (Option.some.inj h)
        rw [hr, List.length_cons] at hskip
        refine ⟨by rw [List.length_cons]; omega, fun m q hm _ => ?_⟩
        rw [List.length_cons] at hm
        obtain ⟨m, rfl⟩ : ∃ m', m = m' + 1 := ⟨m - 1, by omega⟩
        rw [List.cons_append, value, skip_append_cons hr]
        rfl
      · rename_i hno
        obtain ⟨⟨l, r'⟩, hl, h⟩ := Option.map_eq_some_iff.mp h
        obtain ⟨rfl, rfl⟩ : .arr l = v ∧ r' = r := Prod.mk.inj h
        obtain ⟨hlen, hmore⟩ := ihe hl
        have hne : skip t ≠ [] := List.ne_nil_of_length_pos (by omega)
        refine ⟨by rw [List.length_cons]; omega, fun m q hm _ => ?_⟩
        rw [List.length_cons] at hm
        obtain ⟨m, rfl⟩ : ∃ m', m = m' + 1 := ⟨m - 1, by omega⟩
        rw [List.cons_append, value, skip_append hne]
        split
        · rename_i hr
          exact absurd hr (append_ne_cons hne hno _)
        · rw [hmore m q (by omega)]
          rfl
    by_cases hbrace : c = '{'
    · subst hbrace
      have hskip := length_skip_le t
      rw [value] at h
      split at h
      · rename_i r' hr
        obtain ⟨rfl, rfl⟩ := Prod.mk.inj (Option.some.inj h)
        rw [hr, List.length_cons] at hskip
        refine ⟨by rw [List.length_cons]; omega, fun m q hm _ => ?_⟩
        rw [List.length_cons] at hm
        obtain ⟨m, rfl⟩ : ∃ m', m = m' + 1 := ⟨m - 1, by omega⟩
        rw [List.cons_append, value, skip_append_cons hr]
        rfl
      · rename_i hno
        obtain ⟨⟨l, r'⟩, hl, h⟩ := Option.map_eq_some_iff.mp h
        obtain ⟨rfl, rfl⟩ : .obj (dict l) = v ∧ r' = r := Prod.mk.inj h
        obtain ⟨hlen, hmore⟩ := ihm hl
        have hne : skip t ≠ [] := List.ne_nil_of_length_pos (by omega)
        refine ⟨by rw [List.length_cons]; omega, fun m q hm _ => ?_⟩
        rw [List.length_cons] at hm
        obtain ⟨m, rfl⟩ : ∃ m', m = m' + 1 := ⟨m - 1, by omega⟩
        rw [List.cons_append, value, skip_append hne]
        split
        · rename_i hr
          exact absurd hr (append_ne_cons hne hno _)
        · rw [hmore m q (by omega)]
          rfl
    have hleaf := value_leaf (c := c) (by simp [hquote, hbracket, hbrace])
    rw [hleaf] at h
    exact leaf_settled (fun m q => hleaf m (t ++ q)) h

end Settled

theorem read_settled (n : ℕ) : (∀ {t r v}, value n t = some (v, r) → SettledValue v t r) ∧
    (∀ {t r l}, elements n t = some (l, r) → Settled elements l t r) ∧
    ∀ {t r l}, members n t = some (l, r) → Settled members l t r := by
  induction n with
  | zero =>
    refine ⟨fun h => ?_, fun h => ?_, fun h => ?_⟩
    · rw [value] at h
      cases h
    · rw [elements] at h
      cases h
    · rw [members] at h
      · cases h
      · exact fun _ _ hn => nomatch hn
  | succ n ih =>
    obtain ⟨ihv, ihe, ihm⟩ := ih
    exact ⟨value_settled ihe ihm, elements_settled ihv ihe, members_settled ihv ihm⟩

/-- Whatever fuel a value is read with, `loads` has enough. -/
lemma loads_of_value {n : ℕ} {t r : Text} {v : Value} (h : value n (skip t) = some (v, r))
    (hr : skip r = []) : loads t = some v := by
  have hlen := length_skip_le t
  have hmore := ((read_settled n).1 h).2 (2 * t.length) [] (by omega) (.inl rfl)
  rw [List.append_nil, List.append_nil] at hmore
  unfold loads
  rw [hmore]
  exact if_pos hr

lemma value_brace {n : ℕ} {t r : Text} {v : Value} (h : value n ('{' :: t) = some (v, r)) :
    ∃ fields, v = .obj fields := by
  cases n with
  | zero =>
    rw [value] at h
    cases h
  | succ n =>
    rw [value] at h
    split at h
    · exact ⟨[], (Prod.mk.inj (Option.some.inj h)).1.symm⟩
    · obtain ⟨x, -, h⟩ := Option.map_eq_some_iff.mp h
      exact ⟨dict x.1, (Prod.mk.inj h).1.symm⟩

/-- Where a text that begins with a brace is read, a longer one is read only if nothing but white
space is added. -/
theorem skip_of_loads_append {t q : Text} {v w : Value} (h : loads ('{' :: t) = some v)
    (hlong : loads ('{' :: t ++ q) = some w) : skip q = [] := by
  have hskip : ∀ u, skip ('{' :: u) = '{' :: u := skip_of_not_space rfl
  unfold loads at h hlong
  rw [hskip] at h
  rw [List.cons_append, hskip] at hlong
  obtain ⟨⟨v', r⟩, hv, h⟩ := Option.bind_eq_some_iff.mp h
  obtain ⟨⟨w', r'⟩, hw, hlong⟩ := Option.bind_eq_some_iff.mp hlong
  split_ifs at h with hr
  split_ifs at hlong with hr'
  obtain ⟨fields, rfl⟩ := value_brace hv
  have hmore := ((read_settled _).1 hv).2 (2 * ('{' :: (t ++ q)).length) q
    (by simp only [List.length_cons, List.length_append]; omega) (.inr (.inr nofun))
  rw [List.cons_append, hw] at hmore
  obtain ⟨-, rfl⟩ := Prod.mk.inj (Option.some.inj hmore)
  dsimp only at hr hr'
  have hspace : r.dropWhile isSpace = [] := hr
  unfold skip at hr' ⊢
  rwa [List.dropWhile_append, hspace, if_pos (by rfl)] at hr'

/-! ### The Round Trip -/

mutual

/-- The keys of an object are distinct. -/
def Value.Keyed : Value → Prop
  | .arr l => AllKeyed l
  | .obj fields => (fields.map Prod.fst).Nodup ∧ FieldsKeyed fields
  | .word _ | .num _ | .str _ => True

def AllKeyed : List Value → Prop
  | [] => True
  | v :: l => v.Keyed ∧ AllKeyed l

def FieldsKeyed : List (Text × Value) → Prop
  | [] => True
  | (_, v) :: fields => v.Keyed ∧ FieldsKeyed fields

end

lemma dict_of_nodup {fields : List (Text × Value)} (h : (fields.map Prod.fst).Nodup) :
    dict fields = fields := by
  have hfold : ∀ pre, ((pre ++ fields).map Prod.fst).Nodup →
      fields.foldl put pre = pre ++ fields := by
    clear h
    induction fields with
    | nil => exact fun pre _ => (List.append_nil pre).symm
    | cons f fields ih =>
      intro pre hpre
      have hnot : f.1 ∉ pre.map Prod.fst := by
        rw [List.map_append, List.map_cons] at hpre
        intro hmem
        exact (List.nodup_append.mp hpre).2.2 _ hmem _ List.mem_cons_self rfl
      have hsplit : pre ++ f :: fields = pre ++ [f] ++ fields := by simp
      rw [hsplit] at hpre ⊢
      rw [List.foldl_cons, put, if_neg hnot]
      exact ih _ hpre
  exact hfold [] h

/-- What stands behind a value does not go on with a numeral. -/
def Closed (t : Text) : Prop := ∀ c ∈ t.head?, numeralChar c = false

def elementsText : List Value → Text
  | [] => []
  | v :: l => dumps v ++ dumpsElements l

def membersText : List (Text × Value) → Text
  | [] => []
  | (k, v) :: fields => quote k ++ ':' :: ' ' :: (dumps v ++ dumpsMembers fields)

lemma value_of_le {n m : ℕ} {t r : Text} {v : Value} (h : value n t = some (v, r))
    (hm : 2 * t.length ≤ m) : value m t = some (v, r) := by
  have hmore := ((read_settled n).1 h).2 m [] (by omega) (.inl rfl)
  rwa [List.append_nil, List.append_nil] at hmore

lemma elements_of_le {n m : ℕ} {t r : Text} {l : List Value} (h : elements n t = some (l, r))
    (hm : 2 * t.length ≤ m) : elements m t = some (l, r) := by
  have hmore := ((read_settled n).2.1 h).2 m [] (by omega)
  rwa [List.append_nil, List.append_nil] at hmore

lemma members_of_le {n m : ℕ} {t r : Text} {l : List (Text × Value)}
    (h : members n t = some (l, r)) (hm : 2 * t.length ≤ m) : members m t = some (l, r) := by
  have hmore := ((read_settled n).2.2 h).2 m [] (by omega)
  rwa [List.append_nil, List.append_nil] at hmore

lemma closed_dumpsElements (l : List Value) (rest : Text) : Closed (dumpsElements l ++ rest) := by
  cases l <;> rw [dumpsElements] <;> exact fun c hc => by
    obtain rfl := Option.some.inj hc
    rfl

lemma closed_dumpsMembers (fields : List (Text × Value)) (rest : Text) :
    Closed (dumpsMembers fields ++ rest) := by
  rcases fields with _ | ⟨⟨k, v⟩, fields⟩ <;> rw [dumpsMembers] <;> exact fun c hc => by
    obtain rfl := Option.some.inj hc
    rfl

lemma Number.head_opens (n : Number) : ∃ c u, n.text = c :: u ∧ c ∉ ['"', '[', '{'] ∧
    c ∉ [' ', '\t', '\n', '\r', ']', '}'] := by
  have hdigit : ∀ d : Char, d.isDigit → d ∉ ['"', '[', '{'] ∧
      d ∉ [' ', '\t', '\n', '\r', ']', '}'] := by
    intro d hd
    have hnot : ∀ e ∈ ['"', '[', '{', ' ', '\t', '\n', '\r', ']', '}'], e.isDigit = false :=
      List.forall_iff_forall_mem.mp (by decide)
    refine ⟨fun hmem => ?_, fun hmem => ?_⟩
    · rw [hnot d (List.mem_append_left [' ', '\t', '\n', '\r', ']', '}'] hmem)] at hd
      cases hd
    · rw [hnot d (List.mem_append_right ['"', '[', '{'] hmem)] at hd
      cases hd
  obtain ⟨d, u, hd, hn | hn⟩ := n.head_digit
  · exact ⟨d, u, hn, hdigit d hd⟩
  · exact ⟨'-', d :: u, hn, by decide, by decide⟩

/-- What a value begins with is no white space and closes nothing. -/
lemma dumps_cons (v : Value) :
    ∃ c t, dumps v = c :: t ∧ c ∉ [' ', '\t', '\n', '\r', ']', '}'] := by
  match v with
  | .word w =>
    rw [dumps]
    cases w <;> exact ⟨_, _, rfl, by decide⟩
  | .num n =>
    obtain ⟨c, u, hn, -, hc⟩ := n.head_opens
    exact ⟨c, u, by rw [dumps, hn], hc⟩
  | .str s => exact ⟨'"', _, by rw [dumps, quote]; rfl, by decide⟩
  | .arr [] => exact ⟨'[', [']'], rfl, by decide⟩
  | .arr (v :: l) => exact ⟨'[', _, by rw [dumps], by decide⟩
  | .obj [] => exact ⟨'{', ['}'], rfl, by decide⟩
  | .obj ((k, v) :: fields) => exact ⟨'{', _, by rw [dumps], by decide⟩

lemma skip_dumps (v : Value) (t : Text) : skip (dumps v ++ t) = dumps v ++ t := by
  obtain ⟨c, u, hv, hc⟩ := dumps_cons v
  have hspace : isSpace c = false :=
    decide_eq_false fun hmem => hc (List.mem_append_left [']', '}'] hmem)
  rw [hv]
  exact skip_of_not_space hspace _

lemma quote_append (s t : Text) : quote s ++ t = '"' :: (s.flatMap escape ++ '"' :: t) := by
  simp [quote]

mutual

theorem value_dumps : ∀ (v : Value) (rest : Text), v.Keyed → Closed rest →
    ∃ n, value n (dumps v ++ rest) = some (v, rest)
  | .word w, rest, _, _ => by
    obtain ⟨a, b, t, hw, -, -, ha⟩ := word_cons w
    have hleaf := leaf_word w rest
    refine ⟨1, ?_⟩
    rw [dumps]
    rw [hw] at hleaf ⊢
    exact (value_leaf ha 0 _).trans hleaf
  | .num n, rest, _, hrest => by
    obtain ⟨c, u, hn, hc, -⟩ := n.head_opens
    have hleaf := leaf_num n hrest
    refine ⟨1, ?_⟩
    rw [dumps]
    rw [hn] at hleaf ⊢
    exact (value_leaf hc 0 _).trans hleaf
  | .str s, rest, _, _ => by
    refine ⟨1, ?_⟩
    rw [dumps, quote_append, value, string_quote]
    rfl
  | .arr [], rest, _, _ => ⟨1, rfl⟩
  | .arr (v :: l), rest, hkeyed, _ => by
    obtain ⟨n, h⟩ := elements_dumps (v :: l) rest hkeyed nofun
    obtain ⟨c, t, hc, hopens⟩ := dumps_cons v
    have hskip := skip_dumps v (dumpsElements l ++ rest)
    refine ⟨n + 1, ?_⟩
    rw [elementsText, List.append_assoc] at h
    rw [dumps, List.cons_append, List.append_assoc, value, hskip]
    split
    · rename_i heq
      rw [hc, List.cons_append] at heq
      exact absurd (List.cons.inj heq).1 fun hclose => hopens (by rw [hclose]; decide)
    · rw [h]
      rfl
  | .obj [], rest, _, _ => ⟨1, rfl⟩
  | .obj ((k, v) :: fields), rest, hkeyed, _ => by
    obtain ⟨n, h⟩ := members_dumps ((k, v) :: fields) rest hkeyed.2 nofun
    refine ⟨n + 1, ?_⟩
    rw [membersText, List.append_assoc, quote_append] at h
    rw [dumps, List.cons_append, List.append_assoc, quote_append, value,
      skip_of_not_space (by rfl)]
    split
    · rename_i heq
      exact absurd (List.cons.inj heq).1 (by decide)
    · rw [h]
      have hdict : dict ((k, v) :: fields) = (k, v) :: fields := dict_of_nodup hkeyed.1
      change some (Value.obj (dict ((k, v) :: fields)), rest) = _
      rw [hdict]

theorem elements_dumps : ∀ (l : List Value) (rest : Text), AllKeyed l → l ≠ [] →
    ∃ n, elements n (elementsText l ++ rest) = some (l, rest)
  | [], _, _, hne => absurd rfl hne
  | v :: l, rest, hkeyed, _ => by
    obtain ⟨n, hv⟩ := value_dumps v (dumpsElements l ++ rest) hkeyed.1 (closed_dumpsElements l rest)
    have h := elements_dumps l rest hkeyed.2
    refine ⟨2 * (dumps v ++ (dumpsElements l ++ rest)).length + 1, ?_⟩
    rw [elementsText, List.append_assoc, elements, value_of_le hv (Nat.le_refl _)]
    dsimp only [Option.bind_some]
    cases l with
    | nil => rfl
    | cons w l =>
      obtain ⟨n', h⟩ := h nofun
      have htext : dumpsElements (w :: l) ++ rest =
          ',' :: ' ' :: (elementsText (w :: l) ++ rest) := by
        rw [dumpsElements, elementsText]
        rfl
      have hskip : skip (elementsText (w :: l) ++ rest) = elementsText (w :: l) ++ rest := by
        rw [elementsText, List.append_assoc]
        exact skip_dumps w _
      rw [htext]
      change (elements _ (skip (elementsText (w :: l) ++ rest))).map (fun y => (v :: y.1, y.2)) = _
      rw [hskip, elements_of_le h (by simp only [List.length_append, List.length_cons]; omega)]
      rfl

theorem members_dumps : ∀ (fields : List (Text × Value)) (rest : Text), FieldsKeyed fields →
    fields ≠ [] → ∃ n, members n (membersText fields ++ rest) = some (fields, rest)
  | [], _, _, hne => absurd rfl hne
  | (k, v) :: fields, rest, hkeyed, _ => by
    obtain ⟨n, hv⟩ := value_dumps v (dumpsMembers fields ++ rest) hkeyed.1
      (closed_dumpsMembers fields rest)
    have h := members_dumps fields rest hkeyed.2
    refine ⟨2 * (dumps v ++ (dumpsMembers fields ++ rest)).length + 1, ?_⟩
    rw [membersText, List.append_assoc, quote_append, members, string_quote]
    dsimp only [Option.bind_some]
    rw [List.cons_append, List.cons_append, List.append_assoc, skip_of_not_space (by rfl)]
    change (value _ (skip (dumps v ++ (dumpsMembers fields ++ rest)))).bind _ = _
    rw [skip_dumps, value_of_le hv (Nat.le_refl _)]
    dsimp only [Option.bind_some]
    rcases fields with _ | ⟨⟨k', w⟩, fields⟩
    · rfl
    · obtain ⟨n', h⟩ := h nofun
      have htext : dumpsMembers ((k', w) :: fields) ++ rest =
          ',' :: ' ' :: (membersText ((k', w) :: fields) ++ rest) := by
        rw [dumpsMembers, membersText]
        rfl
      have hskip : skip (membersText ((k', w) :: fields) ++ rest) =
          membersText ((k', w) :: fields) ++ rest := by
        rw [membersText, List.append_assoc, quote_append]
        exact skip_of_not_space rfl _
      rw [htext]
      change (members _ (skip (membersText ((k', w) :: fields) ++ rest))).map
        (fun y => ((k, v) :: y.1, y.2)) = _
      rw [hskip, members_of_le h (by simp only [List.length_append, List.length_cons]; omega)]
      rfl

end

/-- What was written is read back. -/
theorem loads_dumps {v : Value} (h : v.Keyed) : loads (dumps v) = some v := by
  obtain ⟨n, hv⟩ := value_dumps v [] h nofun
  rw [List.append_nil] at hv
  have hskip := skip_dumps v []
  rw [List.append_nil] at hskip
  exact loads_of_value (by rw [hskip]; exact hv) rfl

/-! ### Numbers -/

def exponent : Text → ℤ
  | [] => 0
  | _ :: '-' :: t => -(Nat.ofDigitChars 10 t 0)
  | _ :: t => Nat.ofDigitChars 10 (dropSign ['+'] t) 0

/-- The number that a numeral writes. -/
def Number.value (n : Number) : ℚ :=
  let u := dropSign ['-'] n.text
  let rest := u.dropWhile Char.isDigit
  let fraction := if rest.head? = some '.' then rest.tail.takeWhile Char.isDigit else []
  let scale := if rest.head? = some '.' then rest.tail.dropWhile Char.isDigit else rest
  (if n.text.head? = some '-' then -1 else 1) *
    Nat.ofDigitChars 10 (u.takeWhile Char.isDigit ++ fraction) 0 / 10 ^ fraction.length *
      10 ^ exponent scale

def sign (z : ℤ) : Text := if z < 0 then ['-'] else []

/-- The numeral of a number with one decimal place, given in tenths. -/
def tenthsText (z : ℤ) : Text :=
  sign z ++ Nat.toDigits 10 (z.natAbs / 10) ++ ['.', (z.natAbs % 10).digitChar]

def intText (z : ℤ) : Text := sign z ++ Nat.toDigits 10 z.natAbs

lemma isDigit_of_mem_toDigits {n : ℕ} {c : Char} (h : c ∈ Nat.toDigits 10 n) : c.isDigit :=
  Nat.isDigit_of_mem_toDigits (by decide) (by decide) h

lemma head_toDigits {n : ℕ} (h : 0 < n) : (Nat.toDigits 10 n).head? ≠ some '0' := by
  induction n using Nat.strong_induction_on with
  | _ n ih =>
    rw [Nat.toDigits_eq_if (by decide)]
    split_ifs with hlt
    · have hdigit : ∀ d < 10, 0 < d → [d.digitChar].head? ≠ some '0' := by decide
      exact hdigit n hlt h
    · have hrest := ih (n / 10) (by omega) (by omega)
      rwa [List.head?_append_of_ne_nil _ Nat.toDigits_ne_nil]

/-- The digits of a whole number stand as the whole part of a numeral. -/
lemma whole_toDigits (n : ℕ) : (Nat.toDigits 10 n = ['0'] ∨
    Nat.toDigits 10 n ≠ [] ∧ (Nat.toDigits 10 n).head? ≠ some '0') := by
  rcases Nat.eq_zero_or_pos n with rfl | h
  · exact .inl (Nat.toDigits_zero 10)
  · exact .inr ⟨Nat.toDigits_ne_nil, head_toDigits h⟩

lemma dropSign_sign (z : ℤ) {n : ℕ} (t : Text) :
    dropSign ['-'] (sign z ++ (Nat.toDigits 10 n ++ t)) = Nat.toDigits 10 n ++ t := by
  unfold sign
  split_ifs
  · rfl
  · cases hd : Nat.toDigits 10 n with
    | nil => exact absurd hd Nat.toDigits_ne_nil
    | cons c cs =>
      have hc : c.isDigit := isDigit_of_mem_toDigits (hd ▸ List.mem_cons_self)
      have hnot : c ∉ ['-'] := by
        intro hmem
        rw [List.mem_singleton.mp hmem] at hc
        cases hc
      exact if_neg hnot

lemma takeWhile_toDigits {n : ℕ} {t : Text} (h : ∀ c ∈ t.head?, c.isDigit = false) :
    (Nat.toDigits 10 n ++ t).takeWhile Char.isDigit = Nat.toDigits 10 n ∧
      (Nat.toDigits 10 n ++ t).dropWhile Char.isDigit = t := by
  have hall : ∀ c ∈ Nat.toDigits 10 n, c.isDigit := fun _ => isDigit_of_mem_toDigits
  rw [List.takeWhile_append_of_pos hall, List.dropWhile_append_of_pos hall]
  cases t with
  | nil => simp
  | cons c t => simp [h c rfl]

lemma head_sign (z : ℤ) {n : ℕ} (t : Text) :
    (sign z ++ (Nat.toDigits 10 n ++ t)).head? = some '-' ↔ z < 0 := by
  unfold sign
  split_ifs with h
  · exact iff_of_true rfl h
  · refine iff_of_false (fun hhead => ?_) h
    rw [List.nil_append, List.head?_append_of_ne_nil _ Nat.toDigits_ne_nil] at hhead
    have hdigit : Char.isDigit '-' := isDigit_of_mem_toDigits (List.mem_of_head? hhead)
    cases hdigit

section Digits
variable (z : ℤ) (n : ℕ) {t : Text} (hhead : ∀ c ∈ t.head?, c.isDigit = false)
include hhead

lemma isNumeral_of_digits (hall : ∀ c ∈ t, numeralChar c) (hfraction : isFraction t) :
    isNumeral (sign z ++ (Nat.toDigits 10 n ++ t)) := by
  have hchars : ∀ c ∈ sign z ++ (Nat.toDigits 10 n ++ t), numeralChar c := by
    intro c hc
    rcases List.mem_append.mp hc with hc | hc
    · unfold sign at hc
      split_ifs at hc
      · rw [List.mem_singleton.mp hc]
        rfl
      · cases hc
    rcases List.mem_append.mp hc with hc | hc
    · simp [numeralChar, isDigit_of_mem_toDigits hc]
    · exact hall c hc
  have hwhole := whole_toDigits n
  unfold isNumeral
  dsimp only
  rw [dropSign_sign, (takeWhile_toDigits hhead).1, (takeWhile_toDigits hhead).2]
  simp only [Bool.and_eq_true, List.all_eq_true, Bool.or_eq_true, decide_eq_true_eq]
  exact ⟨⟨hchars, hwhole⟩, hfraction⟩

lemma value_of_digits (h : isNumeral (sign z ++ (Nat.toDigits 10 n ++ t))) :
    (⟨_, h⟩ : Number).value =
      (if z < 0 then -1 else 1) *
        Nat.ofDigitChars 10 (if t.head? = some '.' then t.tail.takeWhile Char.isDigit else []) n /
        10 ^ (if t.head? = some '.' then t.tail.takeWhile Char.isDigit else []).length *
        10 ^ exponent (if t.head? = some '.' then t.tail.dropWhile Char.isDigit else t) := by
  unfold Number.value
  dsimp only
  rw [dropSign_sign, (takeWhile_toDigits hhead).1, (takeWhile_toDigits hhead).2,
    Nat.ofDigitChars_append, Nat.ofDigitChars_ten_toDigits]
  simp only [head_sign]

end Digits

lemma isNumeral_intText (z : ℤ) : isNumeral (intText z) := by
  have h := isNumeral_of_digits z z.natAbs (t := []) nofun nofun rfl
  rwa [List.append_nil] at h

lemma isNumeral_tenthsText (z : ℤ) : isNumeral (tenthsText z) := by
  have hdigit : ∀ d < 10, numeralChar d.digitChar ∧ isFraction ['.', d.digitChar] := by decide
  have hd := hdigit (z.natAbs % 10) (Nat.mod_lt _ (by decide))
  unfold tenthsText
  rw [List.append_assoc]
  refine isNumeral_of_digits z _ (fun c hc => ?_) (fun c hc => ?_) hd.2
  · obtain rfl := Option.some.inj hc
    rfl
  · simp only [List.mem_cons, List.not_mem_nil, or_false] at hc
    rcases hc with rfl | rfl
    · rfl
    · exact hd.1

def Number.ofInt (z : ℤ) : Number := ⟨intText z, isNumeral_intText z⟩

def Number.ofTenths (z : ℤ) : Number := ⟨tenthsText z, isNumeral_tenthsText z⟩

lemma sign_mul_natAbs (z : ℤ) : (if z < 0 then -1 else 1) * (z.natAbs : ℚ) = z := by
  split_ifs with h
  · have habs : (z.natAbs : ℤ) = -z := Int.ofNat_natAbs_of_nonpos h.le
    have hq : (z.natAbs : ℚ) = -z := by
      rw [← Int.cast_natCast, habs, Int.cast_neg]
    rw [hq]
    ring
  · have habs : (z.natAbs : ℤ) = z := Int.natAbs_of_nonneg (not_lt.mp h)
    have hq : (z.natAbs : ℚ) = z := by
      rw [← Int.cast_natCast, habs]
    rw [hq]
    ring

lemma value_ofInt (z : ℤ) : (Number.ofInt z).value = z := by
  have hnum : isNumeral (sign z ++ (Nat.toDigits 10 z.natAbs ++ [])) := by
    rw [List.append_nil]
    exact isNumeral_intText z
  have heq : Number.ofInt z = ⟨_, hnum⟩ := by simp [Number.ofInt, intText]
  have hhead : ∀ c ∈ ([] : Text).head?, c.isDigit = false := nofun
  have hval := value_of_digits z z.natAbs hhead hnum
  rw [heq, hval]
  simp only [List.head?_nil, reduceCtorEq, if_false, Nat.ofDigitChars_nil, List.length_nil,
    pow_zero, div_one, exponent, zpow_zero, mul_one]
  exact sign_mul_natAbs z

lemma value_ofTenths (z : ℤ) : (Number.ofTenths z).value = z / 10 := by
  have hdigit : ∀ d < 10, d.digitChar.isDigit ∧ ['.', d.digitChar].tail = [d.digitChar] := by decide
  have hlast := (hdigit (z.natAbs % 10) (Nat.mod_lt _ (by decide))).1
  have hnum : isNumeral (sign z ++
      (Nat.toDigits 10 (z.natAbs / 10) ++ ['.', (z.natAbs % 10).digitChar])) := by
    rw [← List.append_assoc]
    exact isNumeral_tenthsText z
  have heq : Number.ofTenths z = ⟨_, hnum⟩ := by simp [Number.ofTenths, tenthsText]
  have hhead : ∀ c ∈ ['.', (z.natAbs % 10).digitChar].head?, c.isDigit = false := fun c hc => by
    obtain rfl := Option.some.inj hc
    rfl
  have hval := value_of_digits z (z.natAbs / 10) hhead hnum
  have hdigits : Nat.ofDigitChars 10 [(z.natAbs % 10).digitChar] (z.natAbs / 10) = z.natAbs := by
    rw [Nat.ofDigitChars_cons_digitChar_of_lt_ten (Nat.mod_lt _ (by decide)), Nat.ofDigitChars_nil]
    exact Nat.div_add_mod _ _
  rw [heq, hval]
  simp only [List.head?_cons, if_true, List.tail_cons, List.takeWhile_cons_of_pos hlast,
    List.takeWhile_nil, List.dropWhile_cons_of_pos hlast, List.dropWhile_nil, hdigits, exponent,
    sign_mul_natAbs]
  simp

/-! ### What Is Printed -/

/-- A character that stands on a line and is plain ASCII. -/
def Printable (t : Text) : Prop := ∀ c ∈ t, 32 ≤ c.toNat ∧ c.toNat ≤ 126

instance (t : Text) : Decidable (Printable t) := List.decidableBAll _ t

lemma printable_append {a b : Text} : Printable (a ++ b) ↔ Printable a ∧ Printable b :=
  List.forall_mem_append

lemma printable_cons {c : Char} {b : Text} :
    Printable (c :: b) ↔ (32 ≤ c.toNat ∧ c.toNat ≤ 126) ∧ Printable b :=
  List.forall_mem_cons

lemma printable_hex4 (n : ℕ) : Printable (hex4 n) := by
  have hdigit : ∀ d < 16, 32 ≤ d.digitChar.toNat ∧ d.digitChar.toNat ≤ 126 := by decide
  have hmod : ∀ k, 32 ≤ (k % 16).digitChar.toNat ∧ (k % 16).digitChar.toNat ≤ 126 := fun k =>
    hdigit _ (Nat.mod_lt _ (by decide))
  simp only [hex4, printable_cons, hmod, true_and]
  exact nofun

lemma printable_escape (c : Char) : Printable (escape c) := by
  unfold escape
  split_ifs with h1 h2 h3 h4 h5 h6 h7 h8
  iterate 7 · decide
  · simpa [Printable] using h8
  · intro d hd
    obtain ⟨n, -, hd⟩ := List.mem_flatMap.mp hd
    have hunit : Printable ('\\' :: 'u' :: hex4 n) := by
      simp only [printable_cons, printable_hex4, and_true]
      decide
    exact hunit d hd

lemma printable_quote (s : Text) : Printable (quote s) := by
  have hs : Printable (s.flatMap escape) := fun c hc => by
    obtain ⟨d, -, hd⟩ := List.mem_flatMap.mp hc
    exact printable_escape d c hd
  simp only [quote, printable_cons, List.cons_append, printable_append, hs, true_and]
  decide

lemma Number.printable (n : Number) : Printable n.text := by
  intro c hc
  have h := n.all_numeralChar c hc
  simp only [numeralChar, Bool.or_eq_true, decide_eq_true_eq] at h
  rcases h with h | h
  · have hdigit : 48 ≤ c.toNat ∧ c.toNat ≤ 57 := by
      simpa [Char.isDigit, UInt32.le_iff_toNat_le] using h
    omega
  · have hall : ∀ d ∈ ['-', '+', '.', 'e', 'E'], 32 ≤ d.toNat ∧ d.toNat ≤ 126 :=
      List.forall_iff_forall_mem.mp (by decide)
    exact hall c h

mutual

theorem printable_dumps : ∀ v : Value, Printable (dumps v)
  | .word w => by
    rw [dumps]
    cases w <;> decide
  | .num n => by
    rw [dumps]
    exact n.printable
  | .str s => by
    rw [dumps]
    exact printable_quote s
  | .arr [] => by decide
  | .arr (v :: l) => by
    rw [dumps]
    exact printable_cons.mpr ⟨by decide, printable_append.mpr
      ⟨printable_dumps v, printable_elements l⟩⟩
  | .obj [] => by decide
  | .obj ((k, v) :: fields) => by
    rw [dumps]
    simp only [printable_cons, printable_append, printable_quote, printable_dumps v,
      printable_members fields, and_true]
    decide

theorem printable_elements : ∀ l : List Value, Printable (dumpsElements l)
  | [] => by decide
  | v :: l => by
    rw [dumpsElements]
    simp only [printable_cons, printable_append, printable_dumps v, printable_elements l, and_true]
    decide

theorem printable_members : ∀ fields : List (Text × Value), Printable (dumpsMembers fields)
  | [] => by decide
  | (k, v) :: fields => by
    rw [dumpsMembers]
    simp only [printable_cons, printable_append, printable_quote, printable_dumps v,
      printable_members fields, and_true]
    decide

end

end Treeweft.JsonText
