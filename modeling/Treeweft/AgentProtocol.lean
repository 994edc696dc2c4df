import Treeweft.JsonText
import Treeweft.PatternSearch
import Treeweft.PromptBuilder

/-!
The text protocol of an agent: a turn of the model names a tool and its arguments, or answers.

The patterns are those of the source, read without regard to case; each of their parts takes all it
can, and what follows begins with a character that the part does not match.
-/

namespace Treeweft.AgentProtocol

open JsonText (Text Value loads dumps)
open PromptBuilder (strip)
open Indexer (isSpace rstrip)
open PatternSearch (search spans remove Prefixed)

/-! ### Patterns -/

/-- What the libraries tell: which characters make a word, and why a text is no JSON. -/
structure Lib where
  isWord : Char → Bool
  decodeError : Text → Text
  ascii : ∀ c, c.toNat < 128 → isWord c = (c.isAlphanum || c = '_')
  not_space : ∀ c, isSpace c → isWord c = false

/-- Case is ignored; four characters beyond ASCII stand for a letter. -/
def fold (c : Char) : Char :=
  if c.toNat = 0x130 ∨ c.toNat = 0x131 then 'i'
  else if c.toNat = 0x17f then 's'
  else if c.toNat = 0x212a then 'k'
  else c.toLower

/-- The text behind the word. -/
def word (w t : Text) : Option Text :=
  if (t.take w.length).map fold = w then some (t.drop w.length) else none

/-- The text behind the word and a colon, each with the space that follows it. -/
def marker (w t : Text) : Option Text :=
  (word w t).bind fun t =>
    match t.dropWhile isSpace with
    | ':' :: t => some (t.dropWhile isSpace)
    | _ => none

/-- The length of a think block with the space that follows it. -/
def thinkBlock (t : Text) : Option ℕ :=
  (word "<think>".toList t).bind fun t =>
    (search (word "</think>".toList) t).map fun x => 15 + x.1 + (x.2.takeWhile isSpace).length

def stripThinking (t : Text) : Text := strip (remove thinkBlock t)

def finalMatch : Text → Option Text := marker "final_answer".toList

/-- The text before the last such character. -/
def upToLast (c : Char) : Text → Option Text
  | [] => none
  | d :: t =>
    match upToLast c t with
    | some p => some (d :: p)
    | none => if d = c then some [] else none

def isNameStart (c : Char) : Bool := (fold c).isLower || c = '_'

section Lib
variable (lib : Lib)

/-- A name and what stands in its parentheses, up to the last one that closes. -/
def call : Text → Option (Text × Text)
  | [] => none
  | c :: t =>
    if isNameStart c then
      match (t.dropWhile lib.isWord).dropWhile isSpace with
      | '(' :: u => (upToLast ')' u).map (c :: t.takeWhile lib.isWord, ·)
      | _ => none
    else none

def actionMatch (t : Text) : Option (Text × Text) := (marker "action".toList t).bind (call lib)

/-! ### Arguments -/

inductive Place
  | outside
  | string
  | escaped

/-- The text through the brace that closes the first one. -/
def objectEnd : ℕ → Place → Text → Option Text
  | _, _, [] => none
  | d, .escaped, c :: t => (objectEnd d .string t).map (c :: ·)
  | d, .string, c :: t =>
    (objectEnd d (if c = '\\' then .escaped else if c = '"' then .outside else .string) t).map
      (c :: ·)
  | d, .outside, c :: t =>
    if c = '"' then (objectEnd d .string t).map (c :: ·)
    else if c = '{' then (objectEnd (d + 1) .outside t).map (c :: ·)
    else if c = '}' then
      if d - 1 = 0 then some [c] else (objectEnd (d - 1) .outside t).map (c :: ·)
    else (objectEnd d .outside t).map (c :: ·)

def extractJsonObject (blob : Text) : Except Text (List (Text × Value)) :=
  match blob.dropWhile (· ≠ '{') with
  | [] => if strip blob = [] then .ok [] else .error "no JSON object found".toList
  | t =>
    match objectEnd 0 .outside t with
    | none => .error "unbalanced braces".toList
    | some candidate =>
      match loads candidate with
      | some (.obj fields) => .ok fields
      | some _ => .error "not a JSON object".toList
      | none => .error ("invalid JSON: ".toList ++ lib.decodeError candidate)

/-! ### Actions -/

inductive Kind
  | final
  | tool
  | none

structure ParsedAction where
  kind : Kind
  finalAnswer : Text := []
  tool : Option Text := none
  args : List (Text × Value) := []
  error : Text := []

def parseFinal (answer : Text) : ParsedAction :=
  if strip answer = [] then { kind := .none, error := "empty FINAL_ANSWER".toList }
  else { kind := .final, finalAnswer := strip answer }

def parseTool (tool blob : Text) : ParsedAction :=
  match extractJsonObject lib blob with
  | .error err => { kind := .none, tool := some tool, error := err }
  | .ok obj => { kind := .tool, tool := some tool, args := obj }

def parseAction (text : Text) : ParsedAction :=
  let cleaned := stripThinking text
  match search finalMatch cleaned, search (actionMatch lib) cleaned with
  | some (i, answer), some (j, tool, blob) =>
    if i ≤ j then parseFinal answer else parseTool lib tool blob
  | some (_, answer), none => parseFinal answer
  | none, some (_, tool, blob) => parseTool lib tool blob
  | none, none => { kind := .none, error := "no ACTION or FINAL_ANSWER found".toList }

end Lib

/-! ### Turns -/

/-- What stands in the parentheses: nothing, or a JSON text of an object. -/
inductive Args
  | empty
  | json (text : Text) (fields : List (Text × Value)) (reads : loads text = some (.obj fields))
    (opens : text.head? = some '{') (closes : text.getLast? = some '}')

def Args.text : Args → Text
  | .empty => []
  | .json text .. => text

def Args.fields : Args → List (Text × Value)
  | .empty => []
  | .json _ fields .. => fields

lemma getLast_dumpsMembers (fields : List (Text × Value)) :
    (JsonText.dumpsMembers fields).getLast? = some '}' := by
  induction fields with
  | nil => rfl
  | cons f fields ih =>
    have hne : JsonText.dumpsMembers fields ≠ [] := by
      intro hnil
      rw [hnil] at ih
      cases ih
    obtain ⟨k, v⟩ := f
    have hsplit : JsonText.dumpsMembers ((k, v) :: fields) =
        (',' :: ' ' :: (JsonText.quote k ++ ':' :: ' ' :: dumps v)) ++
          JsonText.dumpsMembers fields := by
      rw [JsonText.dumpsMembers]
      simp
    rw [hsplit, List.getLast?_append_of_ne_nil _ hne, ih]

lemma getLast_dumps_obj (fields : List (Text × Value)) :
    (dumps (.obj fields)).getLast? = some '}' := by
  cases fields with
  | nil => rfl
  | cons f fields =>
    obtain ⟨k, v⟩ := f
    have hne : JsonText.dumpsMembers fields ≠ [] := by
      intro hnil
      have hlast := getLast_dumpsMembers fields
      rw [hnil] at hlast
      cases hlast
    have hsplit : dumps (.obj ((k, v) :: fields)) =
        ('{' :: (JsonText.quote k ++ ':' :: ' ' :: dumps v)) ++ JsonText.dumpsMembers fields := by
      rw [dumps]
      simp
    rw [hsplit, List.getLast?_append_of_ne_nil _ hne, getLast_dumpsMembers]

/-- The object as the printer writes it. -/
def Args.ofObject (fields : List (Text × Value)) (h : (Value.obj fields).Keyed) : Args :=
  .json (dumps (.obj fields)) fields (JsonText.loads_dumps h) (by cases fields <;> rfl)
    (getLast_dumps_obj fields)

structure Turn (lib : Lib) where
  thought : Text
  name : Text
  args : Args
  prose : Text
  named : ∃ c t, name = c :: t ∧ isNameStart c ∧ ∀ d ∈ t, lib.isWord d

section Turn
variable {lib : Lib}

/-- The text before the action. -/
def Turn.head (t : Turn lib) : Text := "THOUGHT: ".toList ++ t.thought ++ ['\n']

def Turn.action (t : Turn lib) : Text :=
  "ACTION: ".toList ++ t.name ++ '(' :: t.args.text ++ [')']

def Turn.text (t : Turn lib) : Text := t.head ++ (t.action ++ t.prose)

def Turn.parsed (t : Turn lib) : ParsedAction :=
  { kind := .tool, tool := some t.name, args := t.args.fields }

/-- No think block of the turn has text of the action. -/
def Turn.Clear (t : Turn lib) : Prop :=
  ∀ p ∈ spans thinkBlock t.text, p.2 ≤ t.head.length ∨ t.head.length + t.action.length ≤ p.1

/-- Without its think blocks, the text before the action has no marker. -/
def Turn.Unmarked (t : Turn lib) : Prop :=
  search (marker "action".toList) (remove thinkBlock t.head) = none ∧
    search (marker "final_answer".toList) (remove thinkBlock t.head) = none

/-- Behind empty parentheses, without its think blocks, no parenthesis closes, or the first object
before the last one that closes is empty. -/
def Turn.Bracketed (t : Turn lib) : Prop :=
  match t.args with
  | .json .. => True
  | .empty => ∀ blob ∈ upToLast ')' (remove thinkBlock t.prose),
    extractJsonObject lib (')' :: blob) = .ok []

end Turn

/-! ### The Brace Scanner on What the Reader Reads -/

/-- The scanner goes through the text and stands outside as before. -/
def Through (p : Text) : Prop :=
  ∀ d q, objectEnd (d + 1) .outside (p ++ q) = (objectEnd (d + 1) .outside q).map (p ++ ·)

lemma Through.nil : Through [] := fun _ _ => Option.map_id'.symm

lemma Through.append {p p' : Text} (h : Through p) (h' : Through p') : Through (p ++ p') := by
  intro d q
  rw [List.append_assoc, h, h', Option.map_map]
  refine congrArg (Option.map · _) (funext fun u => ?_)
  exact (List.append_assoc p p' u).symm

lemma Through.plain {p : Text} (h : ∀ c ∈ p, c ≠ '"' ∧ c ≠ '{' ∧ c ≠ '}') : Through p := by
  induction p with
  | nil => exact .nil
  | cons c p ih =>
    intro d q
    obtain ⟨hquote, hopen, hclose⟩ := h c List.mem_cons_self
    have hrest := ih (fun e he => h e (List.mem_cons_of_mem _ he)) d q
    rw [List.cons_append, objectEnd, if_neg hquote, if_neg hopen, if_neg hclose, hrest,
      Option.map_map]
    rfl

lemma Through.space (t : Text) : Through (t.takeWhile JsonText.isSpace) := by
  refine .plain fun c hc => ?_
  have hspace := List.mem_takeWhile_imp hc
  refine ⟨?_, ?_, ?_⟩ <;>
    (rintro rfl; cases hspace)

lemma objectEnd_braces {p : Text} (h : Through p) (q : Text) :
    objectEnd 0 .outside ('{' :: (p ++ '}' :: q)) = some ('{' :: (p ++ ['}'])) := by
  have hclose : objectEnd 1 .outside ('}' :: q) = some ['}'] := rfl
  have hopen : objectEnd 0 .outside ('{' :: (p ++ '}' :: q)) =
      (objectEnd 1 .outside (p ++ '}' :: q)).map ('{' :: ·) := rfl
  rw [hopen, h, hclose]
  rfl

lemma Through.braces {p : Text} (h : Through p) : Through ('{' :: (p ++ ['}'])) := by
  intro d q
  have hopen : objectEnd (d + 1) .outside ('{' :: (p ++ ['}']) ++ q) =
      (objectEnd (d + 2) .outside (p ++ '}' :: q)).map ('{' :: ·) := by
    rw [List.cons_append, List.append_assoc]
    rfl
  have hclose : objectEnd (d + 2) .outside ('}' :: q) =
      (objectEnd (d + 1) .outside q).map ('}' :: ·) := rfl
  rw [hopen, h, hclose, Option.map_map, Option.map_map]
  refine congrArg (Option.map · _) (funext fun u => ?_)
  simp

lemma Through.brackets {p : Text} (h : Through p) : Through ('[' :: (p ++ [']'])) := by
  have hopen : Through ['['] := .plain (List.forall_iff_forall_mem.mp (by decide))
  have hclose : Through [']'] := .plain (List.forall_iff_forall_mem.mp (by decide))
  exact hopen.append (h.append hclose)

lemma objectEnd_string {c : Char} (h : c ≠ '\\' ∧ c ≠ '"') (d : ℕ) (t : Text) :
    objectEnd d .string (c :: t) = (objectEnd d .string t).map (c :: ·) := by
  rw [objectEnd, if_neg h.1, if_neg h.2]

lemma plain_of_hexVal {c : Char} {n : ℕ} (h : JsonText.hexVal c = some n) :
    c ≠ '\\' ∧ c ≠ '"' := by
  constructor <;> (rintro rfl; cases h)

lemma plain_of_ofHex {a b c d : Char} {n : ℕ} (h : JsonText.ofHex a b c d = some n) :
    ∀ e ∈ [a, b, c, d], e ≠ '\\' ∧ e ≠ '"' := by
  obtain ⟨x, ha, h⟩ := Option.bind_eq_some_iff.mp h
  obtain ⟨y, hb, h⟩ := Option.bind_eq_some_iff.mp h
  obtain ⟨z, hc, h⟩ := Option.bind_eq_some_iff.mp h
  obtain ⟨w, hd, -⟩ := Option.bind_eq_some_iff.mp h
  simp only [List.forall_mem_cons]
  exact ⟨plain_of_hexVal ha, plain_of_hexVal hb, plain_of_hexVal hc, plain_of_hexVal hd, nofun⟩

/-- The scanner inside a string, up to its closing quote. -/
lemma objectEnd_units {t r : Text} {us : List ℕ} (h : JsonText.units t = some (us, r)) :
    ∃ p, t = p ++ r ∧ ∀ d q, objectEnd d .string (p ++ q) =
      (objectEnd d .outside q).map (p ++ ·) := by
  fun_induction JsonText.units t generalizing us r with
  | case1 => cases h
  | case2 t =>
    obtain ⟨rfl, rfl⟩ := Prod.mk.inj (Option.some.inj h)
    exact ⟨['"'], rfl, fun d q => rfl⟩
  | case3 h₃ h₂ h₁ h₀ t _ ih =>
    obtain ⟨n, hn, h⟩ := Option.bind_eq_some_iff.mp h
    obtain ⟨x, hx, h⟩ := Option.map_eq_some_iff.mp h
    obtain ⟨rfl, rfl⟩ := Prod.mk.inj h
    obtain ⟨p, rfl, hp⟩ := ih hx
    have hplain := plain_of_ofHex hn
    simp only [List.forall_mem_cons] at hplain
    obtain ⟨hplain₃, hplain₂, hplain₁, hplain₀, -⟩ := hplain
    refine ⟨'\\' :: 'u' :: h₃ :: h₂ :: h₁ :: h₀ :: p, rfl, fun d q => ?_⟩
    have hescape : objectEnd d .string ('\\' :: 'u' :: h₃ :: h₂ :: h₁ :: h₀ :: p ++ q) =
        ((objectEnd d .string (h₃ :: h₂ :: h₁ :: h₀ :: (p ++ q))).map ('u' :: ·)).map
          ('\\' :: ·) := rfl
    rw [hescape, objectEnd_string hplain₃, objectEnd_string hplain₂, objectEnd_string hplain₁,
      objectEnd_string hplain₀, hp]
    simp only [Option.map_map]
    rfl
  | case4 e t _ _ ih =>
    obtain ⟨n, _, h⟩ := Option.bind_eq_some_iff.mp h
    obtain ⟨x, hx, h⟩ := Option.map_eq_some_iff.mp h
    obtain ⟨rfl, rfl⟩ := Prod.mk.inj h
    obtain ⟨p, rfl, hp⟩ := ih hx
    refine ⟨'\\' :: e :: p, rfl, fun d q => ?_⟩
    have hescape : objectEnd d .string ('\\' :: e :: p ++ q) =
        ((objectEnd d .string (p ++ q)).map (e :: ·)).map ('\\' :: ·) := rfl
    rw [hescape, hp, Option.map_map, Option.map_map]
    rfl
  | case5 => cases h
  | case6 => cases h
  | case7 c t hquote hback _ ih =>
    obtain ⟨x, hx, h⟩ := Option.map_eq_some_iff.mp h
    obtain ⟨rfl, rfl⟩ := Prod.mk.inj h
    obtain ⟨p, rfl, hp⟩ := ih hx
    refine ⟨c :: p, rfl, fun d q => ?_⟩
    rw [List.cons_append, objectEnd_string ⟨hback, hquote⟩, hp, Option.map_map]
    rfl

lemma through_string {t r s : Text} (h : JsonText.string t = some (s, r)) :
    ∃ p, t = p ++ r ∧ Through ('"' :: p) := by
  obtain ⟨⟨us, r'⟩, hu, h⟩ := Option.bind_eq_some_iff.mp h
  obtain ⟨s', -, h⟩ := Option.map_eq_some_iff.mp h
  obtain ⟨rfl, rfl⟩ := Prod.mk.inj h
  obtain ⟨p, rfl, hp⟩ := objectEnd_units hu
  refine ⟨p, rfl, fun d q => ?_⟩
  have hquote : objectEnd (d + 1) .outside ('"' :: p ++ q) =
      (objectEnd (d + 1) .string (p ++ q)).map ('"' :: ·) := rfl
  rw [hquote, hp, Option.map_map]
  rfl

lemma through_leaf {t r : Text} {v : Value} (h : JsonText.leaf t = some (v, r)) :
    ∃ p, t = p ++ r ∧ Through p := by
  unfold JsonText.leaf at h
  cases hword : JsonText.takeWord t with
  | some w =>
    rw [hword] at h
    obtain ⟨rfl, rfl⟩ := Prod.mk.inj (Option.some.inj h)
    obtain ⟨u, rfl⟩ := JsonText.prefix_of_takeWord hword
    refine ⟨w.text, by rw [List.drop_left], .plain (List.forall_iff_forall_mem.mp ?_)⟩
    cases w <;> decide
  | none =>
    rw [hword] at h
    dsimp only at h
    split_ifs at h with hnum
    obtain ⟨rfl, rfl⟩ := Prod.mk.inj (Option.some.inj h)
    refine ⟨t.takeWhile JsonText.numeralChar, List.takeWhile_append_dropWhile.symm,
      .plain fun c hc => ?_⟩
    have hnumeral := List.mem_takeWhile_imp hc
    refine ⟨?_, ?_, ?_⟩ <;>
      (rintro rfl; cases hnumeral)

lemma through_skip {t u : Text} (h : JsonText.skip t = u) : ∃ p, t = p ++ u ∧ Through p := by
  refine ⟨t.takeWhile JsonText.isSpace, ?_, .space t⟩
  rw [← h]
  exact List.takeWhile_append_dropWhile.symm

section Read
variable {n : ℕ} {t r : Text}

lemma through_elements
    (ihv : ∀ {t r v}, JsonText.value n t = some (v, r) → ∃ p, t = p ++ r ∧ Through p)
    (ihe : ∀ {t r l}, JsonText.elements n t = some (l, r) → ∃ p, t = p ++ ']' :: r ∧ Through p)
    {l : List Value} (h : JsonText.elements (n + 1) t = some (l, r)) :
    ∃ p, t = p ++ ']' :: r ∧ Through p := by
  rw [JsonText.elements] at h
  obtain ⟨⟨v, r₁⟩, hv, hrest⟩ := Option.bind_eq_some_iff.mp h
  obtain ⟨p, rfl, hp⟩ := ihv hv
  dsimp only at hrest
  split at hrest
  · rename_i r' hr
    obtain ⟨rfl, rfl⟩ := Prod.mk.inj (Option.some.inj hrest)
    obtain ⟨s, rfl, hs⟩ := through_skip hr
    exact ⟨p ++ s, (List.append_assoc _ _ _).symm, hp.append hs⟩
  · rename_i r' hr
    obtain ⟨⟨l', r''⟩, hl, hl'⟩ := Option.map_eq_some_iff.mp hrest
    obtain ⟨rfl, rfl⟩ : v :: l' = l ∧ r'' = r := Prod.mk.inj hl'
    obtain ⟨s, rfl, hs⟩ := through_skip hr
    obtain ⟨p', hp', hthrough⟩ := ihe hl
    obtain ⟨s', rfl, hs'⟩ := through_skip hp'
    have hcomma : Through [','] := .plain (List.forall_iff_forall_mem.mp (by decide))
    refine ⟨p ++ (s ++ ([','] ++ (s' ++ p'))), ?_,
      hp.append (hs.append (hcomma.append (hs'.append hthrough)))⟩
    simp only [List.append_assoc, List.cons_append, List.nil_append]
  · cases hrest

lemma through_members
    (ihv : ∀ {t r v}, JsonText.value n t = some (v, r) → ∃ p, t = p ++ r ∧ Through p)
    (ihm : ∀ {t r l}, JsonText.members n t = some (l, r) → ∃ p, t = p ++ '}' :: r ∧ Through p)
    {l : List (Text × Value)} (h : JsonText.members (n + 1) t = some (l, r)) :
    ∃ p, t = p ++ '}' :: r ∧ Through p := by
  cases t with
  | nil =>
    rw [JsonText.members] at h
    · cases h
    · exact fun _ _ _ ht => nomatch ht
  | cons c t =>
    by_cases hc : c = '"'
    swap
    · rw [JsonText.members] at h
      · cases h
      · exact fun _ _ _ ht => hc (List.cons.inj ht).1
    subst hc
    rw [JsonText.members] at h
    obtain ⟨⟨k, r₀⟩, hk, hcolon⟩ := Option.bind_eq_some_iff.mp h
    obtain ⟨key, rfl, hkey⟩ := through_string hk
    dsimp only at hcolon
    split at hcolon
    · rename_i r₁ hr₁
      obtain ⟨s₁, rfl, hs₁⟩ := through_skip hr₁
      obtain ⟨⟨v, r₂⟩, hv, hrest⟩ := Option.bind_eq_some_iff.mp hcolon
      obtain ⟨p, hp, hthrough⟩ := ihv hv
      obtain ⟨s₂, rfl, hs₂⟩ := through_skip hp
      have hmark : Through [':'] := .plain (List.forall_iff_forall_mem.mp (by decide))
      have hfirst := hkey.append (hs₁.append (hmark.append (hs₂.append hthrough)))
      dsimp only at hrest
      split at hrest
      · rename_i r' hr
        obtain ⟨rfl, rfl⟩ := Prod.mk.inj (Option.some.inj hrest)
        obtain ⟨s₃, rfl, hs₃⟩ := through_skip hr
        refine ⟨_, ?_, hfirst.append hs₃⟩
        simp only [List.append_assoc, List.cons_append, List.nil_append]
      · rename_i r' hr
        obtain ⟨⟨l', r''⟩, hl, hl'⟩ := Option.map_eq_some_iff.mp hrest
        obtain ⟨rfl, rfl⟩ : (k, v) :: l' = l ∧ r'' = r := Prod.mk.inj hl'
        obtain ⟨s₃, rfl, hs₃⟩ := through_skip hr
        obtain ⟨p', hp', hthrough'⟩ := ihm hl
        obtain ⟨s₄, rfl, hs₄⟩ := through_skip hp'
        have hcomma : Through [','] := .plain (List.forall_iff_forall_mem.mp (by decide))
        refine ⟨_, ?_, hfirst.append (hs₃.append (hcomma.append (hs₄.append hthrough')))⟩
        simp only [List.append_assoc, List.cons_append, List.nil_append]
      · cases hrest
    · cases hcolon

/-- An object in braces: what is between them. -/
lemma through_object
    (ihm : ∀ {t r l}, JsonText.members n t = some (l, r) → ∃ p, t = p ++ '}' :: r ∧ Through p)
    {v : Value} (h : JsonText.value (n + 1) ('{' :: t) = some (v, r)) :
    ∃ p, t = p ++ '}' :: r ∧ Through p := by
  rw [JsonText.value] at h
  split at h
  · rename_i r' hr
    obtain ⟨rfl, rfl⟩ := Prod.mk.inj (Option.some.inj h)
    exact through_skip hr
  · obtain ⟨⟨l, r'⟩, hl, h⟩ := Option.map_eq_some_iff.mp h
    obtain ⟨rfl, rfl⟩ : _ ∧ r' = r := Prod.mk.inj h
    obtain ⟨p, hp, hthrough⟩ := ihm hl
    obtain ⟨s, rfl, hs⟩ := through_skip hp
    exact ⟨s ++ p, (List.append_assoc _ _ _).symm, hs.append hthrough⟩

lemma through_value
    (ihe : ∀ {t r l}, JsonText.elements n t = some (l, r) → ∃ p, t = p ++ ']' :: r ∧ Through p)
    (ihm : ∀ {t r l}, JsonText.members n t = some (l, r) → ∃ p, t = p ++ '}' :: r ∧ Through p)
    {v : Value} (h : JsonText.value (n + 1) t = some (v, r)) : ∃ p, t = p ++ r ∧ Through p := by
  have hleaf : JsonText.leaf t = some (v, r) → ∃ p, t = p ++ r ∧ Through p := through_leaf
  match t, h with
  | [], h =>
    rw [JsonText.value] at h
    · exact hleaf h
    all_goals exact fun _ ht => nomatch ht
  | c :: t, h =>
    by_cases hquote : c = '"'
    · subst hquote
      rw [JsonText.value] at h
      obtain ⟨⟨s, r'⟩, hs, h⟩ := Option.map_eq_some_iff.mp h
      obtain ⟨rfl, rfl⟩ : _ ∧ r' = r := Prod.mk.inj h
      obtain ⟨p, rfl, hp⟩ := through_string hs
      exact ⟨'"' :: p, rfl, hp⟩
    by_cases hopen : c = '{'
    · subst hopen
      obtain ⟨p, rfl, hp⟩ := through_object ihm h
      exact ⟨'{' :: (p ++ ['}']), by simp, hp.braces⟩
    by_cases hbracket : c = '['
    swap
    · rw [JsonText.value_leaf (by simp [hquote, hopen, hbracket])] at h
      exact hleaf h
    subst hbracket
    rw [JsonText.value] at h
    split at h
    · rename_i r' hr
      obtain ⟨rfl, rfl⟩ := Prod.mk.inj (Option.some.inj h)
      obtain ⟨s, rfl, hs⟩ := through_skip hr
      exact ⟨'[' :: (s ++ [']']), by simp, hs.brackets⟩
    · obtain ⟨⟨l, r'⟩, hl, h⟩ := Option.map_eq_some_iff.mp h
      obtain ⟨rfl, rfl⟩ : _ ∧ r' = r := Prod.mk.inj h
      obtain ⟨p, hp, hthrough⟩ := ihe hl
      obtain ⟨s, rfl, hs⟩ := through_skip hp
      exact ⟨'[' :: (s ++ p ++ [']']), by simp, (hs.append hthrough).brackets⟩

end Read

/-- Where the reader reads, the scanner goes through. -/
theorem through_read (n : ℕ) :
    (∀ {t r v}, JsonText.value n t = some (v, r) → ∃ p, t = p ++ r ∧ Through p) ∧
    (∀ {t r l}, JsonText.elements n t = some (l, r) → ∃ p, t = p ++ ']' :: r ∧ Through p) ∧
    ∀ {t r l}, JsonText.members n t = some (l, r) → ∃ p, t = p ++ '}' :: r ∧ Through p := by
  induction n with
  | zero =>
    refine ⟨fun h => ?_, fun h => ?_, fun h => ?_⟩
    · rw [JsonText.value] at h
      cases h
    · rw [JsonText.elements] at h
      cases h
    · rw [JsonText.members] at h
      · cases h
      · exact fun _ _ hn => nomatch hn
  | succ n ih =>
    obtain ⟨ihv, ihe, ihm⟩ := ih
    exact ⟨through_value ihe ihm, through_elements ihv ihe, through_members ihv ihm⟩

/-! ### The Arguments Come Back -/

lemma extractJsonObject_append (lib : Lib) {j : Text} {fields : List (Text × Value)}
    (hreads : loads j = some (.obj fields)) (hopens : j.head? = some '{')
    (hcloses : j.getLast? = some '}') (q : Text) :
    extractJsonObject lib (j ++ q) = .ok fields := by
  obtain ⟨u, rfl⟩ : ∃ u, j = '{' :: u := by
    cases j with
    | nil => cases hopens
    | cons c u => exact ⟨u, by rw [Option.some.inj hopens]⟩
  have hread := hreads
  unfold loads at hread
  rw [JsonText.skip_of_not_space rfl] at hread
  obtain ⟨⟨v, r⟩, hv, hr⟩ := Option.bind_eq_some_iff.mp hread
  split_ifs at hr with hspace
  have hfuel : 2 * ('{' :: u).length = 2 * u.length + 1 + 1 := by
    rw [List.length_cons]
    omega
  rw [hfuel] at hv
  obtain ⟨p, rfl, hthrough⟩ := through_object (through_read _).2.2 hv
  -- behind the object is space, and the text ends with a brace
  obtain rfl : r = [] := by
    by_contra hne
    have hlast : r.getLast hne = '}' := by
      have hsplit : '{' :: (p ++ '}' :: r) = ('{' :: (p ++ ['}'])) ++ r := by simp
      rw [hsplit, List.getLast?_append_of_ne_nil _ hne,
        List.getLast?_eq_some_getLast hne] at hcloses
      exact Option.some.inj hcloses
    have hall := List.dropWhile_eq_nil_iff.mp hspace _ (List.getLast_mem hne)
    rw [hlast] at hall
    cases hall
  have hend : objectEnd 0 .outside ('{' :: (p ++ ['}']) ++ q) = some ('{' :: (p ++ ['}'])) := by
    have hbraces := objectEnd_braces hthrough q
    simpa using hbraces
  unfold extractJsonObject
  rw [List.cons_append, List.dropWhile_cons_of_neg (by decide)]
  dsimp only
  rw [← List.cons_append, hend]
  dsimp only
  rw [hreads]

lemma upToLast_append (c : Char) (a p : Text) :
    upToLast c (a ++ c :: p) = some (a ++ ((upToLast c p).map (c :: ·)).getD []) := by
  induction a with
  | nil =>
    rw [List.nil_append, upToLast]
    cases upToLast c p with
    | none => exact if_pos rfl
    | some b => rfl
  | cons d a ih =>
    rw [List.cons_append, upToLast, ih]
    rfl

lemma upToLast_eq_none {c : Char} {t : Text} (h : c ∉ t) : upToLast c t = none := by
  induction t with
  | nil => rfl
  | cons d t ih =>
    obtain ⟨hne, hrest⟩ := not_or.mp (mt List.mem_cons.mpr h)
    rw [upToLast, ih hrest]
    exact if_neg (Ne.symm hne)

lemma upToLast_append_of_notMem {c : Char} (a : Text) {p : Text} (h : c ∉ p) :
    upToLast c (a ++ p) = upToLast c a := by
  induction a with
  | nil => exact upToLast_eq_none h
  | cons d a ih => rw [List.cons_append, upToLast, upToLast, ih]

lemma rstrip_append (t : Text) : ∃ s, t = rstrip t ++ s ∧ ∀ c ∈ s, isSpace c := by
  refine ⟨(t.reverse.takeWhile isSpace).reverse, ?_, fun c hc => ?_⟩
  · unfold rstrip
    rw [← List.reverse_append, List.takeWhile_append_dropWhile, List.reverse_reverse]
  · exact List.mem_takeWhile_imp (List.mem_reverse.mp hc)

lemma upToLast_rstrip (t : Text) : upToLast ')' (rstrip t) = upToLast ')' t := by
  obtain ⟨s, hs, hspace⟩ := rstrip_append t
  have hnot : ')' ∉ s := by
    intro hmem
    cases hspace _ hmem
  conv_rhs => rw [hs]
  exact (upToLast_append_of_notMem _ hnot).symm

lemma rstrip_append_cons (a : Text) {c : Char} (hc : isSpace c = false) (p : Text) :
    rstrip (a ++ c :: p) = a ++ c :: rstrip p := by
  unfold rstrip
  have hreverse : (a ++ c :: p).reverse = p.reverse ++ (c :: a.reverse) := by simp
  rw [hreverse, List.dropWhile_append]
  split_ifs with hempty
  · rw [List.dropWhile_cons_of_neg (by simp [hc])]
    simp [List.isEmpty_iff.mp hempty]
  · simp

/-! ### Think Blocks -/

lemma length_of_word {w t u : Text} (h : word w t = some u) : t.length = w.length + u.length := by
  unfold word at h
  split_ifs at h with hw
  have hlen := congrArg List.length hw
  rw [List.length_map, List.length_take] at hlen
  rw [← Option.some.inj h, List.length_drop]
  omega

lemma word_append {w s : Text} (h : w.length ≤ s.length) (q : Text) :
    word w (s ++ q) = (word w s).map (· ++ q) := by
  unfold word
  rw [List.take_append_of_le_length h, List.drop_append_of_le_length h]
  split_ifs
  · rfl
  · rfl

lemma word_eq_none_of_append {w s q : Text} (h : word w (s ++ q) = none) : word w s = none := by
  by_contra hne
  obtain ⟨u, hu⟩ := Option.ne_none_iff_exists'.mp hne
  have hlen := length_of_word hu
  rw [word_append (by omega), hu] at h
  cases h

lemma search_word_append {w s q : Text} (hw : w ≠ []) {k : ℕ} {u : Text}
    (h : search (word w) (s ++ q) = some (k, u)) (hk : k + w.length ≤ s.length) :
    ∃ u', u = u' ++ q ∧ search (word w) s = some (k, u') ∧
      s.length = k + w.length + u'.length := by
  have hpos := List.length_pos_iff.mpr hw
  induction s generalizing k with
  | nil =>
    rw [List.length_nil] at hk
    omega
  | cons c s ih =>
    cases hword : word w (c :: (s ++ q)) with
    | some u₀ =>
      rw [List.cons_append, PatternSearch.search_of_match hword] at h
      obtain ⟨rfl, rfl⟩ := Prod.mk.inj (Option.some.inj h)
      rw [← List.cons_append, word_append (by omega)] at hword
      obtain ⟨u', hu', rfl⟩ := Option.map_eq_some_iff.mp hword
      have hlen := length_of_word hu'
      exact ⟨u', rfl, PatternSearch.search_of_match hu', by omega⟩
    | none =>
      rw [List.cons_append, PatternSearch.search_of_not_match hword] at h
      obtain ⟨⟨k', u₁⟩, hx, h⟩ := Option.map_eq_some_iff.mp h
      obtain ⟨rfl, rfl⟩ := Prod.mk.inj h
      rw [List.length_cons] at hk
      obtain ⟨u', hu', hsearch, hlen⟩ := ih hx (by omega)
      refine ⟨u', hu', ?_, ?_⟩
      · rw [PatternSearch.search_of_not_match (word_eq_none_of_append hword), hsearch]
        rfl
      · rw [List.length_cons]
        omega

lemma thinkBlock_prefixed : Prefixed thinkBlock where
  shorter := by
    intro s q n h hn
    obtain ⟨t, ht, h⟩ := Option.bind_eq_some_iff.mp h
    obtain ⟨⟨k, u⟩, hu, h⟩ := Option.map_eq_some_iff.mp h
    dsimp only at h
    have hopen : "<think>".toList.length = 7 := rfl
    have hclose : "</think>".toList.length = 8 := rfl
    rw [word_append (by omega)] at ht
    obtain ⟨t', ht', rfl⟩ := Option.map_eq_some_iff.mp ht
    have hlen := length_of_word ht'
    obtain ⟨u', rfl, hsearch, hlen'⟩ := search_word_append (by decide) hu (by omega)
    have hspace : (u'.takeWhile isSpace).length = ((u' ++ q).takeWhile isSpace).length := by
      have hle := (List.takeWhile_prefix (p := isSpace) (l := u')).length_le
      rw [List.takeWhile_append] at h ⊢
      split_ifs at h ⊢ with hall
      · rw [List.length_append] at h ⊢
        omega
      · rfl
    unfold thinkBlock
    rw [ht', Option.bind_some, hsearch, Option.map_some, hspace]
    exact congrArg some h
  longer := by
    intro s q h
    by_contra hne
    obtain ⟨n, hn⟩ := Option.ne_none_iff_exists'.mp hne
    obtain ⟨t, ht, hn⟩ := Option.bind_eq_some_iff.mp hn
    obtain ⟨x, hx, -⟩ := Option.map_eq_some_iff.mp hn
    have hlen := length_of_word ht
    unfold thinkBlock at h
    rw [word_append (by omega), ht] at h
    have hnone : search (word "</think>".toList) (t ++ q) = none := Option.map_eq_none_iff.mp h
    obtain ⟨u, ⟨t₀, ht₀⟩, hu⟩ := PatternSearch.match_of_search hx
    have hsuffix : u ++ q <:+ t ++ q := ⟨t₀, by rw [← List.append_assoc, ht₀]⟩
    have hno := PatternSearch.not_match_of_search hnone hsuffix
    rw [word_eq_none_of_append hno] at hu
    cases hu

/-! ### Markers -/

/-- No marker goes on from a text without one into a text that begins as an action does. -/
lemma marker_append {w s u : Text} (hs : s ≠ [])
    (hborder : ∀ k < w.length, 0 < k → ¬(w.drop k).take 2 <+: ['a', 'c']) (h : marker w s = none) :
    marker w (s ++ 'A' :: 'C' :: u) = none := by
  unfold marker at h ⊢
  by_cases hle : w.length ≤ s.length
  · rw [word_append hle]
    cases hword : word w s with
    | none => rfl
    | some r =>
      rw [hword] at h
      simp only [Option.bind_some, Option.map_some] at h ⊢
      rw [List.dropWhile_append]
      split_ifs with hempty
      · rfl
      · cases hr : r.dropWhile isSpace with
        | nil =>
          rw [hr] at hempty
          exact absurd rfl hempty
        | cons c r' =>
          rw [hr] at h
          by_cases hc : c = ':'
          · rw [hc] at h
            cases h
          · rw [List.cons_append]
            split
            · rename_i heq
              exact absurd (List.cons.inj heq).1 hc
            · rfl
  · have hno : word w (s ++ 'A' :: 'C' :: u) = none := by
      unfold word
      refine if_neg fun hw => ?_
      have hdrop : w.drop s.length = (('A' :: 'C' :: u).take (w.length - s.length)).map fold := by
        conv_lhs => rw [← hw]
        rw [List.take_append, List.take_of_length_le (by omega : s.length ≤ w.length),
          List.map_append, List.drop_left' (List.length_map fold)]
      refine hborder s.length (by omega) (List.length_pos_iff.mpr hs) ?_
      rw [hdrop, ← List.map_take, List.take_take, Nat.min_comm, ← List.take_take]
      exact (List.take_prefix _ _).map fold
    rw [hno]
    rfl

lemma action_border : ∀ k < "action".toList.length, 0 < k →
    ¬("action".toList.drop k).take 2 <+: ['a', 'c'] := by decide

lemma final_border : ∀ k < "final_answer".toList.length, 0 < k →
    ¬("final_answer".toList.drop k).take 2 <+: ['a', 'c'] := by decide

lemma range_of_isSpace {c : Char} (h : isSpace c) : 9 ≤ c.toNat ∧ c.toNat ≤ 32 ∨
    0x85 ≤ c.toNat ∧ c.toNat ≤ 0xa0 ∨ 0x1680 ≤ c.toNat ∧ c.toNat ≤ 0x205f ∨ c.toNat = 0x3000 := by
  unfold isSpace at h
  simp only [Bool.or_eq_true, Bool.and_eq_true, decide_eq_true_eq] at h
  omega

lemma isSpace_of_isNameStart {c : Char} (h : isNameStart c) : isSpace c = false := by
  by_contra hspace
  rw [Bool.not_eq_false] at hspace
  have hrange := range_of_isSpace hspace
  have hupper : ¬c.isUpper = true := by
    intro hupper
    have hbounds : 'A'.val ≤ c.val ∧ c.val ≤ 'Z'.val := of_decide_eq_true hupper
    have hletter : 65 ≤ c.toNat ∧ c.toNat ≤ 90 := by
      simpa [UInt32.le_iff_toNat_le] using hbounds
    omega
  have hfold : fold c = c := by
    unfold fold
    rw [if_neg (by omega), if_neg (by omega), if_neg (by omega)]
    exact dif_neg fun hrange => hupper (decide_eq_true hrange)
  unfold isNameStart at h
  rw [hfold, Bool.or_eq_true, decide_eq_true_eq] at h
  rcases h with hlower | rfl
  · have hand : (decide ('a'.val ≤ c.val) && decide (c.val ≤ 'z'.val)) = true := hlower
    have hbounds := Bool.and_eq_true_iff.mp hand
    have hletter : 97 ≤ c.toNat ∧ c.toNat ≤ 122 := by
      simpa [UInt32.le_iff_toNat_le] using hbounds
    omega
  · cases hspace

/-! ### Turns Are Parsed -/

section Turn
variable {lib : Lib} (t : Turn lib)

/-- What is left of the text before the action. -/
lemma remove_head : ∃ v, remove thinkBlock t.head = 'T' :: v := ⟨_, rfl⟩

lemma action_eq : ∃ a, t.action = a ++ [')'] ∧ ∃ u, t.action = 'A' :: 'C' :: u :=
  ⟨_, rfl, _, rfl⟩

/-- The turn without its think blocks and the space at its ends. -/
lemma stripThinking_text (hclear : t.Clear) : stripThinking t.text =
    remove thinkBlock t.head ++ (t.action ++ rstrip (remove thinkBlock t.prose)) := by
  obtain ⟨v, hv⟩ := remove_head t
  obtain ⟨a, ha, -⟩ := action_eq t
  have hremove := PatternSearch.remove_between thinkBlock_prefixed hclear
  unfold stripThinking strip
  rw [Turn.text, hremove, hv, List.cons_append, List.dropWhile_cons_of_neg (by decide), ha]
  have hstrip := rstrip_append_cons ('T' :: v ++ a) (rfl : isSpace ')' = false)
    (remove thinkBlock t.prose)
  simpa using hstrip

lemma call_action (p : Text) : call lib (t.name ++ '(' :: (t.args.text ++ ')' :: p)) =
    some (t.name, t.args.text ++ ((upToLast ')' p).map (')' :: ·)).getD []) := by
  obtain ⟨c, name, hname, hstart, hword⟩ := t.named
  have hparen : lib.isWord '(' = false := lib.ascii '(' (by decide)
  rw [hname, List.cons_append, call, if_pos hstart, List.dropWhile_append_of_pos hword,
    List.dropWhile_cons_of_neg (by simp [hparen]), List.dropWhile_cons_of_neg (by decide)]
  change (upToLast ')' (t.args.text ++ ')' :: p)).map _ = _
  rw [upToLast_append, List.takeWhile_append_of_pos hword,
    List.takeWhile_cons_of_neg (by simp [hparen]), List.append_nil]
  rfl

lemma actionMatch_action (p : Text) : actionMatch lib (t.action ++ p) =
    some (t.name, t.args.text ++ ((upToLast ')' p).map (')' :: ·)).getD []) := by
  have hsplit : t.action ++ p =
      "ACTION: ".toList ++ (t.name ++ '(' :: (t.args.text ++ ')' :: p)) := by
    unfold Turn.action
    simp
  have hmarker : marker "action".toList (t.action ++ p) =
      some (t.name ++ '(' :: (t.args.text ++ ')' :: p)) := by
    obtain ⟨c, name, hname, hstart, -⟩ := t.named
    rw [hsplit, hname]
    have hword : marker "action".toList
        ("ACTION: ".toList ++ (c :: name ++ '(' :: (t.args.text ++ ')' :: p))) =
        some ((c :: name ++ '(' :: (t.args.text ++ ')' :: p)).dropWhile isSpace) := rfl
    rw [hword, List.cons_append,
      List.dropWhile_cons_of_neg (by simp [isSpace_of_isNameStart hstart])]
  unfold actionMatch
  rw [hmarker, Option.bind_some, call_action]

/-- The marker of the action is the first of either kind. -/
lemma parseAction_text (hclear : t.Clear) (hunmarked : t.Unmarked) : parseAction lib t.text =
    parseTool lib t.name
      (t.args.text ++ ((upToLast ')' (remove thinkBlock t.prose)).map (')' :: ·)).getD []) := by
  obtain ⟨haction, hfinal⟩ := hunmarked
  obtain ⟨-, -, u, hu⟩ := action_eq t
  generalize hvisible : remove thinkBlock t.head = visible at haction hfinal
  generalize hprose : rstrip (remove thinkBlock t.prose) = prose
  have hfirst : search (actionMatch lib) (visible ++ (t.action ++ prose)) =
      some (visible.length, t.name,
        t.args.text ++ ((upToLast ')' (remove thinkBlock t.prose)).map (')' :: ·)).getD []) := by
    have hno : ∀ s, s ≠ [] → s <:+ visible → actionMatch lib (s ++ (t.action ++ prose)) = none := by
      intro s hs hsuffix
      have hmarker := PatternSearch.not_match_of_search haction hsuffix
      unfold actionMatch
      rw [hu, List.cons_append, List.cons_append, marker_append hs action_border hmarker]
      rfl
    rw [PatternSearch.search_append hno, PatternSearch.search_of_match (actionMatch_action t prose),
      ← hprose, upToLast_rstrip]
    rfl
  have hlater : ∀ x ∈ search finalMatch (visible ++ (t.action ++ prose)), visible.length < x.1 := by
    have hno : ∀ s, s ≠ [] → s <:+ visible → finalMatch (s ++ (t.action ++ prose)) = none := by
      intro s hs hsuffix
      have hmarker := PatternSearch.not_match_of_search hfinal hsuffix
      unfold finalMatch
      rw [hu, List.cons_append, List.cons_append, marker_append hs final_border hmarker]
    have hhead : finalMatch ('A' :: ('C' :: u ++ prose)) = none := rfl
    rw [PatternSearch.search_append hno, hu, List.cons_append,
      PatternSearch.search_of_not_match hhead, Option.map_map]
    intro x hx
    obtain ⟨y, -, rfl⟩ := Option.map_eq_some_iff.mp hx
    simp only [Function.comp_apply]
    omega
  unfold parseAction
  rw [stripThinking_text t hclear, hvisible, hprose]
  dsimp only
  rw [hfirst]
  cases hsearch : search finalMatch (visible ++ (t.action ++ prose)) with
  | none => rfl
  | some x =>
    have hlt := hlater x hsearch
    exact if_neg (Nat.not_le_of_lt hlt)

end Turn

/-! ### Two Turns -/

def asciiLib : Lib where
  isWord c := c.isAlphanum || c = '_'
  decodeError _ := []
  ascii _ _ := rfl
  not_space c h := by
    have hrange := range_of_isSpace h
    have hscore : c ≠ '_' := by
      rintro rfl
      cases h
    by_contra hword
    rw [Bool.not_eq_false, Bool.or_eq_true, decide_eq_true_eq, or_iff_left hscore] at hword
    change ((decide ('A'.val ≤ c.val ∧ c.val ≤ 'Z'.val) ||
      decide ('a'.val ≤ c.val) && decide (c.val ≤ 'z'.val)) ||
        decide ('0'.val ≤ c.val) && decide (c.val ≤ '9'.val)) = true at hword
    simp only [Bool.or_eq_true, Bool.and_eq_true, decide_eq_true_eq, UInt32.le_iff_toNat_le]
      at hword
    have hval : c.toNat = c.val.toNat := rfl
    have hbounds : '0'.val.toNat = 48 ∧ '9'.val.toNat = 57 ∧ 'A'.val.toNat = 65 ∧
      'Z'.val.toNat = 90 ∧ 'a'.val.toNat = 97 ∧ 'z'.val.toNat = 122 :=
      ⟨rfl, rfl, rfl, rfl, rfl, rfl⟩
    omega

/-- Quotes, braces, parentheses and a marker in a string, behind a thought with a think block. -/
def quotedTurn : Turn asciiLib where
  thought := "<think>plan</think> grep it".toList
  name := "grep".toList
  args := .ofObject [("pattern".toList, .str "\"\x7d) FINAL_ANSWER: \x7b".toList)]
    ⟨by decide, trivial, trivial⟩
  prose := "\nThen (maybe) I stop.".toList
  named := ⟨'g', "rep".toList, rfl, rfl, List.forall_iff_forall_mem.mp (by decide)⟩

/-- A string with a think block. -/
def thinkTurn : Turn asciiLib where
  thought := "grep it".toList
  name := "grep".toList
  args := .ofObject [("pattern".toList, .str "<think>x</think>".toList)]
    ⟨by decide, trivial, trivial⟩
  prose := []
  named := ⟨'g', "rep".toList, rfl, rfl, List.forall_iff_forall_mem.mp (by decide)⟩

def ParsedAction.strings (p : ParsedAction) : List Text :=
  p.args.map fun f =>
    match f.2 with
    | .str s => s
    | _ => []

end Treeweft.AgentProtocol
