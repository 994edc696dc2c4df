import Mathlib.Algebra.Order.Ring.Rat
import Mathlib.Data.List.Chain
import Treeweft.Hydrate
import Treeweft.JsonText

/-!
The check that `treeweft-mcp` and the indexer go together.

A tool call asks the indexer for its version before it goes ahead. An answer that fits is good
for a while and is not asked for again; one that does not fit, or none at all, is not kept. Calls
overlap: one may be waiting for its answer while others are told.
-/

namespace Treeweft.McpCompat

abbrev Text := List Char

/-! ### Versions -/

/-- What `\d` matches, and the value of such a character. -/
structure Decimals where
  value : Char → Option ℕ
  ascii : ∀ c, c.isDigit → value c = some (Hydrate.digitVal c)
  dot : value '.' = none
  newline : value '\n' = none

abbrev Semver := ℕ × ℕ × ℕ

section Parse
variable (dec : Decimals)

/-- `int` of the digits of a match. -/
def intOf (ds : Text) : ℕ := ds.foldl (fun n c => 10 * n + (dec.value c).getD 0) 0

/-- `(0|[1-9]\d*)`, with what follows. -/
def numeral : Text → Option (ℕ × Text)
  | [] => none
  | c :: cs =>
    if c = '0' then some (0, cs)
    else if '1' ≤ c ∧ c ≤ '9' then
      some (intOf dec (c :: cs.takeWhile fun d => (dec.value d).isSome),
        cs.dropWhile fun d => (dec.value d).isSome)
    else none

def dot : Text → Option Text
  | '.' :: cs => some cs
  | _ => none

/-- `$` matches at the end, and before a newline that ends the text. -/
def atEnd (t : Text) : Bool := t = [] || t = ['\n']

def semver (t : Text) : Option Semver := do
  let (major, t) ← numeral dec t
  let t ← dot t
  let (minor, t) ← numeral dec t
  let t ← dot t
  let (patch, t) ← numeral dec t
  if atEnd t then some (major, minor, patch) else none

def calverEraMajor : ℕ := 1000

/-- `parse_semver`; nothing stands for its `ValueError`. -/
def parseSemver (t : Text) : Option Semver :=
  (semver dec t).filter fun v => v.1 < calverEraMajor

end Parse

def show3 (v : Semver) : Text :=
  Nat.toDigits 10 v.1 ++ '.' :: (Nat.toDigits 10 v.2.1 ++ '.' :: Nat.toDigits 10 v.2.2)

/-! ### Numerals -/

lemma eq_digitChar {c : Char} (h : c.isDigit = true) : (Hydrate.digitVal c).digitChar = c := by
  have h9 : 48 ≤ c.toNat ∧ c.toNat ≤ 57 := by
    simpa [Char.isDigit, UInt32.le_iff_toNat_le] using h
  have hall : ∀ k < 10, k.digitChar = Char.ofNat (48 + k) := by decide
  have hval : Hydrate.digitVal c = c.toNat - 48 := rfl
  rw [hval, hall _ (by omega), Nat.add_sub_cancel' h9.1, Char.ofNat_toNat]

lemma digitVal_lt {c : Char} (h : c.isDigit = true) : Hydrate.digitVal c < 10 := by
  have h9 : 48 ≤ c.toNat ∧ c.toNat ≤ 57 := by
    simpa [Char.isDigit, UInt32.le_iff_toNat_le] using h
  have hval : Hydrate.digitVal c = c.toNat - 48 := rfl
  omega

lemma digitVal_pos {c : Char} (h : '1' ≤ c) : 0 < Hydrate.digitVal c := by
  have h49 : 49 ≤ c.toNat := by simpa [Char.le_def, UInt32.le_iff_toNat_le] using h
  have hval : Hydrate.digitVal c = c.toNat - 48 := rfl
  omega

lemma isDigit_of_le {c : Char} (h : '1' ≤ c ∧ c ≤ '9') : c.isDigit = true := by
  have h49 : 49 ≤ c.toNat := by simpa [Char.le_def, UInt32.le_iff_toNat_le] using h.1
  have h57 : c.toNat ≤ 57 := by simpa [Char.le_def, UInt32.le_iff_toNat_le] using h.2
  simp [Char.isDigit, UInt32.le_iff_toNat_le]
  omega

/-- Digits that do not begin with a zero are those of the number they write. -/
lemma toDigits_ofDigitChars {c : Char} {cs : Text} (hc : '1' ≤ c ∧ c ≤ '9')
    (h : ∀ d ∈ cs, d.isDigit = true) :
    Nat.toDigits 10 (Nat.ofDigitChars 10 (c :: cs) 0) = c :: cs ∧
      0 < Nat.ofDigitChars 10 (c :: cs) 0 := by
  induction cs using List.reverseRecOn with
  | nil =>
    have hdigit := isDigit_of_le hc
    have hval : Nat.ofDigitChars 10 [c] 0 = Hydrate.digitVal c := by
      rw [Nat.ofDigitChars_cons, Nat.ofDigitChars_nil]
      exact Nat.zero_add _
    rw [hval, Nat.toDigits_eq_if (by decide), if_pos (digitVal_lt hdigit), eq_digitChar hdigit]
    exact ⟨rfl, digitVal_pos hc.1⟩
  | append_singleton cs d ih =>
    obtain ⟨ihd, ihpos⟩ := ih fun e he => h e (List.mem_append_left _ he)
    have hd : d.isDigit = true := h d (by simp)
    have hval : Nat.ofDigitChars 10 (c :: (cs ++ [d])) 0 =
        10 * Nat.ofDigitChars 10 (c :: cs) 0 + Hydrate.digitVal d := by
      rw [← List.cons_append, Nat.ofDigitChars_append, Nat.ofDigitChars_cons,
        Nat.ofDigitChars_nil]
      rfl
    have hlt := digitVal_lt hd
    rw [hval, Nat.toDigits_eq_if (by decide), if_neg (by omega),
      show (10 * Nat.ofDigitChars 10 (c :: cs) 0 + Hydrate.digitVal d) / 10 =
        Nat.ofDigitChars 10 (c :: cs) 0 by omega,
      show (10 * Nat.ofDigitChars 10 (c :: cs) 0 + Hydrate.digitVal d) % 10 =
        Hydrate.digitVal d by omega, ihd, eq_digitChar hd]
    exact ⟨rfl, by omega⟩

section Show
variable {dec : Decimals}

lemma intOf_eq {ds : Text} (h : ∀ c ∈ ds, c.isDigit = true) :
    intOf dec ds = Nat.ofDigitChars 10 ds 0 := by
  have hgen : ∀ n, ds.foldl (fun n c => 10 * n + (dec.value c).getD 0) n =
      Nat.ofDigitChars 10 ds n := by
    induction ds with
    | nil => simp
    | cons c ds ih =>
      intro n
      rw [List.foldl_cons, Nat.ofDigitChars_cons, ih fun d hd => h d (List.mem_cons_of_mem _ hd),
        dec.ascii c (h c List.mem_cons_self)]
      rfl
  exact hgen 0

/-- A number reads back, whatever follows that is no digit. -/
lemma numeral_toDigits (n : ℕ) {t : Text} (ht : ∀ c ∈ t.head?, dec.value c = none) :
    numeral dec (Nat.toDigits 10 n ++ t) = some (n, t) := by
  have hdigit : ∀ c ∈ Nat.toDigits 10 n, c.isDigit = true :=
    fun _ hc => Hydrate.isDigit_of_mem_toDigits hc
  have hval : Nat.ofDigitChars 10 (Nat.toDigits 10 n) 0 = n := Nat.ofDigitChars_ten_toDigits
  rcases Nat.eq_zero_or_pos n with rfl | hpos
  · rfl
  have hhead := JsonText.head_toDigits hpos
  cases hd : Nat.toDigits 10 n with
  | nil => exact absurd hd Nat.toDigits_ne_nil
  | cons c cs =>
    rw [hd] at hdigit hval hhead
    have hc := hdigit c List.mem_cons_self
    have hne : c ≠ '0' := fun h => hhead (congrArg some h)
    have hrange : '1' ≤ c ∧ c ≤ '9' := by
      have hne' : c.toNat ≠ 48 := fun h => hne (Char.toNat_inj.mp h)
      have h9 : 48 ≤ c.toNat ∧ c.toNat ≤ 57 := by
        simpa [Char.isDigit, UInt32.le_iff_toNat_le] using hc
      simp only [Char.le_def, UInt32.le_iff_toNat_le]
      exact ⟨(by omega : 49 ≤ c.toNat), h9.2⟩
    have hcs : ∀ d ∈ cs, (dec.value d).isSome = true := fun d hdm => by
      rw [dec.ascii d (hdigit d (List.mem_cons_of_mem _ hdm))]
      rfl
    have hstop : t.takeWhile (fun d => (dec.value d).isSome) = [] ∧
        t.dropWhile (fun d => (dec.value d).isSome) = t := by
      cases t with
      | nil => exact ⟨rfl, rfl⟩
      | cons d t => simp [ht d rfl]
    rw [List.cons_append, numeral, if_neg hne, if_pos hrange, List.takeWhile_append_of_pos hcs,
      List.dropWhile_append_of_pos hcs, hstop.1, hstop.2, List.append_nil, intOf_eq hdigit, hval]

/-- What a number was read from, if it writes its digits in ASCII. -/
lemma eq_of_numeral {t r : Text} {n : ℕ} (hascii : ∀ c ∈ t, (dec.value c).isSome → c.isDigit)
    (h : numeral dec t = some (n, r)) : t = Nat.toDigits 10 n ++ r := by
  cases t with
  | nil => exact absurd h (by simp [numeral])
  | cons c cs =>
    rw [numeral] at h
    split_ifs at h with hzero hc
    · obtain ⟨rfl, rfl⟩ := Prod.mk.inj (Option.some.inj h)
      rw [hzero]
      rfl
    · obtain ⟨hn, rfl⟩ := Prod.mk.inj (Option.some.inj h)
      have hds : ∀ d ∈ cs.takeWhile fun d => (dec.value d).isSome, d.isDigit = true :=
        fun d hd => hascii d (List.mem_cons_of_mem _ ((List.takeWhile_sublist _).subset hd))
          (List.mem_takeWhile_imp (p := fun d => (dec.value d).isSome) hd)
      rw [intOf_eq (List.forall_mem_cons.mpr ⟨isDigit_of_le hc, hds⟩)] at hn
      rw [← hn, (toDigits_ofDigitChars hc hds).1, List.cons_append, List.takeWhile_append_dropWhile]

lemma semver_show3 (v : Semver) {t : Text} (ht : t = [] ∨ t = ['\n']) :
    semver dec (show3 v ++ t) = some v := by
  obtain ⟨major, minor, patch⟩ := v
  have hend : ∀ c ∈ t.head?, dec.value c = none := by
    rcases ht with rfl | rfl
    · simp
    · simp [dec.newline]
  have hdot : ∀ u : Text, ∀ c ∈ ('.' :: u).head?, dec.value c = none := by
    intro u c hc
    obtain rfl := Option.some.inj hc
    exact dec.dot
  have hat : atEnd t = true := by rcases ht with rfl | rfl <;> rfl
  simp [semver, show3, numeral_toDigits _ (hdot _), dot, numeral_toDigits _ hend, hat]

lemma eq_of_semver {t : Text} {v : Semver} (hascii : ∀ c ∈ t, (dec.value c).isSome → c.isDigit)
    (h : semver dec t = some v) : t = show3 v ∨ t = show3 v ++ ['\n'] := by
  have hdot : ∀ {u r : Text}, dot u = some r → u = '.' :: r := by
    intro u r hu
    unfold dot at hu
    split at hu
    · rw [Option.some.inj hu]
    · cases hu
  simp only [semver, Option.bind_eq_bind, Option.bind_eq_some_iff] at h
  obtain ⟨⟨major, r₁⟩, h₁, r₂, h₂, ⟨minor, r₃⟩, h₃, r₄, h₄, ⟨patch, r₅⟩, h₅, hend⟩ := h
  have ht₁ : t = Nat.toDigits 10 major ++ '.' :: r₂ := hdot h₂ ▸ eq_of_numeral hascii h₁
  have ht₃ : r₂ = Nat.toDigits 10 minor ++ '.' :: r₄ :=
    hdot h₄ ▸ eq_of_numeral (fun c hc => hascii c (by simp [ht₁, hc])) h₃
  have ht₅ := eq_of_numeral (fun c hc => hascii c (by simp [ht₁, ht₃, hc])) h₅
  split_ifs at hend with hat
  obtain rfl := Option.some.inj hend
  have htext : t = show3 (major, minor, patch) ++ r₅ := by
    rw [ht₁, ht₃, ht₅]
    simp [show3]
  simp only [atEnd, Bool.or_eq_true, decide_eq_true_eq] at hat
  rcases hat with rfl | rfl
  · exact .inl (by rw [htext, List.append_nil])
  · exact .inr htext

variable (dec) in
/-- A text in ASCII is a version when it writes three numbers the one way they can be written,
the first below 1000; one line end may follow. -/
theorem parseSemver_iff {t : Text} (hascii : ∀ c ∈ t, (dec.value c).isSome → c.isDigit)
    (v : Semver) : parseSemver dec t = some v ↔
      v.1 < 1000 ∧ (t = show3 v ∨ t = show3 v ++ ['\n']) := by
  unfold parseSemver
  rw [Option.filter_eq_some_iff, decide_eq_true_eq]
  constructor
  · rintro ⟨h, hlt⟩
    exact ⟨hlt, eq_of_semver hascii h⟩
  · rintro ⟨hlt, rfl | rfl⟩
    · refine ⟨?_, hlt⟩
      have hshow : semver dec (show3 v ++ []) = some v := semver_show3 v (.inl rfl)
      rwa [List.append_nil] at hshow
    · exact ⟨semver_show3 v (.inr rfl), hlt⟩

/-- `\d` of ASCII alone. -/
def asciiDecimals : Decimals where
  value := fun c => if c.isDigit then some (Hydrate.digitVal c) else none
  ascii := fun _ h => if_pos h
  dot := rfl
  newline := rfl

theorem parseSemver_release : parseSemver asciiDecimals "1.2.10".toList = some (1, 2, 10) ↔
    1 < 1000 ∧ ("1.2.10".toList = show3 (1, 2, 10) ∨
      "1.2.10".toList = show3 (1, 2, 10) ++ ['\n']) :=
  parseSemver_iff asciiDecimals
    (fun c _ h => by
      by_contra hc
      simp [asciiDecimals, hc] at h)
    (1, 2, 10)

end Show

/-! ### One check -/

open JsonText (Value)

/-- A client knows its own version, which is one. -/
structure Client (dec : Decimals) where
  version : Text
  semver : Semver
  parses : parseSemver dec version = some semver

/-- What `/health` comes to: no body at all (the indexer is unreachable or failing, or the body
is no JSON), or the value read. -/
inductive Answer
  | failed
  | body (v : Value)

/-- What a tool call comes to. -/
inductive Verdict
  | proceed
  | refused (message : Text)
  | typeError
  deriving DecidableEq

def truthy : Value → Bool
  | .word w => w ≠ .null && w ≠ .false
  | .num n => n.value ≠ 0
  | .str s => s ≠ []
  | .arr l => !l.isEmpty
  | .obj fields => !fields.isEmpty

def predates (version major : Text) : Text :=
  "Incompatible indexer: it predates version reporting (no 'version' in /health). ".toList ++
    "Upgrade the indexer to ".toList ++ major ++ ".x to use this treeweft-mcp ".toList ++
    version ++ ".".toList

def unrecognised (shown : Text) : Text :=
  "Incompatible indexer: unrecognised version ".toList ++ shown ++ " in /health.".toList

def mismatch (indexer client indexerMajor clientMajor : Text) : Text :=
  "Incompatible indexer: indexer is ".toList ++ indexer ++ ", this treeweft-mcp is ".toList ++
    client ++ " (major versions must match). Upgrade treeweft-mcp to ".toList ++ indexerMajor ++
    ".x, or run an indexer ".toList ++ clientMajor ++ ".x.".toList

section Check
variable {dec : Decimals} (repr : Text → Text) (client : Client dec)

/-- `incompatibility`; a version that is no text cannot be matched. -/
def incompatibility (health : List (Text × Value)) : Verdict :=
  let major := Nat.toDigits 10 client.semver.1
  match (health.lookup "version".toList).filter truthy with
  | none => .refused (predates client.version major)
  | some (.str version) =>
    match parseSemver dec version with
    | none => .refused (unrecognised (repr version))
    | some v =>
      if v.1 ≠ client.semver.1 then
        .refused (mismatch version client.version (Nat.toDigits 10 v.1) major)
      else .proceed
  | some _ => .typeError

/-- What an answer lets a call do, and whether it is kept. -/
def judge : Answer → Verdict × Bool
  | .failed => (.proceed, false)
  | .body (.obj health) =>
    (incompatibility repr client health, incompatibility repr client health = .proceed)
  | .body _ => (.proceed, false)

/-- The answer names a version of the client's own major number. -/
def Fits : Answer → Prop
  | .body (.obj health) => ∃ version v, health.lookup "version".toList = some (.str version) ∧
      parseSemver dec version = some v ∧ v.1 = client.semver.1
  | _ => False

lemma incompatibility_eq_proceed (health : List (Text × Value)) :
    incompatibility repr client health = .proceed ↔ Fits client (.body (.obj health)) := by
  have hempty : parseSemver dec [] = none := rfl
  simp only [incompatibility, Fits]
  constructor
  · intro h
    split at h
    · cases h
    · rename_i version hversion
      split at h
      · cases h
      · rename_i v hv
        split_ifs at h with hmajor
        exact ⟨version, v, (Option.filter_eq_some_iff.mp hversion).1, hv, not_not.mp hmajor⟩
    · cases h
  · rintro ⟨version, v, hversion, hv, hmajor⟩
    have hne : version ≠ [] := by
      rintro rfl
      rw [hempty] at hv
      cases hv
    have hkept : (health.lookup "version".toList).filter truthy = some (.str version) := by
      rw [hversion]
      simp [truthy, hne]
    rw [hkept]
    simp only [hv, hmajor, ne_eq, not_true_eq_false, if_false]

lemma judge_kept (a : Answer) : (judge repr client a).2 = true ↔ Fits client a := by
  match a with
  | .failed => exact iff_of_false Bool.false_ne_true id
  | .body (.obj health) =>
    rw [← incompatibility_eq_proceed repr]
    exact decide_eq_true_iff
  | .body (.word _) | .body (.num _) | .body (.str _) | .body (.arr _) =>
    exact iff_of_false Bool.false_ne_true id

/-! ### Calls under way -/

def ttl : ℚ := 300

/-- A call comes, or a call under way has its answer. -/
inductive Event
  | call (id : ℕ) (now : ℚ)
  | answer (id : ℕ) (now : ℚ) (a : Answer)

def Event.now : Event → ℚ
  | .call _ now => now
  | .answer _ now _ => now

structure State where
  okUntil : ℚ := 0
  asking : List ℕ := []
  decided : List (ℕ × Verdict) := []
  deriving DecidableEq

def State.knows (s : State) (id : ℕ) : Prop := id ∈ s.asking ∨ id ∈ s.decided.map Prod.fst

instance (s : State) (id : ℕ) : Decidable (s.knows id) := inferInstanceAs (Decidable (_ ∨ _))

/-- A call is one it has not met, and an answer is to a call still asking. -/
def step (s : State) : Event → Option State
  | .call id now =>
    if s.knows id then none
    else if now < s.okUntil then some { s with decided := (id, .proceed) :: s.decided }
    else some { s with asking := id :: s.asking }
  | .answer id now a =>
    if id ∉ s.asking then none
    else some
      { okUntil := if (judge repr client a).2 then now + ttl else s.okUntil
        asking := s.asking.filter (· ≠ id)
        decided := (id, (judge repr client a).1) :: s.decided }

def run (es : List Event) : Option State := es.foldlM (step repr client) {}

/-- The events come in the order of the clock, which starts at zero. -/
def Timed (es : List Event) : Prop := (∀ e ∈ es, 0 ≤ e.now) ∧ es.Pairwise fun e f => e.now ≤ f.now

/-- A fitting answer came less than the time it is kept before now. -/
def Vouched (es : List Event) (now : ℚ) : Prop :=
  ∃ id t a, .answer id t a ∈ es ∧ Fits client a ∧ now < t + ttl

/-- Why a call was decided: it came while an answer was kept, or by its own answer. -/
def Reason (es : List Event) (id : ℕ) (v : Verdict) : Prop :=
  (∃ before after now, es = before ++ .call id now :: after ∧ Vouched client before now ∧
      v = .proceed) ∨
    ∃ t a, .answer id t a ∈ es ∧ v = (judge repr client a).1

def Met (es : List Event) (id : ℕ) : Prop := ∃ now, .call id now ∈ es

variable {repr client} {es : List Event} {s s' : State}

lemma step_cases {e : Event} (h : step repr client s e = some s') :
    (∃ id now, e = .call id now ∧ ¬ s.knows id ∧ now < s.okUntil ∧
      s' = { s with decided := (id, .proceed) :: s.decided }) ∨
    (∃ id now, e = .call id now ∧ ¬ s.knows id ∧ ¬ now < s.okUntil ∧
      s' = { s with asking := id :: s.asking }) ∨
    ∃ id now a, e = .answer id now a ∧ id ∈ s.asking ∧
      s' = { okUntil := if (judge repr client a).2 then now + ttl else s.okUntil
             asking := s.asking.filter (· ≠ id)
             decided := (id, (judge repr client a).1) :: s.decided } := by
  cases e with
  | call id now =>
    simp only [step] at h
    split_ifs at h with hknows hfresh
    · exact .inl ⟨id, now, rfl, hknows, hfresh, (Option.some.inj h).symm⟩
    · exact .inr (.inl ⟨id, now, rfl, hknows, hfresh, (Option.some.inj h).symm⟩)
  | answer id now a =>
    simp only [step] at h
    by_cases hasking : id ∈ s.asking
    · rw [if_neg (not_not.mpr hasking)] at h
      exact .inr (.inr ⟨id, now, a, rfl, hasking, (Option.some.inj h).symm⟩)
    · rw [if_pos hasking] at h
      cases h

lemma timed_append {e : Event} : Timed (es ++ [e]) ↔
    Timed es ∧ 0 ≤ e.now ∧ ∀ f ∈ es, f.now ≤ e.now := by
  simp only [Timed, List.pairwise_append, List.forall_mem_append, List.forall_mem_singleton,
    List.pairwise_singleton]
  tauto

lemma vouched_append {e : Event} {now : ℚ} : Vouched client (es ++ [e]) now ↔
    Vouched client es now ∨ ∃ id t a, e = .answer id t a ∧ Fits client a ∧ now < t + ttl := by
  simp only [Vouched, List.mem_append, List.mem_singleton, or_and_right, exists_or,
    eq_comm (b := e)]

lemma reason_append {e : Event} {id : ℕ} {v : Verdict} : Reason repr client (es ++ [e]) id v ↔
    Reason repr client es id v ∨
      (∃ now, e = .call id now ∧ Vouched client es now ∧ v = .proceed) ∨
        ∃ t a, e = .answer id t a ∧ v = (judge repr client a).1 := by
  constructor
  · rintro (⟨before, after, now, heq, hvouched, hv⟩ | ⟨t, a, hmem, hv⟩)
    · rcases List.eq_nil_or_concat after with rfl | ⟨after, last, rfl⟩
      · obtain ⟨rfl, hlast⟩ := List.append_inj' heq rfl
        exact .inr (.inl ⟨now, List.head_eq_of_cons_eq hlast, hvouched, hv⟩)
      · rw [List.concat_eq_append, ← List.cons_append, ← List.append_assoc] at heq
        exact .inl (.inl ⟨before, after, now, (List.append_inj' heq rfl).1, hvouched, hv⟩)
    · rcases List.mem_append.mp hmem with hmem | hmem
      · exact .inl (.inr ⟨t, a, hmem, hv⟩)
      · exact .inr (.inr ⟨t, a, (List.mem_singleton.mp hmem).symm, hv⟩)
  · rintro ((⟨before, after, now, rfl, hvouched, hv⟩ | ⟨t, a, hmem, hv⟩) |
      ⟨now, rfl, hvouched, hv⟩ | ⟨t, a, rfl, hv⟩)
    · exact .inl ⟨before, after ++ [e], now, by simp, hvouched, hv⟩
    · exact .inr ⟨t, a, List.mem_append_left _ hmem, hv⟩
    · exact .inl ⟨es, [], now, rfl, hvouched, hv⟩
    · exact .inr ⟨t, a, by simp, hv⟩

lemma met_append {e : Event} {id : ℕ} :
    Met (es ++ [e]) id ↔ Met es id ∨ ∃ now, e = .call id now := by
  simp only [Met, List.mem_append, List.mem_singleton, exists_or, eq_comm (b := e)]

variable (repr client) in
/-- What the state says of the events that led to it. -/
structure Accounted (es : List Event) (s : State) : Prop where
  fresh : ∀ now, 0 ≤ now → (now < s.okUntil ↔ Vouched client es now)
  decided : ∀ id v, (id, v) ∈ s.decided ↔ Reason repr client es id v
  once : (s.decided.map Prod.fst).Nodup
  met : ∀ id, s.knows id ↔ Met es id
  apart : ∀ id ∈ s.asking, id ∉ s.decided.map Prod.fst

lemma accounted_nil : Accounted repr client [] {} where
  fresh := fun now hnow => iff_of_false (not_lt.mpr hnow) fun ⟨_, _, _, h, _⟩ =>
    List.not_mem_nil h
  decided := fun id v => iff_of_false List.not_mem_nil fun h => by
    rcases h with ⟨before, after, now, h, -⟩ | ⟨t, a, h, -⟩
    · simp at h
    · exact List.not_mem_nil h
  once := List.nodup_nil
  met := fun id => iff_of_false (by simp [State.knows]) fun ⟨_, h⟩ => List.not_mem_nil h
  apart := fun id h => absurd h List.not_mem_nil

lemma accounted_step {e : Event} (ht : Timed (es ++ [e])) (hs : Accounted repr client es s)
    (h : step repr client s e = some s') : Accounted repr client (es ++ [e]) s' := by
  obtain ⟨-, hpos, hlast⟩ := timed_append.mp ht
  rcases step_cases h with ⟨id, now, rfl, hknows, hfresh, rfl⟩ | ⟨id, now, rfl, hknows, hfresh, rfl⟩
    | ⟨id, now, a, rfl, hasking, rfl⟩
  · have hvouched := (hs.fresh now hpos).mp hfresh
    constructor
    · intro now' hnow'
      simp only [vouched_append, reduceCtorEq, false_and, exists_false, or_false]
      exact hs.fresh now' hnow'
    · intro id' v
      rw [List.mem_cons, hs.decided, reason_append, or_comm]
      simp only [Prod.mk.injEq, Event.call.injEq, reduceCtorEq, false_and, exists_false, or_false]
      refine or_congr_right ⟨?_, ?_⟩
      · rintro ⟨rfl, rfl⟩
        exact ⟨now, ⟨rfl, rfl⟩, hvouched, rfl⟩
      · rintro ⟨now', ⟨rfl, rfl⟩, -, rfl⟩
        exact ⟨rfl, rfl⟩
    · rw [List.map_cons, List.nodup_cons]
      exact ⟨fun hmem => hknows (.inr hmem), hs.once⟩
    · intro id'
      rw [met_append, ← hs.met]
      simp only [State.knows, List.map_cons, List.mem_cons, Event.call.injEq]
      tauto
    · intro id' hid' hmem
      rcases List.mem_cons.mp hmem with rfl | hmem
      · exact hknows (.inl hid')
      · exact hs.apart id' hid' hmem
  · have hvouched : ¬ Vouched client es now := fun hv => hfresh ((hs.fresh now hpos).mpr hv)
    constructor
    · intro now' hnow'
      simp only [vouched_append, reduceCtorEq, false_and, exists_false, or_false]
      exact hs.fresh now' hnow'
    · intro id' v
      rw [hs.decided, reason_append]
      simp only [Event.call.injEq, reduceCtorEq, false_and, exists_false, or_false]
      refine (or_iff_left ?_).symm
      rintro ⟨now', ⟨-, rfl⟩, hv, -⟩
      exact hvouched hv
    · exact hs.once
    · intro id'
      rw [met_append, ← hs.met]
      simp only [State.knows, List.mem_cons, Event.call.injEq]
      tauto
    · intro id' hid' hmem
      rcases List.mem_cons.mp hid' with rfl | hid'
      · exact hknows (.inr hmem)
      · exact hs.apart id' hid' hmem
  · constructor
    · intro now' hnow'
      rw [vouched_append, ← hs.fresh now' hnow']
      simp only [Event.answer.injEq]
      by_cases hfits : Fits client a
      · -- no answer before came later, so none is kept longer
        rw [if_pos ((judge_kept repr client a).mpr hfits), hs.fresh now' hnow']
        constructor
        · exact fun hlt => .inr ⟨id, now, a, ⟨rfl, rfl, rfl⟩, hfits, hlt⟩
        · rintro (⟨id', t, a', hmem, -, hlt⟩ | ⟨id', t, a', ⟨rfl, rfl, rfl⟩, -, hlt⟩)
          · exact lt_of_lt_of_le hlt (add_le_add (hlast _ hmem) le_rfl)
          · exact hlt
      · rw [if_neg fun hkept => hfits ((judge_kept repr client a).mp hkept)]
        refine (or_iff_left ?_).symm
        rintro ⟨id', t, a', ⟨rfl, rfl, rfl⟩, hfits', -⟩
        exact hfits hfits'
    · intro id' v
      rw [List.mem_cons, hs.decided, reason_append, or_comm]
      simp only [Prod.mk.injEq, Event.answer.injEq, reduceCtorEq, false_and, exists_false,
        false_or]
      refine or_congr_right ⟨?_, ?_⟩
      · rintro ⟨rfl, rfl⟩
        exact ⟨now, a, ⟨rfl, rfl, rfl⟩, rfl⟩
      · rintro ⟨now', a', ⟨rfl, rfl, rfl⟩, rfl⟩
        exact ⟨rfl, rfl⟩
    · rw [List.map_cons, List.nodup_cons]
      exact ⟨hs.apart id hasking, hs.once⟩
    · intro id'
      rw [met_append, ← hs.met]
      simp only [State.knows, List.map_cons, List.mem_cons, List.mem_filter, decide_eq_true_eq,
        reduceCtorEq, exists_false, or_false]
      by_cases hid : id' = id
      · subst hid
        simp [hasking]
      · simp [hid]
    · intro id' hid' hmem
      obtain ⟨hid', hne⟩ := List.mem_filter.mp hid'
      rcases List.mem_cons.mp hmem with rfl | hmem
      · exact of_decide_eq_true hne rfl
      · exact hs.apart id' hid' hmem

/-- **When a tool call goes ahead.** Over any events in the order of the clock, calls overlapping
as they may: a call is decided once, at once exactly when an answer that fits came less than five
minutes before it, and else by its own answer; the calls not decided are those still asking. -/
theorem decided_iff (ht : Timed es) (h : run repr client es = some s) :
    (∀ id v, (id, v) ∈ s.decided ↔ Reason repr client es id v) ∧
      (s.decided.map Prod.fst).Nodup ∧
      ∀ id, id ∈ s.asking ↔ Met es id ∧ id ∉ s.decided.map Prod.fst := by
  have hs : Accounted repr client es s := by
    induction es using List.reverseRecOn generalizing s with
    | nil =>
      obtain rfl := Option.some.inj h
      exact accounted_nil
    | append_singleton es e ih =>
      rw [run, List.foldlM_append] at h
      obtain ⟨s₀, h₀, hstep⟩ := Option.bind_eq_some_iff.mp h
      simp only [List.foldlM_cons, List.foldlM_nil, bind_pure] at hstep
      exact accounted_step ht (ih (timed_append.mp ht).1 h₀) hstep
  refine ⟨hs.decided, hs.once, fun id => ?_⟩
  rw [← hs.met]
  constructor
  · exact fun hid => ⟨.inl hid, hs.apart id hid⟩
  · rintro ⟨hid | hid, hnot⟩
    · exact hid
    · exact absurd hid hnot

end Check

section Example

def client : Client asciiDecimals := ⟨"1.2.0".toList, (1, 2, 0), rfl⟩

def fitting : Answer := .body (.obj [("version".toList, .str "1.4.2".toList)])

def events : List Event :=
  [.call 1 10, .call 2 10, .answer 1 11 fitting, .call 3 300, .call 4 311]

/-- The third call goes ahead at once; the second still asks, and so does the fourth. -/
theorem decided_of_events : (∀ i v, (i, v) ∈ [(3, Verdict.proceed), (1, .proceed)] ↔
      Reason id client events i v) ∧ [3, 1].Nodup ∧
      ∀ i, i ∈ [4, 2] ↔ Met events i ∧ i ∉ [3, 1] :=
  @decided_iff _ id client events ⟨311, [4, 2], [(3, .proceed), (1, .proceed)]⟩
    ⟨by simp [events, Event.now], by simp [events, Event.now]; norm_num⟩
    (by decide +kernel)

end Example

end Treeweft.McpCompat
