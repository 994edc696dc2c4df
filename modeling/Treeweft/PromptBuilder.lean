import Mathlib.Data.List.TakeWhile
import Mathlib.Tactic.Linarith
import Mathlib.Tactic.Ring
import Treeweft.TokenBudget
import Treeweft.Indexer

/-!
The prompt of a request to a language model.

The parts reserve their tokens in one order, the context before the query, and are joined with blank
lines that nobody is charged for. The counter rounds down, so that a part may also be longer than
what it is charged.
-/

namespace Treeweft

open TokenBudget

structure PromptBuilder where
  budget : TokenBudget
  constraintHeader : Text := "Constraints (hard requirements, not suggestions)".toList
  system : Text := []
  constraints : List Text := []
  mutationHint : Text := []
  context : Text := []
  query : Text := []

structure Message where
  role : String
  content : Text

namespace TokenBudget

def separator : Text := "\n\n".toList

/-- The slots that have content, joined in their order. -/
def buildPrompt (b : TokenBudget) : Text :=
  separator.intercalate ((b.slots.map Slot.content).filter (· ≠ []))

/-- Reserve the parts in their order. -/
def reserveAll (b : TokenBudget) (parts : List (String × Text)) : TokenBudget :=
  parts.foldl (fun b part => (b.reserve b.config.estimate part.1 part.2).2) b

lemma reserveAll_append (b : TokenBudget) (ps qs : List (String × Text)) :
    reserveAll b (ps ++ qs) = reserveAll (reserveAll b ps) qs := List.foldl_append

@[simp] lemma config_reserveAll (b : TokenBudget) (parts : List (String × Text)) :
    (reserveAll b parts).config = b.config := by
  induction parts generalizing b with
  | nil => rfl
  | cons part parts ih => exact (ih _).trans (config_reserve _ _ _)

/-- A part that may be missing. -/
lemma reserveAll_ite {P : Prop} [Decidable P] {b : TokenBudget} {c : TokenBudgetConfig}
    (hb : b.config = c) (name : String) (text : Text) :
    (if P then b else (b.reserve c.estimate name text).2) =
      reserveAll b (if P then [] else [(name, text)]) := by
  subst hb
  split <;> rfl

/-- The characters that a text has beyond those it is charged for. -/
def uncharged (c : TokenBudgetConfig) (text : Text) : ℤ :=
  text.length - c.charToTokenRatio * c.estimate text

/-- With `left` tokens unspent and `extra` characters that no token was charged for, the parts that
are still to be reserved keep the prompt from reaching one token more than the budget. -/
def Within (c : TokenBudgetConfig) (left extra : ℤ) : List Text → Prop
  | [] => extra < c.charToTokenRatio * (left + 1)
  | t :: ts =>
    if c.estimate t ≤ left then
      Within c (left - c.estimate t) (extra + separator.length + uncharged c t) ts
    else if NoRoom c.estimate c left.toNat then Within c left extra ts
    else extra + separator.length + uncharged c c.truncationMarker < c.charToTokenRatio

/-- The contents of a prompt, each with its separator. -/
def spread (b : TokenBudget) : ℕ :=
  (((b.slots.map Slot.content).filter (· ≠ [])).map fun t => t.length + separator.length).sum

lemma length_intercalate (sep : Text) (ts : List Text) :
    (sep.intercalate ts).length = (ts.map fun t => t.length + sep.length).sum - sep.length := by
  induction ts with
  | nil => simp
  | cons t ts ih =>
    cases ts with
    | nil => simp
    | cons u us =>
      rw [List.intercalate_cons_cons, List.length_append, List.length_append, ih]
      simp only [List.map_cons, List.sum_cons]
      omega

/-- Every part of a joined text is in it. -/
lemma infix_intercalate {sep t : Text} {ts : List Text} (h : t ∈ ts) :
    t <:+: sep.intercalate ts := by
  induction ts with
  | nil => exact absurd h List.not_mem_nil
  | cons u us ih =>
    cases us with
    | nil =>
      obtain rfl := List.mem_singleton.mp h
      refine ⟨[], [], ?_⟩
      rw [List.intercalate_singleton, List.nil_append, List.append_nil]
    | cons v vs =>
      rw [List.intercalate_cons_cons]
      obtain rfl | h := List.mem_cons.mp h
      · exact ⟨[], sep ++ sep.intercalate (v :: vs), by rw [List.nil_append, List.append_assoc]⟩
      · exact (ih h).trans (List.suffix_append _ _).isInfix

lemma length_buildPrompt (b : TokenBudget) :
    b.buildPrompt.length = b.spread - separator.length := length_intercalate _ _

lemma spread_append {b : TokenBudget} {s : Slot} (h : s.content ≠ []) :
    (b.append s).spread = b.spread + (s.content.length + separator.length) := by
  simp [spread, h]

lemma estimate_pos (c : TokenBudgetConfig) (t : Text) : 0 < c.estimate t := by
  rw [TokenBudgetConfig.estimate]; omega

lemma estimate_le_iff {c : TokenBudgetConfig} {t : Text} {n : ℤ} :
    (c.estimate t : ℤ) ≤ n ↔ 1 ≤ n ∧ (t.length : ℤ) < c.charToTokenRatio * (n + 1) := by
  have hr : (0 : ℤ) < c.charToTokenRatio := Int.natCast_pos.mpr c.ratio_pos
  have hdiv : ((t.length / c.charToTokenRatio : ℕ) : ℤ) ≤ n
      ↔ (t.length : ℤ) < c.charToTokenRatio * (n + 1) := by
    rw [Int.natCast_div, ← Int.lt_add_one_iff, Int.ediv_lt_iff_lt_mul hr, mul_comm]
  rw [← hdiv, TokenBudgetConfig.estimate]
  omega

/-- Nothing is recorded any more where all is spent. -/
lemma reserveAll_of_spent {b : TokenBudget} (h : b.remaining = 0)
    (parts : List (String × Text)) : reserveAll b parts = b := by
  induction parts with
  | nil => rfl
  | cons part parts ih =>
    have hlt : b.remaining < b.config.estimate part.2 := h ▸ estimate_pos _ _
    rw [reserveAll, List.foldl_cons, reserve_of_noRoom hlt (.inl (h ▸ Nat.zero_le _))]
    exact ih

/-- A text that does not fit is longer than any cut of it. -/
lemma length_cut {c : TokenBudgetConfig} {left n : ℕ} {t : Text} (h : left < c.estimate t)
    (hleft : 0 < left) (hn : n ≤ left) :
    (cut c n t).length = n * c.charToTokenRatio + c.truncationMarker.length := by
  have hdiv : left < t.length / c.charToTokenRatio := by
    rw [TokenBudgetConfig.estimate] at h; omega
  have hmul : (left + 1) * c.charToTokenRatio ≤ t.length :=
    (Nat.le_div_iff_mul_le c.ratio_pos).mp hdiv
  have hle : n * c.charToTokenRatio ≤ (left + 1) * c.charToTokenRatio :=
    Nat.mul_le_mul_right _ (by omega)
  rw [cut, List.length_append, List.length_take]
  omega

lemma within_iff (b : TokenBudget) (parts : List (String × Text))
    (hne : ∀ part ∈ parts, part.2 ≠ []) :
    ((reserveAll b parts).spread : ℤ) - separator.length
        < b.config.charToTokenRatio * (b.config.totalTokens + 1) ↔
      Within b.config (b.config.totalTokens - b.used)
        (b.spread - separator.length - b.config.charToTokenRatio * b.used)
        (parts.map Prod.snd) := by
  induction parts generalizing b with
  | nil =>
    rw [List.map_nil, Within, reserveAll, List.foldl_nil]
    constructor <;> intro h <;> linarith
  | cons part parts ih =>
    have hrest := fun p hp => hne p (List.mem_cons_of_mem _ hp)
    have hne := hne part List.mem_cons_self
    rw [List.map_cons, Within, reserveAll, List.foldl_cons, ← reserveAll]
    have hrem : (b.config.totalTokens - b.used).toNat = b.remaining := rfl
    rw [hrem]
    obtain ⟨hfit, h⟩ | ⟨hlt, hr, h⟩ | ⟨hlt, hr, h⟩ :=
      reserve_cases b.config.estimate b part.1 part.2
    · -- charged in full
      have hpos := estimate_pos b.config part.2
      have hi := ih (b.append ⟨part.1, part.2, b.config.estimate part.2, false⟩) hrest
      rw [config_append, used_append, spread_append hne] at hi
      rw [h, if_pos (by omega), uncharged]
      have hleft : b.config.totalTokens - ((b.used + b.config.estimate part.2 : ℕ) : ℤ)
          = b.config.totalTokens - b.used - b.config.estimate part.2 := by push_cast; ring
      have hextra : ((b.spread + (part.2.length + separator.length) : ℕ) : ℤ) - separator.length
            - b.config.charToTokenRatio * ((b.used + b.config.estimate part.2 : ℕ) : ℤ)
          = b.spread - separator.length - b.config.charToTokenRatio * b.used + separator.length
            + (part.2.length - b.config.charToTokenRatio * b.config.estimate part.2) := by
        push_cast; ring
      rw [hleft, hextra] at hi
      exact hi
    · rw [h, ih _ hrest, if_neg (by omega), if_pos hr]
    · -- cut to what is left, so that all is spent
      have hpos : 0 < b.remaining := by
        by_contra h0
        exact hr (.inl (by omega))
      have hspent : (b.append ⟨part.1, cut b.config
          (b.remaining - b.config.estimate b.config.truncationMarker) part.2,
          b.remaining, true⟩).remaining = 0 := by
        rw [remaining_append, Nat.sub_self]
      have hlen := length_cut hlt hpos
        (Nat.sub_le b.remaining (b.config.estimate b.config.truncationMarker))
      have hmark : b.config.estimate b.config.truncationMarker < b.remaining := by
        by_contra h0
        exact hr (.inr (by omega))
      have hcut : cut b.config (b.remaining - b.config.estimate b.config.truncationMarker) part.2
          ≠ [] := by
        intro hnil
        have := Nat.mul_pos (Nat.sub_pos_of_lt hmark) b.config.ratio_pos
        rw [hnil, List.length_nil] at hlen
        omega
      rw [h, if_neg (by omega), if_neg hr, reserveAll_of_spent hspent, spread_append hcut, hlen,
        uncharged]
      have hused : b.config.totalTokens = b.used + b.remaining := by omega
      rw [hused]
      push_cast [hmark.le]
      constructor <;> intro hw <;> linarith only [hw]

/-- The slots that the parts get when `left` tokens are unspent. -/
def recorded (c : TokenBudgetConfig) : ℕ → List (String × Text) → List Slot
  | _, [] => []
  | left, part :: parts =>
    if c.estimate part.2 ≤ left then
      ⟨part.1, part.2, c.estimate part.2, false⟩
        :: recorded c (left - c.estimate part.2) parts
    else if NoRoom c.estimate c left then recorded c left parts
    else [⟨part.1, cut c (left - c.estimate c.truncationMarker) part.2, left, true⟩]

lemma slots_reserveAll (b : TokenBudget) (parts : List (String × Text)) :
    (reserveAll b parts).slots = b.slots ++ recorded b.config b.remaining parts := by
  induction parts generalizing b with
  | nil => exact (List.append_nil _).symm
  | cons part parts ih =>
    rw [reserveAll, List.foldl_cons, ← reserveAll, recorded]
    obtain ⟨hfit, h⟩ | ⟨hlt, hr, h⟩ | ⟨hlt, hr, h⟩ :=
      reserve_cases b.config.estimate b part.1 part.2
    · rw [h, if_pos hfit, ih, remaining_append, slots_append, List.append_assoc]
      rfl
    · rw [h, if_neg (by omega), if_pos hr, ih]
    · rw [h, if_neg (by omega), if_neg hr, reserveAll_of_spent, slots_append]
      rw [remaining_append, Nat.sub_self]

lemma name_of_recorded {c : TokenBudgetConfig} {left : ℕ} {parts : List (String × Text)} {s : Slot}
    (h : s ∈ recorded c left parts) : s.name ∈ parts.map Prod.fst := by
  induction parts generalizing left with
  | nil => exact absurd h List.not_mem_nil
  | cons part parts ih =>
    rw [List.map_cons, List.mem_cons]
    rw [recorded] at h
    split at h
    · obtain rfl | h := List.mem_cons.mp h
      exacts [.inl rfl, .inr (ih h)]
    split at h
    · exact .inr (ih h)
    · exact .inl (List.mem_singleton.mp h ▸ rfl)

/-- A part that is recorded whole. -/
def whole (c : TokenBudgetConfig) (part : String × Text) : Slot :=
  ⟨part.1, part.2, c.estimate part.2, false⟩

/-- The first of several parts is recorded whole where it fits. -/
lemma whole_mem_cons_iff {c : TokenBudgetConfig} {left : ℕ} {part : String × Text}
    {parts : List (String × Text)} (hn : part.1 ∉ parts.map Prod.fst) :
    whole c part ∈ recorded c left (part :: parts) ↔ c.estimate part.2 ≤ left := by
  have hrest : ∀ l, whole c part ∉ recorded c l parts := fun l h => hn (name_of_recorded h)
  rw [recorded]
  split
  case isTrue h => exact iff_of_true List.mem_cons_self h
  case isFalse h =>
    refine iff_of_false ?_ h
    split
    · exact hrest _
    · intro hm
      exact absurd (congrArg Slot.truncated (List.mem_singleton.mp hm)) nofun

/-- Parts that come first are all recorded whole where they fit together. -/
lemma forall_whole_iff {c : TokenBudgetConfig} {left : ℕ} {fixed parts : List (String × Text)}
    (hn : ((fixed ++ parts).map Prod.fst).Nodup) :
    (∀ part ∈ fixed, whole c part ∈ recorded c left (fixed ++ parts)) ↔
      (fixed.map fun part => c.estimate part.2).sum ≤ left := by
  induction fixed generalizing left with
  | nil => exact iff_of_true (fun _ h => absurd h List.not_mem_nil) (Nat.zero_le _)
  | cons part fixed ih =>
    rw [List.cons_append, List.map_cons, List.nodup_cons] at hn
    rw [List.forall_mem_cons, List.cons_append, whole_mem_cons_iff hn.1, List.map_cons,
      List.sum_cons]
    by_cases hfit : c.estimate part.2 ≤ left
    case neg => exact iff_of_false (fun h => hfit h.1) (by omega)
    have htail : ∀ q ∈ fixed, whole c q ∈ recorded c left (part :: (fixed ++ parts)) ↔
        whole c q ∈ recorded c (left - c.estimate part.2) (fixed ++ parts) := by
      intro q hq
      rw [recorded, if_pos hfit, List.mem_cons, or_iff_right]
      intro heq
      have hname : q.1 = part.1 := congrArg Slot.name heq
      rw [List.map_append, List.mem_append] at hn
      exact hn.1 (.inl (hname ▸ List.mem_map_of_mem hq))
    rw [forall₂_congr htail, ih hn.2]
    omega

/-- What follows parts that fit gets what these leave. -/
lemma recorded_append {c : TokenBudgetConfig} {left : ℕ} {fixed parts : List (String × Text)}
    (h : (fixed.map fun part => c.estimate part.2).sum ≤ left) :
    recorded c left (fixed ++ parts) = fixed.map (whole c) ++
      recorded c (left - (fixed.map fun part => c.estimate part.2).sum) parts := by
  induction fixed generalizing left with
  | nil => rfl
  | cons part fixed ih =>
    rw [List.map_cons, List.sum_cons] at h
    rw [List.cons_append, recorded, if_pos (by omega), ih (by omega), Nat.sub_sub]
    rfl

end TokenBudget

namespace PromptBuilder

def strip (cs : Text) : Text := Indexer.rstrip (cs.dropWhile Indexer.isSpace)

def constraintBlock (header : Text) (constraints : List Text) : Text :=
  strip (header ++ ['\n'] ++ (constraints.zipIdx 1).flatMap fun ci =>
    (toString ci.2).toList ++ ". ".toList ++ ci.1 ++ ['\n'])

lemma strip_ne_nil {cs : Text} {c : Char} (hc : c ∈ cs) (h : Indexer.isSpace c = false) :
    strip cs ≠ [] := by
  have hdrop : c ∈ cs.dropWhile Indexer.isSpace := by
    rw [← List.takeWhile_append_dropWhile (p := Indexer.isSpace) (l := cs), List.mem_append] at hc
    refine hc.resolve_left fun ht => ?_
    rw [List.mem_takeWhile_imp ht] at h
    exact absurd h nofun
  rw [strip, Indexer.rstrip, Ne, List.reverse_eq_nil_iff, List.dropWhile_eq_nil_iff]
  intro hall
  rw [hall c (List.mem_reverse.mpr hdrop)] at h
  exact absurd h nofun

/-- The block has at least the number of the first constraint. -/
lemma constraintBlock_ne_nil (header : Text) {constraints : List Text} (h : constraints ≠ []) :
    constraintBlock header constraints ≠ [] := by
  obtain ⟨c, cs, rfl⟩ := List.exists_cons_of_ne_nil h
  refine strip_ne_nil (c := '1') (List.mem_append_right _ ?_) (by decide)
  rw [List.zipIdx_cons, List.flatMap_cons]
  exact List.mem_append_left _ (List.mem_append_left _ (List.mem_append_left _
    (List.mem_append_left _ (by decide : '1' ∈ (toString 1).toList))))

def hintBlock (hint : Text) : Text := "[Hint from previous attempt: ".toList ++ hint ++ "]".toList

section Build
variable (p : PromptBuilder)

/-- The counter where there is no encoder. -/
def count : Text → ℕ := p.budget.config.estimate

/-- The budget after every part has reserved its tokens. -/
def reserved : TokenBudget :=
  let b := p.budget
  let b := if p.system = [] then b else (b.reserve p.count "system_prompt" p.system).2
  let b := if p.constraints = [] then b
    else (b.reserve p.count "constraints" (constraintBlock p.constraintHeader p.constraints)).2
  let b := if p.mutationHint = [] then b
    else (b.reserve p.count "mutation_hint" (hintBlock p.mutationHint)).2
  let b := if p.context = [] then b else (b.reserve p.count "context" p.context).2
  if p.query = [] then b else (b.reserve p.count "user_input" p.query).2

def prompt : Text := p.reserved.buildPrompt

def build : List Message :=
  (if p.system = [] then [] else [⟨"system", p.system⟩]) ++ [⟨"user", p.prompt⟩]

/-! ### Priorities -/

/-- System prompt, constraints and hint, as far as there are any. -/
def fixedParts : List (String × Text) :=
  (if p.system = [] then [] else [("system_prompt", p.system)]) ++
    (if p.constraints = [] then []
      else [("constraints", constraintBlock p.constraintHeader p.constraints)]) ++
    if p.mutationHint = [] then [] else [("mutation_hint", hintBlock p.mutationHint)]

def contextPart : List (String × Text) := if p.context = [] then [] else [("context", p.context)]

def queryPart : List (String × Text) := if p.query = [] then [] else [("user_input", p.query)]

def parts : List (String × Text) := p.fixedParts ++ p.contextPart ++ p.queryPart

/-- System prompt, constraints, hint and query fit the budget, together with their separators. -/
def Fits : Prop :=
  p.count (separator.intercalate ((p.fixedParts ++ p.queryPart).map Prod.snd))
    ≤ p.budget.remaining

instance : Decidable p.Fits := inferInstanceAs (Decidable (_ ≤ _))

/-- The slots of this prompt. -/
def added : List Slot := p.reserved.slots.drop p.budget.slots.length

/-- Only the context is ever truncated or dropped. -/
def QueryKept : Prop :=
  p.Fits → ∀ part ∈ p.fixedParts ++ p.queryPart, whole p.budget.config part ∈ p.added

/-- The prompt counts at most what the budget has. -/
def InBudget : Prop := (p.count p.prompt : ℤ) ≤ p.budget.config.totalTokens

instance : Decidable p.InBudget := inferInstanceAs (Decidable (_ ≤ _))

/-- What the parts before the context are charged. -/
def fixedCharge : ℕ := (p.fixedParts.map fun part => p.count part.2).sum

/-- What the context takes of the tokens that are left for it. -/
def contextCharge (left : ℕ) : ℕ :=
  if p.context = [] then 0
  else if p.count p.context ≤ left then p.count p.context
  else if NoRoom p.count p.budget.config left then 0
  else left

/-- The parts before the context fit, and the query fits beside what the context takes. -/
def LeavesQuery : Prop :=
  p.fixedCharge ≤ p.budget.remaining ∧
    (p.query = [] ∨
      p.contextCharge (p.budget.remaining - p.fixedCharge) + p.count p.query
        ≤ p.budget.remaining - p.fixedCharge)

variable {p}

lemma reserved_eq : p.reserved = reserveAll p.budget p.parts := by
  have h1 {ps} : (reserveAll p.budget ps).config = p.budget.config := config_reserveAll _ _
  have h2 {ps qs} : (reserveAll (reserveAll p.budget ps) qs).config = p.budget.config :=
    (config_reserveAll _ _).trans h1
  have h3 {ps qs rs} :
      (reserveAll (reserveAll (reserveAll p.budget ps) qs) rs).config = p.budget.config :=
    (config_reserveAll _ _).trans h2
  rw [reserved]
  dsimp only [count]
  rw [reserveAll_ite rfl, reserveAll_ite h1, reserveAll_ite h2, reserveAll_ite h3,
    reserveAll_ite ((config_reserveAll _ _).trans h3)]
  simp only [← reserveAll_append, parts, fixedParts, contextPart, queryPart, List.append_assoc]

lemma added_eq : p.added = recorded p.budget.config p.budget.remaining p.parts := by
  rw [added, reserved_eq, slots_reserveAll, List.drop_left]

lemma part_ne_nil {P : Prop} [Decidable P] {name : String} {t : Text} (h : ¬ P → t ≠ []) :
    ∀ part ∈ if P then [] else [(name, t)], part.2 ≠ [] := by
  split
  case isTrue => exact fun _ h => absurd h List.not_mem_nil
  case isFalse hp => exact List.forall_mem_singleton.mpr (h hp)

/-- Every part has a text. -/
lemma parts_ne_nil : ∀ part ∈ p.parts, part.2 ≠ [] := by
  simp only [parts, fixedParts, contextPart, queryPart, List.forall_mem_append]
  exact ⟨⟨⟨⟨part_ne_nil id, part_ne_nil (constraintBlock_ne_nil _)⟩,
    part_ne_nil fun _ => nofun⟩, part_ne_nil id⟩, part_ne_nil id⟩

/-- A part that may be missing has no name but its own. -/
lemma names_sublist {P : Prop} [Decidable P] (name : String) (t : Text) :
    ((if P then [] else [(name, t)]).map Prod.fst).Sublist [name] := by
  split
  exacts [List.nil_sublist _, List.Sublist.refl _]

lemma nodup_parts : (p.parts.map Prod.fst).Nodup := by
  simp only [parts, fixedParts, contextPart, queryPart, List.map_append]
  have h := ((((names_sublist (P := p.system = []) "system_prompt" p.system).append
    (names_sublist (P := p.constraints = []) "constraints"
      (constraintBlock p.constraintHeader p.constraints))).append
    (names_sublist (P := p.mutationHint = []) "mutation_hint" (hintBlock p.mutationHint))).append
    (names_sublist (P := p.context = []) "context" p.context)).append
    (names_sublist (P := p.query = []) "user_input" p.query)
  exact h.nodup (by decide)

lemma inBudget_iff :
    p.InBudget ↔ 1 ≤ p.budget.config.totalTokens ∧
      Within p.budget.config (p.budget.config.totalTokens - p.budget.used)
        (p.budget.spread - separator.length - p.budget.config.charToTokenRatio * p.budget.used)
        (p.parts.map Prod.snd) := by
  rw [InBudget, count, estimate_le_iff, ← within_iff _ _ parts_ne_nil, prompt, reserved_eq,
    length_buildPrompt]
  have hr : (0 : ℤ) < p.budget.config.charToTokenRatio :=
    Int.natCast_pos.mpr p.budget.config.ratio_pos
  refine and_congr_right fun hT => ?_
  have hpos : 0 < (p.budget.config.charToTokenRatio : ℤ) * (p.budget.config.totalTokens + 1) :=
    Int.mul_pos hr (by omega)
  omega

/-- What the context leaves of the tokens. -/
lemma query_whole_iff (left : ℕ) :
    (∀ part ∈ p.queryPart,
        whole p.budget.config part ∈ recorded p.budget.config left (p.contextPart ++ p.queryPart)) ↔
      (p.query = [] ∨ p.contextCharge left + p.count p.query ≤ left) := by
  rw [queryPart]
  by_cases hq : p.query = []
  · rw [if_pos hq]
    exact iff_of_true (fun _ h => absurd h List.not_mem_nil) (.inl hq)
  rw [if_neg hq, List.forall_mem_singleton, or_iff_right hq, contextPart]
  have hpos : 0 < p.count p.query := estimate_pos p.budget.config p.query
  have hctx : whole p.budget.config ("user_input", p.query)
      ≠ whole p.budget.config ("context", p.context) :=
    fun h => absurd (show "user_input" = "context" from congrArg Slot.name h) (by decide)
  have hquery (l : ℕ) : whole p.budget.config ("user_input", p.query)
      ∈ recorded p.budget.config l [("user_input", p.query)] ↔ p.count p.query ≤ l :=
    whole_mem_cons_iff List.not_mem_nil
  by_cases hc : p.context = []
  · rw [if_pos hc, List.nil_append, hquery, contextCharge, if_pos hc, Nat.zero_add]
  rw [if_neg hc, List.singleton_append, recorded, contextCharge, if_neg hc]
  by_cases hfit : p.count p.context ≤ left
  · rw [if_pos hfit, if_pos (show p.budget.config.estimate p.context ≤ left from hfit)]
    refine List.mem_cons.trans ((or_iff_right hctx).trans ((hquery _).trans ?_))
    change p.count p.query ≤ left - p.count p.context ↔ _
    omega
  rw [if_neg hfit, if_neg (show ¬ p.budget.config.estimate p.context ≤ left from hfit)]
  by_cases hr : NoRoom p.count p.budget.config left
  · rw [if_pos hr, if_pos (show NoRoom p.budget.config.estimate p.budget.config left from hr),
      hquery, Nat.zero_add]
  · rw [if_neg hr, if_neg (show ¬ NoRoom p.budget.config.estimate p.budget.config left from hr),
      List.mem_singleton]
    refine iff_of_false (fun h => absurd (congrArg Slot.truncated h) nofun) ?_
    omega

lemma leavesQuery_iff :
    (∀ part ∈ p.fixedParts ++ p.queryPart, whole p.budget.config part ∈ p.added) ↔
      p.LeavesQuery := by
  have hn : ((p.fixedParts ++ (p.contextPart ++ p.queryPart)).map Prod.fst).Nodup := by
    rw [← List.append_assoc]; exact nodup_parts
  rw [List.forall_mem_append, added_eq, parts, List.append_assoc, forall_whole_iff hn]
  refine and_congr_right fun hfit => ?_
  rw [recorded_append hfit, ← query_whole_iff]
  refine forall₂_congr fun part hpart => ?_
  rw [List.mem_append, or_iff_right]
  · rfl
  rw [List.mem_map]
  rintro ⟨q, hq, heq⟩
  have hname : q.1 = part.1 := congrArg Slot.name heq
  rw [List.map_append, List.nodup_append] at hn
  exact hn.2.2 _ (List.mem_map_of_mem hq) _
    (List.mem_map_of_mem (List.mem_append_right _ hpart)) hname

/-- A query that is kept is in the prompt. -/
lemma query_infix (hq : p.query ≠ [])
    (h : whole p.budget.config ("user_input", p.query) ∈ p.added) : p.query <:+: p.prompt :=
  infix_intercalate (List.mem_filter.mpr
    ⟨List.mem_map_of_mem (List.mem_of_mem_drop h), decide_eq_true hq⟩)

/-- **The prompt builder.** The prompt is in budget where the separators and the remainders of the
divisions come to less than one token more than is left unspent, and the context is the only part to
be cut where it leaves the tokens of the query. -/
theorem build_iff :
    (p.InBudget ∧ p.QueryKept) ↔
      (1 ≤ p.budget.config.totalTokens ∧
        Within p.budget.config (p.budget.config.totalTokens - p.budget.used)
          (p.budget.spread - separator.length - p.budget.config.charToTokenRatio * p.budget.used)
          (p.parts.map Prod.snd)) ∧
      (p.Fits → p.LeavesQuery) := by
  rw [inBudget_iff, QueryKept, leavesQuery_iff]

end Build

/-- Two parts of seven characters, each charged one token. -/
def brief : PromptBuilder where
  budget := ⟨{ totalTokens := 2 }, []⟩
  system := "Be kind".toList
  query := "Explain".toList

/-- A context of two hundred characters and a short query. -/
def crowded : PromptBuilder where
  budget := ⟨{ totalTokens := 40 }, []⟩
  context := (List.replicate 40 "word ".toList).flatten
  query := "Explain".toList

/-- Nobody is charged for the remainders and the separator, and a context that is cut leaves nothing
to the query. -/
theorem query_dropped :
    ¬ brief.InBudget ∧ crowded.Fits ∧ ¬ crowded.QueryKept ∧
      ¬ crowded.query <:+: crowded.prompt := by
  have hfits : crowded.Fits := by decide +kernel
  refine ⟨by decide +kernel, hfits, fun h => ?_, by decide +kernel⟩
  exact absurd (h hfits ("user_input", crowded.query) (by decide)) (by decide +kernel)

end PromptBuilder

end Treeweft
