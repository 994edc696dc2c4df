import Mathlib.Algebra.Order.Field.Rat
import Mathlib.Tactic.FieldSimp
import Mathlib.Tactic.Ring
import Treeweft.AgentTranscript

/-!
The token account of an agent run: totals as the provider reports them, shared out over the kinds
of text in the prompt by a tokenizer's counts.
-/

namespace Treeweft.AgentMetrics

open JsonText (Text)
open AgentTranscript (ToolCall)

/-! ### Counting a Prompt -/

/-- The tokenizer fails on some texts, and finds a token in any text that is not empty. -/
structure Tokenizer where
  count : Text → Option ℕ
  pos : ∀ t n, count t = some n → t ≠ [] → 0 < n

structure PromptCategories where
  system : ℕ := 0
  query : ℕ := 0
  agentOutput : ℕ := 0
  toolObservation : ℕ := 0

def PromptCategories.sum (c : PromptCategories) : ℕ :=
  c.system + c.query + c.agentOutput + c.toolObservation

section Tokenizer
variable (tok : Tokenizer) (callsText : List ToolCall → Text)

def categorizeMessage (cats : PromptCategories) :
    AgentTranscript.Message → Option PromptCategories
  | .system content => (tok.count content).map fun n => { cats with system := cats.system + n }
  | .assistant content calls =>
    (tok.count (content.getD [])).bind fun n =>
      if calls = [] then some { cats with agentOutput := cats.agentOutput + n }
      else (tok.count (callsText calls)).map fun m =>
        { cats with agentOutput := cats.agentOutput + n + m }
  | .tool _ content =>
    (tok.count content).map fun n => { cats with toolObservation := cats.toolObservation + n }
  | .user content =>
    (tok.count content).map fun n =>
      if "OBSERVATION:".toList <+: content ∨ "You have used".toList <+: content then
        { cats with toolObservation := cats.toolObservation + n }
      else { cats with query := cats.query + n }

def categorizePrompt (messages : List AgentTranscript.Message) : Option PromptCategories :=
  messages.foldlM (categorizeMessage tok callsText) {}

end Tokenizer

/-! ### The Account -/

structure Usage where
  promptTokens : Option ℤ
  completionTokens : Option ℤ
  totalTokens : Option ℤ
  promptDetailsCached : Option ℤ
  promptCacheHit : Option ℤ
  cacheReadInput : Option ℤ
  cacheCreationInput : Option ℤ
  completionDetailsReasoning : Option ℤ
  reasoning : Option ℤ

structure Categories where
  system : ℚ := 0
  query : ℚ := 0
  agentOutput : ℚ := 0
  toolObservation : ℚ := 0
  completion : ℚ := 0

def Categories.sum (c : Categories) : ℚ :=
  c.system + c.query + c.agentOutput + c.toolObservation + c.completion

structure TokenAccount where
  promptTokens : ℤ := 0
  completionTokens : ℤ := 0
  totalTokens : ℤ := 0
  cachedInputTokens : ℤ := 0
  cacheWriteTokens : ℤ := 0
  reasoningTokens : ℤ := 0
  usedFallback : Bool := false
  categories : Categories := {}

/-- The first of the numbers that is there and not zero. -/
def firstOf (l : List (Option ℤ)) : ℤ := ((l.filterMap id).find? (· ≠ 0)).getD 0

def TokenAccount.addCostDetail (a : TokenAccount) (u : Usage) : TokenAccount :=
  { a with
    cachedInputTokens := a.cachedInputTokens +
      firstOf [u.promptDetailsCached, u.promptCacheHit, u.cacheReadInput]
    cacheWriteTokens := a.cacheWriteTokens + firstOf [u.cacheCreationInput]
    reasoningTokens := a.reasoningTokens + firstOf [u.completionDetailsReasoning, u.reasoning] }

/-- Add the real tokens of the prompt to the categories, each by its share of the counts. -/
def Categories.share (c : Categories) (p : ℤ) (cats : PromptCategories) : Categories :=
  if 0 < cats.sum then
    { c with
      system := c.system + (cats.system / cats.sum : ℚ) * p
      query := c.query + (cats.query / cats.sum : ℚ) * p
      agentOutput := c.agentOutput + (cats.agentOutput / cats.sum : ℚ) * p
      toolObservation := c.toolObservation + (cats.toolObservation / cats.sum : ℚ) * p }
  else c

def TokenAccount.book (a : TokenAccount) (p c t : ℤ) (cats : PromptCategories) : TokenAccount :=
  let shared := a.categories.share p cats
  { a with
    promptTokens := a.promptTokens + p
    completionTokens := a.completionTokens + c
    totalTokens := a.totalTokens + t
    categories := { shared with completion := shared.completion + c } }

/-- The count of a text that the provider did not report. -/
def countText (tok : Tokenizer) (t : Text) : Option ℕ := if t = [] then some 0 else tok.count t

/-- The account after a reply, and whether the addition went through. -/
def TokenAccount.add (tok : Tokenizer) (a : TokenAccount) (usage : Option Usage)
    (promptText completionText : Text) (cats : PromptCategories) : TokenAccount × Bool :=
  let fallback : TokenAccount × Bool :=
    let a := { a with usedFallback := true }
    match countText tok promptText with
    | none => (a, false)
    | some p =>
      match countText tok completionText with
      | none => (a, false)
      | some c => (a.book p c (p + c : ℕ) cats, true)
  match usage with
  | none => fallback
  | some u =>
    if u.totalTokens.getD 0 = 0 then fallback
    else ((a.addCostDetail u).book (u.promptTokens.getD 0) (u.completionTokens.getD 0)
      (u.totalTokens.getD 0) cats, true)

/-! ### The Books -/

def TokenAccount.Balanced (a : TokenAccount) : Prop :=
  a.categories.sum = (a.promptTokens : ℚ) + a.completionTokens

lemma balanced_empty : ({} : TokenAccount).Balanced := by
  simp [TokenAccount.Balanced, Categories.sum]

/-- The shares of a prompt that is not empty are all of it. -/
lemma sum_share (c : Categories) (p : ℤ) {cats : PromptCategories} (h : 0 < cats.sum) :
    (c.share p cats).sum = c.sum + p := by
  have hne : (cats.sum : ℚ) ≠ 0 := by exact_mod_cast h.ne'
  have hsum : (cats.sum : ℚ) =
      cats.system + cats.query + cats.agentOutput + cats.toolObservation := by
    unfold PromptCategories.sum
    push_cast
    ring
  unfold Categories.share
  rw [if_pos h]
  simp only [Categories.sum]
  field_simp
  rw [hsum]
  ring

lemma TokenAccount.Balanced.book {a : TokenAccount} (ha : a.Balanced) (p c t : ℤ)
    {cats : PromptCategories} (h : 0 < cats.sum) : (a.book p c t cats).Balanced := by
  have hshare := sum_share a.categories p h
  unfold TokenAccount.Balanced at ha ⊢
  simp only [Categories.sum] at hshare ha
  simp only [TokenAccount.book, Categories.sum]
  push_cast
  linarith

lemma TokenAccount.Balanced.add {a : TokenAccount} (ha : a.Balanced) (tok : Tokenizer)
    (usage : Option Usage) (promptText completionText : Text) {cats : PromptCategories}
    (h : 0 < cats.sum) : (a.add tok usage promptText completionText cats).1.Balanced := by
  have hfallback : ({ a with usedFallback := true } : TokenAccount).Balanced := ha
  have hdetail : ∀ u, (a.addCostDetail u).Balanced := fun _ => ha
  unfold TokenAccount.add
  dsimp only
  split
  · split
    · exact hfallback
    · split
      · exact hfallback
      · exact hfallback.book _ _ _ h
  · split
    · split
      · exact hfallback
      · split
        · exact hfallback
        · exact hfallback.book _ _ _ h
    · exact (hdetail _).book _ _ _ h

lemma sum_categorizeMessage {tok : Tokenizer} {callsText : List ToolCall → Text}
    {cats cats' : PromptCategories} {m : AgentTranscript.Message}
    (h : categorizeMessage tok callsText cats m = some cats') : cats.sum ≤ cats'.sum := by
  cases m with
  | system content =>
    obtain ⟨n, -, rfl⟩ := Option.map_eq_some_iff.mp h
    simp only [PromptCategories.sum]
    omega
  | user content =>
    obtain ⟨n, -, rfl⟩ := Option.map_eq_some_iff.mp h
    split_ifs <;> simp only [PromptCategories.sum] <;> omega
  | tool id content =>
    obtain ⟨n, -, rfl⟩ := Option.map_eq_some_iff.mp h
    simp only [PromptCategories.sum]
    omega
  | assistant content calls =>
    obtain ⟨n, -, h⟩ := Option.bind_eq_some_iff.mp h
    split_ifs at h
    · obtain rfl := Option.some.inj h
      simp only [PromptCategories.sum]
      omega
    · obtain ⟨k, -, rfl⟩ := Option.map_eq_some_iff.mp h
      simp only [PromptCategories.sum]
      omega

/-- A prompt whose system text is not empty has a token. -/
lemma categorizePrompt_pos {tok : Tokenizer} {callsText : List ToolCall → Text} {content : Text}
    {ms : List AgentTranscript.Message} {cats : PromptCategories} (hcontent : content ≠ [])
    (h : categorizePrompt tok callsText (.system content :: ms) = some cats) : 0 < cats.sum := by
  have hmono : ∀ (ms : List AgentTranscript.Message) (c : PromptCategories),
      ms.foldlM (categorizeMessage tok callsText) c = some cats → c.sum ≤ cats.sum := by
    intro ms
    induction ms with
    | nil =>
      intro c hc
      rw [← Option.some.inj hc]
    | cons m ms ih =>
      intro c hc
      rw [List.foldlM_cons] at hc
      obtain ⟨c', hc', hrest⟩ := Option.bind_eq_some_iff.mp hc
      exact (sum_categorizeMessage hc').trans (ih c' hrest)
  unfold categorizePrompt at h
  rw [List.foldlM_cons] at h
  obtain ⟨c, hc, hrest⟩ := Option.bind_eq_some_iff.mp h
  obtain ⟨n, hn, rfl⟩ := Option.map_eq_some_iff.mp hc
  have hpos := tok.pos content n hn hcontent
  refine lt_of_lt_of_le ?_ (hmono ms _ hrest)
  simp only [PromptCategories.sum]
  omega

end Treeweft.AgentMetrics
