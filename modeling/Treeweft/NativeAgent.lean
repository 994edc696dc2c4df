import Treeweft.AgentMetrics

/-!
The loop of the agent with native tool calls.

The model and the tools are given as what they answer, call by call. A failure of the tokenizer in
the loop itself is not caught there and ends the run; the prompts sent are kept in the state.
-/

namespace Treeweft.NativeAgent

open JsonText (Text Value loads dumps)
open PromptBuilder (strip)
open AgentTranscript (ToolCall Arguments)
open AgentMetrics (Tokenizer Usage TokenAccount categorizePrompt)

/-! ### Calls -/

/-- What the libraries tell: counts, and the texts that JSON, `repr` and a failed count give. -/
structure Env where
  tok : Tokenizer
  callsText : List ToolCall → Text
  decodeError : Text → Text
  repr : Option Text → Text
  countError : Text → Text → Text

structure Config where
  query : Text
  tools : List Text
  maxTurns : ℕ
  obsCharLimit : ℕ
  systemExtra : Text

inductive Reply
  | failed (e : Text)
  | answered (content : Option Text) (usage : Option Usage) (calls : List ToolCall)

/-- A text, or an object to be printed. -/
inductive Result
  | text (t : Text)
  | value (v : Value)

inductive Outcome
  | returned (r : Result)
  | raised (e : Text)

def typeName : Value → Text
  | .word .null => "NoneType".toList
  | .word .true => "bool".toList
  | .word .false => "bool".toList
  | .word _ => "float".toList
  | .num n => if n.text.any (· ∈ ['.', 'e', 'E']) then "float".toList else "int".toList
  | .str _ => "str".toList
  | .arr _ => "list".toList
  | .obj _ => "dict".toList

def decodeToolArgs (env : Env) : Arguments → Except Text (List (Text × Value))
  | .text t =>
    match loads t with
    | none => .error ("could not parse tool arguments as JSON: ".toList ++ env.decodeError t)
    | some (.obj fields) => .ok fields
    | some v => .error ("tool arguments must be a JSON object, got ".toList ++ typeName v)
  | .object fields => .ok fields
  | .absent => .ok []

def errorResult (e : Text) : Result := .value (.obj [("error".toList, .str e)])

def truncate (r : Result) (limit : ℕ) : Text :=
  let text := match r with
    | .text t => t
    | .value v => dumps v
  if limit < text.length then
    text.take limit ++ "... [truncated, ".toList ++ (toString text.length).toList ++
      " chars]".toList
  else text

/-! ### The Run -/

inductive RecordedArgs
  | decoded (fields : List (Text × Value))
  | raw (a : Arguments)

structure CallRecord where
  tool : Option Text
  args : RecordedArgs
  observation : Text
  observationError : Option Text

inductive Entry
  | final (turn : ℕ) (assistant : Text)
  | action (turn : ℕ) (assistant : Text) (call : CallRecord)
  | call (turn : ℕ) (call : CallRecord)
  | forced (turn : ℕ) (assistant : Text)

structure AgentRunResult where
  finalAnswer : Text
  turns : ℕ
  toolCalls : ℕ
  tokenAccount : TokenAccount
  transcript : List Entry
  hitCap : Bool := false
  error : Text := []

structure State where
  messages : List AgentTranscript.Message
  acct : TokenAccount := {}
  transcript : List Entry := []
  toolCalls : ℕ := 0
  lastAnswer : Text := []
  sent : List (List AgentTranscript.Message) := []

inductive Ending
  | returned (r : AgentRunResult)
  | raised

inductive Next
  | done (e : Ending) (s : State)
  | more (s : State)

def systemPrompt : Text :=
  ("You are a code-search agent. Answer the user's question about a codebase by " ++
  "investigating it with the tools provided (native tool calls). Call tools to gather evidence " ++
  "— one or more calls per turn. When you can answer, reply WITHOUT calling any tool: that " ++
  "plain-text reply is your final answer. Name the specific file(s) and function(s)/class(es) " ++
  "that satisfy the request and explain what they do.\n\nRules:\n" ++
  "- Only reference files you have actually observed; never invent paths.\n").toList

def forcedPrompt : Text :=
  ("You have used all steps. Reply with your final answer now, in plain text — do NOT call any " ++
  "more tools.").toList

section Loop
variable (env : Env) (cfg : Config) (replies : ℕ → Reply) (outcomes : ℕ → Outcome)

def init : State where
  messages :=
    [.system (if cfg.systemExtra = [] then systemPrompt
      else systemPrompt ++ '\n' :: cfg.systemExtra), .user cfg.query]

def msgText : AgentTranscript.Message → Text
  | .system content => content
  | .user content => content
  | .tool _ content => content
  | .assistant content calls =>
    content.getD [] ++ if calls = [] then [] else env.callsText calls

def completionText (content : Option Text) (calls : List ToolCall) : Text :=
  content.getD [] ++ if calls = [] then [] else env.callsText calls

local instance lawfulBEqName : LawfulBEq Text := inferInstance

/-- What a call gives, the error of a call that is not run, and whether a tool is run. -/
def callResult (ran : ℕ) (tc : ToolCall) : Result × Option Text × Bool :=
  match decodeToolArgs env tc.arguments with
  | .error err => (errorResult err, some err, false)
  | .ok _ =>
    if tc.name.any (· ∈ cfg.tools) then
      match outcomes ran with
      | .returned r => (r, none, true)
      | .raised e => (errorResult ("tool raised: ".toList ++ e), none, true)
    else
      let err := "unknown tool ".toList ++ env.repr tc.name
      (errorResult err, some err, false)

/-- One call of a reply; the first has the reply's text in its entry. -/
def executeCall (turn : ℕ) (assistant : Option Text) (s : State) (tc : ToolCall) : State :=
  let (result, err, run) := callResult env cfg outcomes s.toolCalls tc
  let obsText := truncate result cfg.obsCharLimit
  let record : CallRecord :=
    { tool := tc.name
      args := match decodeToolArgs env tc.arguments with
        | .ok fields => .decoded fields
        | .error _ => .raw tc.arguments
      observation := obsText
      observationError := err }
  { s with
    messages := s.messages ++ [.tool tc.id obsText]
    toolCalls := if run then s.toolCalls + 1 else s.toolCalls
    transcript := s.transcript ++ [match assistant with
      | some text => .action turn text record
      | none => .call turn record] }

def executeCalls (turn : ℕ) (assistant : Text) (s : State) : List ToolCall → State
  | [] => s
  | tc :: calls =>
    calls.foldl (executeCall env cfg outcomes turn none)
      (executeCall env cfg outcomes turn (some assistant) s tc)

def promptText (messages : List AgentTranscript.Message) : Text :=
  ['\n'].intercalate (messages.map (msgText env))

def runTurn (turn : ℕ) (s : State) : Next :=
  match categorizePrompt env.tok env.callsText s.messages with
  | none => .done .raised s
  | some cats =>
    let text := promptText env s.messages
    let reply := replies s.sent.length
    let s := { s with sent := s.sent ++ [s.messages] }
    match reply with
    | .failed e =>
      .done (.returned
        { finalAnswer := s.lastAnswer
          turns := turn
          toolCalls := s.toolCalls
          tokenAccount := s.acct
          transcript := s.transcript
          error :=
            "llm call failed at turn ".toList ++ (toString turn).toList ++ ": ".toList ++ e })
        s
    | .answered content usage calls =>
      let (acct, added) := s.acct.add env.tok usage text (completionText env content calls) cats
      let s := { s with acct := acct }
      if added then
        let answer := strip (content.getD [])
        let s := { s with lastAnswer := if answer = [] then s.lastAnswer else answer }
        if calls = [] then
          let s := { s with transcript := s.transcript ++ [.final turn (content.getD [])] }
          .done (.returned
            { finalAnswer := answer
              turns := turn + 1
              toolCalls := s.toolCalls
              tokenAccount := s.acct
              transcript := s.transcript }) s
        else
          .more (executeCalls env cfg outcomes turn (content.getD [])
            { s with messages := s.messages ++ [.assistant content calls] } calls)
      else .done .raised s

/-- The last call, after which no more are made; a failure behind the call is caught here. -/
def forceAnswer (s : State) : Ending × State :=
  let s := { s with messages := s.messages ++ [.user forcedPrompt] }
  match categorizePrompt env.tok env.callsText s.messages with
  | none => (.raised, s)
  | some cats =>
    let text := promptText env s.messages
    let reply := replies s.sent.length
    let s := { s with sent := s.sent ++ [s.messages] }
    let result (s : State) (answer err : Text) : Ending × State :=
      (.returned
        { finalAnswer := answer
          turns := cfg.maxTurns
          toolCalls := s.toolCalls
          tokenAccount := s.acct
          transcript := s.transcript
          hitCap := true
          error := err }, s)
    match reply with
    | .failed e => result s s.lastAnswer ("forced final call failed: ".toList ++ e)
    | .answered content usage calls =>
      let completion := completionText env content calls
      let (acct, added) := s.acct.add env.tok usage text completion cats
      let s := { s with acct := acct }
      if added then
        let answer := strip (content.getD [])
        result { s with transcript := s.transcript ++ [.forced cfg.maxTurns (content.getD [])] }
          (if answer = [] then s.lastAnswer else answer) []
      else
        result s s.lastAnswer
          ("forced final call failed: ".toList ++ env.countError text completion)

def loop : ℕ → ℕ → State → Ending × State
  | 0, _, s => forceAnswer env cfg replies s
  | left + 1, turn, s =>
    match runTurn env cfg replies outcomes turn s with
    | .done e s => (e, s)
    | .more s => loop left (turn + 1) s

def runAgentNative : Ending × State := loop env cfg replies outcomes cfg.maxTurns 0 (init cfg)

end Loop

/-! ### Conversations -/

def callIds : AgentTranscript.Message → List (Option Text)
  | .assistant _ calls => calls.map ToolCall.id
  | _ => []

/-- The calls that are open are answered first, one by one and in order; a tool message answers one
of them. -/
def Valid : List (Option Text) → List AgentTranscript.Message → Prop
  | [], [] => True
  | id :: ids, .tool i _ :: ms => i = id ∧ Valid ids ms
  | [], .system _ :: ms => Valid [] ms
  | [], .user _ :: ms => Valid [] ms
  | [], .assistant _ calls :: ms => Valid (calls.map ToolCall.id) ms
  | _, _ => False

lemma Valid.append {ids : List (Option Text)} {ms ms' : List AgentTranscript.Message}
    (h : Valid ids ms) (h' : Valid [] ms') : Valid ids (ms ++ ms') := by
  induction ms generalizing ids with
  | nil =>
    cases ids with
    | nil => exact h'
    | cons id ids => exact h.elim
  | cons m ms ih =>
    cases ids with
    | nil =>
      cases m with
      | system content =>
        have hrest : Valid [] ms := h
        exact ih hrest
      | user content =>
        have hrest : Valid [] ms := h
        exact ih hrest
      | assistant content calls =>
        have hrest : Valid (calls.map ToolCall.id) ms := h
        exact ih hrest
      | tool id content => exact h.elim
    | cons id ids =>
      cases m with
      | tool i content =>
        have hrest : Valid ids ms := h.2
        exact ⟨h.1, ih hrest⟩
      | system content => exact h.elim
      | user content => exact h.elim
      | assistant content calls => exact h.elim

lemma Valid.answer {ids : List (Option Text)} {ms : List AgentTranscript.Message}
    (h : Valid ids ms) (id : Option Text) (content : Text) :
    Valid (id :: ids) (.tool id content :: ms) := ⟨rfl, h⟩

section Run
variable {env : Env} {cfg : Config} {replies : ℕ → Reply} {outcomes : ℕ → Outcome}

/-- What calls leave as it was, and the messages they add: one for each, in order. -/
structure Called (s s' : State) (ids : List (Option Text)) : Prop where
  acct : s'.acct = s.acct
  sent : s'.sent = s.sent
  messages : ∃ l, s'.messages = s.messages ++ l ∧ Valid ids l

lemma Called.refl (s : State) : Called s s [] :=
  ⟨rfl, rfl, [], (List.append_nil _).symm, trivial⟩

lemma executeCall_messages (turn : ℕ) (assistant : Option Text) (s : State) (tc : ToolCall) :
    (executeCall env cfg outcomes turn assistant s tc).messages = s.messages ++
      [.tool tc.id (truncate (callResult env cfg outcomes s.toolCalls tc).1 cfg.obsCharLimit)] :=
  rfl

lemma Called.cons {turn : ℕ} {assistant : Option Text} {s s' : State} {tc : ToolCall}
    {ids : List (Option Text)}
    (h : Called (executeCall env cfg outcomes turn assistant s tc) s' ids) :
    Called s s' (tc.id :: ids) := by
  obtain ⟨hacct, hsent, l, hl, hvalid⟩ := h
  refine ⟨hacct, hsent, _, ?_,
    hvalid.answer tc.id (truncate (callResult env cfg outcomes s.toolCalls tc).1 cfg.obsCharLimit)⟩
  rw [hl, executeCall_messages, List.append_assoc]
  rfl

variable (env cfg outcomes) in
lemma foldl_called (turn : ℕ) (calls : List ToolCall) (s : State) :
    Called s (calls.foldl (executeCall env cfg outcomes turn none) s) (calls.map ToolCall.id) := by
  induction calls generalizing s with
  | nil => exact .refl s
  | cons tc calls ih => exact (ih (executeCall env cfg outcomes turn none s tc)).cons

variable (env cfg outcomes) in
lemma executeCalls_called (turn : ℕ) (assistant : Text) (calls : List ToolCall) (s : State) :
    Called s (executeCalls env cfg outcomes turn assistant s calls) (calls.map ToolCall.id) := by
  cases calls with
  | nil => exact .refl s
  | cons tc calls =>
    exact (foldl_called env cfg outcomes turn calls
      (executeCall env cfg outcomes turn (some assistant) s tc)).cons

/-- What holds of a run at every step. -/
structure Books (s : State) : Prop where
  sent : ∀ p ∈ s.sent, Valid [] p
  balanced : s.acct.Balanced

/-- What holds between two turns. -/
structure Good (s : State) : Prop extends Books s where
  messages : Valid [] s.messages
  opens : ∃ content rest, content ≠ [] ∧ s.messages = .system content :: rest

/-- A good prompt is sent, and a reply with usage or without is booked. -/
lemma Good.call {s : State} (h : Good s) {cats : AgentMetrics.PromptCategories}
    (hcats : categorizePrompt env.tok env.callsText s.messages = some cats) :
    (∀ p ∈ s.sent ++ [s.messages], Valid [] p) ∧ ∀ usage text completion,
      (s.acct.add env.tok usage text completion cats).1.Balanced := by
  obtain ⟨content, rest, hcontent, hmessages⟩ := h.opens
  refine ⟨fun p hp => ?_,
    fun usage text completion => h.balanced.add env.tok usage text completion ?_⟩
  · rcases List.mem_append.mp hp with hp | hp
    · exact h.sent p hp
    · rw [List.mem_singleton.mp hp]
      exact h.messages
  · rw [hmessages] at hcats
    exact AgentMetrics.categorizePrompt_pos hcontent hcats

/-- What is known where the run ends. -/
structure Ended (n : ℕ) (r : Ending × State) : Prop extends Books r.2 where
  calls : r.2.sent.length ≤ n
  result : ∀ res, r.1 = .returned res → res.tokenAccount = r.2.acct

lemma Ended.raised {n : ℕ} {s : State} (hbooks : Books s) (hcalls : s.sent.length ≤ n) :
    Ended n (.raised, s) :=
  ⟨hbooks, hcalls, fun _ hres => Ending.noConfusion hres⟩

lemma Ended.returned {n : ℕ} {s : State} {r : AgentRunResult} (hbooks : Books s)
    (hcalls : s.sent.length ≤ n) (hacct : r.tokenAccount = s.acct) : Ended n (.returned r, s) :=
  ⟨hbooks, hcalls, fun _ hres => by rw [← Ending.returned.inj hres, hacct]⟩

/-- The calls of a reply, from a state whose messages are good ones and the reply. -/
lemma good_executeCalls {turn n : ℕ} {assistant : Text} {content : Option Text}
    {calls : List ToolCall} {s : State} {ms : List AgentTranscript.Message}
    (hbooks : Books s) (hmessages : s.messages = ms ++ [.assistant content calls])
    (hvalid : Valid [] ms) (hopens : ∃ content rest, content ≠ [] ∧ ms = .system content :: rest)
    (hlen : s.sent.length = n) :
    Good (executeCalls env cfg outcomes turn assistant s calls) ∧
      (executeCalls env cfg outcomes turn assistant s calls).sent.length = n := by
  obtain ⟨hacct, hsent, l, hl, hanswers⟩ :=
    executeCalls_called env cfg outcomes turn assistant calls s
  rw [hmessages, List.append_assoc, List.singleton_append] at hl
  refine ⟨⟨⟨?_, ?_⟩, ?_, ?_⟩, ?_⟩
  · rw [hsent]
    exact hbooks.sent
  · rw [hacct]
    exact hbooks.balanced
  · have hreply : Valid [] (.assistant content calls :: l) := hanswers
    rw [hl]
    exact hvalid.append hreply
  · obtain ⟨prompt, rest, hprompt, rfl⟩ := hopens
    exact ⟨prompt, rest ++ .assistant content calls :: l, hprompt, hl⟩
  · rw [hsent, hlen]

/-- What a turn may do: end the run, or leave a good state with one more call. -/
def TurnSpec (n : ℕ) : Next → Prop
  | .done e s => Ended (n + 1) (e, s)
  | .more s => Good s ∧ s.sent.length = n + 1

variable (env cfg replies outcomes) in
lemma runTurn_spec (turn : ℕ) {s : State} (h : Good s) :
    TurnSpec s.sent.length (runTurn env cfg replies outcomes turn s) := by
  unfold runTurn
  cases hcats : categorizePrompt env.tok env.callsText s.messages with
  | none => exact .raised ⟨h.sent, h.balanced⟩ (Nat.le_succ _)
  | some cats =>
    obtain ⟨hsent, hadd⟩ := h.call hcats
    have hlen : (s.sent ++ [s.messages]).length = s.sent.length + 1 := List.length_append
    dsimp only
    cases replies s.sent.length with
    | failed e =>
      exact .returned ⟨hsent, h.balanced⟩ hlen.le rfl
    | answered content usage calls =>
      have hbalanced := hadd usage (promptText env s.messages) (completionText env content calls)
      dsimp only
      split
      swap
      · exact .raised ⟨hsent, hbalanced⟩ hlen.le
      split
      · exact .returned ⟨hsent, hbalanced⟩ hlen.le rfl
      · exact good_executeCalls ⟨hsent, hbalanced⟩ rfl h.messages h.opens hlen

lemma forceAnswer_spec {s : State} (h : Good s) :
    Ended (s.sent.length + 1) (forceAnswer env cfg replies s) := by
  have hasked : Good { s with messages := s.messages ++ [.user forcedPrompt] } := by
    obtain ⟨prompt, rest, hprompt, hmessages⟩ := h.opens
    have huser : Valid [] [.user forcedPrompt] := trivial
    have hopens : s.messages ++ [.user forcedPrompt] =
        .system prompt :: (rest ++ [.user forcedPrompt]) := by
      rw [hmessages, List.cons_append]
    exact ⟨⟨h.sent, h.balanced⟩, h.messages.append huser, prompt, _, hprompt, hopens⟩
  unfold forceAnswer
  dsimp only
  cases hcats : categorizePrompt env.tok env.callsText (s.messages ++ [.user forcedPrompt]) with
  | none => exact .raised ⟨h.sent, h.balanced⟩ (Nat.le_succ _)
  | some cats =>
    obtain ⟨hsent, hadd⟩ := hasked.call hcats
    have hlen : (s.sent ++ [s.messages ++ [AgentTranscript.Message.user forcedPrompt]]).length =
        s.sent.length + 1 := List.length_append
    dsimp only
    cases replies s.sent.length with
    | failed e =>
      exact .returned ⟨hsent, h.balanced⟩ hlen.le rfl
    | answered content usage calls =>
      have hbalanced := hadd usage
        (promptText env (s.messages ++ [AgentTranscript.Message.user forcedPrompt]))
        (completionText env content calls)
      dsimp only
      split
      · exact .returned ⟨hsent, hbalanced⟩ hlen.le rfl
      · exact .returned ⟨hsent, hbalanced⟩ hlen.le rfl

variable (env cfg replies outcomes) in
lemma loop_spec (left turn : ℕ) {s : State} (h : Good s) :
    Ended (s.sent.length + left + 1) (loop env cfg replies outcomes left turn s) := by
  induction left generalizing turn s with
  | zero => exact forceAnswer_spec h
  | succ left ih =>
    have hturn := runTurn_spec env cfg replies outcomes turn h
    rw [loop]
    cases hrun : runTurn env cfg replies outcomes turn s with
    | done e s' =>
      rw [hrun] at hturn
      exact ⟨hturn.toBooks, hturn.calls.trans (by omega), hturn.result⟩
    | more s' =>
      rw [hrun] at hturn
      obtain ⟨hgood, hlen⟩ := hturn
      have hrest := ih (turn + 1) hgood
      rw [hlen] at hrest
      exact ⟨hrest.toBooks, hrest.calls.trans (by omega), hrest.result⟩

lemma systemPrompt_ne_nil : systemPrompt ≠ [] := by
  unfold systemPrompt
  rw [String.toList_append]
  exact List.append_ne_nil_of_right_ne_nil _ (by decide)

variable (cfg) in
lemma init_good : Good (init cfg) := by
  refine ⟨⟨fun _ hp => absurd hp List.not_mem_nil, AgentMetrics.balanced_empty⟩, trivial, _, _,
    ?_, rfl⟩
  split_ifs
  · exact systemPrompt_ne_nil
  · exact List.append_ne_nil_of_left_ne_nil systemPrompt_ne_nil _

end Run

/-- Whatever the model and the tools answer, every prompt sent is a valid conversation, no more
prompts are sent than turns and one, and the account that is returned is balanced. -/
theorem runAgentNative_spec (env : Env) (cfg : Config) (replies : ℕ → Reply)
    (outcomes : ℕ → Outcome) :
    let r := runAgentNative env cfg replies outcomes
    (∀ p ∈ r.2.sent, Valid [] p) ∧ r.2.sent.length ≤ cfg.maxTurns + 1 ∧
      r.2.acct.categories.sum = (r.2.acct.promptTokens : ℚ) + r.2.acct.completionTokens ∧
      ∀ res, r.1 = .returned res → res.tokenAccount = r.2.acct := by
  have hended := loop_spec env cfg replies outcomes cfg.maxTurns 0 (init_good cfg)
  have hcalls := hended.calls
  rw [show (init cfg).sent.length = 0 from rfl, Nat.zero_add] at hcalls
  exact ⟨hended.sent, hcalls, hended.balanced, hended.result⟩

end Treeweft.NativeAgent
