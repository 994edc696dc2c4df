import Treeweft.AgentProtocol
import Treeweft.NativeAgent

/-!
The loop of the agent that writes its actions as text.

The model and the tools are given as what they answer, call by call. A prompt may leave out the
middle of the conversation; what was left out, and every word the model was shown, can be read off
the transcript.
-/

namespace Treeweft.ReactAgent

open JsonText (Text Value)
open PromptBuilder (strip)
open AgentMetrics (Tokenizer Usage TokenAccount categorizePrompt)
open AgentProtocol (Lib ParsedAction parseAction)
open NativeAgent (Outcome errorResult truncate)

structure Env where
  tok : Tokenizer
  lib : Lib
  repr : Option Text → Text
  countError : Text → Text → Text

structure Tool where
  name : Text
  description : Text

structure Config where
  query : Text
  tools : List Tool
  maxTurns : ℕ
  obsCharLimit : ℕ
  contextWindow : Option ℕ
  systemExtra : Text

inductive Reply
  | failed (e : Text)
  | answered (content : Text) (usage : Option Usage)

/-! ### Prompts -/

def Tool.describe (t : Tool) : Text := "- ".toList ++ t.name ++ ": ".toList ++ t.description

def systemTemplate : Text :=
  ("You are a code-search agent. Answer the user's question about a codebase by " ++
  "investigating it with the tools provided. Work in a loop, ONE step per turn:\n\n" ++
  "THOUGHT: <your reasoning about what to do next>\n" ++
  "ACTION: <tool_name>(\x7b<json args>\x7d)\n\n" ++
  "After each ACTION you receive an OBSERVATION. Keep going until you can answer. " ++
  "When confident, output exactly:\n\nTHOUGHT: <final reasoning>\n" ++
  "FINAL_ANSWER: <concise answer naming the specific file(s) and function(s)/class(es) " ++
  "that satisfy the request, and explaining what they do>\n\nRules:\n" ++
  "- Emit exactly ONE ACTION per turn, OR a FINAL_ANSWER. Never both.\n" ++
  "- ACTION args MUST be a single-line JSON object, e.g. " ++
  "ACTION: grep(\x7b\"pattern\": \"Foo\"\x7d)\n- Only reference files you have actually observed; never invent paths.\n\n" ++
  "Available tools:\n").toList

def buildSystemPrompt (tools : List Tool) : Text :=
  systemTemplate ++ ['\n'].intercalate (tools.map Tool.describe) ++ ['\n']

def elided (n : ℕ) : Text :=
  "OBSERVATION: [".toList ++ (toString n).toList ++
    " earlier step(s) elided to save context]".toList

def forcedPrompt : Text := "You have used all steps. Output FINAL_ANSWER now.".toList

/-- `messages[-window:]`; no messages from the end are all of them. -/
def fromEnd (window : ℕ) (messages : List AgentTranscript.Message) : List AgentTranscript.Message :=
  if window = 0 then messages else messages.drop (messages.length - window)

/-- `_prune` -/
def prune (messages : List AgentTranscript.Message) : Option ℕ → List AgentTranscript.Message
  | none => messages
  | some window =>
    if messages.length ≤ 2 + window then messages
    else messages.take 2 ++ [.user (elided (messages.length - 2 - window))] ++
      fromEnd window messages

def content : AgentTranscript.Message → Text
  | .system content => content
  | .user content => content
  | .tool _ content => content
  | .assistant content _ => content.getD []

def promptText (messages : List AgentTranscript.Message) : Text := ['\n'].intercalate (messages.map content)

/-! ### The Run -/

/-- What the transcript keeps of a turn. -/
inductive Entry
  | final (turn : ℕ) (assistant : Text)
  | refused (turn : ℕ) (assistant : Text) (parsed : AgentProtocol.Kind) (error observation : Text)
  | ran (turn : ℕ) (assistant tool : Text) (args : List (Text × Value)) (observation : Text)
  | forced (turn : ℕ) (assistant : Text)

structure AgentRunResult where
  finalAnswer : Text
  turns : ℕ
  toolCalls : ℕ
  tokenAccount : TokenAccount
  transcript : List Entry
  hitCap : Bool := false
  error : Text := []

/-- The prompts sent and the tools run, with their arguments, are kept too. -/
structure State where
  messages : List AgentTranscript.Message
  acct : TokenAccount := {}
  transcript : List Entry := []
  toolCalls : ℕ := 0
  lastAnswer : Text := []
  sent : List (List AgentTranscript.Message) := []
  ran : List (Text × List (Text × Value)) := []

inductive Ending
  | returned (r : AgentRunResult)
  | raised

inductive Next
  | done (e : Ending) (s : State)
  | more (s : State)

section Loop
variable (env : Env) (cfg : Config) (replies : ℕ → Reply) (outcomes : ℕ → Outcome)

def initial : List AgentTranscript.Message :=
  let system := buildSystemPrompt cfg.tools
  [.system (if cfg.systemExtra = [] then system else system ++ '\n' :: cfg.systemExtra),
    .user cfg.query]

def init : State := { messages := initial cfg }

local instance lawfulBEqTool : LawfulBEq Text := inferInstance

/-- The tool that an action names, if there is one. -/
def known (action : ParsedAction) : Option Text :=
  match action.kind with
  | .tool => action.tool.filter (· ∈ cfg.tools.map Tool.name)
  | _ => none

def hint (action : ParsedAction) : Text :=
  if action.error = [] then "unknown tool ".toList ++ env.repr action.tool else action.error

def refusal (hint : Text) : Text :=
  "OBSERVATION: Could not run that step (".toList ++ hint ++
    "). Emit exactly one ACTION: tool(\x7b...\x7d) line or a FINAL_ANSWER.".toList

/-- The step that a reply asks for, behind the reply. -/
def act (turn : ℕ) (assistant : Text) (action : ParsedAction) (s : State) : State :=
  let messages := s.messages ++ [.assistant (some assistant) []]
  match known cfg action with
  | none =>
    let obs := refusal (hint env action)
    { s with
      messages := messages ++ [.user obs]
      transcript := s.transcript ++ [.refused turn assistant action.kind (hint env action) obs] }
  | some tool =>
    let result := match outcomes s.toolCalls with
      | .returned r => r
      | .raised e => errorResult ("tool raised: ".toList ++ e)
    let obs := truncate result cfg.obsCharLimit
    { s with
      toolCalls := s.toolCalls + 1
      ran := s.ran ++ [(tool, action.args)]
      messages := messages ++ [.user ("OBSERVATION: ".toList ++ obs)]
      transcript := s.transcript ++ [.ran turn assistant tool action.args obs] }

def runTurn (turn : ℕ) (s : State) : Next :=
  let prompt := prune s.messages cfg.contextWindow
  match categorizePrompt env.tok (fun _ => []) prompt with
  | none => .done .raised s
  | some cats =>
    let reply := replies s.sent.length
    let s := { s with sent := s.sent ++ [prompt] }
    match reply with
    | .failed e =>
      .done (.returned
        { finalAnswer := s.lastAnswer
          turns := turn
          toolCalls := s.toolCalls
          tokenAccount := s.acct
          transcript := s.transcript
          error :=
            "llm call failed at turn ".toList ++ (toString turn).toList ++ ": ".toList ++ e })
        s
    | .answered assistant usage =>
      let (acct, added) := s.acct.add env.tok usage (promptText prompt) assistant cats
      let s := { s with acct := acct }
      if added then
        let action := parseAction env.lib assistant
        let s := { s with lastAnswer := strip assistant }
        match action.kind with
        | .final =>
          let s := { s with transcript := s.transcript ++ [.final turn assistant] }
          .done (.returned
            { finalAnswer := action.finalAnswer
              turns := turn + 1
              toolCalls := s.toolCalls
              tokenAccount := s.acct
              transcript := s.transcript }) s
        | _ => .more (act env cfg outcomes turn assistant action s)
      else .done .raised s

/-- The last call, after which no tool is run; a failure behind the call is caught here. -/
def forceAnswer (s : State) : Ending × State :=
  let s := { s with messages := s.messages ++ [.user forcedPrompt] }
  let prompt := prune s.messages cfg.contextWindow
  match categorizePrompt env.tok (fun _ => []) prompt with
  | none => (.raised, s)
  | some cats =>
    let reply := replies s.sent.length
    let s := { s with sent := s.sent ++ [prompt] }
    let result (s : State) (answer err : Text) : Ending × State :=
      (.returned
        { finalAnswer := answer
          turns := cfg.maxTurns
          toolCalls := s.toolCalls
          tokenAccount := s.acct
          transcript := s.transcript
          hitCap := true
          error := err }, s)
    match reply with
    | .failed e => result s s.lastAnswer ("forced final call failed: ".toList ++ e)
    | .answered assistant usage =>
      let (acct, added) := s.acct.add env.tok usage (promptText prompt) assistant cats
      let s := { s with acct := acct }
      if added then
        let forced := parseAction env.lib assistant
        result { s with transcript := s.transcript ++ [.forced cfg.maxTurns assistant] }
          (match forced.kind with
          | .final => forced.finalAnswer
          | _ => strip assistant) []
      else
        result s s.lastAnswer
          ("forced final call failed: ".toList ++ env.countError (promptText prompt) assistant)

def loop : ℕ → ℕ → State → Ending × State
  | 0, _, s => forceAnswer env cfg replies s
  | left + 1, turn, s =>
    match runTurn env cfg replies outcomes turn s with
    | .done e s => (e, s)
    | .more s => loop left (turn + 1) s

def runAgent : Ending × State := loop env cfg replies outcomes cfg.maxTurns 0 (init cfg)

end Loop

/-! ### What the Transcript Tells -/

/-- The messages that a turn left in the conversation. -/
def Entry.messages : Entry → List AgentTranscript.Message
  | .refused _ assistant _ _ observation => [.assistant (some assistant) [], .user observation]
  | .ran _ assistant _ _ observation =>
    [.assistant (some assistant) [], .user ("OBSERVATION: ".toList ++ observation)]
  | .final _ _ => []
  | .forced _ _ => []

def Entry.turn : Entry → ℕ
  | .final turn _ => turn
  | .refused turn _ _ _ _ => turn
  | .ran turn _ _ _ _ => turn
  | .forced turn _ => turn

def Entry.assistant : Entry → Text
  | .final _ assistant => assistant
  | .refused _ assistant _ _ _ => assistant
  | .ran _ assistant _ _ _ => assistant
  | .forced _ assistant => assistant

def Entry.run : Entry → Option (Text × List (Text × Value))
  | .ran _ _ tool args _ => some (tool, args)
  | _ => none

/-- The turn went on. -/
def Entry.goesOn : Entry → Bool
  | .refused _ _ _ _ _ => true
  | .ran _ _ _ _ _ => true
  | _ => false

/-- What the model said last. -/
def lastOf (es : List Entry) : Text := (es.getLast?.map fun e => strip e.assistant).getD []

section Replay
variable (cfg : Config)

/-- The conversation that the first turns of a transcript left. -/
def replay (es : List Entry) : List AgentTranscript.Message :=
  initial cfg ++ es.flatMap Entry.messages

/-- The prompt of a turn, or of the forced answer after the last. -/
def promptAt (es : List Entry) (turn : ℕ) : List AgentTranscript.Message :=
  prune (replay cfg (es.take turn) ++ if turn = cfg.maxTurns then [.user forcedPrompt] else [])
    cfg.contextWindow

/-- What holds of a run at every step. -/
structure Books (s : State) : Prop where
  sent : ∀ i p, s.sent[i]? = some p → p = promptAt cfg s.transcript i
  turns : s.transcript.map Entry.turn = List.range s.transcript.length
  balanced : s.acct.Balanced
  ran : s.ran = s.transcript.filterMap Entry.run
  calls : s.toolCalls = s.ran.length
  known : ∀ r ∈ s.ran, r.1 ∈ cfg.tools.map Tool.name

/-- What holds before a turn. -/
structure Good (turn : ℕ) (s : State) : Prop extends Books cfg s where
  messages : s.messages = replay cfg s.transcript
  length : s.transcript.length = turn
  asked : s.sent.length = turn
  goesOn : ∀ e ∈ s.transcript, e.goesOn = true
  last : s.lastAnswer = lastOf s.transcript

end Replay

/-- The results a run may have: the answer of a turn, what there was when a call failed, or an
answer that was asked for at the end, if that call did not fail too. -/
inductive Told (env : Env) (cfg : Config) : AgentRunResult → Prop
  | final (es : List Entry) (assistant : Text) (acct : TokenAccount)
    (goesOn : ∀ e ∈ es, e.goesOn = true) (turns : es.length < cfg.maxTurns)
    (final : (parseAction env.lib assistant).kind = .final) :
    Told env cfg
      { finalAnswer := (parseAction env.lib assistant).finalAnswer
        turns := es.length + 1
        toolCalls := (es.filterMap Entry.run).length
        tokenAccount := acct
        transcript := es ++ [.final es.length assistant] }
  | failed (es : List Entry) (e : Text) (acct : TokenAccount)
    (goesOn : ∀ e ∈ es, e.goesOn = true) (turns : es.length < cfg.maxTurns) :
    Told env cfg
      { finalAnswer := lastOf es
        turns := es.length
        toolCalls := (es.filterMap Entry.run).length
        tokenAccount := acct
        transcript := es
        error :=
          "llm call failed at turn ".toList ++ (toString es.length).toList ++ ": ".toList ++ e }
  | forced (es : List Entry) (assistant : Text) (acct : TokenAccount)
    (goesOn : ∀ e ∈ es, e.goesOn = true) (turns : es.length = cfg.maxTurns) :
    Told env cfg
      { finalAnswer := match (parseAction env.lib assistant).kind with
          | .final => (parseAction env.lib assistant).finalAnswer
          | _ => strip assistant
        turns := cfg.maxTurns
        toolCalls := (es.filterMap Entry.run).length
        tokenAccount := acct
        transcript := es ++ [.forced cfg.maxTurns assistant]
        hitCap := true }
  | forcedFailed (es : List Entry) (e : Text) (acct : TokenAccount)
    (goesOn : ∀ e ∈ es, e.goesOn = true) (turns : es.length = cfg.maxTurns) :
    Told env cfg
      { finalAnswer := lastOf es
        turns := cfg.maxTurns
        toolCalls := (es.filterMap Entry.run).length
        tokenAccount := acct
        transcript := es
        hitCap := true
        error := "forced final call failed: ".toList ++ e }

/-- What is known where the run ends. -/
structure Ended (env : Env) (cfg : Config) (r : Ending × State) : Prop extends Books cfg r.2 where
  prompts : r.2.sent.length ≤ cfg.maxTurns + 1
  told : ∀ res, r.1 = .returned res →
    Told env cfg res ∧ res.tokenAccount = r.2.acct ∧ res.transcript = r.2.transcript

section Run
variable {env : Env} {cfg : Config} {replies : ℕ → Reply} {outcomes : ℕ → Outcome}

/-- The entry of the turn whose prompt was sent last is added. -/
lemma Books.add {s s' : State} (h : Books cfg s) (hsent : s.sent.length ≤ s.transcript.length + 1)
    {e : Entry} (hturn : e.turn = s.transcript.length)
    (hknown : ∀ r ∈ e.run, r.1 ∈ cfg.tools.map Tool.name) (sent : s'.sent = s.sent)
    (acct : s'.acct = s.acct) (transcript : s'.transcript = s.transcript ++ [e])
    (ran : s'.ran = s.ran ++ e.run.toList)
    (calls : s'.toolCalls = s.toolCalls + e.run.toList.length) : Books cfg s' where
  sent := by
    intro i p hp
    rw [sent] at hp
    have hi : i < s.sent.length := (List.getElem?_eq_some_iff.mp hp).1
    rw [h.sent i p hp, promptAt, promptAt, transcript, List.take_append_of_le_length (by omega)]
  turns := by
    rw [transcript, List.map_append, h.turns, List.length_append, List.length_singleton,
      List.range_succ, List.map_singleton, hturn]
  balanced := acct ▸ h.balanced
  ran := by
    rw [ran, transcript, List.filterMap_append, h.ran]
    cases hrun : e.run <;> simp [hrun]
  calls := by rw [calls, ran, List.length_append, h.calls]
  known := by
    intro r hr
    rw [ran] at hr
    rcases List.mem_append.mp hr with hr | hr
    · exact h.known r hr
    · exact hknown r (Option.mem_toList.mp hr)

lemma prune_cons (m : AgentTranscript.Message) (ms : List AgentTranscript.Message)
    (window : Option ℕ) : ∃ rest, prune (m :: ms) window = m :: rest := by
  cases window with
  | none => exact ⟨ms, rfl⟩
  | some window =>
    unfold prune
    dsimp only
    split_ifs
    · exact ⟨ms, rfl⟩
    · exact ⟨_, rfl⟩

lemma system_ne_nil (cfg : Config) :
    ∃ content rest, content ≠ [] ∧ initial cfg = .system content :: rest := by
  have hsystem : buildSystemPrompt cfg.tools ≠ [] := List.append_ne_nil_of_right_ne_nil _ (by simp)
  refine ⟨_, _, ?_, rfl⟩
  split_ifs
  · exact hsystem
  · exact List.append_ne_nil_of_left_ne_nil hsystem _

/-- The prompt that is due is sent, and the reply is booked. -/
lemma Good.send {turn : ℕ} {s : State} (h : Good cfg turn s) {ms : List AgentTranscript.Message}
    (hms : ms = s.messages ++ if turn = cfg.maxTurns then [.user forcedPrompt] else [])
    {cats : AgentMetrics.PromptCategories}
    (hcats : categorizePrompt env.tok (fun _ => []) (prune ms cfg.contextWindow) = some cats) :
    Books cfg { s with sent := s.sent ++ [prune ms cfg.contextWindow] } ∧
      ∀ usage text completion, (s.acct.add env.tok usage text completion cats).1.Balanced := by
  have hprompt : prune ms cfg.contextWindow = promptAt cfg s.transcript turn := by
    rw [promptAt, List.take_of_length_le h.length.le, ← h.messages, hms]
  constructor
  · refine { h.toBooks with sent := ?_ }
    intro i p hp
    rcases Nat.lt_or_ge i s.sent.length with hi | hi
    · exact h.sent i p (by rwa [List.getElem?_append_left hi] at hp)
    · have hlt := (List.getElem?_eq_some_iff.mp hp).1
      rw [List.length_append, List.length_singleton] at hlt
      obtain rfl : i = s.sent.length := by omega
      rw [List.getElem?_concat_length] at hp
      rw [← Option.some.inj hp, hprompt, h.asked]
  · intro usage text completion
    refine h.balanced.add env.tok usage text completion ?_
    obtain ⟨content, rest, hcontent, hinitial⟩ := system_ne_nil cfg
    obtain ⟨rest', hrest⟩ := prune_cons (.system content)
      (rest ++ (s.transcript.flatMap Entry.messages ++
        if turn = cfg.maxTurns then [.user forcedPrompt] else [])) cfg.contextWindow
    rw [hms, h.messages, replay, hinitial, List.append_assoc, List.cons_append, hrest] at hcats
    exact AgentMetrics.categorizePrompt_pos hcontent hcats

lemma known_mem {action : ParsedAction} {tool : Text} (h : known cfg action = some tool) :
    tool ∈ cfg.tools.map Tool.name := by
  unfold known at h
  split at h
  · exact of_decide_eq_true (Option.filter_eq_some_iff.mp h).2
  · cases h

/-- A step that goes on, from a state behind the reply. -/
lemma good_act {turn : ℕ} {s₀ s : State} (h₀ : Good cfg turn s₀) (hbooks : Books cfg s)
    {assistant : Text} (transcript : s.transcript = s₀.transcript)
    (messages : s.messages = s₀.messages) (hsent : s.sent.length = turn + 1)
    (hlast : s.lastAnswer = strip assistant) (action : ParsedAction) :
    Good cfg (turn + 1) (act env cfg outcomes turn assistant action s) := by
  have hlen : s.transcript.length = turn := by rw [transcript, h₀.length]
  have hgood : ∀ (s' : State) (e : Entry), e.turn = turn →
      (∀ r ∈ e.run, r.1 ∈ cfg.tools.map Tool.name) → e.goesOn = true →
      e.assistant = assistant → s'.sent = s.sent → s'.acct = s.acct →
      s'.transcript = s.transcript ++ [e] → s'.ran = s.ran ++ e.run.toList →
      s'.toolCalls = s.toolCalls + e.run.toList.length → s'.lastAnswer = s.lastAnswer →
      s'.messages = s.messages ++ e.messages → Good cfg (turn + 1) s' := by
    intro s' e hturn hknown hgoes hassistant sent acct htranscript ran calls hlast' hmessages
    refine
      { hbooks.add (by omega) (hturn.trans hlen.symm) hknown sent acct htranscript ran calls with
        messages := ?_
        length := by rw [htranscript, List.length_append, hlen, List.length_singleton]
        asked := by rw [sent, hsent]
        goesOn := ?_
        last := by rw [hlast', hlast, htranscript, lastOf, List.getLast?_concat,
          Option.map_some, Option.getD_some, hassistant] }
    · rw [hmessages, messages, h₀.messages, htranscript, transcript, replay, replay,
        List.flatMap_append, List.append_assoc, List.flatMap_singleton]
    · rw [htranscript, transcript]
      exact List.forall_mem_append.mpr ⟨h₀.goesOn, List.forall_mem_singleton.mpr hgoes⟩
  unfold act
  dsimp only
  cases hk : known cfg action with
  | none =>
    refine hgood _ (.refused turn assistant action.kind (hint env action)
      (refusal (hint env action))) rfl (fun r hr => by cases hr) rfl rfl rfl rfl rfl ?_ rfl rfl ?_
    · exact (List.append_nil _).symm
    · exact List.append_assoc _ _ _
  | some tool =>
    refine hgood _ (.ran turn assistant tool action.args _) rfl ?_ rfl rfl rfl rfl rfl rfl rfl rfl
      ?_
    · rintro r hr
      obtain rfl := Option.some.inj hr
      exact known_mem hk
    · exact List.append_assoc _ _ _

/-- What a turn may do: end the run, or leave a state that is good for the next. -/
def TurnSpec (env : Env) (cfg : Config) (turn : ℕ) : Next → Prop
  | .done e s => Ended env cfg (e, s)
  | .more s => Good cfg (turn + 1) s

lemma Ended.raised {s : State} (hbooks : Books cfg s) (hcalls : s.sent.length ≤ cfg.maxTurns + 1) :
    Ended env cfg (.raised, s) :=
  { hbooks with
    prompts := hcalls
    told := fun _ hres => Ending.noConfusion hres }

lemma Ended.returned {s : State} {res : AgentRunResult} (hbooks : Books cfg s)
    (hcalls : s.sent.length ≤ cfg.maxTurns + 1) (htold : Told env cfg res)
    (hacct : res.tokenAccount = s.acct) (htranscript : res.transcript = s.transcript) :
    Ended env cfg (.returned res, s) :=
  { hbooks with
    prompts := hcalls
    told := fun _ hres => Ending.returned.inj hres ▸ ⟨htold, hacct, htranscript⟩ }

lemma calls_eq {s : State} (h : Books cfg s) :
    s.toolCalls = (s.transcript.filterMap Entry.run).length := by rw [h.calls, h.ran]

variable (env cfg replies outcomes) in
lemma runTurn_spec {turn : ℕ} (hturn : turn < cfg.maxTurns) {s : State} (h : Good cfg turn s) :
    TurnSpec env cfg turn (runTurn env cfg replies outcomes turn s) := by
  have hle : s.sent.length ≤ cfg.maxTurns := h.asked.trans_le hturn.le
  have hms : s.messages = s.messages ++
      if turn = cfg.maxTurns then [.user forcedPrompt] else [] := by
    rw [if_neg (Nat.ne_of_lt hturn), List.append_nil]
  unfold runTurn
  dsimp only
  cases hcats : categorizePrompt env.tok (fun _ => []) (prune s.messages cfg.contextWindow) with
  | none => exact .raised h.toBooks (by omega)
  | some cats =>
    obtain ⟨hbooks, hadd⟩ := h.send hms hcats
    have hlen : (s.sent ++ [prune s.messages cfg.contextWindow]).length = turn + 1 := by
      rw [List.length_append, h.asked, List.length_singleton]
    dsimp only
    cases replies s.sent.length with
    | failed e =>
      refine .returned hbooks (hlen.le.trans (Nat.succ_le_succ hturn.le)) ?_ rfl rfl
      have htold : Told env cfg _ := .failed s.transcript e s.acct h.goesOn
        (h.length.trans_lt hturn)
      rwa [← h.last, ← calls_eq h.toBooks, h.length] at htold
    | answered assistant usage =>
      have hbalanced := hadd usage (promptText (prune s.messages cfg.contextWindow)) assistant
      have hbooked : ∀ answer, Books cfg
          { s with
            sent := s.sent ++ [prune s.messages cfg.contextWindow]
            acct := (s.acct.add env.tok usage (promptText (prune s.messages cfg.contextWindow))
              assistant cats).1
            lastAnswer := answer } :=
        fun _ => { hbooks with balanced := hbalanced }
      dsimp only
      split
      swap
      · exact .raised (hbooked s.lastAnswer) (hlen.le.trans (Nat.succ_le_succ hturn.le))
      split
      · rename_i hfinal
        have htold : Told env cfg _ := .final s.transcript assistant
          (s.acct.add env.tok usage (promptText (prune s.messages cfg.contextWindow))
            assistant cats).1 h.goesOn (h.length.trans_lt hturn) hfinal
        rw [← calls_eq h.toBooks, h.length] at htold
        refine .returned ((hbooked (strip assistant)).add (e := .final turn assistant) ?_
          h.length.symm ?_ rfl rfl rfl ?_ rfl) ?_ htold rfl rfl
        · exact hlen.le.trans (Nat.succ_le_succ h.length.ge)
        · exact fun r hr => by cases hr
        · exact (List.append_nil _).symm
        · exact hlen.le.trans (Nat.succ_le_succ hturn.le)
      · exact good_act h (hbooked (strip assistant)) rfl rfl hlen rfl _

variable (env replies) in
lemma forceAnswer_spec {s : State} (h : Good cfg cfg.maxTurns s) :
    Ended env cfg (forceAnswer env cfg replies s) := by
  have hms : s.messages ++ [.user forcedPrompt] = s.messages ++
      if cfg.maxTurns = cfg.maxTurns then [.user forcedPrompt] else [] := by
    rw [if_pos rfl]
  unfold forceAnswer
  dsimp only
  cases hcats : categorizePrompt env.tok (fun _ => [])
      (prune (s.messages ++ [.user forcedPrompt]) cfg.contextWindow) with
  | none => exact .raised { h.toBooks with } (h.asked.le.trans (Nat.le_succ _))
  | some cats =>
    obtain ⟨hbooks, hadd⟩ := h.send hms hcats
    have hlen : (s.sent ++ [prune (s.messages ++ [.user forcedPrompt]) cfg.contextWindow]).length =
        cfg.maxTurns + 1 := by
      rw [List.length_append, h.asked, List.length_singleton]
    have hfailed : ∀ e acct, Told env cfg
        { finalAnswer := s.lastAnswer
          turns := cfg.maxTurns
          toolCalls := s.toolCalls
          tokenAccount := acct
          transcript := s.transcript
          hitCap := true
          error := "forced final call failed: ".toList ++ e } := by
      intro e acct
      rw [h.last, calls_eq h.toBooks]
      exact .forcedFailed s.transcript e acct h.goesOn h.length
    dsimp only
    cases replies s.sent.length with
    | failed e => exact .returned { hbooks with } hlen.le (hfailed e _) rfl rfl
    | answered assistant usage =>
      have hbalanced := hadd usage
        (promptText (prune (s.messages ++ [.user forcedPrompt]) cfg.contextWindow)) assistant
      dsimp only
      split
      · have htold : Told env cfg _ := .forced s.transcript assistant
          (s.acct.add env.tok usage
            (promptText (prune (s.messages ++ [.user forcedPrompt]) cfg.contextWindow))
            assistant cats).1 h.goesOn h.length
        rw [← calls_eq h.toBooks] at htold
        refine .returned (Books.add (s := { s with
            sent := s.sent ++ [prune (s.messages ++ [.user forcedPrompt]) cfg.contextWindow]
            acct := (s.acct.add env.tok usage
              (promptText (prune (s.messages ++ [.user forcedPrompt]) cfg.contextWindow))
              assistant cats).1 }) { hbooks with balanced := hbalanced }
            (e := .forced cfg.maxTurns assistant) ?_ h.length.symm ?_ rfl rfl rfl ?_ rfl)
          hlen.le htold rfl rfl
        · exact hlen.le.trans (Nat.succ_le_succ h.length.ge)
        · exact fun r hr => by cases hr
        · exact (List.append_nil _).symm
      · exact .returned { hbooks with balanced := hbalanced } hlen.le (hfailed _ _) rfl rfl

variable (env cfg replies outcomes) in
lemma loop_spec {left turn : ℕ} (hleft : turn + left = cfg.maxTurns) {s : State}
    (h : Good cfg turn s) : Ended env cfg (loop env cfg replies outcomes left turn s) := by
  induction left generalizing turn s with
  | zero =>
    obtain rfl : turn = cfg.maxTurns := hleft
    exact forceAnswer_spec env replies h
  | succ left ih =>
    have hturn := runTurn_spec env cfg replies outcomes (by omega) h
    rw [loop]
    cases hrun : runTurn env cfg replies outcomes turn s with
    | done e s' =>
      rw [hrun] at hturn
      exact hturn
    | more s' =>
      rw [hrun] at hturn
      exact ih (by omega) hturn

variable (cfg) in
lemma init_good : Good cfg 0 (init cfg) where
  sent := fun i p hp => by cases hp
  turns := rfl
  balanced := AgentMetrics.balanced_empty
  ran := rfl
  calls := rfl
  known := fun r hr => absurd hr List.not_mem_nil
  messages := (List.append_nil _).symm
  length := rfl
  asked := rfl
  goesOn := fun e he => absurd he List.not_mem_nil
  last := rfl

lemma runAgent_ended (env : Env) (cfg : Config) (replies : ℕ → Reply) (outcomes : ℕ → Outcome) :
    Ended env cfg (runAgent env cfg replies outcomes) :=
  loop_spec env cfg replies outcomes (Nat.zero_add _) (init_good cfg)

/-- **The transcript tells the run.** Whatever the model and the tools answer, the prompt of each
call can be rebuilt from the transcript; the calls are at most the turns and one; the turns are
numbered from zero; and the tools run are those of the transcript, all of them tools on offer. -/
theorem runAgent_replay (env : Env) (cfg : Config) (replies : ℕ → Reply) (outcomes : ℕ → Outcome) :
    let s := (runAgent env cfg replies outcomes).2
    (∀ i p, s.sent[i]? = some p → p = promptAt cfg s.transcript i) ∧
      s.sent.length ≤ cfg.maxTurns + 1 ∧
      s.transcript.map Entry.turn = List.range s.transcript.length ∧
      s.ran = s.transcript.filterMap Entry.run ∧
      ∀ call ∈ s.ran, call.1 ∈ cfg.tools.map Tool.name := by
  have hended := runAgent_ended env cfg replies outcomes
  exact ⟨hended.sent, hended.prompts, hended.turns, hended.ran, hended.known⟩

lemma length_prune {w : ℕ} (hw : 0 < w) (ms : List AgentTranscript.Message) :
    (prune ms (some w)).length ≤ w + 3 := by
  unfold prune fromEnd
  dsimp only
  split_ifs with hshort hzero
  · omega
  · omega
  · simp only [List.length_append, List.length_take, List.length_singleton, List.length_drop]
    omega

lemma take_prune {ms : List AgentTranscript.Message} (hms : 2 ≤ ms.length) (window : Option ℕ) :
    (prune ms window).take 2 = ms.take 2 := by
  cases window with
  | none => rfl
  | some w =>
    unfold prune
    dsimp only
    split_ifs
    · rfl
    · have htwo : (ms.take 2).length = 2 := List.length_take_of_le hms
      rw [List.append_assoc, List.take_append_of_le_length htwo.ge, List.take_of_length_le htwo.le]

/-- With a window that is not empty no prompt grows beyond it and three messages more, and every
prompt begins with the instructions and the query. -/
theorem prompt_bounded (env : Env) (cfg : Config) (replies : ℕ → Reply) (outcomes : ℕ → Outcome)
    (w : ℕ) (hw : 0 < w) (hwindow : cfg.contextWindow = some w) :
    ∀ p ∈ (runAgent env cfg replies outcomes).2.sent,
      p.length ≤ w + 3 ∧ p.take 2 = initial cfg := by
  intro p hp
  obtain ⟨i, hi⟩ := List.mem_iff_getElem?.mp hp
  rw [(runAgent_ended env cfg replies outcomes).sent i p hi, promptAt, hwindow]
  refine ⟨length_prune hw _, ?_⟩
  rw [take_prune (by simp [replay, initial]), replay, List.append_assoc]
  rfl

end Run

section Example

def greps : Config where
  query := "Where is it?".toList
  tools := [⟨"grep".toList, "search".toList⟩]
  maxTurns := 3
  obsCharLimit := 10
  contextWindow := some 1
  systemExtra := []

def one : Text → Option ℕ := fun _ => some 1

lemma one_pos (t : Text) (n : ℕ) (h : one t = some n) (_ : t ≠ []) : 0 < n :=
  Option.some.inj h ▸ Nat.one_pos

def countsOne : Env where
  tok := ⟨one, one_pos⟩
  lib := AgentProtocol.asciiLib
  repr := fun _ => []
  countError := fun _ _ => []

def grepsOnce : ℕ → Reply
  | 0 => .answered "ACTION: grep()".toList none
  | _ => .answered "FINAL_ANSWER: here".toList none

def found : ℕ → Outcome := fun _ => .returned (.text "a.py".toList)

theorem found_bounded : greps.contextWindow = some 1 ∧
    ∀ p ∈ (runAgent countsOne greps grepsOnce found).2.sent,
      p.length ≤ 1 + 3 ∧ p.take 2 = initial greps :=
  ⟨rfl, prompt_bounded countsOne greps grepsOnce found 1 Nat.one_pos rfl⟩

/-- What is returned when the first call fails. -/
def refusedResult : AgentRunResult where
  finalAnswer := []
  turns := 0
  toolCalls := 0
  tokenAccount := {}
  transcript := []
  error := "llm call failed at turn 0: refused".toList

end Example

end Treeweft.ReactAgent
