import Treeweft.NativeAgent

/-!
The requests of the native agent on the wire of a provider that takes turns.

What the provider answers becomes calls with arguments as JSON texts, and goes back in the next
request as the blocks it was. Requests only grow at their end: what the provider has cached of one
is the beginning of the next.
-/

namespace Treeweft.AgentWire

open JsonText (Text Value dumps loads)
open PromptBuilder (strip)
open AgentMetrics (Usage)
open AgentTranscript NativeAgent

/-! ### Responses and Requests -/

/-- The input of a call: an object read from JSON, so with each key once. -/
structure Input where
  fields : List (Text × Value)
  keyed : (Value.obj fields).Keyed

inductive WireBlock
  | text (t : Text)
  | toolUse (id name : Option Text) (input : Input)
  | other

def WireBlock.text? : WireBlock → Option Text
  | .text t => some t
  | _ => none

def WireBlock.call? : WireBlock → Option ToolCall
  | .toolUse id name input => some ⟨id, name, .text (dumps (.obj input.fields))⟩
  | _ => none

/-- `_extract_anthropic` -/
def extractAnthropic (bs : List WireBlock) : Text × List ToolCall :=
  ((bs.filterMap WireBlock.text?).flatten, bs.filterMap WireBlock.call?)

/-- What `chat` hands to the loop. -/
def reply : Except Text (List WireBlock × Option Usage) → Reply
  | .error e => .failed e
  | .ok (bs, usage) => .answered (some (extractAnthropic bs).1) usage (extractAnthropic bs).2

/-- The messages of a request. -/
abbrev Prompt := List AgentTranscript.Message

def systemPart : AgentTranscript.Message → Option Text
  | .system content => if content = [] then none else some content
  | _ => none

structure Body where
  system : Option Text
  messages : List (Role × List Block)

/-- `_anthropic_body`: a text alone is one block. -/
def anthropicBody (ms : Prompt) : Body where
  system := match ms.filterMap systemPart with
    | [] => none
    | parts => some (['\n', '\n'].intercalate parts)
  messages := (turns ms).map fun t => (t.role, t.content.blockList)

/-- All that stands before the breakpoint, which is on the last block. -/
def Body.cached (b : Body) : List (Role × Block) := b.messages.flatMap fun m => m.2.map (m.1, ·)

/-- What is left of a response in the request after it. -/
def WireBlock.use? : WireBlock → Option Block
  | .toolUse id name input => some (.toolUse id name input.fields)
  | _ => none

def echo (bs : List WireBlock) : List Block :=
  (if strip (extractAnthropic bs).1 = [] then [] else [.text (strip (extractAnthropic bs).1)]) ++
    bs.filterMap WireBlock.use?

/-- **Round trip**: the blocks made of extracted calls are the calls of the response. -/
lemma toolUseBlocks_extract (bs : List WireBlock) :
    toolUseBlocks (some (extractAnthropic bs).1) (extractAnthropic bs).2 = echo bs := by
  have hcalls : (bs.filterMap WireBlock.call?).map
      (fun tc => Block.toolUse tc.id tc.name (toolInput tc.arguments)) =
        bs.filterMap WireBlock.use? := by
    rw [List.map_filterMap]
    refine List.filterMap_congr fun b _ => ?_
    cases b with
    | text t => rfl
    | other => rfl
    | toolUse id name input =>
      have hinput : toolInput (.text (dumps (.obj input.fields))) = input.fields := by
        rw [toolInput, JsonText.loads_dumps input.keyed]
      rw [WireBlock.call?, WireBlock.use?, Option.map_some, hinput]
  rw [toolUseBlocks, echo, Option.getD_some, extractAnthropic, hcalls]

/-! ### The Blocks of a Conversation -/

def stream (ts : List Turn) : List (Role × Block) :=
  ts.flatMap fun t => t.content.blockList.map (t.role, ·)

/-- The turns before any is taken from their head. -/
def folded (ms : Prompt) : List Turn := (ms.filterMap item).foldl addItem []

def Turn.IsBlocks (t : Turn) : Prop := ∃ bs, t.content = .blocks bs

lemma cached_anthropicBody (ms : Prompt) : (anthropicBody ms).cached = stream (turns ms) := by
  rw [Body.cached, anthropicBody, List.flatMap_map, stream]

lemma stream_append (ts ts' : List Turn) : stream (ts ++ ts') = stream ts ++ stream ts' :=
  List.flatMap_append

lemma blockList_merge {c d : Content} (h : (∃ bs, c = .blocks bs) ∨ ∃ bs, d = .blocks bs) :
    (c.merge d).blockList = c.blockList ++ d.blockList := by
  rcases h with ⟨bs, rfl⟩ | ⟨bs, rfl⟩
  · rfl
  · cases c <;> rfl

lemma stream_addItem_concat {ts : List Turn} {t x : Turn} (h : Turn.IsBlocks t ∨ Turn.IsBlocks x) :
    stream (addItem (ts ++ [t]) x) = stream (ts ++ [t]) ++ stream [x] := by
  rw [addItem_concat]
  split_ifs with hrole
  · rw [stream_append, stream_append, List.append_assoc]
    refine congrArg _ ?_
    have hmerge := blockList_merge h
    simp [stream, hmerge, hrole]
  · exact stream_append _ _

lemma stream_addItem {x : Turn} (hx : Turn.IsBlocks x) (ts : List Turn) :
    stream (addItem ts x) = stream ts ++ stream [x] := by
  rcases List.eq_nil_or_concat ts with rfl | ⟨out, t, rfl⟩
  · rfl
  · rw [List.concat_eq_append]
    exact stream_addItem_concat (.inr hx)

lemma stream_foldl {l : List Turn} (hl : ∀ x ∈ l, Turn.IsBlocks x) (ts : List Turn) :
    stream (l.foldl addItem ts) = stream ts ++ stream l := by
  induction l generalizing ts with
  | nil => exact (List.append_nil _).symm
  | cons x l ih =>
    rw [List.foldl_cons, ih (fun y hy => hl y (List.mem_cons_of_mem _ hy)),
      stream_addItem (hl x List.mem_cons_self), List.append_assoc, ← stream_append]
    rfl

/-- After an item of blocks the turn at the end is one of blocks. -/
lemma exists_last {x : Turn} (hx : Turn.IsBlocks x) (ts : List Turn) :
    ∃ out t, addItem ts x = out ++ [t] ∧ Turn.IsBlocks t := by
  obtain ⟨bs, hbs⟩ := hx
  rcases List.eq_nil_or_concat ts with rfl | ⟨out, t, rfl⟩
  · exact ⟨[], x, rfl, bs, hbs⟩
  · rw [List.concat_eq_append, addItem_concat]
    split_ifs
    · refine ⟨out, _, rfl, t.content.blockList ++ bs, ?_⟩
      dsimp only
      rw [hbs]
      cases t.content <;> rfl
    · exact ⟨out ++ [t], x, rfl, bs, hbs⟩

/-- Turns have blocks, so to drop turns is to drop their blocks. -/
lemma stream_dropWhile {ts : List Turn} (h : ∀ t ∈ ts, t.content.Nonempty) :
    stream (ts.dropWhile (·.role ≠ .user)) = (stream ts).dropWhile (·.1 ≠ .user) := by
  induction ts with
  | nil => rfl
  | cons t ts ih =>
    have hrest := ih fun u hu => h u (List.mem_cons_of_mem _ hu)
    obtain ⟨b, bs, hb⟩ := List.exists_cons_of_ne_nil
      (Content.blockList_ne_nil (h t List.mem_cons_self))
    have hsplit : stream (t :: ts) = t.content.blockList.map (t.role, ·) ++ stream ts := rfl
    by_cases hrole : t.role = .user
    · rw [List.dropWhile_cons_of_neg (by simp [hrole]), hsplit, hb, List.map_cons, List.cons_append,
        List.dropWhile_cons_of_neg (by simp [hrole])]
    · have hall : ∀ x ∈ t.content.blockList.map (t.role, ·), decide (x.1 ≠ Role.user) = true := by
        intro x hx
        obtain ⟨c, -, rfl⟩ := List.mem_map.mp hx
        exact decide_eq_true hrole
      rw [List.dropWhile_cons_of_pos (by simp [hrole]), hrest, hsplit,
        List.dropWhile_append_of_pos hall]

lemma stream_turns (ms : Prompt) :
    stream (turns ms) = (stream (folded ms)).dropWhile (·.1 ≠ .user) :=
  stream_dropWhile (kept_items ms).nonempty

lemma dropWhile_prefix {α : Type} (p : α → Bool) {l l' : List α} (h : l <+: l') :
    l.dropWhile p <+: l'.dropWhile p := by
  obtain ⟨t, rfl⟩ := h
  rw [List.dropWhile_append]
  split_ifs with hempty
  · rw [List.isEmpty_iff.mp hempty]
    exact List.nil_prefix
  · exact List.prefix_append _ _

/-! ### A Reply and What Follows It -/

/-- What a reply with calls and their results adds to the prompt. -/
def Acted (replies : ℕ → Reply) (i : ℕ) (p q : Prompt) : Prop :=
  ∃ content usage results, results ≠ [] ∧
    replies i = .answered content usage (results.map Prod.fst) ∧
      q = p ++ (Step.act content results).messages

/-- Each prompt but the first is the one before it, with the reply to that and the results. -/
def Linked (replies : ℕ → Reply) (prompts : List Prompt) : Prop :=
  ∀ i p q, prompts[i]? = some p → prompts[i + 1]? = some q → Acted replies i p q

lemma Linked.concat {replies : ℕ → Reply} {prompts : List Prompt} {p q : Prompt}
    (h : Linked replies (prompts ++ [p])) (hpq : Acted replies prompts.length p q) :
    Linked replies (prompts ++ [p] ++ [q]) := by
  intro i a b ha hb
  rcases Nat.lt_or_ge (i + 1) (prompts ++ [p]).length with hi | hi
  · rw [List.getElem?_append_left (by omega)] at ha
    rw [List.getElem?_append_left hi] at hb
    exact h i a b ha hb
  · rw [List.getElem?_append_right hi] at hb
    have hlen : (prompts ++ [p]).length = prompts.length + 1 := List.length_append
    obtain rfl : i = prompts.length := by
      have hlt := (List.getElem?_eq_some_iff.mp hb).1
      rw [List.length_singleton] at hlt
      omega
    rw [List.getElem?_append_left (by omega), List.getElem?_concat_length] at ha
    rw [hlen, Nat.sub_self] at hb
    obtain rfl := Option.some.inj ha
    obtain rfl := Option.some.inj hb
    exact hpq

lemma Linked.left {replies : ℕ → Reply} {prompts more : List Prompt}
    (h : Linked replies (prompts ++ more)) : Linked replies prompts := by
  intro i p q hp hq
  refine h i p q ?_ ?_
  · rw [List.getElem?_append_left (List.getElem?_eq_some_iff.mp hp).1]
    exact hp
  · rw [List.getElem?_append_left (List.getElem?_eq_some_iff.mp hq).1]
    exact hq

/-- What a run has sent: linked prompts, the last of which may ask for the answer as well. -/
def Told (replies : ℕ → Reply) (sent : List Prompt) : Prop :=
  Linked replies sent ∨ ∃ prompts p, sent = prompts ++ [p ++ [.user forcedPrompt]] ∧
    Linked replies (prompts ++ [p])

section Run
variable {env : Env} {cfg : Config} {replies : ℕ → Reply} {outcomes : ℕ → Outcome}

def answer (c : ToolCall × Text) : AgentTranscript.Message := .tool c.1.id c.2

variable (env cfg outcomes) in
lemma foldl_answers (turn : ℕ) (calls : List ToolCall) (s : State) :
    ∃ results : List (ToolCall × Text), results.map Prod.fst = calls ∧
      (calls.foldl (executeCall env cfg outcomes turn none) s).messages =
        s.messages ++ results.map answer := by
  induction calls generalizing s with
  | nil => exact ⟨[], rfl, (List.append_nil _).symm⟩
  | cons tc calls ih =>
    obtain ⟨results, hcalls, hmessages⟩ := ih (executeCall env cfg outcomes turn none s tc)
    rw [executeCall_messages, List.append_assoc] at hmessages
    exact ⟨(tc, _) :: results, congrArg (tc :: ·) hcalls, hmessages⟩

variable (env cfg outcomes) in
lemma executeCalls_answers (turn : ℕ) (assistant : Text) (calls : List ToolCall) (s : State) :
    ∃ results : List (ToolCall × Text), results.map Prod.fst = calls ∧
      (executeCalls env cfg outcomes turn assistant s calls).messages =
        s.messages ++ results.map answer := by
  cases calls with
  | nil => exact ⟨[], rfl, (List.append_nil _).symm⟩
  | cons tc calls =>
    obtain ⟨results, hcalls, hmessages⟩ := foldl_answers env cfg outcomes turn calls
      (executeCall env cfg outcomes turn (some assistant) s tc)
    rw [executeCall_messages, List.append_assoc] at hmessages
    exact ⟨(tc, _) :: results, congrArg (tc :: ·) hcalls, hmessages⟩

lemma acted_executeCalls {turn i : ℕ} {assistant : Text} {content : Option Text}
    {usage : Option Usage} {calls : List ToolCall} {s : State} {p : Prompt} (hcalls : calls ≠ [])
    (hreply : replies i = .answered content usage calls)
    (hmessages : s.messages = p ++ [.assistant content calls]) :
    Acted replies i p (executeCalls env cfg outcomes turn assistant s calls).messages := by
  obtain ⟨results, rfl, hanswers⟩ :=
    executeCalls_answers env cfg outcomes turn assistant calls s
  refine ⟨content, usage, results, fun h => hcalls (by rw [h]; rfl), hreply, ?_⟩
  rw [hanswers, hmessages, List.append_assoc]
  rfl

/-- What a turn sends, and what it leaves for the next. -/
def TurnTold (replies : ℕ → Reply) (s : State) : Next → Prop
  | .done _ s' => s'.sent = s.sent ∨ s'.sent = s.sent ++ [s.messages]
  | .more s' => s'.sent = s.sent ++ [s.messages] ∧
      Acted replies s.sent.length s.messages s'.messages

variable (env cfg replies outcomes) in
lemma runTurn_told (turn : ℕ) (s : State) :
    TurnTold replies s (runTurn env cfg replies outcomes turn s) := by
  unfold runTurn
  cases AgentMetrics.categorizePrompt env.tok env.callsText s.messages with
  | none => exact .inl rfl
  | some cats =>
    dsimp only
    cases hreply : replies s.sent.length with
    | failed e => exact .inr rfl
    | answered content usage calls =>
      dsimp only
      split
      swap
      · exact .inr rfl
      split
      · exact .inr rfl
      · rename_i hcalls
        exact ⟨(executeCalls_called env cfg outcomes turn _ calls _).sent,
          acted_executeCalls hcalls hreply rfl⟩

variable (env cfg replies) in
lemma forceAnswer_told (s : State) :
    (forceAnswer env cfg replies s).2.sent = s.sent ∨
      (forceAnswer env cfg replies s).2.sent =
        s.sent ++ [s.messages ++ [.user forcedPrompt]] := by
  unfold forceAnswer
  dsimp only
  cases AgentMetrics.categorizePrompt env.tok env.callsText
      (s.messages ++ [.user forcedPrompt]) with
  | none => exact .inl rfl
  | some cats =>
    dsimp only
    cases replies s.sent.length with
    | failed e => exact .inr rfl
    | answered content usage calls =>
      dsimp only
      split <;> exact .inr rfl

/-- What a whole run sends. -/
lemma loop_told (left turn : ℕ) {s : State} (h : Linked replies (s.sent ++ [s.messages])) :
    Told replies (loop env cfg replies outcomes left turn s).2.sent := by
  induction left generalizing turn s with
  | zero =>
    rw [loop]
    rcases forceAnswer_told env cfg replies s with hsent | hsent
    · rw [hsent]
      exact .inl h.left
    · rw [hsent]
      exact .inr ⟨s.sent, s.messages, rfl, h⟩
  | succ left ih =>
    have hturn := runTurn_told env cfg replies outcomes turn s
    rw [loop]
    cases hrun : runTurn env cfg replies outcomes turn s with
    | done e s' =>
      rw [hrun] at hturn
      rcases hturn with hsent | hsent
      · rw [hsent]
        exact .inl h.left
      · rw [hsent]
        exact .inl h
    | more s' =>
      rw [hrun] at hturn
      obtain ⟨hsent, hacted⟩ := hturn
      refine ih (turn + 1) ?_
      rw [hsent]
      exact h.concat hacted

/-- Every prompt of a run begins with the first messages. -/
lemma loop_begins (left turn : ℕ) {s : State} {l : Prompt}
    (h : ∀ p ∈ s.sent ++ [s.messages], l <+: p) :
    ∀ p ∈ (loop env cfg replies outcomes left turn s).2.sent, l <+: p := by
  induction left generalizing turn s with
  | zero =>
    rw [loop]
    intro p hp
    rcases forceAnswer_told env cfg replies s with hsent | hsent
    · rw [hsent] at hp
      exact h p (List.mem_append_left _ hp)
    · rw [hsent] at hp
      rcases List.mem_append.mp hp with hp | hp
      · exact h p (List.mem_append_left _ hp)
      · rw [List.mem_singleton.mp hp]
        exact (h s.messages (by simp)).trans (List.prefix_append _ _)
  | succ left ih =>
    have hturn := runTurn_told env cfg replies outcomes turn s
    rw [loop]
    cases hrun : runTurn env cfg replies outcomes turn s with
    | done e s' =>
      rw [hrun] at hturn
      intro p hp
      rcases hturn with hsent | hsent
      · exact h p (List.mem_append_left _ (hsent ▸ hp))
      · exact h p (hsent ▸ hp)
    | more s' =>
      rw [hrun] at hturn
      obtain ⟨hsent, content, usage, results, -, -, hmessages⟩ := hturn
      refine ih (turn + 1) fun p hp => ?_
      rcases List.mem_append.mp hp with hp | hp
      · exact h p (hsent ▸ hp)
      · rw [List.mem_singleton.mp hp, hmessages]
        exact (h s.messages (by simp)).trans (List.prefix_append _ _)

variable (env cfg replies outcomes) in
lemma told_run : Told replies (runAgentNative env cfg replies outcomes).2.sent := by
  refine loop_told cfg.maxTurns 0 fun i p q _ hq => ?_
  have hlt := (List.getElem?_eq_some_iff.mp hq).1
  rw [show (init cfg).sent = [] from rfl, List.nil_append, List.length_singleton] at hlt
  omega

end Run

/-! ### What Requests Keep -/

lemma filterMap_answer (results : List (ToolCall × Text)) :
    (results.map answer).filterMap item =
      results.map fun c => ⟨.user, .blocks [resultBlock c]⟩ := by
  rw [List.filterMap_map]
  exact congrFun List.filterMap_eq_map results

/-- The items of a reply with calls and of their results. -/
lemma items_act (content : Option Text) {results : List (ToolCall × Text)} (hne : results ≠ []) :
    (Step.act content results).messages.filterMap item =
      ⟨.assistant, .blocks (toolUseBlocks content (results.map Prod.fst))⟩ ::
        results.map fun c => ⟨.user, .blocks [resultBlock c]⟩ := by
  obtain ⟨c, rest, rfl⟩ := List.exists_cons_of_ne_nil hne
  have hrest := filterMap_answer (c :: rest)
  exact congrArg (List.cons _) hrest

def actBlocks (content : Option Text) (results : List (ToolCall × Text)) : List (Role × Block) :=
  (toolUseBlocks content (results.map Prod.fst)).map (.assistant, ·) ++
    results.map fun c => (.user, resultBlock c)

/-- A reply with calls goes to the end, with what the calls gave behind it. -/
lemma stream_act (p : Prompt) (content : Option Text) {results : List (ToolCall × Text)}
    (hne : results ≠ []) : stream (folded (p ++ (Step.act content results).messages)) =
      stream (folded p) ++ actBlocks content results := by
  have hblocks : ∀ x ∈ (Step.act content results).messages.filterMap item, Turn.IsBlocks x := by
    rw [items_act content hne]
    intro x hx
    rcases List.mem_cons.mp hx with rfl | hx
    · exact ⟨_, rfl⟩
    · obtain ⟨c, -, rfl⟩ := List.mem_map.mp hx
      exact ⟨_, rfl⟩
  have hstream : stream ((Step.act content results).messages.filterMap item) =
      actBlocks content results := by
    rw [items_act content hne, actBlocks]
    simp only [stream, Content.blockList, List.flatMap_cons, List.flatMap_map, List.map_cons,
      List.map_nil]
    rw [← List.map_eq_flatMap]
  rw [folded, List.filterMap_append, List.foldl_append, stream_foldl hblocks, hstream, folded]

lemma exists_last_act (p : Prompt) (content : Option Text) {results : List (ToolCall × Text)}
    (hne : results ≠ []) : ∃ out t, folded (p ++ (Step.act content results).messages) = out ++ [t] ∧
      Turn.IsBlocks t := by
  rcases List.eq_nil_or_concat results with rfl | ⟨rest, c, rfl⟩
  · exact absurd rfl hne
  · rw [List.concat_eq_append] at hne ⊢
    have hsplit : (rest ++ [c]).map (fun c => (⟨.user, .blocks [resultBlock c]⟩ : Turn)) =
        rest.map (fun c => ⟨.user, .blocks [resultBlock c]⟩) ++
          [⟨.user, .blocks [resultBlock c]⟩] := List.map_append
    rw [folded, List.filterMap_append, items_act content hne, List.foldl_append, List.foldl_cons,
      hsplit, List.foldl_append]
    exact exists_last ⟨_, rfl⟩ _

lemma strip_forcedPrompt : strip forcedPrompt ≠ [] := by
  have hmem : 'Y' ∈ forcedPrompt := by
    unfold forcedPrompt
    rw [String.toList_append]
    exact List.mem_append_left _ (by decide)
  exact PromptBuilder.strip_ne_nil hmem (by decide)

/-- The request for the answer is a block of its own behind the results. -/
lemma stream_forced {ms : Prompt} {out : List Turn} {t : Turn} (hfolded : folded ms = out ++ [t])
    (ht : Turn.IsBlocks t) : stream (folded (ms ++ [.user forcedPrompt])) =
      stream (folded ms) ++ [(.user, .text (strip forcedPrompt))] := by
  have hitem : [AgentTranscript.Message.user forcedPrompt].filterMap item =
      [⟨.user, .str (strip forcedPrompt)⟩] := by
    have htext : item (.user forcedPrompt) = some ⟨.user, .str (strip forcedPrompt)⟩ := by
      rw [item, textItem, if_neg strip_forcedPrompt]
    rw [List.filterMap_cons_some htext]
    rfl
  have hadd : folded (ms ++ [.user forcedPrompt]) =
      addItem (folded ms) ⟨.user, .str (strip forcedPrompt)⟩ := by
    rw [folded, List.filterMap_append, List.foldl_append, hitem]
    rfl
  rw [hadd, hfolded, stream_addItem_concat (.inl ht)]
  rfl

/-- What one reply puts behind the blocks of the prompt it answers, and the next prompt. -/
lemma Told.step {replies : ℕ → Reply} {sent : List Prompt} (h : Told replies sent) {i : ℕ}
    {p q : Prompt} (hp : sent[i]? = some p) (hq : sent[i + 1]? = some q) :
    ∃ content usage results tail, replies i = .answered content usage (results.map Prod.fst) ∧
      (tail = [] ∨ tail = [(.user, .text (strip forcedPrompt))]) ∧
      stream (folded q) = stream (folded p) ++ actBlocks content results ++ tail ∧
      q.filterMap systemPart = p.filterMap systemPart := by
  have hparts : ∀ content (results : List (ToolCall × Text)),
      (p ++ (Step.act content results).messages).filterMap systemPart = p.filterMap systemPart := by
    intro content results
    rw [List.filterMap_append, List.append_right_eq_self, List.filterMap_eq_nil_iff]
    intro m hm
    rcases List.mem_cons.mp hm with rfl | hm
    · rfl
    · obtain ⟨c, -, rfl⟩ := List.mem_map.mp hm
      rfl
  rcases h with h | ⟨prompts, p', rfl, h⟩
  · obtain ⟨content, usage, results, hne, hreply, rfl⟩ := h i p q hp hq
    refine ⟨content, usage, results, [], hreply, .inl rfl, ?_, hparts _ _⟩
    rw [stream_act p content hne, List.append_nil]
  have hlen := (List.getElem?_eq_some_iff.mp hq).1
  rw [List.length_append, List.length_singleton] at hlen
  rw [List.getElem?_append_left (by omega)] at hp
  have hp' : (prompts ++ [p'])[i]? = some p := by
    rw [List.getElem?_append_left (by omega)]
    exact hp
  rcases Nat.lt_or_ge (i + 1) prompts.length with hi | hi
  · have hq' : (prompts ++ [p'])[i + 1]? = some q := by
      rw [List.getElem?_append_left hi] at hq ⊢
      exact hq
    obtain ⟨content, usage, results, hne, hreply, rfl⟩ := h i p q hp' hq'
    refine ⟨content, usage, results, [], hreply, .inl rfl, ?_, hparts _ _⟩
    rw [stream_act p content hne, List.append_nil]
  · -- the last prompt asks for the answer as well
    obtain hi : i + 1 = prompts.length := by omega
    rw [hi, List.getElem?_concat_length] at hq
    obtain rfl := Option.some.inj hq
    have hlast : (prompts ++ [p'])[i + 1]? = some p' := by rw [hi, List.getElem?_concat_length]
    obtain ⟨content, usage, results, hne, hreply, rfl⟩ := h i p p' hp' hlast
    obtain ⟨out, t, hfolded, ht⟩ := exists_last_act p content hne
    refine ⟨content, usage, results, _, hreply, .inr rfl, ?_, ?_⟩
    · rw [stream_forced hfolded ht, stream_act p content hne]
    · rw [List.filterMap_append, hparts]
      exact List.append_nil _

section Run
variable (env : Env) (cfg : Config) (outcomes : ℕ → Outcome)

/-- The request `b'` begins with all that is cached of `b`. -/
def Body.Extends (b b' : Body) : Prop := b.system = b'.system ∧ b.cached <+: b'.cached

/-- **Caching**: in a run, whatever the model and the tools answer, the system prompt stays as it is
and each request begins with all the blocks of every request before it, as they were. -/
theorem requests_extend (replies : ℕ → Reply) :
    ((runAgentNative env cfg replies outcomes).2.sent.map anthropicBody).Pairwise Body.Extends := by
  have htold := told_run env cfg replies outcomes
  generalize (runAgentNative env cfg replies outcomes).2.sent = sent at htold
  have : Trans Body.Extends Body.Extends Body.Extends :=
    ⟨fun hab hbc => ⟨hab.1.trans hbc.1, hab.2.trans hbc.2⟩⟩
  rw [← List.isChain_iff_pairwise, List.isChain_map, List.isChain_iff_getElem]
  intro i hi
  obtain ⟨content, usage, results, tail, -, -, hstream, hparts⟩ :=
    htold.step (List.getElem?_eq_getElem (by omega)) (List.getElem?_eq_getElem hi)
  refine ⟨?_, ?_⟩
  · rw [anthropicBody, anthropicBody, hparts]
  · rw [cached_anthropicBody, cached_anthropicBody, stream_turns, stream_turns, hstream,
      List.append_assoc]
    exact dropWhile_prefix _ (List.prefix_append _ _)

variable {cfg} in
/-- A conversation that begins with a question loses nothing at its head. -/
lemma cached_of_begins {p : Prompt} (hquery : strip cfg.query ≠ [])
    (hp : (init cfg).messages <+: p) : (anthropicBody p).cached = stream (folded p) := by
  obtain ⟨rest, rfl⟩ := hp
  obtain ⟨-, runs, hruns, hkeeps⟩ := kept_items ((init cfg).messages ++ rest)
  have hrole := head_role hruns hkeeps
  have hitem : item (.user cfg.query) = some ⟨.user, .str (strip cfg.query)⟩ := by
    rw [item, textItem, if_neg hquery]
  have hhead : (((init cfg).messages ++ rest).filterMap item).head? =
      some ⟨.user, .str (strip cfg.query)⟩ := by
    rw [init, List.cons_append, List.filterMap_cons_none rfl, List.cons_append,
      List.filterMap_cons_some hitem, List.head?_cons]
  rw [hhead] at hrole
  rw [cached_anthropicBody, turns]
  change some Role.user = (folded ((init cfg).messages ++ rest)).head?.map Turn.role at hrole
  rw [← folded]
  cases hout : folded ((init cfg).messages ++ rest) with
  | nil => rfl
  | cons t out =>
    rw [hout] at hrole
    rw [List.dropWhile_cons_of_neg (by simpa using (Option.some.inj hrole).symm)]

def WireBlock.id? : WireBlock → Option (Option Text)
  | .toolUse id _ _ => some id
  | _ => none

/-- The prompt `q` is, block by block, the prompt `p`, then the text and the calls of the response to
that, with their ids, names and inputs, then one result for each call in order, and at the end
perhaps the request for the answer. -/
def Echoed (response : Except Text (List WireBlock × Option Usage)) (p q : Prompt) : Prop :=
  ∃ bs usage, response = .ok (bs, usage) ∧ ∃ results : List (Option Text × Text),
    results.map Prod.fst = bs.filterMap WireBlock.id? ∧ ∃ tail : List (Role × Block),
      (tail = [] ∨ tail = [(.user, .text (strip forcedPrompt))]) ∧
        (anthropicBody q).cached = (anthropicBody p).cached ++ (echo bs).map (.assistant, ·) ++
          results.map (fun r => (.user, .toolResult r.1 r.2)) ++ tail

/-- **Echo**: in a run on a question that is not blank, each request after the first repeats the one
before it and gives back the response to that as it was, with the results of its calls. -/
theorem uses_echoed (hquery : strip cfg.query ≠ [])
    (responses : ℕ → Except Text (List WireBlock × Option Usage)) :
    (runAgentNative env cfg (fun n => reply (responses n)) outcomes).2.sent.zipIdx.IsChain
      fun x y => Echoed (responses x.2) x.1 y.1 := by
  rw [List.isChain_iff_getElem]
  intro i hi
  rw [List.length_zipIdx] at hi
  rw [List.getElem_zipIdx, List.getElem_zipIdx, Nat.zero_add]
  generalize hp : (runAgentNative env cfg (fun n => reply (responses n)) outcomes).2.sent[i] = p
  generalize hq :
    (runAgentNative env cfg (fun n => reply (responses n)) outcomes).2.sent[i + 1] = q
  replace hp := (List.getElem_eq_iff (by omega)).mp hp
  replace hq := (List.getElem_eq_iff hi).mp hq
  obtain ⟨content, usage, results, tail, hreply, htail, hstream, -⟩ :=
    (told_run env cfg _ outcomes).step hp hq
  have hbegins : ∀ p ∈ (runAgentNative env cfg (fun n => reply (responses n)) outcomes).2.sent,
      (init cfg).messages <+: p := by
    refine loop_begins cfg.maxTurns 0 fun p hp => ?_
    obtain rfl := List.mem_singleton.mp hp
    exact List.prefix_rfl
  cases hresponse : responses i with
  | error e =>
    rw [hresponse] at hreply
    cases hreply
  | ok r =>
    obtain ⟨bs, usage'⟩ := r
    rw [hresponse] at hreply
    obtain ⟨rfl, rfl, hcalls⟩ := Reply.answered.inj hreply
    refine ⟨bs, usage', rfl, results.map fun c => (c.1.id, c.2), ?_, tail, htail, ?_⟩
    · have hids : (extractAnthropic bs).2.map ToolCall.id = bs.filterMap WireBlock.id? := by
        rw [extractAnthropic, List.map_filterMap]
        exact List.filterMap_congr fun b _ => by cases b <;> rfl
      rw [← hids, hcalls, List.map_map, List.map_map]
      rfl
    · rw [cached_of_begins hquery (hbegins q (List.mem_of_getElem? hq)),
        cached_of_begins hquery (hbegins p (List.mem_of_getElem? hp)), hstream, actBlocks, ← hcalls,
        toolUseBlocks_extract, List.map_map, List.append_assoc, List.append_assoc,
        List.append_assoc, List.append_assoc]
      rfl

end Run

section Example

def countsOne : Env where
  tok := ⟨fun _ => some 1, fun _ _ h _ => Option.some.inj h ▸ Nat.one_pos⟩
  callsText := fun _ => []
  decodeError := fun _ => []
  repr := fun _ => []
  countError := fun _ _ => []

def oneTurn : Config := ⟨"q".toList, ["grep".toList], 1, 100, []⟩

/-- A response with one call. -/
def oneCall : List WireBlock :=
  [.toolUse (some "a".toList) (some "grep".toList) ⟨[], ⟨List.nodup_nil, trivial⟩⟩]

def responses (n : ℕ) : Except Text (List WireBlock × Option Usage) :=
  if n = 0 then .ok (oneCall, none) else .error []

def outcome (_ : ℕ) : Outcome := .returned (.text "retry.py".toList)

theorem oneCall_echoed :
    (runAgentNative countsOne oneTurn (fun n => reply (responses n)) outcome).2.sent.zipIdx.IsChain
      fun x y => Echoed (responses x.2) x.1 y.1 :=
  uses_echoed countsOne oneTurn outcome (by decide) responses

end Example

end Treeweft.AgentWire
