import Mathlib.Data.List.Chain
import Mathlib.Data.List.Forall2
import Treeweft.JsonText
import Treeweft.PromptBuilder

/-!
The transcript of an agent as a list of messages for a model that takes turns.

Messages and turns are cells of a heap: the conversion may write to the turns that it makes itself,
and to nothing else. The arguments of a tool call are a text, an object, or absent.
-/

namespace Treeweft.AgentTranscript

open JsonText (Text Value loads)
open PromptBuilder (strip)

/-! ### Messages and Turns -/

inductive Arguments
  | text (t : Text)
  | object (fields : List (Text × Value))
  | absent

structure ToolCall where
  id : Option Text
  name : Option Text
  arguments : Arguments

inductive Message
  | system (content : Text)
  | user (content : Text)
  | assistant (content : Option Text) (calls : List ToolCall)
  | tool (id : Option Text) (content : Text)

inductive Role
  | user
  | assistant
  deriving DecidableEq

inductive Block
  | text (t : Text)
  | toolUse (id name : Option Text) (input : List (Text × Value))
  | toolResult (id : Option Text) (content : Text)

inductive Content
  | str (t : Text)
  | blocks (bs : List Block)

structure Turn where
  role : Role
  content : Content

/-! ### The Conversion -/

/-- Arguments that are no JSON object are an empty one. -/
def toolInput : Arguments → List (Text × Value)
  | .text t =>
    match loads t with
    | some (.obj fields) => fields
    | _ => []
  | .object fields => fields
  | .absent => []

def toolUseBlocks (content : Option Text) (calls : List ToolCall) : List Block :=
  (if strip (content.getD []) = [] then [] else [.text (strip (content.getD []))]) ++
    calls.map fun tc => .toolUse tc.id tc.name (toolInput tc.arguments)

def textItem (role : Role) (content : Text) : Option Turn :=
  if strip content = [] then none else some ⟨role, .str (strip content)⟩

/-- What a message adds, if it adds anything. -/
def item : Message → Option Turn
  | .system _ => none
  | .tool id content => some ⟨.user, .blocks [.toolResult id content]⟩
  | .user content => textItem .user content
  | .assistant content [] => textItem .assistant (content.getD [])
  | .assistant content calls => some ⟨.assistant, .blocks (toolUseBlocks content calls)⟩

def Content.blockList : Content → List Block
  | .str t => [.text t]
  | .blocks bs => bs

/-- Two texts are one text; anything else is a list of blocks. -/
def Content.merge : Content → Content → Content
  | .str t, .str u => .str (t ++ '\n' :: '\n' :: u)
  | c, d => .blocks (c.blockList ++ d.blockList)

inductive Cell
  | message (m : Message)
  | turn (t : Turn)

abbrev Heap := List Cell

def message? (h : Heap) (a : ℕ) : Option Message :=
  match h[a]? with
  | some (.message m) => some m
  | _ => none

def turn? (h : Heap) (a : ℕ) : Option Turn :=
  match h[a]? with
  | some (.turn t) => some t
  | _ => none

/-- Append to the list, or merge into the turn at its end. -/
def append (x : Turn) (out : List ℕ) (h : Heap) : List ℕ × Heap :=
  match out.getLast? with
  | none => (out ++ [h.length], h ++ [.turn x])
  | some a =>
    match turn? h a with
    | none => (out ++ [h.length], h ++ [.turn x])
    | some t =>
      if t.role = x.role then (out, h.set a (.turn { t with content := t.content.merge x.content }))
      else (out ++ [h.length], h ++ [.turn x])

def anthropicConvo (messages : List ℕ) (h : Heap) : List ℕ × Heap :=
  let s := messages.foldl (fun s a =>
    match (message? s.2 a).bind item with
    | some x => append x s.1 s.2
    | none => s) ([], h)
  (s.1.dropWhile fun a => (turn? s.2 a).all (·.role ≠ .user), s.2)

/-! ### Transcripts of the Agent -/

/-- What the agent adds to its transcript: a reply, a note to the model, or a reply that calls tools
with the result of each call. -/
inductive Step
  | say (content : Option Text)
  | note (content : Text)
  | act (content : Option Text) (calls : List (ToolCall × Text))

def Step.messages : Step → List Message
  | .say content => [.assistant content []]
  | .note content => [.user content]
  | .act content calls =>
    .assistant content (calls.map Prod.fst) :: calls.map fun c => .tool c.1.id c.2

/-- A reply that calls tools calls some, and their ids are distinct. -/
def Step.Formed : Step → Prop
  | .act _ calls => calls ≠ [] ∧ (calls.map fun c => c.1.id).Nodup
  | _ => True

structure Transcript where
  system : Text
  query : Text
  steps : List Step
  formed : ∀ s ∈ steps, s.Formed

def Transcript.messages (t : Transcript) : List Message :=
  .system t.system :: .user t.query :: t.steps.flatMap Step.messages

/-! ### Faithful Turns -/

def Block.useId : Block → Option (Option Text)
  | .toolUse id _ _ => some id
  | _ => none

def Block.resultId : Block → Option (Option Text)
  | .toolResult id _ => some id
  | _ => none

def Turn.useIds (t : Turn) : List (Option Text) := t.content.blockList.filterMap Block.useId

def Turn.resultIds (t : Turn) : List (Option Text) := t.content.blockList.filterMap Block.resultId

def Content.Nonempty : Content → Prop
  | .str t => t ≠ []
  | .blocks bs => bs ≠ []

/-- Each turn answers the calls of the turn before it, and no call is left. -/
def Answered : List (Option Text) → List Turn → Prop
  | pending, [] => pending = []
  | pending, t :: ts => t.resultIds = pending ∧ Answered t.useIds ts

/-- The blocks, in order; a text may be joined to the text before it with a blank line. -/
inductive Joined : List Block → List Block → Prop
  | nil : Joined [] []
  | block {bs cs} (b : Block) : Joined bs cs → Joined (bs ++ [b]) (cs ++ [b])
  | text {bs cs} (t u : Text) : Joined bs (cs ++ [.text t]) →
      Joined (bs ++ [.text u]) (cs ++ [.text (t ++ '\n' :: '\n' :: u)])

/-- The turn has what a run of items of its role has. -/
def Keeps (run : List Turn) (t : Turn) : Prop :=
  run ≠ [] ∧ (∀ x ∈ run, x.role = t.role) ∧
    Joined (run.flatMap fun x => x.content.blockList) t.content.blockList

/-- The turns are a conversation and have what the messages have, once and in order. -/
structure Faithful (messages : List Message) (out : List Turn) : Prop where
  starts : ∀ t ∈ out.head?, t.role = .user
  alternates : out.IsChain (·.role ≠ ·.role)
  nonempty : ∀ t ∈ out, t.content.Nonempty
  answered : Answered [] out
  keeps : ∃ runs : List (List Turn), runs.flatten = messages.filterMap item ∧
    List.Forall₂ Keeps runs out

/-- The conversion gives faithful turns and leaves every cell as it was. -/
def Converts (messages : List Message) (h : Heap) (r : List ℕ × Heap) : Prop :=
  (∀ a < h.length, r.2[a]? = h[a]?) ∧
    ∃ out : List Turn, r.1.map (turn? r.2) = out.map some ∧ Faithful messages out

def Message.isBlank : Message → Bool
  | .system _ => true
  | .user content => strip content = []
  | .assistant content calls => calls.isEmpty && decide (strip (content.getD []) = [])
  | .tool _ _ => false

def Message.isAssistant : Message → Bool
  | .assistant _ _ => true
  | _ => false

/-- The first message that is not blank is no reply of the model. -/
def OpensWithUser (messages : List Message) : Prop :=
  ∀ m ∈ messages.find? (!·.isBlank), m.isAssistant = false

/-! ### The Turns Without the Heap -/

def addItem (out : List Turn) (x : Turn) : List Turn :=
  match out.getLast? with
  | none => out ++ [x]
  | some t =>
    if t.role = x.role then out.dropLast ++ [{ t with content := t.content.merge x.content }]
    else out ++ [x]

def turns (messages : List Message) : List Turn :=
  ((messages.filterMap item).foldl addItem []).dropWhile (·.role ≠ .user)

lemma addItem_nil (x : Turn) : addItem [] x = [x] := rfl

lemma addItem_concat (out : List Turn) (t x : Turn) : addItem (out ++ [t]) x =
    if t.role = x.role then out ++ [{ t with content := t.content.merge x.content }]
    else out ++ [t] ++ [x] := by
  unfold addItem
  rw [List.getLast?_concat, List.dropLast_concat]

/-- The addresses are distinct, of cells made after the first `n`, and show the turns. -/
structure Shows (n : ℕ) (out : List ℕ) (h : Heap) (ts : List Turn) : Prop where
  fresh : ∀ a ∈ out, n ≤ a ∧ a < h.length
  nodup : out.Nodup
  shown : out.map (turn? h) = ts.map some

lemma turn?_append_of_lt {h : Heap} {a : ℕ} (ha : a < h.length) (l : Heap) :
    turn? (h ++ l) a = turn? h a := by
  unfold turn?
  rw [List.getElem?_append_left ha]

lemma turn?_set_of_ne {h : Heap} {a b : ℕ} (hne : b ≠ a) (c : Cell) :
    turn? (h.set b c) a = turn? h a := by
  unfold turn?
  rw [List.getElem?_set_ne hne]

section Heap
variable {n : ℕ} {out : List ℕ} {h : Heap} {ts : List Turn}

/-- A new turn at the end. -/
lemma Shows.alloc (hs : Shows n out h ts) (hn : n ≤ h.length) (x : Turn) :
    Shows n (out ++ [h.length]) (h ++ [.turn x]) (ts ++ [x]) := by
  refine ⟨fun a ha => ?_, ?_, ?_⟩
  · rw [List.length_append, List.length_singleton]
    rcases List.mem_append.mp ha with ha | ha
    · exact ⟨(hs.fresh a ha).1, (hs.fresh a ha).2.trans (Nat.lt_succ_self _)⟩
    · rw [List.mem_singleton.mp ha]
      exact ⟨hn, Nat.lt_succ_self _⟩
  · refine List.nodup_append.mpr ⟨hs.nodup, List.nodup_singleton _, fun a ha b hb heq => ?_⟩
    rw [List.mem_singleton.mp hb] at heq
    exact absurd (hs.fresh a ha).2 (by omega)
  · have hold : out.map (turn? (h ++ [.turn x])) = out.map (turn? h) :=
      List.map_congr_left fun a ha => turn?_append_of_lt (hs.fresh a ha).2 _
    have hnew : turn? (h ++ [.turn x]) h.length = some x := by
      unfold turn?
      rw [List.getElem?_concat_length]
    rw [List.map_append, hold, hs.shown, List.map_append, List.map_singleton, hnew]
    rfl

/-- The turn at the end, written over. -/
lemma Shows.write {a : ℕ} {t : Turn} (hs : Shows n (out ++ [a]) h (ts ++ [t])) (u : Turn) :
    Shows n (out ++ [a]) (h.set a (.turn u)) (ts ++ [u]) := by
  have ha := hs.fresh a (by simp)
  have hnot : a ∉ out := by
    have hnodup := hs.nodup
    rw [List.nodup_append] at hnodup
    exact fun hmem => hnodup.2.2 a hmem a (List.mem_singleton_self a) rfl
  refine ⟨fun b hb => ?_, hs.nodup, ?_⟩
  · rw [List.length_set]
    exact hs.fresh b hb
  · have hshown := hs.shown
    rw [List.map_append, List.map_append] at hshown
    have hold : out.map (turn? (h.set a (.turn u))) = out.map (turn? h) :=
      List.map_congr_left fun b hb => turn?_set_of_ne (fun heq => hnot (by rwa [heq])) _
    have hnew : turn? (h.set a (.turn u)) a = some u := by
      unfold turn?
      rw [List.getElem?_set_self ha.2]
    rw [List.map_append, List.map_append, hold, List.map_singleton, hnew,
      (List.append_inj' hshown rfl).1]
    rfl

/-- What `append` does is `addItem`; it writes to the cells after the first `n` only. -/
lemma Shows.append (hs : Shows n out h ts) (hn : n ≤ h.length) (x : Turn) :
    Shows n (append x out h).1 (append x out h).2 (addItem ts x) ∧
      n ≤ (append x out h).2.length ∧ ∀ a < n, (append x out h).2[a]? = h[a]? := by
  have hlong : n ≤ (h ++ [Cell.turn x]).length := by
    rw [List.length_append]
    omega
  have hkeep : ∀ a < n, (h ++ [Cell.turn x])[a]? = h[a]? := fun a ha =>
    List.getElem?_append_left (ha.trans_le hn)
  rcases List.eq_nil_or_concat out with rfl | ⟨out', a, hout⟩
  · obtain rfl : ts = [] := by
      have hshown := hs.shown
      simpa using hshown.symm
    exact ⟨hs.alloc hn x, hlong, hkeep⟩
  · rw [List.concat_eq_append] at hout
    subst hout
    obtain ⟨ts', t, rfl⟩ : ∃ ts' t, ts = ts' ++ [t] := by
      rcases List.eq_nil_or_concat ts with rfl | ⟨ts', t, rfl⟩
      · have hlen := congrArg List.length hs.shown
        simp at hlen
      · exact ⟨ts', t, List.concat_eq_append⟩
    have ht : turn? h a = some t := by
      have hshown := hs.shown
      rw [List.map_append, List.map_append] at hshown
      exact (List.cons.inj (List.append_inj' hshown rfl).2).1
    have hunfold : AgentTranscript.append x (out' ++ [a]) h =
        if t.role = x.role then
          (out' ++ [a], h.set a (.turn { t with content := t.content.merge x.content }))
        else (out' ++ [a] ++ [h.length], h ++ [.turn x]) := by
      unfold AgentTranscript.append
      rw [List.getLast?_concat]
      dsimp only
      rw [ht]
    rw [hunfold, addItem_concat]
    split_ifs with hrole
    · refine ⟨hs.write _, ?_, fun b hb => ?_⟩
      · rw [List.length_set]
        exact hn
      · have ha := (hs.fresh a (by simp)).1
        exact List.getElem?_set_ne (by omega)
    · exact ⟨hs.alloc hn x, hlong, hkeep⟩

/-- The loop over the messages. -/
lemma shows_foldl {ms : List Message} {as : List ℕ} (hmessages : as.map (message? h) = ms.map some)
    (hlt : ∀ a ∈ as, a < n) (hs : Shows n out h ts) (hn : n ≤ h.length) :
    let s := as.foldl (fun s a =>
      match (message? s.2 a).bind item with
      | some x => AgentTranscript.append x s.1 s.2
      | none => s) (out, h)
    Shows n s.1 s.2 ((ms.filterMap item).foldl addItem ts) ∧ ∀ a < n, s.2[a]? = h[a]? := by
  induction as generalizing ms out h ts with
  | nil =>
    obtain rfl : ms = [] := by simpa using hmessages.symm
    exact ⟨hs, fun _ _ => rfl⟩
  | cons a as ih =>
    obtain ⟨m, ms, rfl⟩ : ∃ m ms', ms = m :: ms' := by
      cases ms with
      | nil => cases hmessages
      | cons m ms => exact ⟨m, ms, rfl⟩
    rw [List.map_cons, List.map_cons] at hmessages
    obtain ⟨hm, hrest⟩ := List.cons.inj hmessages
    have hltrest : ∀ b ∈ as, b < n := fun b hb => hlt b (List.mem_cons_of_mem _ hb)
    rw [List.foldl_cons, hm, Option.bind_some]
    cases hitem : item m with
    | none =>
      rw [List.filterMap_cons_none hitem]
      exact ih hrest hltrest hs hn
    | some x =>
      obtain ⟨hs', hn', hkeep⟩ := hs.append hn x
      have hsame : as.map (message? (AgentTranscript.append x out h).2) = ms.map some := by
        rw [← hrest]
        refine List.map_congr_left fun b hb => ?_
        unfold message?
        rw [hkeep b (hltrest b hb)]
      obtain ⟨hshows, hold⟩ := ih hsame hltrest hs' hn'
      rw [List.filterMap_cons_some hitem, List.foldl_cons]
      exact ⟨hshows, fun b hb => (hold b hb).trans (hkeep b hb)⟩

end Heap

/-- The conversion makes the turns of the messages in new cells. -/
lemma anthropicConvo_shows {ms : List Message} {as : List ℕ} {h : Heap}
    (hmessages : as.map (message? h) = ms.map some) :
    (∀ a < h.length, (anthropicConvo as h).2[a]? = h[a]?) ∧
      (anthropicConvo as h).1.map (turn? (anthropicConvo as h).2) = (turns ms).map some := by
  have hlt : ∀ a ∈ as, a < h.length := by
    intro a ha
    have hmem := List.mem_map_of_mem (f := message? h) ha
    rw [hmessages] at hmem
    obtain ⟨m, -, hm⟩ := List.mem_map.mp hmem
    by_contra hge
    rw [message?, List.getElem?_eq_none (Nat.le_of_not_lt hge)] at hm
    cases hm
  have hempty : Shows h.length [] h [] := ⟨nofun, List.nodup_nil, rfl⟩
  obtain ⟨hshows, hkeep⟩ := shows_foldl hmessages hlt hempty (Nat.le_refl _)
  refine ⟨hkeep, ?_⟩
  unfold anthropicConvo turns
  generalize (as.foldl _ ([], h)) = s at hshows hkeep ⊢
  have hdrop : ∀ (out : List ℕ) (ts : List Turn), out.map (turn? s.2) = ts.map some →
      (out.dropWhile fun a => (turn? s.2 a).all (·.role ≠ .user)).map (turn? s.2) =
        (ts.dropWhile (·.role ≠ .user)).map some := by
    intro out
    induction out with
    | nil =>
      intro ts hts
      obtain rfl : ts = [] := by simpa using hts.symm
      rfl
    | cons a out ih =>
      intro ts hts
      cases ts with
      | nil => cases hts
      | cons t ts =>
        obtain ⟨ha, hrest⟩ := List.cons.inj hts
        by_cases hrole : t.role = .user
        · rw [List.dropWhile_cons_of_neg (by simp [ha, hrole]),
            List.dropWhile_cons_of_neg (by simp [hrole])]
          exact hts
        · rw [List.dropWhile_cons_of_pos (by simp [ha, hrole]),
            List.dropWhile_cons_of_pos (by simp [hrole])]
          exact ih ts hrest
  exact hdrop _ _ hshows.shown

/-! ### What the Turns Keep -/

lemma Joined.append {bs cs : List Block} (h : Joined bs cs) (ds : List Block) :
    Joined (bs ++ ds) (cs ++ ds) := by
  induction ds generalizing bs cs with
  | nil => rwa [List.append_nil, List.append_nil]
  | cons d ds ih =>
    have hnext := ih (h.block d)
    rwa [List.append_assoc, List.append_assoc] at hnext

lemma Joined.refl (bs : List Block) : Joined bs bs := Joined.nil.append bs

lemma Joined.merge {bs : List Block} {c d : Content} (h : Joined bs c.blockList) :
    Joined (bs ++ d.blockList) (c.merge d).blockList := by
  match c, d with
  | .str t, .str u =>
    have hone : Joined bs ([] ++ [.text t]) := h
    exact hone.text t u
  | .str t, .blocks ds => exact h.append ds
  | .blocks cs, .str u => exact h.append _
  | .blocks cs, .blocks ds => exact h.append ds

lemma Content.blockList_ne_nil {c : Content} (h : c.Nonempty) : c.blockList ≠ [] := by
  cases c with
  | str t => exact nofun
  | blocks bs => exact h

lemma Content.Nonempty.merge {c d : Content} (h : c.Nonempty) : (c.merge d).Nonempty := by
  match c, d with
  | .str t, .str u => exact List.append_ne_nil_of_right_ne_nil _ nofun
  | .str t, .blocks ds => exact nofun
  | .blocks cs, .str u => exact List.append_ne_nil_of_left_ne_nil h _
  | .blocks cs, .blocks ds => exact List.append_ne_nil_of_left_ne_nil h _

/-- What the list of turns keeps of the items so far. -/
structure Kept (items out : List Turn) : Prop where
  nonempty : ∀ t ∈ out, t.content.Nonempty
  keeps : ∃ runs : List (List Turn), runs.flatten = items ∧ List.Forall₂ Keeps runs out

lemma Kept.addItem {items out : List Turn} (h : Kept items out) {x : Turn}
    (hx : x.content.Nonempty) : Kept (items ++ [x]) (addItem out x) := by
  obtain ⟨hnonempty, runs, hruns, hkeeps⟩ := h
  have hsingle : Keeps [x] x := by
    refine ⟨nofun, fun y hy => by rw [List.mem_singleton.mp hy], ?_⟩
    rw [List.flatMap_singleton]
    exact .refl _
  have hnew : Kept (items ++ [x]) (out ++ [x]) := by
    refine ⟨fun t ht => ?_, runs ++ [[x]], ?_, ?_⟩
    · rcases List.mem_append.mp ht with ht | ht
      · exact hnonempty t ht
      · rw [List.mem_singleton.mp ht]
        exact hx
    · rw [List.flatten_append, hruns]
      rfl
    · exact List.rel_append hkeeps (.cons hsingle .nil)
  rcases List.eq_nil_or_concat out with rfl | ⟨out', t, rfl⟩
  · exact hnew
  rw [List.concat_eq_append] at hnew hnonempty hkeeps ⊢
  rw [addItem_concat]
  split_ifs with hrole
  swap
  · exact hnew
  obtain ⟨runs', run, rfl, hkeeps', hrun⟩ : ∃ runs' run, runs = runs' ++ [run] ∧
      List.Forall₂ Keeps runs' out' ∧ Keeps run t := by
    have hlast := List.forall₂_drop_append runs out' [t] hkeeps
    cases hsplit : runs.drop out'.length with
    | nil =>
      rw [hsplit] at hlast
      cases hlast
    | cons run rest =>
      rw [hsplit] at hlast
      cases hlast with
      | cons hrun hnil =>
        cases hnil
        exact ⟨runs.take out'.length, run, by rw [← hsplit, List.take_append_drop],
          List.forall₂_take_append runs out' [t] hkeeps, hrun⟩
  obtain ⟨hne, hroles, hjoined⟩ := hrun
  refine ⟨fun u hu => ?_, runs' ++ [run ++ [x]], ?_, List.rel_append hkeeps' (.cons ?_ .nil)⟩
  · rcases List.mem_append.mp hu with hu | hu
    · exact hnonempty u (List.mem_append_left _ hu)
    · rw [List.mem_singleton.mp hu]
      exact (hnonempty t (by simp)).merge
  · rw [← hruns]
    simp
  · refine ⟨List.append_ne_nil_of_left_ne_nil hne _, fun y hy => ?_, ?_⟩
    · rcases List.mem_append.mp hy with hy | hy
      · exact hroles y hy
      · rw [List.mem_singleton.mp hy]
        exact hrole.symm
    · rw [List.flatMap_append, List.flatMap_singleton]
      exact hjoined.merge

lemma Kept.foldl {items out xs : List Turn} (h : Kept items out)
    (hxs : ∀ x ∈ xs, x.content.Nonempty) :
    Kept (items ++ xs) (xs.foldl AgentTranscript.addItem out) := by
  induction xs generalizing items out with
  | nil => rwa [List.append_nil]
  | cons x xs ih =>
    have hnext := ih (h.addItem (hxs x List.mem_cons_self)) fun y hy =>
      hxs y (List.mem_cons_of_mem _ hy)
    rwa [List.append_assoc] at hnext

lemma textItem_eq {role : Role} {content : Text} {x : Turn} (h : textItem role content = some x) :
    x.role = role ∧ ∃ t, t ≠ [] ∧ x.content = .str t := by
  unfold textItem at h
  split_ifs at h with hblank
  obtain rfl := Option.some.inj h
  exact ⟨rfl, _, hblank, rfl⟩

lemma nonempty_of_item {m : Message} {x : Turn} (h : item m = some x) : x.content.Nonempty := by
  have htext : ∀ {role content}, textItem role content = some x → x.content.Nonempty := by
    intro role content htext
    obtain ⟨-, t, ht, hx⟩ := textItem_eq htext
    rw [hx]
    exact ht
  match m, h with
  | .user content, h => exact htext h
  | .assistant content [], h => exact htext h
  | .assistant content (tc :: calls), h =>
    obtain rfl := Option.some.inj h
    exact List.append_ne_nil_of_right_ne_nil _ nofun
  | .tool id content, h =>
    obtain rfl := Option.some.inj h
    exact nofun

lemma kept_items (messages : List Message) :
    Kept (messages.filterMap item) ((messages.filterMap item).foldl addItem []) := by
  have hempty : Kept [] [] := ⟨nofun, [], rfl, .nil⟩
  refine hempty.foldl fun x hx => ?_
  obtain ⟨m, -, hm⟩ := List.mem_filterMap.mp hx
  exact nonempty_of_item hm

/-- The first turn has the role of the first item. -/
lemma head_role {runs : List (List Turn)} {items out : List Turn} (hruns : runs.flatten = items)
    (h : List.Forall₂ Keeps runs out) : items.head?.map Turn.role = out.head?.map Turn.role := by
  cases h with
  | nil =>
    rw [← hruns]
    rfl
  | cons hkeeps _ =>
    obtain ⟨hne, hroles, -⟩ := hkeeps
    rename_i run t runs out _
    obtain ⟨x, xs, rfl⟩ := List.exists_cons_of_ne_nil hne
    rw [← hruns]
    exact congrArg some (hroles x List.mem_cons_self)

/-! ### Calls and Results -/

/-- A turn after another: roles alternate, and the calls are answered. -/
def Follows (t u : Turn) : Prop := t.role ≠ u.role ∧ u.resultIds = t.useIds

/-- Every call so far is answered in the turn after it. -/
structure Settled (out : List Turn) : Prop where
  follows : out.IsChain Follows
  head : ∀ t ∈ out.head?, t.resultIds = []
  last : ∀ t ∈ out.getLast?, t.useIds = []

lemma Settled.answered {out : List Turn} (h : Settled out) : Answered [] out := by
  have hchain : ∀ (t : Turn) (ts : List Turn), (t :: ts).IsChain Follows →
      (∀ u ∈ (t :: ts).getLast?, u.useIds = []) → Answered t.useIds ts := by
    intro t ts
    induction ts generalizing t with
    | nil => exact fun _ hlast => hlast t rfl
    | cons u ts ih =>
      intro hchain hlast
      rw [List.isChain_cons_cons] at hchain
      refine ⟨hchain.1.2, ih u hchain.2 fun v hv => hlast v ?_⟩
      rwa [List.getLast?_cons_cons]
  cases out with
  | nil => rfl
  | cons t ts => exact ⟨h.head t rfl, hchain t ts h.follows h.last⟩

lemma useIds_merge (t : Turn) (c : Content) :
    ({ t with content := t.content.merge c } : Turn).useIds =
      t.useIds ++ c.blockList.filterMap Block.useId := by
  unfold Turn.useIds
  cases t with
  | mk role content =>
    cases content <;> cases c <;> first | rfl | exact List.filterMap_append

lemma resultIds_merge (t : Turn) (c : Content) :
    ({ t with content := t.content.merge c } : Turn).resultIds =
      t.resultIds ++ c.blockList.filterMap Block.resultId := by
  unfold Turn.resultIds
  cases t with
  | mk role content =>
    cases content <;> cases c <;> first | rfl | exact List.filterMap_append

/-- A turn whose calls are all answered, replaced by one of the same role and results, or followed
by one of the other role without results. -/
lemma Settled.addItem {out : List Turn} (h : Settled out) {x : Turn} (hx : x.resultIds = []) :
    ∃ out' a, AgentTranscript.addItem out x = out' ++ [a] ∧ a.role = x.role ∧ a.useIds = x.useIds ∧
      (out' ++ [a]).IsChain Follows ∧ ∀ t ∈ (out' ++ [a]).head?, t.resultIds = [] := by
  rcases List.eq_nil_or_concat out with rfl | ⟨out', t, rfl⟩
  · refine ⟨[], x, rfl, rfl, rfl, List.isChain_singleton x, fun t ht => ?_⟩
    rw [← Option.some.inj ht, hx]
  rw [List.concat_eq_append] at h ⊢
  have hlast : t.useIds = [] := h.last t (by rw [List.getLast?_concat]; rfl)
  obtain ⟨hchain, -, hend⟩ := List.isChain_append.mp h.follows
  rw [addItem_concat]
  split_ifs with hrole
  · have hresult := resultIds_merge t x.content
    have hxresult : x.content.blockList.filterMap Block.resultId = [] := hx
    rw [hxresult, List.append_nil] at hresult
    refine ⟨out', _, rfl, hrole, ?_, List.isChain_append.mpr ⟨hchain, List.isChain_singleton _, ?_⟩,
      fun u hu => ?_⟩
    · rw [useIds_merge, hlast]
      rfl
    · intro u hu v hv
      obtain rfl := Option.some.inj hv
      obtain ⟨hne, hids⟩ := hend u hu t rfl
      exact ⟨hne, hresult.trans hids⟩
    · cases out' with
      | nil =>
        obtain rfl := Option.some.inj hu
        exact hresult.trans (h.head t rfl)
      | cons v out' => exact h.head u hu
  · refine ⟨out' ++ [t], x, rfl, rfl, rfl, List.isChain_append.mpr
      ⟨h.follows, List.isChain_singleton x, ?_⟩, fun u hu => ?_⟩
    · intro u hu v hv
      rw [List.getLast?_concat] at hu
      obtain rfl := Option.some.inj hu
      obtain rfl := Option.some.inj hv
      exact ⟨hrole, hx.trans hlast.symm⟩
    · rw [List.head?_append_of_ne_nil _ (by simp)] at hu
      exact h.head u hu

lemma Settled.text {out : List Turn} (h : Settled out) {role : Role} {t : Text} :
    Settled (AgentTranscript.addItem out ⟨role, .str t⟩) := by
  obtain ⟨out', a, heq, -, huse, hchain, hhead⟩ := h.addItem (x := ⟨role, .str t⟩) rfl
  rw [heq]
  refine ⟨hchain, hhead, fun u hu => ?_⟩
  rw [List.getLast?_concat] at hu
  rw [← Option.some.inj hu, huse]
  rfl

lemma Settled.item {out : List Turn} (h : Settled out) {role : Role} {content : Text} :
    Settled ((textItem role content).toList.foldl AgentTranscript.addItem out) := by
  unfold textItem
  split_ifs
  · exact h
  · exact h.text

/-- The results of one reply go into one turn. -/
lemma foldl_results (out : List Turn) (bs rs : List Block) :
    (rs.map fun b => (⟨.user, .blocks [b]⟩ : Turn)).foldl addItem (out ++ [⟨.user, .blocks bs⟩]) =
      out ++ [⟨.user, .blocks (bs ++ rs)⟩] := by
  induction rs generalizing bs with
  | nil => simp
  | cons r rs ih =>
    rw [List.map_cons, List.foldl_cons, addItem_concat, if_pos rfl]
    have hnext := ih (bs ++ [r])
    rw [List.append_assoc] at hnext
    exact hnext

lemma toolUseBlocks_ids (content : Option Text) (calls : List ToolCall) :
    (toolUseBlocks content calls).filterMap Block.useId = calls.map ToolCall.id ∧
      (toolUseBlocks content calls).filterMap Block.resultId = [] := by
  have htext : ∀ f : Block → Option (Option Text), (∀ t, f (.text t) = none) →
      (if strip (content.getD []) = [] then [] else
        [Block.text (strip (content.getD []))]).filterMap f = [] := by
    intro f hf
    split_ifs
    · rfl
    · rw [List.filterMap_cons_none (hf _)]
      rfl
  unfold toolUseBlocks
  rw [List.filterMap_append, List.filterMap_append, htext _ fun _ => rfl, htext _ fun _ => rfl,
    List.filterMap_map, List.filterMap_map]
  refine ⟨congrFun List.filterMap_eq_map calls, ?_⟩
  exact List.filterMap_eq_nil_iff.mpr fun _ _ => rfl

/-- The block that a call and its result give. -/
def resultBlock (c : ToolCall × Text) : Block := .toolResult c.1.id c.2

lemma resultBlock_ids (calls : List (ToolCall × Text)) :
    (calls.map resultBlock).filterMap Block.resultId = (calls.map fun c => c.1.id) ∧
      (calls.map resultBlock).filterMap Block.useId = [] := by
  rw [List.filterMap_map, List.filterMap_map]
  refine ⟨congrFun List.filterMap_eq_map calls, ?_⟩
  exact List.filterMap_eq_nil_iff.mpr fun _ _ => rfl

/-- A reply with calls, and then the turn with all their results. -/
lemma Settled.act {out : List Turn} (h : Settled out) (content : Option Text)
    {calls : List (ToolCall × Text)} (hcalls : calls ≠ []) :
    Settled (((Step.act content calls).messages.filterMap AgentTranscript.item).foldl
      AgentTranscript.addItem out) := by
  obtain ⟨c, rest, rfl⟩ := List.exists_cons_of_ne_nil hcalls
  obtain ⟨huse, hresult⟩ := toolUseBlocks_ids content ((c :: rest).map Prod.fst)
  have hitems : (Step.act content (c :: rest)).messages.filterMap AgentTranscript.item =
      ⟨.assistant, .blocks (toolUseBlocks content ((c :: rest).map Prod.fst))⟩ ::
        ⟨.user, .blocks [resultBlock c]⟩ ::
        (rest.map resultBlock).map fun b => ⟨.user, .blocks [b]⟩ := by
    have htools : (rest.map fun c => Message.tool c.1.id c.2).filterMap AgentTranscript.item =
        (rest.map resultBlock).map fun b => ⟨.user, .blocks [b]⟩ := by
      rw [List.filterMap_map, List.map_map]
      exact congrFun List.filterMap_eq_map rest
    exact congrArg (fun l => _ :: _ :: l) htools
  rw [hitems, List.foldl_cons, List.foldl_cons]
  generalize hreply : (⟨.assistant, .blocks (toolUseBlocks content ((c :: rest).map Prod.fst))⟩ :
    Turn) = reply
  have hreplyResults : reply.resultIds = [] := by
    rw [← hreply]
    exact hresult
  have hreplyUses : reply.useIds = (c :: rest).map fun c => c.1.id := by
    rw [List.map_map] at huse
    rw [← hreply]
    exact huse
  obtain ⟨out', a, hadd, hrole, hids, hchain, hhead⟩ := h.addItem hreplyResults
  have hne : a.role ≠ .user := by
    rw [hrole, ← hreply]
    exact nofun
  rw [hadd, addItem_concat, if_neg hne, foldl_results]
  obtain ⟨hanswers, hnone⟩ := resultBlock_ids (c :: rest)
  refine ⟨List.isChain_append.mpr ⟨hchain, List.isChain_singleton _, ?_⟩, fun t ht => ?_,
    fun t ht => ?_⟩
  · intro t ht u hu
    rw [List.getLast?_concat] at ht
    obtain rfl := Option.some.inj ht
    obtain rfl := Option.some.inj hu
    exact ⟨hne, hanswers.trans (hids.trans hreplyUses).symm⟩
  · rw [List.head?_append_of_ne_nil _ (by simp)] at ht
    exact hhead t ht
  · rw [List.getLast?_concat] at ht
    obtain rfl := Option.some.inj ht
    exact hnone

lemma Settled.step {out : List Turn} (h : Settled out) {s : Step} (hs : s.Formed) :
    Settled ((s.messages.filterMap AgentTranscript.item).foldl AgentTranscript.addItem out) := by
  have hone : ∀ m role content, AgentTranscript.item m = textItem role content →
      Settled (([m].filterMap AgentTranscript.item).foldl AgentTranscript.addItem out) := by
    intro m role content hm
    have htext : Settled ((textItem role content).toList.foldl AgentTranscript.addItem out) :=
      h.item
    rw [List.filterMap_cons, hm]
    cases htextItem : textItem role content with
    | none => exact h
    | some x =>
      rw [htextItem] at htext
      exact htext
  cases s with
  | say content => exact hone _ _ _ rfl
  | note content => exact hone _ _ _ rfl
  | act content calls => exact h.act content hs.1

lemma Transcript.settled (t : Transcript) :
    Settled ((t.messages.filterMap AgentTranscript.item).foldl AgentTranscript.addItem []) := by
  have hsteps : ∀ (steps : List Step) (out : List Turn), (∀ s ∈ steps, s.Formed) → Settled out →
      Settled (((steps.flatMap Step.messages).filterMap AgentTranscript.item).foldl
        AgentTranscript.addItem out) := by
    intro steps
    induction steps with
    | nil => exact fun _ _ hout => hout
    | cons s steps ih =>
      intro out hformed hout
      rw [List.flatMap_cons, List.filterMap_append, List.foldl_append]
      exact ih _ (fun s' hs' => hformed s' (List.mem_cons_of_mem _ hs'))
        (hout.step (hformed s List.mem_cons_self))
  have hempty : Settled [] := ⟨.nil, nofun, nofun⟩
  have hquery : Settled (([Message.user t.query].filterMap AgentTranscript.item).foldl
      AgentTranscript.addItem []) := hempty.step (s := .note t.query) trivial
  have hsplit : t.messages.filterMap AgentTranscript.item =
      [Message.user t.query].filterMap AgentTranscript.item ++
        (t.steps.flatMap Step.messages).filterMap AgentTranscript.item := by
    rw [← List.filterMap_append]
    rfl
  rw [hsplit, List.foldl_append]
  exact hsteps _ _ t.formed hquery

/-! ### When the Turns Are Faithful -/

lemma item_eq_none_iff {m : Message} : item m = none ↔ m.isBlank = true := by
  have htext : ∀ role content, textItem role content = none ↔ strip content = [] := by
    intro role content
    unfold textItem
    split_ifs with hblank
    · exact iff_of_true rfl hblank
    · exact iff_of_false nofun hblank
  match m with
  | .system _ => exact iff_of_true rfl rfl
  | .tool _ _ => exact iff_of_false nofun nofun
  | .user content => simp [item, Message.isBlank, htext]
  | .assistant content [] => simp [item, Message.isBlank, htext]
  | .assistant content (tc :: calls) => simp [item, Message.isBlank]

lemma role_of_item {m : Message} {x : Turn} (h : item m = some x) :
    x.role = .user ↔ m.isAssistant = false := by
  match m, h with
  | .user content, h => exact iff_of_true (textItem_eq h).1 rfl
  | .assistant content [], h =>
    refine iff_of_false ?_ nofun
    rw [(textItem_eq h).1]
    exact nofun
  | .assistant content (tc :: calls), h =>
    obtain rfl := Option.some.inj h
    exact iff_of_false nofun nofun
  | .tool id content, h =>
    obtain rfl := Option.some.inj h
    exact iff_of_true rfl rfl

lemma head_items (messages : List Message) :
    (messages.filterMap item).head? = (messages.find? (!·.isBlank)).bind item := by
  induction messages with
  | nil => rfl
  | cons m ms ih =>
    by_cases hblank : m.isBlank = true
    · rw [List.filterMap_cons_none (item_eq_none_iff.mpr hblank), ih,
        List.find?_cons_of_neg (by simp [hblank])]
    · obtain ⟨x, hx⟩ := Option.ne_none_iff_exists'.mp (mt item_eq_none_iff.mp hblank)
      rw [List.filterMap_cons_some hx, List.find?_cons_of_pos (by simp [hblank])]
      exact hx.symm

/-- The first item is a user's exactly when the first message that is not blank is no reply. -/
lemma opensWithUser_iff {messages : List Message} : OpensWithUser messages ↔
    ∀ x ∈ (messages.filterMap item).head?, x.role = .user := by
  rw [head_items, OpensWithUser]
  cases hfind : messages.find? (!·.isBlank) with
  | none => exact iff_of_true nofun nofun
  | some m =>
    have hblank : ¬m.isBlank = true := by simpa using List.find?_some hfind
    obtain ⟨x, hx⟩ := Option.ne_none_iff_exists'.mp (mt item_eq_none_iff.mp hblank)
    rw [Option.bind_some, hx]
    refine ⟨fun h y hy => ?_, fun h n hn => ?_⟩
    · rw [← Option.some.inj hy]
      exact (role_of_item hx).mpr (h m rfl)
    · rw [← Option.some.inj hn]
      exact (role_of_item hx).mp (h x rfl)

/-- The conversion is faithful exactly when the transcript opens with the user: no turn is then
taken from its head. -/
theorem converts_iff (t : Transcript) {h : Heap} {as : List ℕ}
    (hmessages : as.map (message? h) = t.messages.map some) :
    Converts t.messages h (anthropicConvo as h) ↔ OpensWithUser t.messages := by
  obtain ⟨hkeep, hshows⟩ := anthropicConvo_shows hmessages
  obtain ⟨hnonempty, runs, hruns, hkeeps⟩ := kept_items t.messages
  rw [opensWithUser_iff]
  constructor
  · rintro ⟨-, out, -, hfaithful⟩ x hx
    obtain ⟨runs', hruns', hkeeps'⟩ := hfaithful.keeps
    have hrole := head_role hruns' hkeeps'
    rw [hx] at hrole
    obtain ⟨u, hu, hrole⟩ := Option.map_eq_some_iff.mp hrole.symm
    rw [← hrole]
    exact hfaithful.starts u hu
  · intro hopens
    have hsettled := t.settled
    have hstarts : ∀ u ∈ ((t.messages.filterMap item).foldl addItem []).head?, u.role = .user := by
      intro u hu
      have hrole := head_role hruns hkeeps
      rw [hu] at hrole
      obtain ⟨x, hx, hrole⟩ := Option.map_eq_some_iff.mp hrole
      rw [← hrole]
      exact hopens x hx
    have hturns : turns t.messages = (t.messages.filterMap item).foldl addItem [] := by
      unfold turns
      cases hout : (t.messages.filterMap item).foldl addItem [] with
      | nil => rfl
      | cons u out =>
        rw [hout] at hstarts
        exact List.dropWhile_cons_of_neg (by simp [hstarts u rfl])
    rw [hturns] at hshows
    exact ⟨hkeep, _, hshows,
      { starts := hstarts
        alternates := hsettled.follows.imp fun _ _ hfollows => hfollows.1
        nonempty := hnonempty
        answered := hsettled.answered
        keeps := ⟨runs, hruns, hkeeps⟩ }⟩

/-- Two calls in one reply, a reminder, and an answer. -/
def twoCalls : Transcript where
  system := "Answer from the code.".toList
  query := "Where is retry?".toList
  steps :=
    [.act none
      [(⟨some "a".toList, some "grep".toList, .text "{}".toList⟩, "retry.py:3".toList),
        (⟨some "b".toList, some "ls".toList, .absent⟩, "retry.py".toList)],
      .note "You have used all steps.".toList, .say (some "In retry.py.".toList)]
  formed := by
    intro s hs
    simp only [List.mem_cons, List.not_mem_nil, or_false] at hs
    rcases hs with rfl | rfl | rfl
    · exact ⟨nofun, by decide⟩
    · trivial
    · trivial

theorem twoCalls_converts : Converts twoCalls.messages (twoCalls.messages.map .message)
    (anthropicConvo [0, 1, 2, 3, 4, 5, 6] (twoCalls.messages.map .message)) := by
  have hopens : OpensWithUser twoCalls.messages := by
    intro m hm
    have hfind : twoCalls.messages.find? (!·.isBlank) = some (.user twoCalls.query) := rfl
    rw [hfind] at hm
    rw [← Option.some.inj hm]
    rfl
  exact (converts_iff twoCalls rfl).mpr hopens

/-- A blank question before a call. -/
def blankQuery : Transcript where
  system := "Answer from the code.".toList
  query := " ".toList
  steps :=
    [.act none [(⟨some "a".toList, some "grep".toList, .text "{}".toList⟩, "none".toList)]]
  formed := by
    intro s hs
    rw [List.mem_singleton.mp hs]
    exact ⟨nofun, by decide⟩

/-- The call is taken from the head, and its result is left. -/
theorem blankQuery_orphans : ¬Converts blankQuery.messages (blankQuery.messages.map .message)
    (anthropicConvo [0, 1, 2, 3] (blankQuery.messages.map .message)) := by
  rintro ⟨-, out, hout, hfaithful⟩
  have hturn : (anthropicConvo [0, 1, 2, 3] (blankQuery.messages.map .message)).1.map
      (turn? (anthropicConvo [0, 1, 2, 3] (blankQuery.messages.map .message)).2) =
        [some ⟨.user, .blocks [.toolResult (some "a".toList) "none".toList]⟩] := rfl
  rw [hturn] at hout
  match out, hout with
  | [t], hout =>
    have ht := Option.some.inj (List.cons.inj hout).1
    have hanswered := hfaithful.answered.1
    rw [← ht] at hanswered
    cases hanswered

end Treeweft.AgentTranscript
