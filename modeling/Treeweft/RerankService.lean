import Treeweft.EmbeddingOrder
import Treeweft.Reranking
import Treeweft.Scatter

/-!
The reranker that is served beside the indexer, and the client that asks it in batches.

The service sorts the texts of a request by their lengths in tokens, scores them in batches of its
own and puts the scores back in the order of the request. The tokenizer and the model are
parameters.
-/

namespace Treeweft.RerankService

open EmbeddingProxy (slices slices_spec)
open Reranking (Score Item Request Provider Sorting Sound Honest InBatch Names starts)

/-- The settings of the service. The tokenizer cuts its output to the longest input allowed; the
model pads the inputs of a batch to one length. -/
structure Service (S : Type) where
  instruction : String
  encode : String → List ℕ
  model : List (List ℕ) → List (Score S)
  batchSize : ℕ
  bucket : Bool

def templatePrefix : String :=
  "<|im_start|>system\nJudge whether the Document meets the requirements " ++
  "based on the Query and the Instruct provided. Note that the answer can " ++
  "only be \"yes\" or \"no\".<|im_end|>\n<|im_start|>user\n"

def templateSuffix : String := "<|im_end|>\n<|im_start|>assistant\n<think>\n\n</think>\n\n"

def prompt (instruction query text : String) : String :=
  templatePrefix ++ "<Instruct>: " ++ instruction ++ "\n<Query>: " ++ query ++ "\n<Document>: " ++
    text ++ templateSuffix

section Service
variable {S : Type} [Zero S] (s : Service S) (query : String)

def inputs (texts : List String) : List (List ℕ) :=
  texts.map fun t => s.encode (prompt s.instruction query t)

/-- The order in which the inputs are scored: by length, or as they came. -/
def order (enc : List (List ℕ)) : List ℕ :=
  if s.bucket then
    (List.range enc.length).mergeSort fun i j =>
      decide ((enc.getD i []).length ≤ (enc.getD j []).length)
  else List.range enc.length

/-- The scores of a batch, each with the place it belongs to; a missing one raises. -/
def scoreBatch (enc : List (List ℕ)) (idxs : List ℕ) : Option (List (ℕ × Score S)) :=
  let vals := s.model (idxs.map fun i => enc.getD i [])
  if vals.length < idxs.length then none else some (idxs.zip vals)

/-- `POST /rerank` -/
def rerank (texts : List String) : Option (List (ℕ × Score S)) :=
  if texts = [] then some []
  else
    let enc := inputs s query texts
    ((slices s.batchSize (order s enc)).mapM (scoreBatch s enc)).map fun writes =>
      (Scatter.assign (List.replicate enc.length (.number 0)) writes.flatten).zipIdx.map Prod.swap

/-! ### Scores in the Order of the Request -/

variable {s query}

omit [Zero S] in
lemma order_perm (enc : List (List ℕ)) : (order s enc).Perm (List.range enc.length) := by
  unfold order
  split_ifs
  · exact List.mergeSort_perm _ _
  · exact .refl _

/-- The response has the score of each text at its place. -/
lemma served_eq {f : List ℕ → Score S} (hmodel : ∀ batch, s.model batch = batch.map f)
    (hsize : 0 < s.batchSize) (texts : List String) : rerank s query texts =
      some (((inputs s query texts).map f).zipIdx.map Prod.swap) := by
  unfold rerank
  split_ifs with hnil
  · subst hnil
    rfl
  · let g : ℕ → ℕ × Score S := fun i => (i, f ((inputs s query texts).getD i []))
    have hbatch : ∀ idxs, scoreBatch s (inputs s query texts) idxs = some (idxs.map g) := by
      intro idxs
      have hzip := List.zip_map' (f := id) (g := fun i => f ((inputs s query texts).getD i []))
        (l := idxs)
      rw [List.map_id] at hzip
      unfold scoreBatch
      dsimp only
      rw [hmodel, List.map_map, if_neg (by simp)]
      exact congrArg some hzip
    have hwrites : (slices s.batchSize (order s (inputs s query texts))).mapM
        (scoreBatch s (inputs s query texts)) =
          some ((slices s.batchSize (order s (inputs s query texts))).map (List.map g)) := by
      rw [Scatter.mapM_eq_some_iff, List.map_map]
      exact List.map_congr_left fun idxs _ => hbatch idxs
    have hflat : ((slices s.batchSize (order s (inputs s query texts))).map (List.map g)).flatten =
        (order s (inputs s query texts)).map g := by
      rw [← List.map_flatten, (slices_spec hsize _).1]
    have hwritten : ∀ w ∈ (order s (inputs s query texts)).map g,
        w.2 = f ((inputs s query texts).getD w.1 []) := by
      intro w hw
      obtain ⟨i, -, rfl⟩ := List.mem_map.mp hw
      rfl
    have hall : ∀ i < (List.replicate (inputs s query texts).length (Score.number (0 : S))).length,
        i ∈ ((order s (inputs s query texts)).map g).map Prod.fst := by
      intro i hi
      rw [List.length_replicate] at hi
      rw [List.map_map]
      exact List.mem_map.mpr ⟨i, (order_perm _).mem_iff.mpr (List.mem_range.mpr hi), rfl⟩
    have hscores : (List.range (inputs s query texts).length).map
        (fun i => f ((inputs s query texts).getD i [])) = (inputs s query texts).map f := by
      refine List.ext_getElem (by simp) fun i hi _ => ?_
      simp at hi ⊢
      simp [hi]
    dsimp only
    rw [hwrites, Option.map_some, hflat, Scatter.assign_eq_map
      (f := fun i => f ((inputs s query texts).getD i [])) hwritten hall,
      List.length_replicate, hscores]

/-- **Batching changes no score**: where the model scores an input as it would alone, the response
has the score of each text at its place, whatever the size of the batches and with or without the
sorting by length. -/
theorem rerank_batching {f : List ℕ → Score S} (hmodel : ∀ batch, s.model batch = batch.map f)
    (hsize : 0 < s.batchSize) {size : ℕ} (hpos : 0 < size) (bucket : Bool) (texts : List String) :
    rerank { s with batchSize := size, bucket := bucket } query texts = rerank s query texts ∧
    rerank s query texts = some (((inputs s query texts).map f).zipIdx.map Prod.swap) := by
  let s' : Service S := { s with batchSize := size, bucket := bucket }
  have hmodel' : ∀ batch, s'.model batch = batch.map f := hmodel
  have hserved : rerank s query texts = _ := served_eq hmodel hsize texts
  have hother : rerank s' query texts = _ := served_eq hmodel' hpos texts
  exact ⟨hother.trans hserved.symm, hserved⟩

/-! ### The Client -/

/-- The client's request about some texts: each batch goes out on its own, and its response names
the places in it. -/
def request (s : Service S) (query : String) (texts : List String) (rerank_batch_size : ℤ)
    (batch_size : Option ℤ) : Request S where
  provider := .http rerank_batch_size
  batch_size := batch_size
  response := fun start =>
    let step := (Provider.http rerank_batch_size).step batch_size
    ((rerank s query ((texts.drop start).take step.toNat)).getD []).map fun p =>
      ⟨.int p.1, p.2⟩

variable {texts : List String} {rerank_batch_size : ℤ} {batch_size : Option ℤ} {f : List ℕ → S}

/-- What a text scores. -/
def scoreOf (s : Service S) (query : String) (f : List ℕ → S) (text : String) : Score S :=
  .number (f (s.encode (prompt s.instruction query text)))

lemma response_eq (hmodel : ∀ batch, s.model batch = batch.map fun ids => .number (f ids))
    (hsize : 0 < s.batchSize) (start : ℕ) :
    (request s query texts rerank_batch_size batch_size).response start =
      (((texts.drop start).take ((Provider.http rerank_batch_size).step batch_size).toNat).map
        (scoreOf s query f)).zipIdx.map fun p => ⟨.int p.2, p.1⟩ := by
  have hserved : rerank s query _ = _ := served_eq hmodel hsize
    ((texts.drop start).take ((Provider.http rerank_batch_size).step batch_size).toNat)
  unfold request
  dsimp only
  rw [hserved, Option.getD_some, List.map_map, inputs, List.map_map]
  rfl

/-- An item is about the text at its place in the batch. -/
lemma mem_response (hmodel : ∀ batch, s.model batch = batch.map fun ids => .number (f ids))
    (hsize : 0 < s.batchSize) {start : ℕ} {item : Item S}
    (h : item ∈ (request s query texts rerank_batch_size batch_size).response start) :
    ∃ (i : ℕ) (text : String), (i : ℤ) < (Provider.http rerank_batch_size).step batch_size ∧
      texts[start + i]? = some text ∧ item = ⟨.int i, scoreOf s query f text⟩ := by
  rw [response_eq hmodel hsize] at h
  obtain ⟨⟨v, i⟩, hp, rfl⟩ := List.mem_map.mp h
  have hget := List.mem_zipIdx_iff_getElem?.mp hp
  rw [List.getElem?_map, Option.map_eq_some_iff] at hget
  obtain ⟨text, htext, rfl⟩ := hget
  rw [List.getElem?_take, List.getElem?_drop] at htext
  split_ifs at htext with hi
  exact ⟨i, text, by omega, htext, rfl⟩

lemma sound_request (hmodel : ∀ batch, s.model batch = batch.map fun ids => .number (f ids))
    (hsize : 0 < s.batchSize) (hstep : 0 < (Provider.http rerank_batch_size).step batch_size) :
    Sound (request s query texts rerank_batch_size batch_size) texts.length where
  size := .inr hstep.le
  own := by
    intro start hstart item hitem c hnames
    obtain ⟨i, text, hi, -, rfl⟩ := mem_response hmodel hsize hitem
    have hci : (i : ℤ) = c - start := Option.some.inj hnames
    have hin : (c : ℤ) < start + (Provider.http rerank_batch_size).step batch_size := by omega
    exact ⟨by omega, hin⟩
  once := by
    intro start hstart
    rw [response_eq hmodel hsize, List.pairwise_map]
    refine List.pairwise_iff_getElem.mpr fun i j hi hj hij c hc hc' => ?_
    have hic : (((List.zipIdx _)[i]).2 : ℤ) = c - start := Option.some.inj hc
    have hjc : (((List.zipIdx _)[j]).2 : ℤ) = c - start := Option.some.inj hc'
    rw [List.getElem_zipIdx] at hic hjc
    simp only at hic hjc
    omega
  number := by
    intro start hstart item hitem c hnames hnan
    obtain ⟨i, text, hi, -, rfl⟩ := mem_response hmodel hsize hitem
    cases hnan

/-- Every text of a batch is named in the response. -/
lemma exists_names (hmodel : ∀ batch, s.model batch = batch.map fun ids => .number (f ids))
    (hsize : 0 < s.batchSize) {start : ℕ} {c : Fin texts.length}
    (h : InBatch (request s query texts rerank_batch_size batch_size) start c) :
    ∃ item ∈ (request s query texts rerank_batch_size batch_size).response start,
      Names (request s query texts rerank_batch_size batch_size) start item c := by
  obtain ⟨hstart, hlt⟩ := h
  have hlt' : (c : ℤ) < start + (Provider.http rerank_batch_size).step batch_size := hlt
  rw [response_eq hmodel hsize]
  refine ⟨⟨.int (c.val - start : ℕ), scoreOf s query f texts[c]⟩, List.mem_map.mpr
    ⟨(scoreOf s query f texts[c], c.val - start), List.mem_zipIdx_iff_getElem?.mpr ?_, rfl⟩, ?_⟩
  · rw [List.getElem?_map, List.getElem?_take_of_lt (by omega), List.getElem?_drop,
      Nat.add_sub_cancel' hstart]
    simp
  · exact congrArg some (by omega)

/-- **The ranking of a client and the service**: whatever the sizes of their batches and with or
without the sorting by length, each text comes once, with the score the model gives it alone, the
best first, and none is left out but for the limit. -/
theorem served_ranking [LinearOrder S] (sorting : Sorting S (Fin texts.length))
    (held : Fin texts.length → Score S)
    (hmodel : ∀ batch, s.model batch = batch.map fun ids => .number (f ids))
    (hsize : 0 < s.batchSize) (hstep : 0 < (Provider.http rerank_batch_size).step batch_size)
    (hne : texts ≠ []) (top_k : ℤ) :
    ∃ out, Reranking.rerank sorting (request s query texts rerank_batch_size batch_size) held
        top_k = some out ∧
      (out.map Prod.fst).Nodup ∧ out.Pairwise (fun a b => b.2 ≤ a.2) ∧
      (∀ c, c ∈ out.map Prod.fst ∨ top_k ≤ out.length) ∧
      ∀ x ∈ out, x.2 = scoreOf s query f texts[x.1] := by
  have hn : texts.length ≠ 0 := fun h => hne (List.length_eq_zero_iff.mp h)
  have hstep' : (request s query texts rerank_batch_size batch_size).step ≠ 0 := hstep.ne'
  have hsound : Sound (request s query texts rerank_batch_size batch_size) texts.length :=
    sound_request hmodel hsize hstep
  have hhonest : Honest _ top_k (Reranking.upTo (Reranking.ranking sorting _ held) top_k) :=
    hsound.honest hn hstep' top_k
  refine ⟨_, Reranking.rerank_eq hn hstep' top_k, hhonest.once, hhonest.ordered, fun c => ?_,
    fun x hx => ?_⟩
  · rcases hhonest.kept c with hc | hc | ⟨start, -, hin, hnone⟩
    · exact .inl hc
    · exact .inr hc
    · obtain ⟨item, hitem, hnames⟩ := exists_names hmodel hsize hin
      exact absurd hnames (hnone item hitem)
  · obtain ⟨start, -, hin, item, hitem, hnames, hscore⟩ := hhonest.own x hx
    obtain ⟨i, text, -, htext, rfl⟩ := mem_response hmodel hsize hitem
    have hi : (i : ℤ) = (x.1 : ℤ) - start := Option.some.inj hnames
    rw [show start + i = x.1.val by omega] at htext
    rw [← hscore, ← (List.getElem?_eq_some_iff.mp htext).2]
    rfl

end Service

section Example

/-- A model that scores an input by its length. -/
def byLength : Service ℤ where
  instruction := "Find code"
  encode := fun t => t.toList.map Char.toNat
  model := fun batch => batch.map fun ids => .number ids.length
  batchSize := 2
  bucket := true

def snippets : List String := ["def f", "x", "return 1"]

theorem byLength_batching :
    rerank { byLength with batchSize := 1, bucket := false } "f" snippets =
      rerank byLength "f" snippets ∧
    rerank byLength "f" snippets = some (((inputs byLength "f" snippets).map fun ids =>
      Score.number (ids.length : ℤ)).zipIdx.map Prod.swap) :=
  rerank_batching (fun _ => rfl) (by decide) (by decide) false snippets

theorem byLength_ranking :
    ∃ out, Reranking.rerank (Reranking.descending ℤ (Fin snippets.length))
        (request byLength "f" snippets 20 none) (fun _ => .nan) 5 = some out ∧
      (out.map Prod.fst).Nodup ∧ out.Pairwise (fun a b => b.2 ≤ a.2) ∧
      (∀ c, c ∈ out.map Prod.fst ∨ (5 : ℤ) ≤ out.length) ∧
      ∀ x ∈ out, x.2 = scoreOf byLength "f" (fun ids => (ids.length : ℤ)) snippets[x.1] :=
  served_ranking _ _ (fun _ => rfl) (by decide) (by decide) (by decide) 5

end Example

end Treeweft.RerankService
