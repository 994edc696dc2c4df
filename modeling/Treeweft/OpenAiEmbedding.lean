import Mathlib.Algebra.Ring.Nat
import Mathlib.Data.List.Sort
import Mathlib.Data.List.Zip
import Treeweft.GreedyBatches
import Treeweft.Scatter

/-!
Embedding over an API that takes a limited number of texts and of tokens in a request.

Texts are clamped one by one and put into batches; each batch is asked for until it is answered, or
fails for good. An answer names the places of its vectors, and is put in their order.
-/

namespace Treeweft.OpenAiEmbedding

open GreedyBatches (batches Packed Fits)

abbrev Text := List Char

structure Encoder where
  encode : Text → List ℕ
  decode : List ℕ → Text

structure Settings where
  maxBatchSize : ℕ
  maxTokensPerRequest : ℕ
  maxTokensPerInput : ℕ
  retries : ℕ

/-! ### Batches -/

section Batches
variable (enc : Encoder) (cfg : Settings)

/-- `_truncate`: the text to send and its tokens. -/
def truncate (text : Text) : Text × ℕ :=
  if text = [] then ([' '], 1)
  else
    let toks := enc.encode text
    if toks.length ≤ cfg.maxTokensPerInput then (text, toks.length)
    else (enc.decode (toks.take cfg.maxTokensPerInput), cfg.maxTokensPerInput)

/-- The closed batches, the open one and its tokens. -/
structure Packing where
  batches : List (List Text) := []
  cur : List Text := []
  curTokens : ℕ := 0

def Packing.step (p : Packing) (t : Text) : Packing :=
  let (clamped, n) := truncate enc cfg t
  let p : Packing :=
    if p.cur ≠ [] ∧ (cfg.maxBatchSize ≤ p.cur.length ∨ cfg.maxTokensPerRequest < p.curTokens + n)
    then { batches := p.batches ++ [p.cur] } else p
  { p with cur := p.cur ++ [clamped], curTokens := p.curTokens + n }

/-- `_build_batches` -/
def buildBatches (texts : List Text) : List (List Text) :=
  let p := texts.foldl (Packing.step enc cfg) {}
  if p.cur = [] then p.batches else p.batches ++ [p.cur]

/-- The tokens of a batch whose texts come with theirs. -/
def tokens (batch : List (Text × ℕ)) : ℕ := (batch.map Prod.snd).sum

def full (batch : List (Text × ℕ)) (t : Text × ℕ) : Bool :=
  cfg.maxBatchSize ≤ batch.length || cfg.maxTokensPerRequest < tokens batch + t.2

/-- The batches with the tokens of their texts. -/
def counted (texts : List Text) : List (List (Text × ℕ)) :=
  batches (full cfg) (texts.map (truncate enc cfg))

lemma foldl_step (texts : List Text) (p : Packing)
    (q : List (List (Text × ℕ)) × List (Text × ℕ))
    (hbatches : p.batches = q.1.map (List.map Prod.fst)) (hcur : p.cur = q.2.map Prod.fst) (htokens : p.curTokens = tokens q.2) :
    let p' := texts.foldl (Packing.step enc cfg) p
    let q' := (texts.map (truncate enc cfg)).foldl (GreedyBatches.pack (full cfg)) q
    p'.batches = q'.1.map (List.map Prod.fst) ∧ p'.cur = q'.2.map Prod.fst := by
  induction texts generalizing p q with
  | nil => exact ⟨hbatches, hcur⟩
  | cons t texts ih =>
    have hne : p.cur ≠ [] ↔ q.2 ≠ [] := by rw [hcur, ne_eq, List.map_eq_nil_iff]
    have hfull : (cfg.maxBatchSize ≤ p.cur.length ∨
        cfg.maxTokensPerRequest < p.curTokens + (truncate enc cfg t).2) ↔
          full cfg q.2 (truncate enc cfg t) = true := by
      rw [hcur, htokens, List.length_map]
      simp [full]
    refine ih _ _ ?_ ?_ ?_
    all_goals
      unfold Packing.step GreedyBatches.pack
      dsimp only
      by_cases h : q.2 ≠ [] ∧ full cfg q.2 (truncate enc cfg t) = true
      · rw [if_pos h, if_pos ⟨hne.mpr h.1, hfull.mpr h.2⟩]
        simp [hbatches, hcur, tokens]
      · rw [if_neg h, if_neg fun h' => h ⟨hne.mp h'.1, hfull.mp h'.2⟩]
        simp [hbatches, hcur, htokens, tokens]

lemma buildBatches_eq (texts : List Text) :
    buildBatches enc cfg texts = (counted enc cfg texts).map (List.map Prod.fst) := by
  obtain ⟨hbatches, hcur⟩ := foldl_step enc cfg texts {} ([], []) rfl rfl rfl
  unfold buildBatches counted GreedyBatches.batches GreedyBatches.close
  dsimp only
  rw [hcur, hbatches]
  simp only [List.map_eq_nil_iff]
  split_ifs <;> simp

variable {cfg} in
/-- What fits was put in while there was room: the caps hold, but for a text on its own. -/
lemma caps_of_fits {batch : List (Text × ℕ)} (hne : batch ≠ []) (h : Fits (full cfg) batch) :
    batch.length ≤ max 1 cfg.maxBatchSize ∧
      (tokens batch ≤ cfg.maxTokensPerRequest ∨ batch.length = 1) := by
  rcases List.eq_nil_or_concat batch with rfl | ⟨before, t, rfl⟩
  · exact absurd rfl hne
  rw [List.concat_eq_append] at h ⊢
  by_cases hbefore : before = []
  · subst hbefore
    exact ⟨Nat.le_max_left _ _, .inr rfl⟩
  · have hroom := h before t [] rfl hbefore
    rw [full, Bool.or_eq_false_iff, decide_eq_false_iff_not, decide_eq_false_iff_not] at hroom
    have htokens : tokens (before ++ [t]) = tokens before + t.2 := by simp [tokens]
    rw [htokens, List.length_append, List.length_singleton]
    exact ⟨by omega, .inl (by omega)⟩

/-- **The batches of some texts**: their clamped texts in order, no batch empty, each within the
caps but for one text alone, and each too full for the first text of the next. -/
theorem buildBatches_spec (texts : List Text) : ∃ bs : List (List (Text × ℕ)),
    buildBatches enc cfg texts = bs.map (List.map Prod.fst) ∧
      bs.flatten = texts.map (truncate enc cfg) ∧
      (∀ b ∈ bs, b ≠ [] ∧ b.length ≤ max 1 cfg.maxBatchSize ∧
        (tokens b ≤ cfg.maxTokensPerRequest ∨ b.length = 1)) ∧
      bs.IsChain (GreedyBatches.Closes (full cfg)) := by
  have hpacked : GreedyBatches.Packed (full cfg) _ (counted enc cfg texts) :=
    GreedyBatches.batches_packed (texts.map (truncate enc cfg))
  refine ⟨counted enc cfg texts, buildBatches_eq enc cfg texts, hpacked.flatten, fun b hb => ?_,
    hpacked.closes⟩
  exact ⟨hpacked.ne_nil b hb, caps_of_fits (hpacked.ne_nil b hb) (hpacked.fits b hb)⟩

lemma flatten_buildBatches (texts : List Text) :
    (buildBatches enc cfg texts).flatten = texts.map fun t => (truncate enc cfg t).1 := by
  have hpacked : GreedyBatches.Packed (full cfg) _ (counted enc cfg texts) :=
    GreedyBatches.batches_packed (texts.map (truncate enc cfg))
  rw [buildBatches_eq, ← List.map_flatten, hpacked.flatten, List.map_map]
  rfl

end Batches

/-! ### Requests -/

/-- The answer to a request: vectors with their places, another body, a status that is no success,
or none at all. -/
inductive Response (V : Type)
  | items (l : List (ℤ × V))
  | malformed
  | status (code : ℕ)
  | transport

section Embed
variable {V : Type} (enc : Encoder) (cfg : Settings)

def Response.retryable : Response V → Bool
  | .status code => code = 429 || 500 ≤ code
  | .transport => true
  | _ => false

/-- The vectors of an answer, in the order of their places. -/
def vectors (l : List (ℤ × V)) : List V :=
  (l.mergeSort fun x y => decide (x.1 ≤ y.1)).map Prod.snd

/-- `_embed_batch`: the attempts that are left, and the number of the next. -/
def attempts (responses : ℕ → Response V) : ℕ → ℕ → Option (List V)
  | 0, _ => none
  | left + 1, attempt =>
    match responses attempt with
    | .items l => some (vectors l)
    | r => if r.retryable then attempts responses left (attempt + 1) else none

/-- `embed`: the attempts of a batch have their own answers, in whatever order they come. -/
def embed (responses : ℕ → ℕ → Response V) (texts : List Text) : Option (List V) :=
  ((buildBatches enc cfg texts).zipIdx.mapM fun b => attempts (responses b.2) cfg.retries 0).map
    List.flatten

/-- An attempt of a batch succeeds, and those before it may be repeated. -/
def Answered (responses : ℕ → Response V) (attempt : ℕ) (l : List (ℤ × V)) : Prop :=
  responses attempt = .items l ∧ ∀ a < attempt, (responses a).retryable = true

/-- The vectors of a text each, under their places in any order. -/
def HonestFor (f : Text → V) (batch : List Text) (l : List (ℤ × V)) : Prop :=
  l.Perm (batch.zipIdx.map fun t => ((t.2 : ℤ), f t.1))

lemma attempts_eq_some {responses : ℕ → Response V} {left attempt : ℕ} {vs : List V} :
    attempts responses left attempt = some vs ↔ ∃ a l, attempt ≤ a ∧ a < attempt + left ∧
      responses a = .items l ∧ (∀ a' < a, attempt ≤ a' → (responses a').retryable = true) ∧
      vs = vectors l := by
  induction left generalizing attempt with
  | zero =>
    refine iff_of_false (fun h => by cases h) ?_
    rintro ⟨a, l, hle, hlt, -⟩
    omega
  | succ left ih =>
    unfold attempts
    constructor
    · intro h
      split at h
      · rename_i l hl
        exact ⟨attempt, l, le_rfl, by omega, hl, fun a' hlt hle => by omega,
          (Option.some.inj h).symm⟩
      · rename_i hr
        split_ifs at h with hretry
        obtain ⟨a, l, hle, hlt, hl, hall, hvs⟩ := ih.mp h
        refine ⟨a, l, by omega, by omega, hl, fun a' hlt' hle' => ?_, hvs⟩
        rcases Nat.eq_or_lt_of_le hle' with rfl | hlt''
        · exact hretry
        · exact hall a' hlt' hlt''
    · rintro ⟨a, l, hle, hlt, hl, hall, rfl⟩
      rcases Nat.eq_or_lt_of_le hle with rfl | hlt'
      · rw [hl]
      · have hretry := hall attempt hlt' le_rfl
        split
        · rename_i l' hl'
          rw [hl'] at hretry
          cases hretry
        · rw [if_pos hretry]
          exact ih.mpr ⟨a, l, hlt', by omega, hl, fun a' h h' => hall a' h (by omega), rfl⟩

lemma vectors_of_honest {f : Text → V} {batch : List Text} {l : List (ℤ × V)}
    (h : HonestFor f batch l) : vectors l = batch.map f := by
  have htrans : ∀ a b c : ℤ × V, decide (a.1 ≤ b.1) → decide (b.1 ≤ c.1) → decide (a.1 ≤ c.1) :=
    fun a b c hab hbc => decide_eq_true
      (le_trans (of_decide_eq_true hab) (of_decide_eq_true hbc))
  have htotal : ∀ a b : ℤ × V, decide (a.1 ≤ b.1) || decide (b.1 ≤ a.1) :=
    fun a b => by simp [le_total]
  have hsorted : (l.mergeSort fun x y => decide (x.1 ≤ y.1)).Pairwise fun x y => x.1 ≤ y.1 :=
    (List.pairwise_mergeSort htrans htotal l).imp of_decide_eq_true
  have hplaces : (batch.zipIdx.map fun t => ((t.2 : ℤ), f t.1)).Pairwise fun x y => x.1 ≤ y.1 := by
    refine List.pairwise_map.mpr (List.pairwise_iff_getElem.mpr fun i j hi hj hij => ?_)
    simp only [List.getElem_zipIdx]
    omega
  have heq : (l.mergeSort fun x y => decide (x.1 ≤ y.1)) =
      batch.zipIdx.map fun t => ((t.2 : ℤ), f t.1) := by
    refine List.Perm.eq_of_pairwise (fun x y hx hy hxy hyx => ?_) hsorted hplaces
      ((List.mergeSort_perm _ _).trans h)
    -- two vectors with one place are those of one text
    obtain ⟨⟨t, i⟩, ht, rfl⟩ := List.mem_map.mp
      (h.mem_iff.mp ((List.mergeSort_perm _ _).mem_iff.mp hx))
    obtain ⟨⟨u, j⟩, hu, rfl⟩ := List.mem_map.mp hy
    have hij : i = j := by
      have hij' : (i : ℤ) = j := le_antisymm hxy hyx
      exact_mod_cast hij'
    subst hij
    have htu : some t = some u :=
      (List.mem_zipIdx_iff_getElem?.mp ht).symm.trans (List.mem_zipIdx_iff_getElem?.mp hu)
    rw [Option.some.inj htu]
  rw [vectors, heq, List.map_map]
  have hfst : batch.zipIdx.map (f ∘ Prod.fst) = batch.map f := by
    rw [← List.map_map, List.zipIdx_map_fst]
  exact hfst

lemma attempts_honest {f : Text → V} {batch : List Text} {responses : ℕ → Response V}
    (h : ∀ a l, responses a = .items l → HonestFor f batch l) (retries : ℕ) {vs : List V} :
    attempts responses retries 0 = some vs ↔
      (∃ a < retries, ∃ l, Answered responses a l) ∧ vs = batch.map f := by
  rw [attempts_eq_some]
  constructor
  · rintro ⟨a, l, -, hlt, hl, hall, rfl⟩
    exact ⟨⟨a, by omega, l, hl, fun a' ha' => hall a' ha' (Nat.zero_le _)⟩,
      vectors_of_honest (h a l hl)⟩
  · rintro ⟨⟨a, hlt, l, hl, hall⟩, rfl⟩
    exact ⟨a, l, Nat.zero_le _, by omega, hl, fun a' ha' _ => hall a' ha',
      (vectors_of_honest (h a l hl)).symm⟩

/-- **Vectors in the order of the texts**: against an API that gives each text's vector under its
place, in any order, an embedding succeeds exactly when each batch is answered in time, and then
gives the vector of each clamped text, one by one. -/
theorem embed_eq_some_iff (f : Text → V) (responses : ℕ → ℕ → Response V) (texts : List Text)
    (hhonest : ∀ i batch, (buildBatches enc cfg texts)[i]? = some batch →
      ∀ a l, responses i a = .items l → HonestFor f batch l) (vs : List V) :
    embed enc cfg responses texts = some vs ↔
      (∀ i < (buildBatches enc cfg texts).length, ∃ a < cfg.retries, ∃ l,
        Answered (responses i) a l) ∧ vs = texts.map fun t => f (truncate enc cfg t).1 := by
  set bs := buildBatches enc cfg texts with hbs
  have hattempts : ∀ i batch, bs[i]? = some batch → ∀ out : List V,
      attempts (responses i) cfg.retries 0 = some out ↔
        (∃ a < cfg.retries, ∃ l, Answered (responses i) a l) ∧ out = batch.map f :=
    fun i batch hi out => attempts_honest (hhonest i batch hi) cfg.retries
  have hflat : (bs.map (List.map f)).flatten = texts.map fun t => f (truncate enc cfg t).1 := by
    rw [← List.map_flatten, hbs, flatten_buildBatches, List.map_map]
    rfl
  have hall : (∀ i < bs.length, ∃ a < cfg.retries, ∃ l, Answered (responses i) a l) ↔
      bs.zipIdx.map (fun b => attempts (responses b.2) cfg.retries 0) =
        (bs.map (List.map f)).map some := by
    constructor
    · intro h
      refine List.ext_getElem? fun i => ?_
      rw [List.getElem?_map, List.getElem?_map, List.getElem?_map, List.getElem?_zipIdx]
      cases hi : bs[i]? with
      | none => rfl
      | some batch =>
        rw [Option.map_some, Option.map_some, Option.map_some, Nat.zero_add]
        exact congrArg some ((hattempts i batch hi _).mpr
          ⟨h i (List.getElem?_eq_some_iff.mp hi).1, rfl⟩)
    · intro h i hi
      have hget := congrArg (fun l => l[i]?) h
      simp only [List.getElem?_map, List.getElem?_zipIdx, List.getElem?_eq_getElem hi,
        Option.map_some, Option.some.injEq, Nat.zero_add] at hget
      exact ((hattempts i bs[i] (List.getElem?_eq_getElem hi) _).mp hget).1
  rw [embed, ← hbs, Option.map_eq_some_iff]
  constructor
  · rintro ⟨out, hout, rfl⟩
    have hmap := Scatter.mapM_eq_some_iff.mp hout
    have heq : out = bs.map (List.map f) := by
      refine List.ext_getElem? fun i => ?_
      have hget := congrArg (fun l => l[i]?) hmap
      simp only [List.getElem?_map, List.getElem?_zipIdx, Option.map_map] at hget
      cases hi : bs[i]? with
      | none =>
        rw [hi] at hget
        rw [List.getElem?_map, hi]
        exact Option.map_eq_none_iff.mp hget.symm
      | some batch =>
        rw [hi] at hget
        obtain ⟨o, ho, hattempt⟩ := Option.map_eq_some_iff.mp hget.symm
        rw [Nat.zero_add] at hattempt
        rw [List.getElem?_map, hi, ho, ((hattempts i batch hi o).mp hattempt.symm).2]
        rfl
    subst heq
    exact ⟨hall.mpr hmap, hflat⟩
  · rintro ⟨h, rfl⟩
    exact ⟨bs.map (List.map f), Scatter.mapM_eq_some_iff.mpr (hall.mp h), hflat⟩

end Embed

section Example

def letters : Encoder := ⟨fun t => t.map Char.toNat, fun toks => toks.map Char.ofNat⟩

def small : Settings := ⟨2, 6, 4, 3⟩

/-- Three texts, the second batch a text that is cut. -/
def words : List Text := ["ab".toList, "c".toList, "defgh".toList]

/-- The first batch is answered out of order, the second after a status 429. -/
def answers : ℕ → ℕ → Response ℕ
  | 0, _ => .items [(1, 1), (0, 2)]
  | 1, 0 => .status 429
  | _, _ => .items [(0, 4)]

theorem words_embedded : embed letters small answers words = some [2, 1, 4] ↔
    (∀ i < (buildBatches letters small words).length, ∃ a < small.retries, ∃ l,
      Answered (answers i) a l) ∧
      [2, 1, 4] = words.map fun t => (truncate letters small t).1.length :=
  embed_eq_some_iff letters small List.length answers words (by
    intro i batch hi a l hl
    match i with
    | 0 =>
      obtain rfl := Option.some.inj hi
      obtain rfl := Response.items.inj hl
      exact List.Perm.swap _ _ _
    | 1 =>
      obtain rfl := Option.some.inj hi
      match a with
      | 0 => cases hl
      | a + 1 =>
        obtain rfl := Response.items.inj hl
        exact .refl _
    | i + 2 => cases hi) _

end Example

end Treeweft.OpenAiEmbedding
