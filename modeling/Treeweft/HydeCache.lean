import Treeweft.Hydrate
import Treeweft.Keyed

/-!
The cache of hypothetical answers.

Calls overlap: one looks its key up, waits for the model, and puts the answer in. Meanwhile others
do the same, and the version of the prompt may change. The key leads with the version.
-/

namespace Treeweft.HydeCache

abbrev Text := List Char

def hydeCacheMax : ℕ := 1024

/-- A call, with the version of the prompt in effect when it came. -/
structure Call where
  version : ℕ
  language : Option Text
  query : Text

/-- What the model is asked: an empty language is as good as none. -/
def Call.prompt (c : Call) : ℕ × Text × Text := (c.version, c.language.getD [], c.query)

def Call.cacheKey (c : Call) : Text :=
  Nat.toDigits 10 c.version ++ '|' :: (c.language.getD [] ++ '|' :: c.query)

abbrev Cache := Keyed (Prod.fst : Text × Text → Text)

/-- `_hyde_cache_put`: when the cache is full the oldest key goes first. -/
def put (cache : Cache) (key value : Text) : Cache :=
  let cache := if hydeCacheMax ≤ cache.rows.length then
      match cache.rows.head? with
      | some oldest => cache.erase oldest.1
      | none => cache
    else cache
  cache.put (key, value)

/-- A call comes, the model answers one, or the pins are read again. -/
inductive Event
  | ask (id : ℕ) (language : Option Text) (query : Text)
  | reply (id : ℕ) (out : Option Text)
  | reload (version : ℕ)

/-- What was heard of the model and what was served from the cache are kept for the record. -/
structure State where
  version : ℕ
  cache : Cache := .empty
  asking : List (ℕ × Call) := []
  heard : List (Call × Text) := []
  served : List (Call × Text) := []

def step (s : State) : Event → State
  | .ask id language query =>
    let call : Call := ⟨s.version, language, query⟩
    match s.cache.get? call.cacheKey with
    | some hit => { s with served := (call, hit.2) :: s.served }
    | none => { s with asking := (id, call) :: s.asking }
  | .reply id out =>
    match s.asking.lookup id, out.filter (· ≠ []) with
    | some call, some out =>
      { s with
        asking := s.asking.filter (·.1 ≠ id)
        heard := (call, out) :: s.heard
        cache := put s.cache call.cacheKey out }
    | _, _ => { s with asking := s.asking.filter (·.1 ≠ id) }
  | .reload version =>
    { s with version := version, cache := if version = s.version then s.cache else .empty }

def run (version : ℕ) (es : List Event) : State := es.foldl step { version := version }

/-! ### Keys -/

lemma eq_of_append_sep {a b c d : Text} (ha : '|' ∉ a) (hc : '|' ∉ c)
    (h : a ++ '|' :: b = c ++ '|' :: d) : a = c ∧ b = d := by
  induction a generalizing c with
  | nil =>
    cases c with
    | nil => exact ⟨rfl, (List.cons.inj h).2⟩
    | cons x c =>
      obtain ⟨rfl, -⟩ := List.cons.inj h
      exact absurd List.mem_cons_self hc
  | cons x a ih =>
    cases c with
    | nil =>
      obtain ⟨rfl, -⟩ := List.cons.inj h
      exact absurd List.mem_cons_self ha
    | cons y c =>
      obtain ⟨rfl, hrest⟩ := List.cons.inj h
      obtain ⟨rfl, rfl⟩ := ih (fun hx => ha (List.mem_cons_of_mem _ hx))
        (fun hx => hc (List.mem_cons_of_mem _ hx)) hrest
      exact ⟨rfl, rfl⟩

def Call.Plain (c : Call) : Prop := '|' ∉ c.language.getD []

/-- Two calls of one key ask the model the same. -/
lemma prompt_eq_of_cacheKey {c d : Call} (hc : c.Plain) (hd : d.Plain)
    (h : c.cacheKey = d.cacheKey) : c.prompt = d.prompt := by
  have hdigits : ∀ n : ℕ, '|' ∉ Nat.toDigits 10 n := fun n hn =>
    absurd (Hydrate.isDigit_of_mem_toDigits hn) (by decide)
  obtain ⟨hversion, hrest⟩ := eq_of_append_sep (hdigits _) (hdigits _) h
  obtain ⟨hlanguage, hquery⟩ := eq_of_append_sep hc hd hrest
  have hv : c.version = d.version := by
    rw [← Nat.ofDigitChars_ten_toDigits (n := c.version), hversion, Nat.ofDigitChars_ten_toDigits]
  simp only [Call.prompt, hv, hlanguage, hquery]

/-! ### The Cache -/

lemma length_put_le (cache : Cache) (x : Text × Text) :
    (Keyed.put x cache).rows.length ≤ cache.rows.length + 1 := by
  unfold Keyed.put
  split
  · simp
  · simp

/-- The cache never outgrows its bound. -/
lemma length_put {cache : Cache} (h : cache.rows.length ≤ hydeCacheMax) (key value : Text) :
    (put cache key value).rows.length ≤ hydeCacheMax := by
  unfold put
  dsimp only
  refine (length_put_le _ _).trans ?_
  split_ifs with hfull
  · cases hhead : cache.rows.head? with
    | none =>
      rw [List.head?_eq_none_iff] at hhead
      rw [hhead] at hfull
      exact absurd hfull (by decide)
    | some oldest =>
      have hlt : (cache.erase oldest.1).rows.length < cache.rows.length :=
        List.length_filter_lt_length_iff_exists.mpr
          ⟨oldest, List.mem_of_head? hhead, by simp⟩
      dsimp only
      omega
  · omega

lemma mem_put {cache : Cache} {key value : Text} {x : Text × Text} (h : x ∈ put cache key value) :
    x = (key, value) ∨ x ∈ cache := by
  unfold put at h
  dsimp only at h
  rcases Keyed.mem_put.mp h with rfl | ⟨h, -⟩
  · exact .inl rfl
  · right
    split_ifs at h
    · cases hhead : cache.rows.head? with
      | none =>
        rw [hhead] at h
        exact h
      | some oldest =>
        rw [hhead] at h
        exact (Keyed.mem_erase.mp h).1
    · exact h

/-! ### Runs -/

/-- An entry of the cache is what the model answered to a call of its key. -/
structure Sound (s : State) : Prop where
  cached : ∀ x ∈ s.cache, ∃ c, (c, x.2) ∈ s.heard ∧ c.cacheKey = x.1
  plain : ∀ x ∈ s.heard, x.1.Plain
  asking : ∀ x ∈ s.asking, x.2.Plain
  served : ∀ x ∈ s.served, ∃ c, (c, x.2) ∈ s.heard ∧ c.prompt = x.1.prompt
  bounded : s.cache.rows.length ≤ hydeCacheMax

/-- The calls name no language with a bar in it. -/
def PlainEvent : Event → Prop
  | .ask _ language _ => '|' ∉ language.getD []
  | _ => True

lemma sound_step {s : State} (hs : Sound s) {e : Event} (he : PlainEvent e) : Sound (step s e) := by
  cases e with
  | ask id language query =>
    have hplain : (⟨s.version, language, query⟩ : Call).Plain := he
    unfold step
    dsimp only
    cases hget : s.cache.get? (⟨s.version, language, query⟩ : Call).cacheKey with
    | none =>
      exact { hs with asking := List.forall_mem_cons.mpr ⟨hplain, hs.asking⟩ }
    | some hit =>
      obtain ⟨hmem, hkey⟩ := Keyed.get?_eq_some.mp hget
      obtain ⟨c, hc, hck⟩ := hs.cached hit hmem
      refine { hs with served := List.forall_mem_cons.mpr ⟨⟨c, hc, ?_⟩, hs.served⟩ }
      exact prompt_eq_of_cacheKey (hs.plain _ hc) hplain (hck.trans hkey)
  | reply id out =>
    have hasking : ∀ x ∈ s.asking.filter (·.1 ≠ id), x.2.Plain :=
      fun x hx => hs.asking x (List.mem_of_mem_filter hx)
    unfold step
    dsimp only
    split
    · rename_i call out hcall hout
      have hplain : call.Plain := by
        obtain ⟨before, after, heq, -⟩ := List.lookup_eq_some_iff.mp hcall
        exact hs.asking (id, call) (by rw [heq]; simp)
      refine ⟨fun x hx => ?_, List.forall_mem_cons.mpr ⟨hplain, hs.plain⟩, hasking,
        fun x hx => ?_, length_put hs.bounded _ _⟩
      · rcases mem_put hx with rfl | hx
        · exact ⟨call, List.mem_cons_self, rfl⟩
        · obtain ⟨c, hc, hck⟩ := hs.cached x hx
          exact ⟨c, List.mem_cons_of_mem _ hc, hck⟩
      · obtain ⟨c, hc, hcp⟩ := hs.served x hx
        exact ⟨c, List.mem_cons_of_mem _ hc, hcp⟩
    · exact { hs with asking := hasking }
  | reload version =>
    unfold step
    dsimp only
    split_ifs
    · exact { hs with }
    · exact { hs with
        cached := fun x hx => absurd hx Keyed.not_mem_empty
        bounded := Nat.zero_le _ }

/-- **What is served was answered to the same prompt.** Over any calls and reloads, interleaved as
they may be, an answer from the cache is one that the model gave for the same version, language and
query, and the cache stays within its bound. -/
theorem served_of_same (version : ℕ) (es : List Event) (h : ∀ e ∈ es, PlainEvent e) :
    (∀ x ∈ (run version es).served, ∃ c, (c, x.2) ∈ (run version es).heard ∧
      c.prompt = x.1.prompt) ∧ (run version es).cache.rows.length ≤ hydeCacheMax := by
  have hs : Sound (run version es) := by
    induction es using List.reverseRecOn with
    | nil =>
      exact ⟨fun x hx => absurd hx Keyed.not_mem_empty, fun x hx => absurd hx List.not_mem_nil,
        fun x hx => absurd hx List.not_mem_nil, fun x hx => absurd hx List.not_mem_nil,
        Nat.zero_le _⟩
    | append_singleton es e ih =>
      rw [run, List.foldl_concat]
      exact sound_step (ih fun e he => h e (List.mem_append_left _ he)) (h e (by simp))
  exact ⟨hs.served, hs.bounded⟩

section Example

/-- A call, its answer, and the call again, before and after the version changes. -/
def twice : List Event :=
  [.ask 1 none ['q'], .reply 1 (some ['a']), .ask 2 (some []) ['q'], .reload 3, .ask 3 none ['q']]

theorem twice_served : (∀ x ∈ (run 2 twice).served, ∃ c, (c, x.2) ∈ (run 2 twice).heard ∧
    c.prompt = x.1.prompt) ∧ (run 2 twice).cache.rows.length ≤ hydeCacheMax :=
  served_of_same 2 twice (by simp [twice, PlainEvent])

/-- A bar in a language takes a part of the query for the language. -/
example : (⟨1, some ['a', '|', 'b'], ['c']⟩ : Call).cacheKey =
    (⟨1, some ['a'], ['b', '|', 'c']⟩ : Call).cacheKey := rfl

end Example

end Treeweft.HydeCache
