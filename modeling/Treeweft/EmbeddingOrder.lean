import Treeweft.EmbeddingProxy
import Mathlib.Data.List.Forall2

/-!
The vectors of `embed`: one for each text, in order.

A call keeps what it has heard, a pair for each text of a successful answer and its vector; the
result is put together from these pairs. Splitting ends, with a bounded number of parts.
-/

namespace Treeweft.EmbeddingProxy

open Machine (State Label Run Kept initial)

/-! ### Slices -/

section Slices
variable {α : Type} {limit : ℕ} {xs : List α}

lemma slices_nil (limit : ℕ) : slices limit ([] : List α) = [] := by
  cases limit with
  | zero => simp [slices]
  | succ l => simp [slices, Nat.div_eq_of_lt]

lemma slices_cons (hl : 0 < limit) (hx : xs ≠ []) :
    slices limit xs = xs.take limit :: slices limit (xs.drop limit) := by
  have hlen : 0 < xs.length := List.length_pos_iff.2 hx
  have hcount : (xs.length + limit - 1) / limit =
      ((xs.drop limit).length + limit - 1) / limit + 1 := by
    rw [List.length_drop]
    rcases Nat.lt_or_ge xs.length limit with h | h
    · rw [Nat.sub_eq_zero_of_le h.le, Nat.zero_add, Nat.div_eq_of_lt (by omega : limit - 1 < limit),
        show xs.length + limit - 1 = (xs.length - 1) + limit by omega, Nat.add_div_right _ hl,
        Nat.div_eq_of_lt (by omega)]
    · rw [show xs.length + limit - 1 = (xs.length - limit + limit - 1) + limit by omega,
        Nat.add_div_right _ hl]
  unfold slices
  rw [hcount, List.range_succ_eq_map, List.map_cons, List.map_map]
  congr 1
  · simp
  · refine List.map_congr_left fun i _ => ?_
    simp only [Function.comp_apply, Nat.succ_eq_add_one, List.drop_drop, Nat.add_mul, Nat.one_mul]
    rw [Nat.add_comm]

/-- Slicing loses no element, and no slice is empty or too long. -/
lemma slices_spec (hl : 0 < limit) (xs : List α) : (slices limit xs).flatten = xs ∧
    ∀ part ∈ slices limit xs, part ≠ [] ∧ part.length ≤ limit := by
  induction h : xs.length using Nat.strong_induction_on generalizing xs with
  | _ n ih =>
    by_cases hx : xs = []
    · subst hx
      simp [slices_nil]
    · have hlen : 0 < xs.length := List.length_pos_iff.2 hx
      obtain ⟨hflat, hparts⟩ := ih (xs.drop limit).length
        (by rw [List.length_drop, ← h]; omega) _ rfl
      rw [slices_cons hl hx]
      refine ⟨by rw [List.flatten_cons, hflat, List.take_append_drop], fun part hp => ?_⟩
      rcases List.mem_cons.1 hp with rfl | hp
      · exact ⟨by simp [hx]; omega, List.length_take_le ..⟩
      · exact hparts part hp

/-- What is longer than the limit is cut at least once. -/
lemma two_le_slices (hl : 0 < limit) (h : limit < xs.length) : 2 ≤ (slices limit xs).length := by
  have hx : xs ≠ [] := List.length_pos_iff.1 (Nat.zero_lt_of_lt h)
  have hd : xs.drop limit ≠ [] := by
    rw [Ne, List.drop_eq_nil_iff]
    omega
  rw [slices_cons hl hx, slices_cons hl hd]
  simp

end Slices

/-! ### What a call has heard -/

namespace Order

variable {V : Type} {c : Settings V}

/-- The pairs heard so far, the size of the present batch, and the posts made for it on the present
backend. -/
structure Progress (V : Type) where
  heard : List (String × V)
  size : ℕ
  posts : ℕ

/-- The posts that a batch may need: each split makes at least two parts of one. -/
def postBound (size : ℕ) : ℕ := 2 * max 1 size - 1

/-- The vectors are, one by one, what was heard for the texts. -/
def Heard (l : Progress V) (texts : List String) (out : List V) : Prop :=
  List.Forall₂ (fun x v => (x, v) ∈ l.heard) texts out

def may (l : Progress V) : Op V → Prop
  | .cap _ => l.posts < postBound l.size
  | .returned texts out => Heard l texts out
  | _ => True

/-- A successful answer has one vector for each text. -/
def admits : (o : Op V) → o.Answer V → Prop
  | .reply _ batch, .response r => ∀ out, r.vectors = some out → batch.length = out.length
  | _, _ => True

def after (l : Progress V) : (o : Op V) → o.Answer V → Progress V
  | .maxChunkCost batch, _ => { l with size := batch.length }
  | .survey .., _ => { l with posts := 0 }
  | .cap _, _ => { l with posts := l.posts + 1 }
  | .reply _ batch, .response r => { l with heard := l.heard ++ batch.zip (r.vectors.getD []) }
  | _, _ => l

abbrev discipline (V : Type) : Discipline (signature V) where
  Local := Progress V
  init := ⟨[], 0, 0⟩
  may := may
  admits _ := admits
  after := after

/-- What is heard is kept, and at most `k` posts are made. -/
structure Grows (k : ℕ) (l l' : Progress V) : Prop where
  heard : l.heard ⊆ l'.heard
  size : l'.size = l.size
  posts : l'.posts ≤ l.posts + k

lemma Grows.refl (k : ℕ) (l : Progress V) : Grows k l l :=
  ⟨List.Subset.refl _, rfl, Nat.le_add_right ..⟩

lemma Grows.trans {j k : ℕ} {l l' l'' : Progress V} (h : Grows j l l') (h' : Grows k l' l'') :
    Grows (j + k) l l'' :=
  ⟨List.Subset.trans h.heard h'.heard, h'.size.trans h.size, by
    have h₁ := h.posts
    have h₂ := h'.posts
    omega⟩

lemma Grows.mono {j k : ℕ} {l l' : Progress V} (h : Grows j l l') (hjk : j ≤ k) : Grows k l l' :=
  ⟨h.heard, h.size, h.posts.trans (Nat.add_le_add_left hjk _)⟩

lemma Heard.grows {k : ℕ} {l l' : Progress V} {texts : List String} {out : List V}
    (h : Heard l texts out) (hg : Grows k l l') : Heard l' texts out :=
  h.imp fun _ _ hx => hg.heard hx

lemma Heard.append {l : Progress V} {xs ys : List String} {out rest : List V}
    (h : Heard l xs out) (h' : Heard l ys rest) : Heard l (xs ++ ys) (out ++ rest) :=
  List.rel_append h h'

/-! ### Posts -/

lemma overlooks : Overlooks (discipline V) := by
  intro l o ho
  cases o <;> first | exact ho.elim | exact ⟨trivial, fun _ _ => rfl⟩

/-- An answer to a request adds to what was heard. -/
lemma requests (b : ℕ) (batch : List String) {k m : ℕ} (hk : k ≤ m) (l₀ : Progress V) :
    Requests (discipline V) b batch (Grows k l₀) (Grows k l₀) (Grows k l₀)
      (fun r l => Grows k l₀ l ∧ ∀ out, r.vectors = some out → Heard l batch out)
      (fun _ => Grows m l₀) where
  post l hl := ⟨trivial, fun _ _ => hl⟩
  reply l hl := by
    refine ⟨trivial, fun r hr => ?_⟩
    cases r with
    | readTimeout => exact hl
    | raised http => exact hl.mono hk
    | response r =>
      refine ⟨⟨List.Subset.trans hl.heard (List.subset_append_left ..), hl.size, hl.posts⟩, ?_⟩
      intro out hout
      refine List.forall₂_iff_zip.2 ⟨hr out hout, fun {x v} hxv => ?_⟩
      refine List.mem_append_right _ ?_
      rwa [hout]
  heard _ _ h := h.1
  resend _ h := h
  http _ _ h _ := h.mono hk
  opened _ h := h.mono hk
  cancelled _ _ h _ := h.mono hk
  woken _ h _ := h.mono hk
  succeed _ _ := ⟨trivial, fun _ _ => rfl⟩
  fail _ _ _ _ := ⟨trivial, fun _ _ => rfl⟩

lemma one_le_postBound (n : ℕ) : 1 ≤ postBound n := by
  unfold postBound
  omega

/-- What `p` returns was heard for the texts, after at most as many posts as they may need. -/
def Posts (p : Act V (List V)) (texts : List String) (k : ℕ) : Prop :=
  ∀ l : Progress V, l.posts + k ≤ postBound l.size →
    (discipline V).wp p (fun out l' => Grows k l l' ∧ Heard l' texts out) (fun _ => Grows k l) l

lemma posts_collect {post : List String → Act V (List V)} (parts : List (List String))
    (h : ∀ part ∈ parts, Posts (post part) part (postBound part.length)) :
    Posts (collect post parts) parts.flatten (parts.map fun p => postBound p.length).sum := by
  induction parts with
  | nil => exact fun l _ => ⟨Grows.refl _ l, .nil⟩
  | cons part parts ih =>
    intro l hl
    rw [List.map_cons, List.sum_cons] at hl ⊢
    refine Discipline.wp_seq (h part (by simp) l (by omega)) (fun out l' hout => ?_)
      fun _ _ hg => hg.mono (Nat.le_add_right ..)
    have hl' : l'.posts + (parts.map fun p => postBound p.length).sum ≤ postBound l'.size := by
      have := hout.1.posts
      rw [hout.1.size]
      omega
    refine Discipline.wp_seq (ih (fun p hp => h p (by simp [hp])) l' hl') (fun rest l'' hrest => ?_)
      fun _ _ hg => hout.1.trans hg
    exact ⟨hout.1.trans hrest.1, (hout.2.grows hrest.1).append hrest.2⟩

/-- The parts of a split batch need fewer posts than the batch may. -/
lemma sum_postBound {limit : ℕ} {batch : List String} (hl : 0 < limit) (h : limit < batch.length) :
    ((slices limit batch).map fun p => postBound p.length).sum + 1 ≤ postBound batch.length := by
  have hsum : ∀ parts : List (List String), (∀ part ∈ parts, part ≠ []) →
      (parts.map fun p => postBound p.length).sum + parts.length = 2 * parts.flatten.length := by
    intro parts hne
    induction parts with
    | nil => rfl
    | cons part parts ih =>
      have hpart : 0 < part.length := List.length_pos_iff.2 (hne part (by simp))
      have := ih fun p hp => hne p (by simp [hp])
      simp only [List.map_cons, List.sum_cons, List.length_cons, List.flatten_cons,
        List.length_append, postBound] at this ⊢
      omega
  obtain ⟨hflat, hparts⟩ := slices_spec hl batch
  have h₁ := hsum (slices limit batch) fun p hp => (hparts p hp).1
  have h₂ := two_le_slices hl h
  rw [hflat] at h₁
  unfold postBound at h₁ ⊢
  omega

/-- One post, if the parts of a split batch are known to do with fewer. -/
lemma posts_postBody {b : ℕ} {batch : List String} {split : ℕ → Act V (List V)}
    (hsplit : ∀ limit, 0 < limit → limit < batch.length →
      Posts (split limit) batch ((slices limit batch).map fun p => postBound p.length).sum) :
    Posts (postBody split b batch) batch (postBound batch.length) := by
  intro l hl
  have hone := one_le_postBound batch.length
  refine wp_postBody (I := fun l' => l' = l) overlooks (requests b batch hone l) ?_ ?_ ?_ ?_ rfl
  · rintro _ rfl
    exact ⟨by change _ < _; omega, fun _ _ => ⟨List.Subset.refl _, rfl, Nat.le_refl _⟩⟩
  · -- the post itself counts one, which leaves room for its parts
    intro limit l' h₀ hlt hg
    have hsum := sum_postBound h₀ hlt
    have hposts := hg.posts
    have hmono : ∀ {l''}, Grows ((slices limit batch).map fun p => postBound p.length).sum l' l'' →
        Grows (postBound batch.length) l l'' := fun h => (hg.trans h).mono (by omega)
    refine Discipline.wp_mono (fun out l'' h => ⟨hmono h.1, h.2⟩) (fun _ _ h => hmono h)
      (hsplit limit h₀ hlt l' ?_)
    rw [hg.size]
    omega
  · exact fun r l' out hr hout => ⟨hr.1.mono hone, hr.2 out hout⟩
  · exact fun r l' hr _ _ => hr.1.mono hone

lemma posts_postWithin (b depth : ℕ) (batch : List String) (hd : batch.length ≤ depth) :
    Posts (V := V) (postWithin depth b batch) batch (postBound batch.length) := by
  induction depth generalizing batch with
  | zero => exact posts_postBody fun limit _ hlt => absurd (hlt.trans_le hd) (Nat.not_lt_zero _)
  | succ depth ih =>
    refine posts_postBody fun limit h₀ hlt => ?_
    obtain ⟨hflat, hparts⟩ := slices_spec h₀ batch
    have := posts_collect (slices limit batch) fun part hp =>
      ih part ((hparts part hp).2.trans (Nat.le_of_lt_succ (hlt.trans_le hd)))
    rwa [hflat] at this

/-! ### Batches -/

/-- What a loop returns was heard for its texts. -/
def Gathers (texts : List String) (l : Progress V) (o : Option (List V)) (l' : Progress V) : Prop :=
  l.heard ⊆ l'.heard ∧ ∀ out, o = some out → Heard l' texts out

lemma wp_failover (require_cpu : Bool) (batch : List String) (turns : ℕ) (tried : List Url)
    (last : Option Exc) {l : Progress V} (hl : l.size = batch.length) :
    (discipline V).wp (failover require_cpu batch turns tried last) (Gathers batch l)
      (fun _ _ => True) l := by
  induction turns generalizing tried last l with
  | zero => exact ⟨List.Subset.refl _, nofun⟩
  | succ turns ih =>
    refine wp_perform.2 ⟨trivial, fun backends _ => ?_⟩
    split
    · split
      · trivial
      · rename_i b _
        have hpost := posts_postWithin (V := V) b.ref batch.length batch (Nat.le_refl _)
          { l with posts := 0 } (by simp [hl])
        refine wp_tryAct hpost (fun out l' h => ?_) fun e l' h => ?_
        · refine ⟨h.1.heard, fun out' hout => ?_⟩
          cases hout
          exact h.2
        · simp only
          split
          · refine Discipline.wp_mono (fun o l'' h' => ?_) (fun _ _ h => h)
              (ih (b.url :: tried) (some e) (h.size.trans hl))
            exact ⟨List.Subset.trans h.heard h'.1, h'.2⟩
          · trivial
    · trivial

lemma wp_embedBatch (gpu_max_tokens turns : ℕ) (batch : List String) (l : Progress V) :
    (discipline V).wp (embedBatch gpu_max_tokens turns batch) (Gathers batch l)
      (fun _ _ => True) l := by
  refine wp_perform.2 ⟨trivial, fun (cost : ℕ) _ => ?_⟩
  exact wp_failover (V := V) (decide (cost > gpu_max_tokens)) batch turns [] none
    (l := { l with size := batch.length }) rfl

lemma wp_embedSlices (gpu_max_tokens turns : ℕ) (batches : List (List String)) (l : Progress V) :
    (discipline V).wp (embedSlices gpu_max_tokens turns batches) (Gathers batches.flatten l)
      (fun _ _ => True) l := by
  induction batches generalizing l with
  | nil =>
    refine ⟨List.Subset.refl _, fun out hout => ?_⟩
    cases hout
    exact .nil
  | cons batch batches ih =>
    refine Discipline.wp_seq (wp_embedBatch gpu_max_tokens turns batch l) (fun o l' h => ?_)
      fun _ _ h => h
    cases o with
    | none => exact ⟨h.1, nofun⟩
    | some out =>
      refine Discipline.wp_seq (ih l') (fun o' l'' h' => ?_) fun _ _ h => h
      have hsub := List.Subset.trans h.1 h'.1
      cases o' with
      | none => exact ⟨hsub, nofun⟩
      | some rest =>
        refine ⟨hsub, fun out' hout => ?_⟩
        cases hout
        exact Heard.append ((h.2 out rfl).imp fun _ _ hx => h'.1 hx) (h'.2 rest rfl)

lemma wp_call (gpu_max_tokens max_batch_size turns : ℕ) (texts : List String) (l : Progress V) :
    (discipline V).wp (call gpu_max_tokens max_batch_size turns texts) (fun _ _ => True)
      (fun _ _ => True) l := by
  have hembed : (discipline V).wp (embed gpu_max_tokens max_batch_size turns texts)
      (Gathers texts l) (fun _ _ => True) l := by
    unfold embed
    split
    · trivial
    · rename_i h
      have := wp_embedSlices gpu_max_tokens turns (slices max_batch_size texts) l
      rwa [(slices_spec (Nat.pos_of_ne_zero h) texts).1] at this
  refine wp_tryAct hembed (fun o l' h => ?_) fun e l' _ => wp_perform.2 ⟨trivial, fun _ _ => trivial⟩
  cases o with
  | none => trivial
  | some out => exact wp_perform.2 ⟨h.2 out rfl, fun _ _ => trivial⟩

/-! ### Splitting ends -/

section Splitting
variable {b : ℕ} {batch : List String}

/-- A post splits to limits below the length of the batch only. -/
lemma postBody_congr {split split' : ℕ → Act V (List V)}
    (h : ∀ limit, 0 < limit → limit < batch.length → split limit = split' limit) :
    postBody split b batch = postBody split' b batch := by
  have hsend : ∀ cost r, afterSend split b batch cost r = afterSend split' b batch cost r := by
    intro cost r
    cases r with
    | error e => rfl
    | ok r =>
      simp only [afterSend]
      cases hl : splitLimit batch r with
      | none => rfl
      | some limit =>
        have hlimit : 0 < limit ∧ limit < batch.length := by
          unfold splitLimit at hl
          split at hl
          · have := of_decide_eq_true (Option.filter_eq_some_iff.1 hl).2
            omega
          · cases hl
        simp only
        rw [h limit hlimit.1 hlimit.2]
  unfold postBody
  congr 1
  funext cap
  split
  · rename_i limit hl
    have := of_decide_eq_true (Option.filter_eq_some_iff.1 hl).2
    exact h limit (by omega) this.2
  · exact congrArg _ (funext fun cost => congrArg _ (funext fun r => hsend cost r))

lemma collect_congr {post post' : List String → Act V (List V)} {parts : List (List String)}
    (h : ∀ part ∈ parts, post part = post' part) : collect post parts = collect post' parts := by
  induction parts with
  | nil => rfl
  | cons part parts ih =>
    unfold collect
    rw [h part (by simp), ih fun q hq => h q (by simp [hq])]

/-- The depth that `postOne` allows is never used up. -/
lemma postWithin_eq (d d' : ℕ) (hd : batch.length ≤ d) (hd' : batch.length ≤ d') :
    postWithin (V := V) d b batch = postWithin d' b batch := by
  induction d generalizing d' batch with
  | zero =>
    cases d' with
    | zero => rfl
    | succ d' => exact postBody_congr fun limit _ hlt => absurd (hlt.trans_le hd) (Nat.not_lt_zero _)
  | succ d ih =>
    cases d' with
    | zero => exact postBody_congr fun limit _ hlt => absurd (hlt.trans_le hd') (Nat.not_lt_zero _)
    | succ d' =>
      refine postBody_congr fun limit h₀ hlt => collect_congr fun part hp => ?_
      have hpart := ((slices_spec h₀ batch).2 part hp).2
      exact ih d' (by omega) (by omega)

/-- `_post_one` and `_post_split` call each other. -/
lemma postOne_eq (b : ℕ) (batch : List String) :
    postOne (V := V) b batch = postBody (postSplit b batch) b batch := by
  unfold postOne
  cases hd : batch.length with
  | zero => exact postBody_congr fun limit _ hlt => absurd (hlt.trans_eq hd) (Nat.not_lt_zero _)
  | succ d =>
    refine postBody_congr fun limit h₀ hlt => collect_congr fun part hp => ?_
    have hpart := ((slices_spec h₀ batch).2 part hp).2
    exact postWithin_eq d part.length (by omega) (Nat.le_refl _)

end Splitting

/-! ### Runs -/

variable {p p' : Proxy V c}

/-- What a call has heard was said by a backend. -/
def Told (p : Proxy V c) (l : Progress V) : Prop :=
  ∀ x v, (x, v) ∈ l.heard → ∃ u ∈ p.urls, ∃ n, v = c.embedding u n x

lemma Told.mono {l : Progress V} (h : Told p l) (hp : p.urls ⊆ p'.urls) : Told p' l :=
  fun x v hx =>
    let ⟨u, hu, hv⟩ := h x v hx
    ⟨u, hp hu, hv⟩

/-- An answer of a backend. -/
lemma replyOf_vectors {u : Url} {batch : List String} {env : ℕ} {r : Response V} {out : List V}
    (h : replyOf c u batch env = .response r) (hout : r.vectors = some out) :
    ∃ n, out = batch.map (c.embedding u n) := by
  unfold replyOf at h
  split at h <;> cases h
  · exact ⟨_, (Option.some.inj hout).symm⟩
  · cases hout
  · cases hout

lemma told_op {t : Tid} {env : ℕ} {o : Op V} {r : o.Answer V} {l : Progress V} (h : Told p l)
    (he : exec p t env o = some (r, p')) : admits o r ∧ Told p' (after l o r) := by
  have hurls := exec_urls he
  have hkeep : Told p' l := h.mono (hurls ▸ List.Subset.refl _)
  cases o with
  | reply b batch =>
    obtain ⟨x, x', hx, hreply, rfl⟩ := on_eq_some.1 he
    obtain ⟨hr, -⟩ := Prod.mk.inj (Option.some.inj hreply)
    cases r with
    | readTimeout => exact ⟨trivial, hkeep⟩
    | raised http => exact ⟨trivial, hkeep⟩
    | response r =>
      refine ⟨fun out hout => ?_, fun y v hy => ?_⟩
      · obtain ⟨n, rfl⟩ := replyOf_vectors hr hout
        simp
      · rcases List.mem_append.1 hy with hy | hy
        · exact hkeep y v hy
        · cases hout : r.vectors with
          | none =>
            rw [hout] at hy
            simp at hy
          | some out =>
            obtain ⟨n, rfl⟩ := replyOf_vectors hr hout
            rw [hout] at hy
            rw [Option.getD_some, ← List.map_prod_left_eq_zip] at hy
            obtain ⟨z, -, hz⟩ := List.mem_map.1 hy
            obtain ⟨rfl, rfl⟩ := Prod.mk.inj hz
            refine ⟨x.url, hurls ▸ List.mem_map_of_mem (List.mem_of_getElem? hx), n, rfl⟩
  | _ => exact ⟨trivial, hkeep⟩

/-- What every call in progress has heard was said by a backend. -/
def Inv (p : Proxy V c) (L : Tid → Option (Progress V)) : Prop := ∀ t l, L t = some l → Told p l

lemma Inv.update {L : Tid → Option (Progress V)} (h : Inv p L) (hp : p.urls ⊆ p'.urls) (t : Tid)
    {x : Option (Progress V)} (hx : ∀ l, x = some l → Told p' l) :
    Inv p' (Function.update L t x) := by
  intro u l hl
  rcases update_cases hl with ⟨-, hxl⟩ | ⟨-, hul⟩
  · exact hx l hxl
  · exact (h u l hul).mono hp

abbrev Sys (c : Settings V) : Type := State (machine c) (discipline V)

/-- Any step. -/
def Free (_ : Sys c) (_ : Label (machine c)) : Prop := True

lemma kept (c : Settings V) :
    Kept (M := machine c) (D := discipline V) Free (fun _ => True) Inv where
  main _ _ e _ := wp_call _ _ e.turns e.texts _
  start _ t _ _ h _ := h.update (List.Subset.refl _) t fun l hl => by
    cases hl
    exact nofun
  op s t env o l r st _ _ hl _ h he :=
    ⟨(told_op (h t l hl) he).1, h.update (exec_urls he ▸ List.Subset.refl _) t fun l' hl' => by
      cases hl'
      exact (told_op (h t l hl) he).2⟩
  stop _ t _ _ _ _ _ h := h.update (List.Subset.refl _) t nofun
  kill _ _ _ h t l hl := by
    beta_reduce at hl
    split at hl
    · cases hl
    · exact h t l hl
  own _ _ _ _ h he t l hl := (h t l hl).mono (own_urls he)

/-- **One vector for each text, in order**: what a call returns is, text by text, what some backend
made of it; a batch that is split makes a bounded number of posts, and the posts of a batch and
of its parts are those of `_post_one` and `_post_split` calling each other. -/
theorem embed_in_order (c : Settings V) (p : Proxy V c) {s : Sys c}
    (hr : Run Free (initial p) s) :
    (∀ t texts out, s.nextOp t = some (.returned texts out) → out.length = texts.length ∧
      ∀ i (h : i < texts.length), ∃ u ∈ s.store.urls, ∃ n,
        out[i]? = some (c.embedding u n texts[i])) ∧
    (∀ t b, s.nextOp t = some (.cap b) →
      ∃ l, s.records t = some l ∧ l.posts < postBound l.size) ∧
    ∀ b batch, postOne (V := V) b batch = postBody (postSplit b batch) b batch := by
  obtain ⟨h, hd⟩ := (kept c).run_initial hr nofun
  refine ⟨fun t texts out ho => ?_, fun t b ho => Kept.may_of_nextOp hd ho, postOne_eq⟩
  obtain ⟨l, hl, hheard⟩ := Kept.may_of_nextOp hd ho
  have hheard : Heard l texts out := hheard
  refine ⟨hheard.length_eq.symm, fun i hi => ?_⟩
  have hi' : i < out.length := hheard.length_eq ▸ hi
  obtain ⟨u, hu, n, hv⟩ := h t l hl _ _ (List.forall₂_iff_get.1 hheard |>.2 i hi hi')
  exact ⟨u, hu, n, by rw [List.getElem?_eq_getElem hi']; exact congrArg some hv⟩

/-- A vector that says who made it of what. -/
def signed : Settings (Url × ℕ × String) where
  slots := EmbeddingSlots.pair
  gpu_max_tokens := 100
  max_batch_size := 3
  embedding u n x := (u, n, x)

def two : Proxy (Url × ℕ × String) signed := .new signed [⟨"a", .gpu⟩, ⟨"b", .gpu⟩]

def turn (n env : ℕ) : List (Label (machine signed)) := List.replicate n (.run ⟨0, 0⟩ env)

/-- Backend `a` finds three texts too many; it embeds the first two and drops the connection over
the third, and `b` embeds all of them. -/
def dropped : List (Label (machine signed)) :=
  .start ⟨0, 0⟩ ⟨["x", "y", "z"], 2⟩ :: turn 7 0 ++ turn 1 17 ++ turn 20 0 ++ turn 1 4 ++ turn 16 0

/-- What a call is about to return. -/
def outcome (s : Sys c) (t : Tid) : Option (List String × List V) :=
  match s.nextOp t with
  | some (.returned texts out) => some (texts, out)
  | _ => none

theorem embed_in_order_of_dropped : ∃ s : Sys signed,
    outcome s ⟨0, 0⟩ = some (["x", "y", "z"], [("b", 0, "x"), ("b", 0, "y"), ("b", 0, "z")]) ∧
    (∀ t texts out, s.nextOp t = some (.returned texts out) → out.length = texts.length ∧
      ∀ i (h : i < texts.length), ∃ u ∈ s.store.urls, ∃ n,
        out[i]? = some (signed.embedding u n texts[i])) ∧
    (∀ t b, s.nextOp t = some (.cap b) →
      ∃ l, s.records t = some l ∧ l.posts < postBound l.size) ∧
    ∀ b batch, postOne (V := Url × ℕ × String) b batch = postBody (postSplit b batch) b batch := by
  have h : ((initial two : Sys signed).runChecked (fun _ _ => true) dropped).map
      (fun s => outcome s ⟨0, 0⟩) =
        some (some (["x", "y", "z"], [("b", 0, "x"), ("b", 0, "y"), ("b", 0, "z")])) := by
    decide +kernel
  obtain ⟨s, hs, hx⟩ := Option.map_eq_some_iff.1 h
  exact ⟨s, hx, embed_in_order signed two (Machine.run_of_runChecked (fun _ _ _ => trivial) hs)⟩

end Order

end Treeweft.EmbeddingProxy
