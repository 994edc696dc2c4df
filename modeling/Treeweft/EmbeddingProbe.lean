import Treeweft.EmbeddingProxy

/-!
The requests a backend gets after its breaker has become half-open.

Nothing limits them but the number of batches that are on the backend: those a selection gives it
while it is half-open, and those it still has from before. With one batch at most there is one
request at most until the first that was sent has ended.
-/

namespace Treeweft.EmbeddingProxy.Probe

open Machine (State Label Run Kept initial)

variable {V : Type} {c : Settings V}

/-! ### Where a call is -/

/-- The backend a batch is on, whether a request is out, and whether one has ended. -/
structure Stage where
  on : Option ℕ
  flying : Bool
  heard : Bool

def idle : Stage := ⟨none, false, false⟩

/-- A batch that was given to `b`. -/
def Stage.Calm (l : Stage) (b : ℕ) : Prop := l.on = some b ∧ l.flying = false

def may (l : Stage) : Op V → Prop
  | .maxChunkCost _ => l.flying = false
  | .survey .. => l.flying = false
  | .post b _ => l.Calm b
  | .reply b _ => l.on = some b ∧ l.flying = true
  | .succeed b => l.on = some b ∧ l.heard = true
  | .fail b _ => l.on = some b ∧ l.heard = true
  | .returned .. => l.flying = false
  | .raised _ => l.flying = false
  | _ => True

/-- The backend that a selection gives a batch, as long as the loop goes on. -/
def given (require_cpu : Bool) (tried : List Url) (views : List View) : Option ℕ :=
  if tried.length < views.length then (select require_cpu tried views).map View.ref else none

def after (l : Stage) : (o : Op V) → o.Answer V → Stage
  | .maxChunkCost _, _ => idle
  | .survey require_cpu tried, views => ⟨given require_cpu tried views, false, false⟩
  | .post .., _ => { l with flying := true }
  | .reply .., _ => { l with flying := false, heard := true }
  | .returned .., _ => idle
  | .raised _, _ => idle
  | _, _ => l

abbrev discipline (V : Type) : Discipline (signature V) where
  Local := Stage
  init := idle
  may := may
  admits _ _ _ := True
  after := after

lemma overlooks : Overlooks (discipline V) := by
  intro l o ho
  cases o <;> first | exact ho.elim | exact ⟨trivial, fun _ _ => rfl⟩

/-- A failure that counts is one of a request that has ended. -/
lemma requests (b : ℕ) (batch : List String) :
    Requests (discipline V) b batch (fun l => l.Calm b) (fun l => l.on = some b ∧ l.flying = true)
      (fun l => l.Calm b ∧ l.heard = true) (fun _ l => l.Calm b ∧ l.heard = true)
      (fun e l => l.Calm b ∧ (e = .http ∨ e = .notAnswering → l.heard = true)) where
  post l hl := ⟨hl, fun _ _ => ⟨hl.1, rfl⟩⟩
  reply l hl := by
    refine ⟨hl, fun r _ => ?_⟩
    cases r with
    | response r => exact ⟨⟨hl.1, rfl⟩, rfl⟩
    | readTimeout => exact ⟨⟨hl.1, rfl⟩, rfl⟩
    | raised http => exact ⟨⟨hl.1, rfl⟩, fun _ => rfl⟩
  heard _ _ h := h
  resend _ h := h.1
  http _ _ h _ := ⟨h.1, fun _ => h.2⟩
  opened _ h := ⟨h, by simp⟩
  cancelled _ _ h _ := ⟨h, by simp⟩
  woken _ h _ := ⟨h.1, by simp⟩
  succeed _ h := ⟨⟨h.1.1, h.2⟩, fun _ _ => rfl⟩
  fail _ _ h he := ⟨⟨h.1.1, h.2 he⟩, fun _ _ => rfl⟩

lemma wp_failover (require_cpu : Bool) (batch : List String) (turns : ℕ) (tried : List Url)
    (last : Option Exc) {l : Stage} (hl : l.flying = false) :
    (discipline V).wp (failover require_cpu batch turns tried last) (fun _ l => l.flying = false)
      (fun _ l => l.flying = false) l := by
  induction turns generalizing tried last l with
  | zero => exact hl
  | succ turns ih =>
    refine wp_perform.2 ⟨hl, fun (backends : List View) _ => ?_⟩
    change (discipline V).wp _ _ _ ⟨given require_cpu tried backends, false, false⟩
    unfold given
    split
    · cases select require_cpu tried backends with
      | none => rfl
      | some b =>
        have hpost := wp_postOne (D := discipline V) (l := ⟨some b.ref, false, false⟩)
          batch overlooks (requests b.ref) (fun l hl => ⟨trivial, fun _ _ => hl⟩)
          (fun r l hr _ _ => ⟨hr.1, by simp⟩) ⟨rfl, rfl⟩
        refine wp_tryAct hpost (fun out l h => h.2) fun e l h => ?_
        simp only
        split
        · exact ih (b.url :: tried) (some e) h.1.2
        · exact h.1.2
    · rfl

lemma wp_call (gpu_max_tokens max_batch_size turns : ℕ) (texts : List String) :
    (discipline V).wp (call gpu_max_tokens max_batch_size turns texts)
      (fun _ l => l.flying = false) (fun _ l => l.flying = false) idle := by
  have hbatch : ∀ batch l, l.flying = false →
      (discipline V).wp (embedBatch gpu_max_tokens turns batch)
        (fun _ l => l.flying = false) (fun _ l => l.flying = false) l := fun batch l hl =>
    wp_perform.2 ⟨hl, fun (cost : ℕ) _ => wp_failover _ batch turns [] none rfl⟩
  have hslices : ∀ batches l, l.flying = false →
      (discipline V).wp (embedSlices gpu_max_tokens turns batches)
        (fun _ l => l.flying = false) (fun _ l => l.flying = false) l := by
    intro batches
    induction batches with
    | nil => exact fun _ hl => hl
    | cons batch batches ih =>
      refine fun l hl => Discipline.wp_seq (hbatch batch l hl) (fun o l' hl' => ?_) fun _ _ h => h
      cases o with
      | none => exact hl'
      | some out =>
        refine Discipline.wp_seq (ih l' hl') (fun o' l'' hl'' => ?_) fun _ _ h => h
        cases o' <;> exact hl''
  have hembed : (discipline V).wp (embed gpu_max_tokens max_batch_size turns texts)
      (fun _ l => l.flying = false) (fun _ l => l.flying = false) idle := by
    unfold embed
    split
    · rfl
    · exact hslices _ _ rfl
  refine wp_tryAct hembed (fun o l hl => ?_) fun e l hl => wp_perform.2 ⟨hl, fun _ _ => rfl⟩
  cases o with
  | none => exact hl
  | some out => exact wp_perform.2 ⟨hl, fun _ _ => rfl⟩

/-! ### A backend that recovers -/

/-- No request that was sent since the backend became half-open has ended. -/
def Recovering (x : Core) : Prop := x.probed = false ∧ (x.cb_state = .halfOpen ∨ 0 < x.probes)

/-- One batch at most is on the backend; its request, if one is out, is the only probe. -/
structure Single (b : ℕ) (x : Core) (L : Tid → Option Stage) : Prop where
  half : x.cb_state = .halfOpen
  alone : ∀ t l t' l', L t = some l → L t' = some l' → l.on = some b → l'.on = some b → t = t'
  unheard : ∀ t l, L t = some l → l.on = some b → l.heard = false
  counted : ∀ t l, L t = some l → l.on = some b → l.flying = true → t ∈ x.probing
  probes : x.probes ≤ 1
  out : 0 < x.probes → ∃ t l, L t = some l ∧ l.on = some b ∧ l.flying = true

/-- Every backend that recovers has one batch at most. -/
def Inv (p : Proxy V c) (L : Tid → Option Stage) : Prop :=
  ∀ b x, (p.heap.map Backend.core)[b]? = some x → Recovering x → Single b x L

section Single
variable {b : ℕ} {x : Core} {L : Tid → Option Stage} {t : Tid}

/-- A call without a request at the backend may leave it, or go elsewhere. -/
lemma Single.leave (h : Single b x L) (hfly : ∀ l, L t = some l → l.on = some b → l.flying = false)
    {y : Option Stage} (hy : ∀ l, y = some l → l.on ≠ some b) :
    Single b x (Function.update L t y) := by
  have hold : ∀ {u l}, Function.update L t y u = some l → l.on = some b → L u = some l := by
    intro u l hu hon
    rcases update_cases hu with ⟨-, hyl⟩ | ⟨-, hL⟩
    · exact absurd hon (hy l hyl)
    · exact hL
  refine ⟨h.half, ?_, ?_, ?_, h.probes, fun hpos => ?_⟩
  · exact fun u l u' l' hu hu' ho ho' => h.alone u l u' l' (hold hu ho) (hold hu' ho') ho ho'
  · exact fun u l hu ho => h.unheard u l (hold hu ho) ho
  · exact fun u l hu ho => h.counted u l (hold hu ho) ho
  · obtain ⟨u, l, hu, ho, hf⟩ := h.out hpos
    have hut : u ≠ t := by
      rintro rfl
      rw [hfly l hu ho] at hf
      cases hf
    exact ⟨u, l, by rwa [Function.update_of_ne hut], ho, hf⟩

/-- A backend nobody has can be given to a call. -/
lemma single_of_given (hhalf : x.cb_state = .halfOpen) (hzero : x.probes = 0)
    (hnobody : ∀ u l, L u = some l → l.on = some b → u = t) {y : Stage} (hf : y.flying = false)
    (hh : y.heard = false) : Single b x (Function.update L t (some y)) := by
  have honly : ∀ {u l}, Function.update L t (some y) u = some l → l.on = some b → u = t ∧ l = y := by
    intro u l hu hon
    rcases update_cases hu with ⟨rfl, hyl⟩ | ⟨hne, hL⟩
    · exact ⟨rfl, (Option.some.inj hyl).symm⟩
    · exact absurd (hnobody u l hL hon) hne
  refine ⟨hhalf, fun u l u' l' hu hu' ho ho' => ?_, fun u l hu ho => ?_, fun u l hu ho hfl => ?_,
    hzero.trans_le (Nat.zero_le 1), fun hpos => absurd hpos (by omega)⟩
  · exact (honly hu ho).1.trans (honly hu' ho').1.symm
  · rw [(honly hu ho).2, hh]
  · rw [(honly hu ho).2, hf] at hfl
    cases hfl

/-- The one call that has the backend sends a request. -/
lemma Single.post (h : Single b x L) {l : Stage} (hl : L t = some l) (hc : l.Calm b) :
    Single b { x with probes := x.probes + 1, probing := t :: x.probing }
      (Function.update L t (some { l with flying := true })) := by
  have hzero : x.probes = 0 := by
    by_contra hne
    obtain ⟨u, m, hu, ho, hf⟩ := h.out (Nat.pos_of_ne_zero hne)
    obtain rfl := h.alone u m t l hu hl ho hc.1
    obtain rfl : m = l := Option.some.inj (hu.symm.trans hl)
    rw [hc.2] at hf
    cases hf
  have hold : ∀ {u m}, Function.update L t (some { l with flying := true }) u = some m →
      m.on = some b → u = t ∧ m.heard = l.heard := by
    intro u m hu hon
    rcases update_cases hu with ⟨rfl, hm⟩ | ⟨-, hL⟩
    · cases hm
      exact ⟨rfl, rfl⟩
    · obtain rfl := h.alone u m t l hL hl hon hc.1
      exact ⟨rfl, by rw [Option.some.inj (hL.symm.trans hl)]⟩
  refine ⟨h.half, fun u m u' m' hu hu' ho ho' => ?_, fun u m hu ho => ?_, fun u m hu ho _ => ?_,
    by simp [hzero], fun _ => ?_⟩
  · exact (hold hu ho).1.trans (hold hu' ho').1.symm
  · rw [(hold hu ho).2, h.unheard t l hl hc.1]
  · rw [(hold hu ho).1]
    exact List.mem_cons_self ..
  · exact ⟨t, _, Function.update_self .., hc.1, rfl⟩

end Single

/-! ### Operations -/

section Cores
variable {x : Backend V c} {t : Tid}

lemma posted_recovering (h : Recovering x.core) : (x.posted t).core =
    { x.core with probes := x.core.probes + 1, probing := t :: x.core.probing } := by
  have hcounted : (!x.probed && (x.cb_state == .halfOpen || decide (x.probes > 0))) = true := by
    obtain ⟨hp, hs⟩ := h
    rw [show x.probed = false from hp]
    rcases hs with hs | hs
    · rw [show x.cb_state = .halfOpen from hs]
      rfl
    · rw [decide_eq_true (show x.probes > 0 from hs), Bool.or_true]
      rfl
  simp only [Backend.core, Backend.posted, hcounted, if_true]

lemma posted_not_recovering (h : ¬Recovering x.core) : (x.posted t).core = x.core := by
  have hcounted : (!x.probed && (x.cb_state == .halfOpen || decide (x.probes > 0))) = false := by
    by_contra hc
    rw [Bool.not_eq_false, Bool.and_eq_true_iff, Bool.or_eq_true_iff, Bool.not_eq_true'] at hc
    exact h ⟨hc.1, hc.2.imp eq_of_beq of_decide_eq_true⟩
  simp only [Backend.core, Backend.posted, hcounted, Bool.false_eq_true, if_false]

lemma replied_core : (x.replied t).core =
    { x.core with probed := x.core.probed || decide (t ∈ x.core.probing),
                  probing := x.core.probing.filter (· ≠ t) } := rfl

/-- The end of a request never makes a backend recover. -/
lemma succeeded_recovering (h : Recovering x.succeeded.core) : Recovering x.core := by
  unfold Backend.succeeded at h
  split at h
  · rename_i hs
    exact ⟨h.1, .inl hs⟩
  · rename_i hs
    exact ⟨h.1, .inr (h.2.resolve_left fun hh => by rw [show x.cb_state = _ from hh] at hs; cases hs)⟩
  · exact h

lemma failed_recovering {now : ℕ} {e : Exc} (h : Recovering (x.failed now e).core) :
    Recovering x.core := by
  have hstate : (x.failed now e).cb_state ≠ .halfOpen := by
    unfold Backend.failed
    simp only
    split
    · split
      · nofun
      · simp [*]
    · nofun
    · simp [*]
  have hsame : (x.failed now e).probed = x.probed ∧ (x.failed now e).probes = x.probes := by
    unfold Backend.failed
    simp only
    split
    · split <;> exact ⟨rfl, rfl⟩
    · exact ⟨rfl, rfl⟩
    · exact ⟨rfl, rfl⟩
  exact ⟨hsame.1.symm.trans h.1, .inr (Nat.lt_of_lt_of_eq (h.2.resolve_left hstate) hsame.2)⟩

end Cores

variable {p p' : Proxy V c} {L : Tid → Option Stage} {t : Tid} {l : Stage}

/-- No other call is on the backend. -/
def NobodyElse (L : Tid → Option Stage) (t : Tid) (b : ℕ) : Prop :=
  ∀ u l, L u = some l → l.on = some b → u = t

/-- A selection by `t` that makes a backend half-open, or gives `t` one of which no probe has ended,
finds no other call on it. -/
def Reserved (p : Proxy V c) (L : Tid → Option Stage) (t : Tid) (require_cpu : Bool)
    (tried : List Url) : Prop :=
  ∀ b x, (p.surveyed require_cpu tried).heap[b]? = some x → x.cb_state = .halfOpen →
    x.probed = false → (tried.length < p.views.length ∧ p.promoted require_cpu tried b = true) ∨
      given require_cpu tried (p.surveyed require_cpu tried).views = some b → NobodyElse L t b

lemma Inv.survey (h : Inv p L) (hl : L t = some l) (hm : l.flying = false) {require_cpu : Bool}
    {tried : List Url} (hr : Reserved p L t require_cpu tried) :
    Inv (p.surveyed require_cpu tried) (Function.update L t
      (some ⟨given require_cpu tried (p.surveyed require_cpu tried).views, false, false⟩)) := by
  intro b z hz hrec
  rw [List.getElem?_map] at hz
  obtain ⟨x', hx', rfl⟩ := Option.map_eq_some_iff.1 hz
  obtain ⟨x, hx, ⟨rfl, -⟩ | ⟨hlt, hp, rfl⟩⟩ := surveyed_heap require_cpu tried hx'
  · have hs : Single b x'.core L := h b x'.core (by rw [List.getElem?_map, hx]; rfl) hrec
    by_cases hg : given require_cpu tried (p.surveyed require_cpu tried).views = some b
    · have hnobody := hr b x' hx' hs.half hrec.1 (.inr hg)
      refine single_of_given hs.half ?_ hnobody rfl rfl
      by_contra hne
      obtain ⟨u, m, hu, ho, hf⟩ := hs.out (Nat.pos_of_ne_zero hne)
      obtain rfl := hnobody u m hu ho
      obtain rfl : m = l := Option.some.inj (hu.symm.trans hl)
      rw [hm] at hf
      cases hf
    · refine hs.leave (fun m hml _ => ?_) fun m hml ho => ?_
      · obtain rfl : m = l := Option.some.inj (hml.symm.trans hl)
        exact hm
      · cases hml
        exact hg ho
  · exact single_of_given rfl rfl (hr b _ hx' rfl rfl (.inl ⟨hlt, hp⟩)) rfl rfl

/-- An operation of a call on the backend it is on: nothing happens to the others. -/
lemma Inv.on (h : Inv p L) {b : ℕ} {x x' : Backend V c} (hx : p.heap[b]? = some x)
    (hl : L t = some l) (hon : l.on = some b) {l' : Stage} (hon' : l'.on = some b)
    (hb : Recovering x'.core → Single b x'.core (Function.update L t (some l'))) :
    Inv { p with heap := p.heap.set b x' } (Function.update L t (some l')) := by
  intro b' z hz hrec
  rw [List.getElem?_map, List.getElem?_set] at hz
  split at hz
  · rename_i hbb
    subst hbb
    rw [if_pos (List.getElem?_eq_some_iff.1 hx).1] at hz
    cases hz
    exact hb hrec
  · rename_i hbb
    have hne : ∀ {m : Stage}, m.on = some b → m.on ≠ some b' := fun hm ho =>
      hbb (Option.some.inj (hm.symm.trans ho))
    refine (h b' z (by rw [List.getElem?_map]; exact hz) hrec).leave (fun m hm ho => ?_) ?_
    · obtain rfl : m = l := Option.some.inj (hm.symm.trans hl)
      exact absurd ho (hne hon)
    · intro m hm
      cases hm
      exact hne hon'

lemma Inv.core (h : Inv p L) {b : ℕ} {x : Backend V c} (hx : p.heap[b]? = some x)
    (hrec : Recovering x.core) : Single b x.core L :=
  h b x.core (by rw [List.getElem?_map, hx]; rfl) hrec

lemma Inv.congr (h : Inv p L) (hp : p'.heap.map Backend.core = p.heap.map Backend.core) :
    Inv p' L := by
  unfold Inv
  rwa [hp]

/-- A call without a request ends its batch. -/
lemma Inv.idle (h : Inv p L) (hl : ∀ l, L t = some l → l.flying = false) {y : Option Stage}
    (hy : ∀ l, y = some l → l.on = none) : Inv p (Function.update L t y) :=
  fun b z hz hrec => (h b z hz hrec).leave (fun l hm _ => hl l hm) fun l hm ho => by
    rw [hy l hm] at ho
    cases ho

/-- One operation of a call. -/
lemma Inv.op {env : ℕ} {o : Op V} {r : o.Answer V} (h : Inv p L) (hl : L t = some l)
    (hm : may l o) (hr : ∀ require_cpu tried, o = .survey require_cpu tried →
      Reserved p L t require_cpu tried) (he : exec p t env o = some (r, p')) :
    Inv p' (Function.update L t (some (after l o r))) := by
  have hsame : ∀ m, L t = some m → m = l := fun m hm => Option.some.inj (hm.symm.trans hl)
  have hheard : ∀ {b x}, p.heap[b]? = some x → l.on = some b ∧ l.heard = true →
      ¬Recovering x.core := by
    intro b x hx hm hrec
    have := (h.core hx hrec).unheard t l hl hm.1
    rw [hm.2] at this
    cases this
  have hquiet : Quiet o ∨ (∃ b, o = .cap b) → Inv p' (Function.update L t (some l)) := fun ho => by
    rw [Function.update_eq_self_iff.2 hl.symm]
    exact h.congr (exec_core ho he)
  cases o with
  | survey require_cpu tried =>
    cases he
    exact h.survey hl hm (hr _ _ rfl)
  | maxChunkCost | returned | raised =>
    cases he
    exact h.idle (fun m hml => hsame m hml ▸ hm) fun m hml => by
      cases hml
      rfl
  | post b batch =>
    obtain ⟨x, x', hx, hpost, rfl⟩ := on_eq_some.1 he
    obtain ⟨-, rfl⟩ := Prod.mk.inj (Option.some.inj hpost)
    have hm : l.Calm b := hm
    refine h.on hx hl hm.1 hm.1 fun hrec => ?_
    by_cases hx' : Recovering x.core
    · rw [posted_recovering hx']
      exact (h.core hx hx').post hl hm
    · rw [posted_not_recovering hx'] at hrec
      exact absurd hrec hx'
  | reply b batch =>
    obtain ⟨x, x', hx, hreply, rfl⟩ := on_eq_some.1 he
    obtain ⟨-, rfl⟩ := Prod.mk.inj (Option.some.inj hreply)
    have hm : l.on = some b ∧ l.flying = true := hm
    refine h.on hx hl hm.1 hm.1 fun hrec => ?_
    -- the request that ended was the probe, so the backend no longer recovers
    obtain ⟨hunprobed, hs⟩ := hrec
    obtain ⟨hp, ht⟩ := Bool.or_eq_false_iff.1 hunprobed
    exact absurd ((h.core hx ⟨hp, hs⟩).counted t l hl hm.1 hm.2) (of_decide_eq_false ht)
  | succeed b =>
    obtain ⟨x, x', hx, hf, rfl⟩ := on_eq_some.1 he
    obtain ⟨-, rfl⟩ := Prod.mk.inj (Option.some.inj hf)
    exact h.on hx hl hm.1 hm.1 fun hrec => (hheard hx hm (succeeded_recovering hrec)).elim
  | fail b e =>
    obtain ⟨x, x', hx, hf, rfl⟩ := on_eq_some.1 he
    obtain ⟨-, rfl⟩ := Prod.mk.inj (Option.some.inj hf)
    exact h.on hx hl hm.1 hm.1 fun hrec => (hheard hx hm (failed_recovering hrec)).elim
  | cap b => exact hquiet (.inr ⟨b, rfl⟩)
  | _ => exact hquiet (.inl trivial)

/-! ### Runs -/

abbrev Sys (c : Settings V) : Type := State (machine c) (discipline V)

/-- The process stays, and selections find no other call on the backends that they let recover. -/
def Careful (s : Sys c) : Label (machine c) → Prop
  | .run t _ => ∀ require_cpu tried, s.nextOp t = some (.survey require_cpu tried) →
      Reserved s.store s.records t require_cpu tried
  | .kill _ => False
  | _ => True

lemma kept (c : Settings V) : Kept (M := machine c) (D := discipline V) Careful
    (fun l => l.flying = false) Inv where
  main _ _ e _ := wp_call _ _ e.turns e.texts
  start _ _ _ _ h ht := h.idle (fun _ hl => nomatch ht.symm.trans hl) fun l hl => by
    cases hl
    rfl
  op s t env o l r st hc ho hl hm h he :=
    ⟨trivial, h.op hl hm (fun require_cpu tried hs => hc require_cpu tried (hs ▸ ho)) he⟩
  stop s t env l _ hl hE h := h.idle
    (fun m hm => (Option.some.inj (hm.symm.trans hl)).symm ▸ hE) nofun
  kill _ _ hc := hc.elim
  own _ _ st _ h he b z hz hrec := by
    obtain ⟨us, hus⟩ := own_core he
    rw [hus, List.getElem?_append] at hz
    split at hz
    · exact h b z hz hrec
    · obtain ⟨u, -, rfl⟩ := Option.map_eq_some_iff.1 ((List.getElem?_map ..).symm.trans hz)
      rcases hrec.2 with hs | hs <;> cases hs

lemma inv_new (rows : List Row) : Inv (Proxy.new c rows) fun _ => none := by
  intro b z hz hrec
  obtain ⟨r, -, rfl⟩ : ∃ r, rows[b]? = some r ∧ Core.fresh r.url = z := by
    rw [Proxy.new, List.map_map, List.getElem?_map] at hz
    exact Option.map_eq_some_iff.1 hz
  rcases hrec.2 with hs | hs <;> cases hs

/-- **One probe**: as long as no request that was sent to a half-open backend has ended, one was
sent at most. -/
theorem one_probe (c : Settings V) (rows : List Row) {s : Sys c}
    (hr : Run Careful (initial (Proxy.new c rows)) s) :
    ∀ (b : ℕ) (x : Backend V c), s.store.heap[b]? = some x → x.probed = false → x.probes ≤ 1 := by
  obtain ⟨h, -⟩ := (kept c).run_initial hr (inv_new rows)
  intro b (x : Backend V c) hx hp
  rcases Nat.eq_zero_or_pos x.probes with h₀ | hpos
  · omega
  · exact (h.core hx ⟨hp, .inr hpos⟩).probes

/-! ### Two probes -/

def alive (_ : Sys c) : Label (machine c) → Bool
  | .kill _ => false
  | _ => true

def Living (_ : Sys c) : Label (machine c) → Prop
  | .kill _ => False
  | _ => True

lemma living_of_alive (s : Sys c) (l : Label (machine c)) (h : alive s l = true) : Living s l := by
  cases l with
  | kill => cases h
  | _ => trivial

def plain : Settings Unit where
  slots := EmbeddingSlots.pair
  gpu_max_tokens := 100
  max_batch_size := 1
  embedding _ _ _ := ()

def lone : Proxy Unit plain := .new plain [⟨"a", .gpu⟩]

def turn (n k env : ℕ) : List (Label (machine plain)) := List.replicate k (.run ⟨0, n⟩ env)

/-- Call `n` of one text is about to look for a backend. -/
def arrives (n : ℕ) : List (Label (machine plain)) := .start ⟨0, n⟩ ⟨["x"], 2⟩ :: turn n 1 0

/-- The backend fails call `n`, which ends. -/
def fails (n : ℕ) : List (Label (machine plain)) :=
  arrives n ++ turn n 6 0 ++ turn n 1 4 ++ turn n 6 0

/-- Five failures open the breaker, and the cooldown passes. -/
def outage : List (Label (machine plain)) := (List.range 5).flatMap fails ++ [.own (.tick 30000)]

/-- Calls `5` and `6` are given the backend, and both send a request. -/
def crowd : List (Label (machine plain)) :=
  outage ++ arrives 5 ++ arrives 6 ++ turn 5 1 0 ++ turn 6 1 0 ++ turn 5 5 0 ++ turn 6 5 0

/-- A half-open backend is sent a second request while the first is out. -/
theorem two_probes :
    ¬∀ (rows : List Row) (s : Sys plain), Run Living (initial (Proxy.new plain rows)) s →
      ∀ (b : ℕ) (x : Backend Unit plain), s.store.heap[b]? = some x → x.probed = false →
        x.probes ≤ 1 := by
  intro hclaim
  have h : ((initial lone : Sys plain).runChecked alive crowd).map (fun s =>
      (s.store.heap[0]?).map fun x => (x.cb_state, x.probed, x.probes)) =
        some (some (.halfOpen, false, 2)) := by decide +kernel
  obtain ⟨s, hs, hx⟩ := Option.map_eq_some_iff.1 h
  obtain ⟨x, hx, hp⟩ := Option.map_eq_some_iff.1 hx
  have hle := hclaim _ s (Machine.run_of_runChecked living_of_alive hs) 0 x hx
    (congrArg (fun y => y.2.1) hp)
  rw [show x.probes = 2 from congrArg (fun y => y.2.2) hp] at hle
  exact absurd hle (by decide)

/-- Calls look for a backend only when nobody has one. -/
def quiet (s : Sys plain) : Label (machine plain) → Bool
  | .kill _ => false
  | .run t _ =>
    match s.nextOp t with
    | some (.survey ..) => s.tasks.rows.all fun k =>
      decide (k.tid = t) || (k.record.on.isNone : Bool)
    | _ => true
  | _ => true

lemma careful_of_quiet (s : Sys plain) (l : Label (machine plain)) (h : quiet s l = true) :
    Careful s l := by
  cases l with
  | kill => cases h
  | run t env =>
    intro require_cpu tried ho b x _ _ _ _ u m hu hon
    rw [quiet, ho] at h
    obtain ⟨k, hk, rfl⟩ := Option.map_eq_some_iff.1 hu
    obtain ⟨hmem, rfl⟩ := Keyed.get?_eq_some.1 hk
    rcases Bool.or_eq_true_iff.1 (List.all_eq_true.1 h k hmem) with ht | hnone
    · exact of_decide_eq_true ht
    · rw [hon] at hnone
      cases hnone
  | _ => trivial

/-- After an outage call `5` sends the probe. -/
theorem one_probe_of_outage : ∃ s : Sys plain,
    (s.store.heap[0]?).map (fun x => (x.cb_state, x.probes)) = some (.halfOpen, 1) ∧
    ∀ (b : ℕ) (x : Backend Unit plain), s.store.heap[b]? = some x → x.probed = false →
      x.probes ≤ 1 := by
  have h : ((initial lone : Sys plain).runChecked quiet
      (outage ++ arrives 5 ++ arrives 6 ++ turn 5 6 0)).map (fun s =>
        (s.store.heap[0]?).map fun x => (x.cb_state, x.probes)) = some (some (.halfOpen, 1)) := by
    decide +kernel
  obtain ⟨s, hs, hx⟩ := Option.map_eq_some_iff.1 h
  exact ⟨s, hx, one_probe plain _ (Machine.run_of_runChecked careful_of_quiet hs)⟩

end Treeweft.EmbeddingProxy.Probe
