import Treeweft.GraphTransaction

/-!
What the rows of the embedded graph store always say about each other.

A relationship has its endpoints and a link its entity, after any stores and deletes. An external
module that nothing refers to is never left behind by a delete; only a store without a source can
leave one, and later deletes do not look for it.
-/

namespace Treeweft.GraphInvariant

open Treeweft.Extract Treeweft.GraphStore Treeweft.GraphTransaction Treeweft.Connection

variable {F F' : EntityId → Prop} {g g' : Graph}

def Present (g : Graph) (i : EntityId) : Prop := ∃ e ∈ g.entities, e.id = i

/-- No relationship and no source refers to the entity. -/
def Stray (g : Graph) (i : EntityId) : Prop :=
  (∀ r ∈ g.relationships, r.sourceId ≠ i ∧ r.targetId ≠ i) ∧ ∀ se ∈ g.sourceEntities, se.2 ≠ i

/-- The rows refer to each other as they should; stray external modules are among `F`. -/
structure Sound (F : EntityId → Prop) (g : Graph) : Prop where
  endpoints : ∀ r ∈ g.relationships, Present g r.sourceId ∧ Present g r.targetId
  links : ∀ se ∈ g.sourceEntities, Present g se.2
  strays : ∀ e ∈ g.entities, e.type = some .externalModule → Stray g e.id → F e.id

/-- Nothing has gone. -/
structure Grown (g g' : Graph) : Prop where
  entities : ∀ i, Present g i → Present g' i
  relationships : ∀ r ∈ g.relationships, r ∈ g'.relationships
  links : ∀ se ∈ g.sourceEntities, se ∈ g'.sourceEntities

lemma Grown.refl (g : Graph) : Grown g g := ⟨fun _ h => h, fun _ h => h, fun _ h => h⟩

lemma Grown.trans {g'' : Graph} (h : Grown g g') (h' : Grown g' g'') : Grown g g'' :=
  ⟨fun i hi => h'.entities i (h.entities i hi),
    fun r hr => h'.relationships r (h.relationships r hr), fun se hs => h'.links se (h.links se hs)⟩

lemma Stray.of_grown (h : Grown g g') {i : EntityId} (hi : Stray g' i) : Stray g i :=
  ⟨fun r hr => hi.1 r (h.relationships r hr), fun se hs => hi.2 se (h.links se hs)⟩

lemma sound_empty : Sound F GraphStore.empty :=
  ⟨by simp [GraphStore.empty], by simp [GraphStore.empty], by simp [GraphStore.empty]⟩

/-- Entities that are no strays need not be among those that may be. -/
lemma Sound.shrink (h : Sound F g) (hF : ∀ i, F i → Stray g i → F' i) : Sound F' g :=
  ⟨h.endpoints, h.links, fun e he ht hs => hF e.id (h.strays e he ht hs) hs⟩

/-! ### Stores -/

section Store

/-- A statement that only changes entities, and keeps them all. -/
lemma Sound.entities (h : Sound F g) (hg : Grown g g')
    (hr : ∀ r ∈ g'.relationships, r ∈ g.relationships)
    (hl : ∀ se ∈ g'.sourceEntities, se ∈ g.sourceEntities)
    (he : ∀ e ∈ g'.entities, e.type = some .externalModule → e ∈ g.entities ∨ F' e.id)
    (hF : ∀ i, F i → F' i) : Sound F' g' where
  endpoints r hr' := by
    have := h.endpoints r (hr r hr')
    exact ⟨hg.entities _ this.1, hg.entities _ this.2⟩
  links se hs := hg.entities _ (h.links se (hl se hs))
  strays e he' ht hs := by
    rcases he e he' ht with hold | hnew
    · exact hF e.id (h.strays e hold ht (hs.of_grown hg))
    · exact hnew

lemma grown_upsertEntity (e : Entity) (g : Graph) : Grown g (upsertEntity e g) := by
  refine ⟨?_, fun r hr => hr, fun se hs => hs⟩
  rintro i ⟨x, hx, rfl⟩
  by_cases hk : x.id = e.id
  · exact ⟨_, Keyed.mem_put_self, hk.symm⟩
  · exact ⟨x, Keyed.mem_put.2 (.inr ⟨hx, hk⟩), rfl⟩

lemma present_upsertEntity (e : Entity) (g : Graph) : Present (upsertEntity e g) e.id :=
  ⟨_, Keyed.mem_put_self, rfl⟩

lemma Sound.upsertEntity (h : Sound F g) (e : Entity)
    (he : e.type = .externalModule → F e.id) : Sound F (upsertEntity e g) := by
  refine h.entities (grown_upsertEntity e g) (fun r hr => hr) (fun se hs => hs) ?_ fun _ hi => hi
  intro x hx ht
  rcases Keyed.mem_put.1 hx with rfl | ⟨hx, -⟩
  · exact .inr (he (Option.some.inj ht))
  · exact .inl hx

lemma grown_linkEntity (sid : String) (i : EntityId) (g : Graph) :
    Grown g (linkEntity sid i g) :=
  ⟨fun _ hi => hi, fun _ hr => hr, fun _ hs => Keyed.mem_insertNew.2 (.inl hs)⟩

lemma mem_linkEntity (sid : String) (i : EntityId) (g : Graph) :
    ∃ se ∈ (linkEntity sid i g).sourceEntities, se.2 = i := by
  by_cases h : ∃ se ∈ g.sourceEntities, id se = (sid, i)
  · obtain ⟨se, hs, heq⟩ := h
    exact ⟨se, Keyed.mem_insertNew.2 (.inl hs), congrArg Prod.snd heq⟩
  · exact ⟨(sid, i), Keyed.mem_insertNew.2 (.inr ⟨rfl, fun se hs heq => h ⟨se, hs, heq⟩⟩), rfl⟩

lemma Sound.linkEntity (h : Sound F g) (sid : String) {i : EntityId} (hi : Present g i) :
    Sound F (linkEntity sid i g) where
  endpoints := h.endpoints
  links se hs := by
    rcases Keyed.mem_insertNew.1 hs with hs | ⟨rfl, -⟩
    · exact h.links se hs
    · exact hi
  strays e he ht hs := h.strays e he ht (hs.of_grown (grown_linkEntity sid i g))

lemma grown_addEndpoint (i : EntityId) (g : Graph) : Grown g (addEndpoint i g) :=
  ⟨fun _ ⟨e, he, hi⟩ => ⟨e, Keyed.mem_insertNew.2 (.inl he), hi⟩, fun _ hr => hr, fun _ hs => hs⟩

lemma present_addEndpoint (i : EntityId) (g : Graph) : Present (addEndpoint i g) i := by
  by_cases h : Present g i
  · exact (grown_addEndpoint i g).entities i h
  · exact ⟨bare i, Keyed.mem_insertNew.2 (.inr ⟨rfl, fun e he heq => h ⟨e, he, heq⟩⟩), rfl⟩

lemma Sound.addEndpoint (h : Sound F g) (i : EntityId) : Sound F (addEndpoint i g) := by
  refine h.entities (grown_addEndpoint i g) (fun r hr => hr) (fun se hs => hs) ?_ fun _ hi => hi
  intro x hx ht
  rcases Keyed.mem_insertNew.1 hx with hx | ⟨rfl, -⟩
  · exact .inl hx
  · cases ht

lemma mem_typeTarget {i : EntityId} {x : EntityRow} : x ∈ (typeTarget i g).entities ↔
    ∃ e ∈ g.entities,
      (if e.id = i ∧ e.type = none then { e with type := some .externalModule } else e) = x :=
  List.mem_map

lemma grown_typeTarget (i : EntityId) (g : Graph) : Grown g (typeTarget i g) := by
  refine ⟨?_, fun r hr => hr, fun se hs => hs⟩
  rintro j ⟨e, he, rfl⟩
  refine ⟨_, mem_typeTarget.2 ⟨e, he, rfl⟩, ?_⟩
  split <;> rfl

lemma Sound.typeTarget (h : Sound F g) {i : EntityId} (hi : F i) : Sound F (typeTarget i g) := by
  refine h.entities (grown_typeTarget i g) (fun r hr => hr) (fun se hs => hs) ?_ fun _ hi => hi
  intro x hx _
  obtain ⟨e, he, rfl⟩ := mem_typeTarget.1 hx
  split
  · rename_i hei
    exact .inr (hei.1 ▸ hi)
  · exact .inl he

lemma grown_addRelationship (r : Relationship) (g : Graph) : Grown g (addRelationship r g) := by
  refine ⟨fun i hi => hi, fun r' hr' => ?_, fun se hs => hs⟩
  by_cases heq : r' = r
  · exact Keyed.mem_put.2 (.inl heq)
  · exact Keyed.mem_put.2 (.inr ⟨hr', heq⟩)

lemma Sound.addRelationship (h : Sound F g) {r : Relationship} (hs : Present g r.sourceId)
    (ht : Present g r.targetId) : Sound F (addRelationship r g) where
  endpoints r' hr' := by
    rcases Keyed.mem_put.1 hr' with rfl | ⟨hr', -⟩
    · exact ⟨hs, ht⟩
    · exact h.endpoints r' hr'
  links := h.links
  strays e he hty hst := h.strays e he hty (hst.of_grown (grown_addRelationship r g))

section Rows
variable {α : Type} {f : α → Graph → Graph} (hf : ∀ x g, Grown g (f x g))
include hf

lemma grown_rows (xs : List α) (g : Graph) : Grown g (applyAll (xs.map f) g) := by
  induction xs generalizing g with
  | nil => exact .refl g
  | cons x xs ih => exact (hf x g).trans (ih (f x g))

/-- What a row brings about stays. -/
lemma done_of_rows {P : α → Graph → Prop} (hdone : ∀ x g, P x (f x g))
    (hmono : ∀ x g g', Grown g g' → P x g → P x g') (xs : List α) (g : Graph) :
    ∀ x ∈ xs, P x (applyAll (xs.map f) g) := by
  induction xs generalizing g with
  | nil => simp
  | cons x xs ih =>
    intro y hy
    rcases List.mem_cons.1 hy with rfl | hy
    · exact hmono y _ _ (grown_rows hf xs (f y g)) (hdone y g)
    · exact ih (f x g) y hy

lemma Sound.rows (h : Sound F g) (xs : List α)
    (hstep : ∀ x ∈ xs, ∀ g', Grown g g' → Sound F g' → Sound F (f x g')) :
    Sound F (applyAll (xs.map f) g) := by
  induction xs generalizing g with
  | nil => exact h
  | cons x xs ih =>
    refine ih (hstep x (by simp) g (.refl g) h) fun y hy g' hg hs => ?_
    exact hstep y (by simp [hy]) g' ((hf x g).trans hg) hs

end Rows

/-- The external modules that a call stores for no source. -/
def Unowned (a : StoreCall) (i : EntityId) : Prop :=
  a.sourceId.filter (· ≠ "") = none ∧ ∃ e ∈ a.entities, e.id = i ∧ e.type = .externalModule

/-- The entities of a call, with their links. -/
lemma Sound.storeEntities (h : Sound F g) (a : StoreCall) : Sound (fun i => F i ∨ Unowned a i)
    (applyAll (((a.sourceId.filter (· ≠ "")).map insertSource).toList ++
      a.entities.map GraphStore.upsertEntity ++ (((a.sourceId.filter (· ≠ "")).map fun sid =>
        a.entities.map fun e => GraphStore.linkEntity sid e.id).getD [])) g) := by
  rw [applyAll_append, applyAll_append]
  -- the source itself is not what a row refers to
  have hsource : Sound F (applyAll ((a.sourceId.filter (· ≠ "")).map insertSource).toList g) := by
    cases a.sourceId.filter (· ≠ "") with
    | none => exact h
    | some sid => exact ⟨h.endpoints, h.links, h.strays⟩
  have hmore : Sound (fun i => F i ∨ ∃ e ∈ a.entities, e.id = i ∧ e.type = .externalModule) _ :=
    hsource.shrink fun i hi _ => .inl hi
  have hrows := hmore.rows grown_upsertEntity a.entities fun e he g' _ hs =>
    hs.upsertEntity e fun ht => .inr ⟨e, he, rfl, ht⟩
  have hpresent := done_of_rows grown_upsertEntity (P := fun e g => Present g e.id)
    present_upsertEntity (fun e g g' hg => hg.entities e.id) a.entities
    (applyAll ((a.sourceId.filter (· ≠ "")).map insertSource).toList g)
  generalize applyAll (a.entities.map GraphStore.upsertEntity)
    (applyAll ((a.sourceId.filter (· ≠ "")).map insertSource).toList g) = g₂ at hrows hpresent ⊢
  cases hsid : a.sourceId.filter (· ≠ "") with
  | none => exact hrows.shrink fun i hi _ => hi.imp_right fun he => ⟨hsid, he⟩
  | some sid =>
    have hgrow : ∀ (e : Entity) g, Grown g (GraphStore.linkEntity sid e.id g) := fun e g =>
      grown_linkEntity sid e.id g
    refine (hrows.rows hgrow a.entities fun e he g' hg hs => hs.linkEntity sid
      (hg.entities e.id (hpresent e he))).shrink fun i hi hst => hi.imp_right ?_
    rintro ⟨e, he, rfl, -⟩
    obtain ⟨se, hse, heq⟩ := done_of_rows hgrow
      (P := fun e g => ∃ se ∈ g.sourceEntities, se.2 = e.id) (fun e g => mem_linkEntity sid e.id g)
      (fun e g g' hg ⟨se, hs, heq⟩ => ⟨se, hg.links se hs, heq⟩) a.entities g₂ e he
    exact absurd heq (hst.2 se hse)

/-- The relationships of a call, with their endpoints. -/
lemma Sound.storeRelationships (h : Sound F g) (a : StoreCall) :
    Sound F (applyAll (a.relationships.map GraphStore.addRelationship)
      (applyAll (a.relationships.map fun r => GraphStore.typeTarget r.targetId)
        (applyAll (a.endpoints.map GraphStore.addEndpoint) g))) := by
  have hendpoints := h.rows grown_addEndpoint a.endpoints
    fun i _ g' _ hs => hs.addEndpoint i
  have hpresent := done_of_rows grown_addEndpoint (P := fun i g => Present g i) present_addEndpoint
    (fun i g g' hg => hg.entities i) a.endpoints g
  generalize applyAll (a.endpoints.map GraphStore.addEndpoint) g = g₂ at hendpoints hpresent ⊢
  -- a target may be typed before its relationship is there
  have hgrow : ∀ (r : Relationship) g, Grown g (GraphStore.typeTarget r.targetId g) := fun r g =>
    grown_typeTarget r.targetId g
  have hmore : Sound (fun i => F i ∨ ∃ r ∈ a.relationships, r.targetId = i) g₂ :=
    hendpoints.shrink fun i hi _ => .inl hi
  have htyped := hmore.rows hgrow a.relationships fun r hr g' _ hs =>
    hs.typeTarget (.inr ⟨r, hr, rfl⟩)
  have hgrown := grown_rows hgrow a.relationships g₂
  generalize applyAll (a.relationships.map fun r => GraphStore.typeTarget r.targetId) g₂ = g₃
    at htyped hgrown ⊢
  refine (htyped.rows grown_addRelationship a.relationships fun r hr g' hg hs => hs.addRelationship
    ?_ ?_).shrink fun i hi hst => hi.resolve_right ?_
  · exact hg.entities _ (hgrown.entities _ (hpresent _ ((a.endpoints_mem _).2 ⟨r, hr, .inl rfl⟩)))
  · exact hg.entities _ (hgrown.entities _ (hpresent _ ((a.endpoints_mem _).2 ⟨r, hr, .inr rfl⟩)))
  · rintro ⟨r, hr, rfl⟩
    have hmem := done_of_rows grown_addRelationship (P := fun r g => r ∈ g.relationships)
      (fun r g => Keyed.mem_put_self) (fun r g g' hg => hg.relationships r) a.relationships g₃ r hr
    exact (hst.1 r hmem).2 rfl

/-- A store leaves no strays but those it stores for no source. -/
lemma Sound.storeGraph (h : Sound F g) (a : StoreCall) :
    Sound (fun i => F i ∨ Unowned a i) (applyAll (storeStatements a) g) := by
  unfold storeStatements
  rw [applyAll_append, applyAll_append, applyAll_append]
  refine Sound.storeRelationships ?_ a
  split
  · exact h.shrink fun i hi _ => .inl hi
  · exact h.storeEntities a

end Store

/-! ### Deletes -/

/-- What a delete leaves: the doomed entities are gone with their relationships, and so are the
external modules next to them to which nothing refers in `mid`. -/
structure Swept (doomed : EntityId → Bool) (g mid g' : Graph) : Prop where
  edges : mid.relationships = g'.relationships
  links : ∀ se ∈ g'.sourceEntities, se ∈ mid.sourceEntities
  old : ∀ se ∈ mid.sourceEntities, se ∈ g.sourceEntities
  relationships : ∀ r, r ∈ g'.relationships ↔
    r ∈ g.relationships ∧ doomed r.sourceId = false ∧ doomed r.targetId = false
  entities : ∀ e, e ∈ g'.entities ↔ (e ∈ g.entities ∧ doomed e.id = false) ∧
    ¬(externalNeighbours doomed g e.id = true ∧ e.type = some .externalModule ∧ Stray mid e.id)
  kept : ∀ se ∈ g'.sourceEntities, doomed se.2 = false
  owned : ∀ se ∈ g.sourceEntities, doomed se.2 = false → ∃ se' ∈ g'.sourceEntities, se'.2 = se.2

/-- An entity that something still refers to is not swept. -/
lemma Swept.present {doomed : EntityId → Bool} {mid : Graph} (hs : Swept doomed g mid g')
    {i : EntityId} (hi : Present g i) (hd : doomed i = false) (hst : ¬Stray mid i) :
    Present g' i := by
  obtain ⟨e, he, rfl⟩ := hi
  exact ⟨e, (hs.entities e).2 ⟨⟨he, hd⟩, fun h => hst h.2.2⟩, rfl⟩

/-- A delete makes no strays. -/
lemma Swept.stray {doomed : EntityId → Bool} {mid : Graph} (hs : Swept doomed g mid g')
    {e : EntityRow} (he : e ∈ g'.entities) (ht : e.type = some .externalModule)
    (hst : Stray g' e.id) : Stray g e.id := by
  obtain ⟨⟨hold, hd⟩, hnot⟩ := (hs.entities e).1 he
  have hlinks : ∀ se ∈ g.sourceEntities, se.2 ≠ e.id := by
    intro se hse heq
    obtain ⟨se', hse', heq'⟩ := hs.owned se hse (heq ▸ hd)
    exact hst.2 se' hse' (heq'.trans heq)
  refine ⟨fun r hr => ?_, hlinks⟩
  -- a relationship of the entity that is gone had a doomed end, so the entity was staged
  by_contra hne
  have hstray : Stray mid e.id :=
    ⟨fun r' hr' => hst.1 r' (hs.edges ▸ hr'), fun se hse => hlinks se (hs.old se hse)⟩
  refine hnot ⟨List.any_eq_true.2 ⟨r, hr, ?_⟩, ht, hstray⟩
  have hgone : doomed r.sourceId = true ∨ doomed r.targetId = true := by
    by_contra hnone
    rw [not_or, Bool.not_eq_true, Bool.not_eq_true] at hnone
    exact hne (hst.1 r ((hs.relationships r).2 ⟨hr, hnone⟩))
  rw [not_and_or, not_not, not_not] at hne
  rw [Bool.or_eq_true, Bool.and_eq_true, Bool.and_eq_true, decide_eq_true_eq, decide_eq_true_eq]
  rcases hne with heq | heq
  · exact .inr ⟨hgone.resolve_left (by simp [heq, hd]), heq⟩
  · exact .inl ⟨hgone.resolve_right (by simp [heq, hd]), heq⟩

lemma Sound.sweep (h : Sound F g) {doomed : EntityId → Bool} {mid : Graph}
    (hs : Swept doomed g mid g') : Sound F g' where
  endpoints r hr := by
    obtain ⟨hold, hsource, htarget⟩ := (hs.relationships r).1 hr
    have hmid : r ∈ mid.relationships := hs.edges ▸ hr
    exact ⟨hs.present (h.endpoints r hold).1 hsource fun hst => (hst.1 r hmid).1 rfl,
      hs.present (h.endpoints r hold).2 htarget fun hst => (hst.1 r hmid).2 rfl⟩
  links se hse :=
    hs.present (h.links se (hs.old se (hs.links se hse))) (hs.kept se hse)
      fun hst => hst.2 se (hs.links se hse) rfl
  strays e he ht hst := h.strays e ((hs.entities e).1 he).1.1 ht (hs.stray he ht hst)

lemma mem_deleteStagedOrphans {staged : EntityId → Bool} {e : EntityRow} :
    e ∈ (deleteStagedOrphans staged g).entities ↔
      e ∈ g.entities ∧ ¬(staged e.id = true ∧ e.type = some .externalModule ∧ Stray g e.id) := by
  refine Keyed.mem_filter.trans (and_congr_right fun _ => ?_)
  exact decide_eq_true_iff

lemma mem_deleteRelationships {doomed : EntityId → Bool} {r : Relationship} :
    r ∈ (deleteRelationships doomed g).relationships ↔
      r ∈ g.relationships ∧ doomed r.sourceId = false ∧ doomed r.targetId = false := by
  refine Keyed.mem_filter.trans (and_congr_right fun _ => ?_)
  rw [Bool.not_eq_true', Bool.or_eq_false_iff]

lemma mem_deleteRows {doomed : EntityId → Bool} {e : EntityRow} :
    e ∈ (deleteRows doomed g).entities ↔ e ∈ g.entities ∧ doomed e.id = false := by
  refine Keyed.mem_filter.trans (and_congr_right fun _ => ?_)
  rw [Bool.not_eq_true']

lemma mem_deleteLinks {p : String × EntityId → Bool} {se : String × EntityId} :
    se ∈ (deleteLinks p g).sourceEntities ↔ se ∈ g.sourceEntities ∧ p se = false := by
  refine Keyed.mem_filter.trans (and_congr_right fun _ => ?_)
  rw [Bool.not_eq_true']

lemma linked_iff {sid : String} {i : EntityId} :
    linked g sid i = true ↔ (sid, i) ∈ g.sourceEntities := decide_eq_true_iff

lemma exclusive_iff {sid : String} {i : EntityId} : exclusive g sid i = true ↔
    (sid, i) ∈ g.sourceEntities ∧ ∀ se ∈ g.sourceEntities, se.2 = i → se.1 = sid := by
  rw [exclusive, Bool.and_eq_true, linked_iff, List.all_eq_true]
  refine and_congr_right fun _ => forall₂_congr fun se _ => ?_
  rw [Bool.or_eq_true, decide_eq_true_eq, decide_eq_true_eq]
  tauto

/-- What a source has, but not alone, another source has too. -/
lemma exists_other_link {sid : String} {se : String × EntityId} (hs : se ∈ g.sourceEntities)
    (hd : exclusive g sid se.2 = false) :
    ∃ se' ∈ g.sourceEntities, se'.2 = se.2 ∧ se'.1 ≠ sid := by
  by_cases hsid : se.1 = sid
  · have hnot : ¬∀ se' ∈ g.sourceEntities, se'.2 = se.2 → se'.1 = sid := fun hall => by
      have := exclusive_iff.2 ⟨by rwa [← hsid], hall⟩
      rw [hd] at this
      cases this
    simp only [not_forall] at hnot
    obtain ⟨se', hs', heq, hne⟩ := hnot
    exact ⟨se', hs', heq, hne⟩
  · exact ⟨se, hs, rfl, hsid⟩

/-- The links of a source go with its row; its exclusive entities had no others. -/
lemma swept_deleteSource (sid : String) (g : Graph) : Swept (exclusive g sid) g
    (deleteRows (exclusive g sid) (deleteRelationships (exclusive g sid) g))
    (applyAll (deleteSourceStatements sid g) g) where
  edges := rfl
  links se hs := (mem_deleteLinks.1 hs).1
  old se hs := hs
  relationships r := mem_deleteRelationships
  entities e := mem_deleteStagedOrphans.trans (and_congr_left fun _ => mem_deleteRows)
  kept se hs := by
    obtain ⟨hs, hne⟩ := mem_deleteLinks.1 hs
    by_contra hd
    rw [Bool.not_eq_false, exclusive_iff] at hd
    exact of_decide_eq_false hne (hd.2 se hs rfl)
  owned se hs hd := by
    obtain ⟨se', hs', heq, hne⟩ := exists_other_link hs hd
    exact ⟨se', mem_deleteLinks.2 ⟨hs', decide_eq_false hne⟩, heq⟩

/-- Where the file has no entities, nothing is swept. -/
lemma exists_swept_deleteByFile (sid : String) (p : Paths.FilePath) (g : Graph) :
    ∃ mid, Swept (ofFile g sid p) g mid (applyAll (deleteByFileStatements sid p g) g) := by
  unfold deleteByFileStatements
  simp only
  split
  case isTrue hnone =>
    have hdoomed : ∀ i, ofFile g sid p i = false := by
      intro i
      by_contra hd
      rw [Bool.not_eq_false, ofFile, Bool.and_eq_true, List.any_eq_true] at hd
      obtain ⟨hl, e, he, heq⟩ := hd
      obtain ⟨rfl, hp⟩ := of_decide_eq_true heq
      have hgone := List.all_eq_true.1 hnone e he
      rw [Bool.not_eq_true', ofFile, hl, Bool.true_and, List.any_eq_false] at hgone
      exact hgone e he heq
    refine ⟨g, ⟨rfl, fun _ h => h, fun _ h => h, fun r => ?_, fun e => ?_, fun se _ => hdoomed se.2,
      fun se h _ => ⟨se, h, rfl⟩⟩⟩
    · rw [hdoomed, hdoomed]
      exact ⟨fun h => ⟨h, rfl, rfl⟩, fun h => h.1⟩
    · refine ⟨fun h => ⟨⟨h, hdoomed e.id⟩, fun hx => ?_⟩, fun h => h.1.1⟩
      rw [externalNeighbours, List.any_eq_true] at hx
      obtain ⟨r, -, hr⟩ := hx.1
      rw [hdoomed, hdoomed] at hr
      cases hr
  case isFalse =>
    exact ⟨deleteRows (ofFile g sid p) (deleteLinks (fun se => ofFile g sid p se.2)
        (deleteRelationships (ofFile g sid p) g)), {
      edges := rfl
      links := fun se hs => hs
      old := fun se hs => (mem_deleteLinks.1 hs).1
      relationships := fun r => mem_deleteRelationships
      entities := fun e => mem_deleteStagedOrphans.trans (and_congr_left fun _ => mem_deleteRows)
      kept := fun se hs => (mem_deleteLinks.1 hs).2
      owned := fun se hs hd => ⟨se, mem_deleteLinks.2 ⟨hs, hd⟩, rfl⟩ }⟩

lemma Sound.deleteEntitiesByFile (h : Sound F g) (sid : String) (p : Paths.FilePath) :
    Sound F (applyAll (deleteByFileStatements sid p g) g) := by
  obtain ⟨mid, hs⟩ := exists_swept_deleteByFile sid p g
  exact h.sweep hs

/-! ### Runs -/

/-- The stores and deletes of an index. -/
inductive Call
  | storeGraph (a : StoreCall)
  | deleteSource (sid : String)
  | deleteEntitiesByFile (sid : String) (p : Paths.FilePath)

def Call.op : Call → WriteOp
  | .storeGraph a => .storeGraph a
  | .deleteSource sid => .deleteSource sid
  | .deleteEntitiesByFile sid p => .deleteEntitiesByFile sid p

/-- The rows after calls that all completed. -/
def after (calls : List Call) : Graph :=
  calls.foldl (fun g x => applyAll (statements x.op g) g) GraphStore.empty

/-- The external modules that calls stored for no source. -/
def StoredUnowned (calls : List Call) (i : EntityId) : Prop :=
  ∃ a, .storeGraph a ∈ calls ∧ Unowned a i

lemma sound_after (calls : List Call) : Sound (StoredUnowned calls) (after calls) := by
  induction calls using List.reverseRecOn with
  | nil => exact sound_empty
  | append_singleton calls x ih =>
    rw [after, List.foldl_append]
    have hmono : ∀ i, StoredUnowned calls i → StoredUnowned (calls ++ [x]) i := fun i ⟨a, ha, hi⟩ =>
      ⟨a, List.mem_append_left _ ha, hi⟩
    cases x with
    | storeGraph a =>
      refine (ih.storeGraph a).shrink fun i hi _ => hi.elim (hmono i) fun hu => ⟨a, by simp, hu⟩
    | deleteSource sid =>
      exact (ih.sweep (swept_deleteSource sid _)).shrink fun i hi _ => hmono i hi
    | deleteEntitiesByFile sid p =>
      exact (ih.deleteEntitiesByFile sid p).shrink fun i hi _ => hmono i hi

/-- **The rows fit together** after any calls: endpoints and links exist, and an external module to
which nothing refers was stored as such for no source. -/
theorem rows_sound (calls : List Call) :
    (∀ r ∈ (after calls).relationships,
      Present (after calls) r.sourceId ∧ Present (after calls) r.targetId) ∧
    (∀ se ∈ (after calls).sourceEntities, Present (after calls) se.2) ∧
    ∀ e ∈ (after calls).entities, e.type = some .externalModule → Stray (after calls) e.id →
      StoredUnowned calls e.id :=
  ⟨(sound_after calls).endpoints, (sound_after calls).links, (sound_after calls).strays⟩

def numpy : Entity where
  id := .module (.rel ["numpy"])
  type := .externalModule
  name := "numpy"
  filePath := .rel ["numpy"]
  startLine := 0
  endLine := 0
  signature := ""
  language := "python"

lemma numpy_endpoints (i : EntityId) : i ∈ ([] : List EntityId) ↔
    ∃ r ∈ ([] : List Relationship), i = r.sourceId ∨ i = r.targetId := by
  simp

def forNobody : StoreCall where
  entities := [numpy]
  relationships := []
  sourceId := none
  endpoints := []
  endpoints_mem := numpy_endpoints

/-- A delete does not look for what was stored for no source. -/
theorem stray_stays : ¬∀ (calls : List Call) (sid : String),
    ∀ e ∈ (after (calls ++ [.deleteSource sid])).entities, e.type = some .externalModule →
      ¬Stray (after (calls ++ [.deleteSource sid])) e.id := by
  intro hclaim
  have hrows : (after [.storeGraph forNobody, .deleteSource "s"]).entities.rows =
      [⟨numpy.id, some .externalModule, some "numpy", some (.rel ["numpy"]), some 0, some 0,
        some "", some "python", none⟩] := by decide +kernel
  refine hclaim [.storeGraph forNobody] "s" _ (hrows ▸ List.mem_cons_self ..) rfl ⟨?_, ?_⟩
  · have hnone : (after [.storeGraph forNobody, .deleteSource "s"]).relationships.rows = [] := by
      decide +kernel
    intro r (hr : r ∈ (after [.storeGraph forNobody, .deleteSource "s"]).relationships.rows)
    rw [hnone] at hr
    cases hr
  · have hnone : (after [.storeGraph forNobody, .deleteSource "s"]).sourceEntities.rows = [] := by
      decide +kernel
    intro se (hs : se ∈ (after [.storeGraph forNobody, .deleteSource "s"]).sourceEntities.rows)
    rw [hnone] at hs
    cases hs

end Treeweft.GraphInvariant
