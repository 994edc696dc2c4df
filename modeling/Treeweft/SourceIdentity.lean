import Treeweft.PrefixCode
import Treeweft.SourceId

/-!
When two requests get one key.

The parts of a key are escaped and can be told from each other, but nothing says which field a part
is from, and the key of no part is a word that a part may be.
-/

namespace Treeweft.SourceIdentity

open Treeweft.SourceId

inductive Location
  | url (u : String)
  | dir (p : String)
deriving DecidableEq

def Location.text : Location → String
  | url u => u
  | dir p => p

/-- What a request names: a remote or a directory, and a branch. -/
structure Named where
  location : Option Location
  branch : Option String
deriving DecidableEq

/-- A URL without white space around it and slashes at its end, the real path of a directory, and a
branch without white space around it. -/
def normalize (fs : FileSystem) (path url branch : String) : Named where
  location :=
    if url ≠ "" then some (.url (stripSlashes (strip url)))
    else if path ≠ "" then some (.dir (fs.realpath (fs.expanduser path)))
    else none
  branch := if branch ≠ "" then some (strip branch) else none

def Named.texts (n : Named) : List String := (n.location.map Location.text).toList ++ n.branch.toList

lemma keyParts_eq (fs : FileSystem) (path url branch : String) :
    keyParts fs path url branch = (normalize fs path url branch).texts := by
  rw [keyParts, Named.texts, normalize]
  split_ifs <;> rfl

/-- The key of some parts. -/
def keyOf (texts : List String) : String :=
  let key := "|".intercalate (texts.map escapeKeyPart)
  if key = "" then "anonymous" else key

lemma sourceKey_eq (fs : FileSystem) (path url branch : String) :
    sourceKey fs path url branch = keyOf (normalize fs path url branch).texts := by
  rw [sourceKey, keyOf, keyParts_eq]

/-! ### Keys of parts -/

/-- Neither an escaped character nor the separator begins another. -/
lemma prefixFree_escape : PrefixFree (PrefixFree.withSep ['|'] escapeChar) where
  ne_nil := by
    rintro (_ | c)
    · exact List.cons_ne_nil _ _
    · rw [PrefixFree.withSep, escapeChar]
      split_ifs <;> exact List.cons_ne_nil _ _
  eq_of_prefix := by
    rintro (_ | c) (_ | d) h <;> simp only [PrefixFree.withSep, escapeChar] at h
    · rfl
    · split_ifs at h with h1 h2 <;> simp only [List.cons_prefix_cons] at h
      · exact absurd h.1 (by decide)
      · exact absurd h.1 (by decide)
      · exact absurd h.1.symm h2
    · split_ifs at h <;> simp_all
    · split_ifs at h <;> simp_all

def joined (texts : List String) : String := "|".intercalate (texts.map escapeKeyPart)

lemma joined_injective {ps qs : List String} (hp : ps ≠ []) (hq : qs ≠ [])
    (h : joined ps = joined qs) : ps = qs := by
  have hmap : ∀ rs : List String, (rs.map escapeKeyPart).map String.toList =
      (rs.map String.toList).map (List.flatMap escapeChar) := by
    intro rs
    rw [List.map_map, List.map_map]
    exact List.map_congr_left fun r _ => String.toList_ofList
  have hlist := congrArg String.toList h
  rw [joined, joined, String.toList_intercalate, String.toList_intercalate, hmap, hmap] at hlist
  have hps := prefixFree_escape.intercalate_injective (by simpa using hp) (by simpa using hq) hlist
  exact List.map_injective_iff.mpr (fun _ _ => String.toList_inj.mp) hps

lemma joined_eq_empty_iff {ps : List String} : joined ps = "" ↔ ps = [] ∨ ps = [""] := by
  constructor
  · intro h
    by_cases hp : ps = []
    · exact .inl hp
    · exact .inr (joined_injective hp (List.cons_ne_nil _ _) (h.trans (by decide)))
  · rintro (rfl | rfl) <;> decide

lemma joined_eq_anonymous_iff {ps : List String} :
    joined ps = "anonymous" ↔ ps = ["anonymous"] := by
  constructor
  · intro h
    refine joined_injective ?_ (List.cons_ne_nil _ _) (h.trans (by decide))
    rintro rfl
    exact absurd h (by decide)
  · rintro rfl
    decide

/-- No part, or one that is empty or the word for no part. -/
def Anonymous (texts : List String) : Prop := texts = [] ∨ texts = [""] ∨ texts = ["anonymous"]

lemma keyOf_eq_anonymous_iff {ps : List String} : keyOf ps = "anonymous" ↔ Anonymous ps := by
  rw [keyOf, Anonymous, ← or_assoc, ← joined_eq_empty_iff, ← joined_eq_anonymous_iff]
  change (if joined ps = "" then "anonymous" else joined ps) = "anonymous" ↔ _
  split
  case isTrue h => exact iff_of_true rfl (.inl h)
  case isFalse h => exact ⟨.inr, fun h' => h'.resolve_left h⟩

lemma keyOf_eq_joined {ps : List String} (h : ¬ Anonymous ps) : keyOf ps = joined ps :=
  if_neg fun hnil => h ((joined_eq_empty_iff.mp hnil).imp_right .inl)

lemma keyOf_eq_iff (ps qs : List String) :
    keyOf ps = keyOf qs ↔ ps = qs ∨ Anonymous ps ∧ Anonymous qs := by
  by_cases hp : Anonymous ps
  · rw [keyOf_eq_anonymous_iff.mpr hp, eq_comm, keyOf_eq_anonymous_iff]
    exact ⟨fun hq => .inr ⟨hp, hq⟩, fun h => h.elim (fun he => he ▸ hp) And.right⟩
  by_cases hq : Anonymous qs
  · rw [keyOf_eq_anonymous_iff.mpr hq, keyOf_eq_anonymous_iff]
    exact ⟨fun h => absurd h hp, fun h => h.elim (fun he => he ▸ hq) And.left⟩
  rw [keyOf_eq_joined hp, keyOf_eq_joined hq, or_iff_left fun h => hp h.1]
  refine ⟨fun h => joined_injective ?_ ?_ h, fun h => h ▸ rfl⟩
  · rintro rfl
    exact hp (.inl rfl)
  · rintro rfl
    exact hq (.inl rfl)

/-! ### Requests -/

/-- Two things of one key: a remote and a directory of one text, a text that is the location of one
and the branch of the other, and any two that are named by nothing more than the word for nothing. -/
inductive Confused : Named → Named → Prop
  | kind (t : String) (b : Option String) : Confused ⟨some (.url t), b⟩ ⟨some (.dir t), b⟩
  | field (l : Location) : Confused ⟨some l, none⟩ ⟨none, some l.text⟩
  | nothing {m n : Named} : Anonymous m.texts → Anonymous n.texts → Confused m n

lemma toList_inj {a b : Option String} (h : a.toList = b.toList) : a = b := by
  cases a <;> cases b <;> cases h <;> rfl

/-- Two things of the same parts. -/
lemma confused_of_texts {m n : Named} (hne : m ≠ n) (h : m.texts = n.texts) :
    Confused m n ∨ Confused n m := by
  obtain ⟨lm, bm⟩ := m
  obtain ⟨ln, bn⟩ := n
  cases lm with
  | none =>
    cases ln with
    | none =>
      obtain rfl : bm = bn := toList_inj h
      exact absurd rfl hne
    | some l =>
      cases bm with
      | none => exact absurd h nofun
      | some b =>
        obtain ⟨rfl, hb⟩ := List.cons.inj h
        obtain rfl : none = bn := toList_inj hb
        exact .inr (.field l)
  | some l =>
    cases ln with
    | none =>
      cases bn with
      | none => exact absurd h nofun
      | some b =>
        obtain ⟨rfl, hb⟩ := List.cons.inj h
        obtain rfl : bm = none := toList_inj hb
        exact .inl (.field l)
    | some l' =>
      obtain ⟨hl, hb⟩ := List.cons.inj h
      obtain rfl : bm = bn := toList_inj hb
      cases l with
      | url t =>
        cases l' with
        | url t' => exact absurd (by rw [show t = t' from hl]) hne
        | dir t' =>
          obtain rfl : t = t' := hl
          exact .inl (.kind t bm)
      | dir t =>
        cases l' with
        | url t' =>
          obtain rfl : t = t' := hl
          exact .inr (.kind t bm)
        | dir t' => exact absurd (by rw [show t = t' from hl]) hne

lemma key_of_confused {m n : Named} (h : Confused m n) :
    m.texts = n.texts ∨ Anonymous m.texts ∧ Anonymous n.texts := by
  cases h with
  | kind t b => exact .inl rfl
  | field l => exact .inl rfl
  | nothing hm hn => exact .inr ⟨hm, hn⟩

/-- **Source identity.** Requests for different things have different keys, and requests for one
thing the same, unless two different things are confused. -/
theorem sourceKey_iff (fs : FileSystem) (path url branch path' url' branch' : String) :
    ((normalize fs path url branch ≠ normalize fs path' url' branch' →
        sourceKey fs path url branch ≠ sourceKey fs path' url' branch') ∧
      (normalize fs path url branch = normalize fs path' url' branch' →
        sourceKey fs path url branch = sourceKey fs path' url' branch')) ↔
    (normalize fs path url branch ≠ normalize fs path' url' branch' →
      ¬ Confused (normalize fs path url branch) (normalize fs path' url' branch') ∧
        ¬ Confused (normalize fs path' url' branch') (normalize fs path url branch)) := by
  rw [sourceKey_eq, sourceKey_eq, and_iff_left fun h => by rw [h]]
  refine forall_congr' fun hne => ?_
  rw [Ne, keyOf_eq_iff, ← not_or, not_iff_not]
  constructor
  · rintro (h | ⟨hm, hn⟩)
    exacts [confused_of_texts hne h, .inl (.nothing hm hn)]
  · rintro (h | h)
    · exact key_of_confused h
    · exact (key_of_confused h).imp Eq.symm And.symm

/-- A machine on which no path is a link, and `/srv/repo` is a directory. -/
def plain : FileSystem where
  expanduser := id
  realpath := id
  purePath := id
  isFile _ := false
  isDir p := p = "/srv/repo"
  isFile_empty := rfl
  isDir_empty := by decide
  expanduser_idem _ := rfl

/-- A remote whose URL is a path has the key of the directory. -/
theorem remote_and_directory :
    normalize plain "" "/srv/repo" "main" ≠ normalize plain "/srv/repo" "" "main" ∧
      sourceKey plain "" "/srv/repo" "main" = sourceKey plain "/srv/repo" "" "main" := by
  decide +kernel

end Treeweft.SourceIdentity
