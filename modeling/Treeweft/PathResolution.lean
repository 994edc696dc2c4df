import Mathlib.Data.List.Infix

/-!
Resolving path names in a tree with symbolic links: as the system does when it opens a file, and
as `os.path.realpath` does beforehand.

A place is the list of names that lead to it from the root. `Leads` says where a list of names
leads, however it is found out; both agree with it.
-/

namespace Treeweft.PathResolution

abbrev Text := List Char
abbrev Name := List Char
abbrev Place := List Name

/-- The names of a path string, dots and empty ones included. -/
def names (p : Text) : List Name := p.splitOn '/'

def render (d : Place) : Text := '/' :: ['/'].intercalate d

def isabs (p : Text) : Bool := p.head? = some '/'

/-- `os.path.join` of two paths. -/
def join (a b : Text) : Text :=
  if isabs b then b
  else if a = [] ∨ a.getLast? = some '/' then a ++ b
  else a ++ '/' :: b

/-- A name that an entry of a directory can have. -/
structure Plain (n : Name) : Prop where
  ne_nil : n ≠ []
  ne_dot : n ≠ ['.']
  ne_dots : n ≠ ['.', '.']
  no_sep : '/' ∉ n

inductive Node
  | file
  | directory
  | link (target : Text)
  deriving DecidableEq, Repr

abbrev Tree := Place → Option Node

/-- Where the target of a link in `d` starts. -/
def start (d : Place) (target : Text) : Place := if isabs target then [] else d

/-- A name that stands for the directory it is looked up in. -/
def stays (n : Name) : Prop := n = [] ∨ n = ['.']

instance (n : Name) : Decidable (stays n) := inferInstanceAs (Decidable (_ ∨ _))

/-! ### The system -/

section System
variable (tree : Tree)

/-- Name after name, up to the next link, which is left to `next`. -/
def follow (next : Place → List Name → Option Place) : Place → List Name → Option Place
  | d, [] => some d
  | d, n :: rest =>
    if tree d ≠ some .directory then none
    else if stays n then follow next d rest
    else if n = ['.', '.'] then follow next d.dropLast rest
    else
      match tree (d ++ [n]) with
      | none => none
      | some (.link target) => next (start d target) (names target ++ rest)
      | some _ => follow next (d ++ [n]) rest

/-- Lookup with a limit on the links that are followed. -/
def namei : ℕ → Place → List Name → Option Place
  | 0 => follow tree fun _ _ => none
  | k + 1 => follow tree (namei k)

/-- How many links a lookup follows at most. -/
def maxSymlinks : ℕ := 40

/-- What opening `p` opens: the real path. -/
def realPath (p : Text) : Option Place := namei tree maxSymlinks [] (names p)

/-- `os.path.isfile`. -/
def isfile (p : Text) : Bool := (realPath tree p).bind tree = some .file

/-! ### `os.path.realpath` -/

/-- How a walk ends: with every link resolved, at a link that leads back to itself, or at a name
the system refuses with a `ValueError`. -/
inductive Walk
  | resolved (d : Place)
  | unresolved (p : Text)
  | invalid
  deriving DecidableEq, Repr

/-- The links met, and what they resolved to where they have. -/
abbrev Seen := List (Place × Option Place)

/-- `_joinrealpath`, in so many steps. An entry that is missing is taken for one that is no
link. -/
def joinrealpath : ℕ → Place → List Name → Seen → Walk × Seen
  | 0, d, todo, seen => (.unresolved (join (render d) (['/'].intercalate todo)), seen)
  | _ + 1, d, [], seen => (.resolved d, seen)
  | k + 1, d, n :: rest, seen =>
    if stays n then joinrealpath k d rest seen
    else if n = ['.', '.'] then joinrealpath k d.dropLast rest seen
    else if '\x00' ∈ n then (.invalid, seen)
    else
      match tree (d ++ [n]) with
      | some (.link target) =>
        match seen.lookup (d ++ [n]) with
        | some (some p) => joinrealpath k p rest seen
        | some none =>
          (.unresolved (join (render (d ++ [n])) (['/'].intercalate rest)), seen)
        | none =>
          match joinrealpath k (start d target) (names target) ((d ++ [n], none) :: seen) with
          | (.resolved p, seen) => joinrealpath k p rest ((d ++ [n], some p) :: seen)
          | (.unresolved p, seen) => (.unresolved (join p (['/'].intercalate rest)), seen)
          | (.invalid, seen) => (.invalid, seen)
      | _ => joinrealpath k (d ++ [n]) rest seen

/-- `os.path.normpath` of an absolute path. -/
def normpath (p : Text) : Place :=
  (names p).foldl
    (fun d n => if stays n then d else if n = ['.', '.'] then d.dropLast else d ++ [n]) []

/-- `os.path.realpath` of an absolute path; `none` where it raises. -/
def realpath (steps : ℕ) (p : Text) : Option Text :=
  match (joinrealpath tree steps [] (names p) []).1 with
  | .resolved d => some (render d)
  | .unresolved q => some (render (normpath q))
  | .invalid => none

/-- `realpath` resolves all links on its way. -/
def ResolvesLinks (steps : ℕ) (p : Text) : Prop :=
  ∀ q, (joinrealpath tree steps [] (names p) []).1 ≠ .unresolved q

/-! ### Where names lead -/

inductive Leads : Place → List Name → Place → Prop
  | done (d) : Leads d [] d
  | stay {d n rest e} (hn : stays n) (h : Leads d rest e) : Leads d (n :: rest) e
  | up {d rest e} (h : Leads d.dropLast rest e) : Leads d (['.', '.'] :: rest) e
  | entry {d n rest e} (hs : ¬ stays n) (hd : n ≠ ['.', '.'])
      (hl : ∀ target, tree (d ++ [n]) ≠ some (.link target)) (h : Leads (d ++ [n]) rest e) :
      Leads d (n :: rest) e
  | link {d n rest e target} (hs : ¬ stays n) (hd : n ≠ ['.', '.'])
      (hl : tree (d ++ [n]) = some (.link target))
      (h : Leads (start d target) (names target ++ rest) e) : Leads d (n :: rest) e

/-- A place no name of which is a link: its own real path. -/
structure Canonical (d : Place) : Prop where
  plain : ∀ n ∈ d, Plain n
  real : ∀ q n target, q ++ [n] <+: d → tree (q ++ [n]) ≠ some (.link target)

end System

variable {tree : Tree} {d e : Place} {todo rest : List Name} {n : Name}

lemma dots_not_stays : ¬ stays ['.', '.'] := by decide

namespace Leads

lemma unique (h : Leads tree d todo e) : ∀ {e'}, Leads tree d todo e' → e = e' := by
  induction h with
  | done d => rintro e' ⟨⟩; rfl
  | stay hn _ ih =>
    rintro e' (_ | ⟨_, h⟩ | h | ⟨hs, _, _, _⟩ | ⟨hs, _, _, _⟩)
    · exact ih h
    · exact absurd hn dots_not_stays
    · exact absurd hn hs
    · exact absurd hn hs
  | up _ ih =>
    rintro e' (_ | ⟨hn, _⟩ | h | ⟨_, hd, _, _⟩ | ⟨_, hd, _, _⟩)
    · exact absurd hn dots_not_stays
    · exact ih h
    · exact absurd rfl hd
    · exact absurd rfl hd
  | entry hs hd hl _ ih =>
    rintro e' (_ | ⟨hn, _⟩ | h | ⟨_, _, _, h⟩ | ⟨_, _, hl', _⟩)
    · exact absurd hn hs
    · exact absurd rfl hd
    · exact ih h
    · exact absurd hl' (hl _)
  | link hs hd hl _ ih =>
    rintro e' (_ | ⟨hn, _⟩ | h | ⟨_, _, hl', _⟩ | ⟨_, _, hl', h⟩)
    · exact absurd hn hs
    · exact absurd rfl hd
    · exact absurd hl (hl' _)
    · obtain ⟨⟩ := hl.symm.trans hl'
      exact ih h

lemma append {m : Place} {more : List Name} (h : Leads tree d todo m) (h' : Leads tree m more e) :
    Leads tree d (todo ++ more) e := by
  induction h with
  | done d => exact h'
  | stay hn _ ih => exact .stay hn (ih h')
  | up _ ih => exact .up (ih h')
  | entry hs hd hl _ ih => exact .entry hs hd hl (ih h')
  | link hs hd hl _ ih =>
    refine .link hs hd hl ?_
    have hmore := ih h'
    rwa [List.append_assoc] at hmore

end Leads

/-- What the system opens is where the names lead. -/
lemma follow_leads {next : Place → List Name → Option Place}
    (hnext : ∀ d todo e, next d todo = some e → Leads tree d todo e) :
    ∀ todo d, follow tree next d todo = some e → Leads tree d todo e := by
  intro todo
  induction todo with
  | nil =>
    intro d h
    obtain rfl := Option.some.inj h
    exact .done d
  | cons n rest ih =>
    intro d h
    unfold follow at h
    split_ifs at h with hdir hs hd
    · exact .stay hs (ih _ h)
    · subst hd
      exact .up (ih _ h)
    · split at h
      · exact absurd h (by simp)
      · exact .link hs hd ‹_› (hnext _ _ _ h)
      · rename_i node hlink hnode
        refine .entry hs hd (fun target ht => ?_) (ih _ h)
        exact hlink target (Option.some.inj (hnode.symm.trans ht))

lemma namei_leads (k : ℕ) : ∀ d todo e, namei tree k d todo = some e → Leads tree d todo e := by
  induction k with
  | zero => exact fun d todo e h => follow_leads (fun _ _ _ h => absurd h (by simp)) todo d h
  | succ k ih => exact fun d todo e h => follow_leads ih todo d h

/-! ### Names and their strings -/

lemma no_sep_of_mem_names {p : Text} (h : n ∈ names p) : '/' ∉ n := by
  induction p generalizing n with
  | nil =>
    obtain rfl := List.mem_singleton.mp (show n ∈ [[]] from h)
    exact List.not_mem_nil
  | cons c p ih =>
    unfold names at h ih
    rw [List.splitOn_cons_eq_if_modifyHead] at h
    obtain ⟨m, ms, hm⟩ := List.exists_cons_of_ne_nil (List.splitOn_ne_nil '/' p)
    rw [hm] at h ih
    split_ifs at h with hc
    · rcases List.mem_cons.mp h with rfl | h
      · exact List.not_mem_nil
      · exact ih h
    · rcases List.mem_cons.mp h with rfl | h
      · rw [List.mem_cons, not_or]
        exact ⟨fun he => hc (by simp [← he]), ih List.mem_cons_self⟩
      · exact ih (List.mem_cons_of_mem _ h)

lemma names_append_sep (p q : Text) : names (p ++ '/' :: q) = names p ++ names q :=
  List.splitOn_append_cons_self p q

lemma names_render (hd : ∀ n ∈ d, '/' ∉ n) (hne : d ≠ []) : names (render d) = [] :: d := by
  have h := names_append_sep [] (['/'].intercalate d)
  unfold names at h
  rwa [List.splitOn_intercalate '/' hd hne] at h

lemma names_render_nil : names (render []) = [[], []] := rfl

/-- **Separator boundary**: the string test with the separator decides on whole names. -/
lemma render_prefix {root : Place} (hroot : ∀ n ∈ root, '/' ∉ n) (hd : ∀ n ∈ d, '/' ∉ n)
    (h : render root ++ ['/'] <+: render d) : root <+: d := by
  obtain ⟨s, hs⟩ := h
  have hnames := congrArg names hs
  rw [List.append_assoc, List.singleton_append, names_append_sep] at hnames
  rcases eq_or_ne root [] with rfl | hne
  · exact List.nil_prefix
  · rcases eq_or_ne d [] with rfl | hde
    · have hlen := congrArg List.length hnames
      have hroot' := List.length_pos_iff.mpr hne
      have hs' := List.length_pos_iff.mpr (List.splitOn_ne_nil '/' s)
      rw [names_render hroot hne, names_render_nil, List.length_append] at hlen
      simp only [names, List.length_cons, List.length_nil] at hlen
      omega
    · rw [names_render hroot hne, names_render hd hde] at hnames
      exact ⟨_, (List.cons.inj hnames).2⟩

namespace Canonical

lemma nil : Canonical tree [] :=
  ⟨nofun, fun q n _ h => absurd (List.prefix_nil.mp h) (by simp)⟩

lemma dropLast (h : Canonical tree d) : Canonical tree d.dropLast :=
  ⟨fun n hn => h.plain n (List.mem_of_mem_dropLast hn),
    fun q n target hq => h.real q n target (hq.trans (List.dropLast_prefix d))⟩

lemma snoc (h : Canonical tree d) (hn : Plain n)
    (hl : ∀ target, tree (d ++ [n]) ≠ some (.link target)) : Canonical tree (d ++ [n]) := by
  refine ⟨fun m hm => ?_, fun q m target hq => ?_⟩
  · rcases List.mem_append.mp hm with hm | hm
    · exact h.plain m hm
    · obtain rfl := List.mem_singleton.mp hm
      exact hn
  · rcases List.prefix_concat_iff.mp hq with heq | hq
    · rw [heq]
      exact hl target
    · exact h.real q m target hq

lemma no_sep (h : Canonical tree d) : ∀ n ∈ d, '/' ∉ n := fun n hn => (h.plain n hn).no_sep

/-- Names without a link lead where they say. -/
lemma leads : ∀ {todo d : List Name}, Canonical tree (d ++ todo) → Leads tree d todo (d ++ todo) := by
  intro todo
  induction todo with
  | nil =>
    intro d _
    rw [List.append_nil]
    exact .done d
  | cons n rest ih =>
    intro d h
    have hn : Plain n := h.plain n (by simp)
    have hrest : d ++ n :: rest = d ++ [n] ++ rest := by simp
    have hl : ∀ target, tree (d ++ [n]) ≠ some (.link target) :=
      fun target => h.real d n target ⟨rest, hrest.symm⟩
    rw [hrest] at h ⊢
    refine .entry ?_ hn.ne_dots hl (ih h)
    rintro (rfl | rfl)
    · exact hn.ne_nil rfl
    · exact hn.ne_dot rfl

/-- **A canonical path is its own real path.** -/
lemma leads_render (h : Canonical tree d) : Leads tree [] (names (render d)) d := by
  rcases eq_or_ne d [] with rfl | hne
  · exact .stay (.inl rfl) (.stay (.inl rfl) (.done []))
  · rw [names_render h.no_sep hne]
    exact .stay (.inl rfl) (leads (d := []) h)

lemma render_inj (h : Canonical tree d) (he : Canonical tree e) (heq : render d = render e) :
    d = e := by
  have hlead := he.leads_render
  rw [← heq] at hlead
  exact h.leads_render.unique hlead

lemma realPath_render (h : Canonical tree d) (he : realPath tree (render d) = some e) : e = d :=
  (namei_leads _ _ _ _ he).unique h.leads_render

end Canonical

/-! ### `realpath` finds out where names lead -/

/-- A link that was met, and where its target leads. -/
structure Met (tree : Tree) (q p : Place) : Prop where
  canonical : Canonical tree p
  leads : ∀ d n, q = d ++ [n] → ∃ target, tree q = some (.link target) ∧
    Leads tree (start d target) (names target) p

def AllMet (tree : Tree) (seen : Seen) : Prop :=
  ∀ q p, seen.lookup q = some (some p) → Met tree q p

lemma AllMet.cons {seen : Seen} (h : AllMet tree seen) {q : Place} {r : Option Place}
    (hr : ∀ p, r = some p → Met tree q p) : AllMet tree ((q, r) :: seen) := by
  intro q' p hp
  rw [List.lookup_cons] at hp
  split at hp
  · rename_i heq
    obtain rfl := eq_of_beq heq
    exact hr p (Option.some.inj hp)
  · exact h q' p hp

/-- **Soundness of `realpath`**: a walk that resolves ends where its names lead, at a canonical
place. -/
lemma joinrealpath_leads (k : ℕ) : ∀ d todo seen, Canonical tree d → (∀ n ∈ todo, '/' ∉ n) →
    AllMet tree seen → AllMet tree (joinrealpath tree k d todo seen).2 ∧
      ∀ p, (joinrealpath tree k d todo seen).1 = .resolved p →
        Leads tree d todo p ∧ Canonical tree p := by
  induction k with
  | zero => exact fun d todo seen _ _ h => ⟨h, nofun⟩
  | succ k ih =>
    intro d todo seen hd hsep hseen
    cases todo with
    | nil =>
      refine ⟨hseen, ?_⟩
      rintro p ⟨⟩
      exact ⟨.done d, hd⟩
    | cons n rest =>
      have hrest : ∀ m ∈ rest, '/' ∉ m := fun m hm => hsep m (List.mem_cons_of_mem _ hm)
      unfold joinrealpath
      split_ifs with hs hdd hnul
      · obtain ⟨h1, h2⟩ := ih d rest seen hd hrest hseen
        exact ⟨h1, fun p hp => ⟨.stay hs (h2 p hp).1, (h2 p hp).2⟩⟩
      · subst hdd
        obtain ⟨h1, h2⟩ := ih d.dropLast rest seen hd.dropLast hrest hseen
        exact ⟨h1, fun p hp => ⟨.up (h2 p hp).1, (h2 p hp).2⟩⟩
      · exact ⟨hseen, nofun⟩
      · have hn : Plain n := ⟨fun h => hs (.inl h), fun h => hs (.inr h), hdd,
          hsep n List.mem_cons_self⟩
        split
        · rename_i target hl
          -- a link leads where its target does, and on from there
          have hlink : ∀ {m p}, Leads tree (start d target) (names target) m →
              Leads tree m rest p → Leads tree d (n :: rest) p :=
            fun h h' => .link hs hdd hl (h.append h')
          split
          · rename_i p hp
            have hmet := hseen _ _ hp
            obtain ⟨target', ht, hlead⟩ := hmet.leads d n rfl
            obtain ⟨⟩ := hl.symm.trans ht
            obtain ⟨h1, h2⟩ := ih p rest seen hmet.canonical hrest hseen
            exact ⟨h1, fun p' hp' => ⟨hlink hlead (h2 p' hp').1, (h2 p' hp').2⟩⟩
          · exact ⟨hseen, nofun⟩
          · have hstart : Canonical tree (start d target) := by
              unfold start
              split
              · exact .nil
              · exact hd
            obtain ⟨h1, h2⟩ := ih (start d target) (names target) ((d ++ [n], none) :: seen) hstart
              (fun m hm => no_sep_of_mem_names hm) (hseen.cons nofun)
            split
            · rename_i p seen' hw
              rw [hw] at h1 h2
              obtain ⟨hlead, hp⟩ := h2 p rfl
              have hmet : Met tree (d ++ [n]) p := by
                refine ⟨hp, fun d' n' heq => ?_⟩
                obtain ⟨rfl, heq⟩ := List.append_inj' heq rfl
                exact ⟨target, hl, hlead⟩
              obtain ⟨h3, h4⟩ := ih p rest ((d ++ [n], some p) :: seen') hp hrest
                (h1.cons fun _ h => Option.some.inj h ▸ hmet)
              exact ⟨h3, fun p' hp' => ⟨hlink hlead (h4 p' hp').1, (h4 p' hp').2⟩⟩
            · rename_i hw
              rw [hw] at h1
              exact ⟨h1, nofun⟩
            · rename_i hw
              rw [hw] at h1
              exact ⟨h1, nofun⟩
        · rename_i hl
          obtain ⟨h1, h2⟩ := ih (d ++ [n]) rest seen (hd.snoc hn hl) hrest hseen
          exact ⟨h1, fun p hp => ⟨.entry hs hdd hl (h2 p hp).1, (h2 p hp).2⟩⟩

lemma ResolvesLinks.of_resolved {steps : ℕ} {p : Text}
    (h : (joinrealpath tree steps [] (names p) []).1 = .resolved d) :
    ResolvesLinks tree steps p := by
  intro q hq
  rw [h] at hq
  cases hq

/-- Where all links are resolved, `realpath` gives the canonical path of the place its argument
leads to. -/
lemma realpath_spec {steps : ℕ} {p q : Text} (hlinks : ResolvesLinks tree steps p)
    (h : realpath tree steps p = some q) :
    ∃ d, q = render d ∧ Canonical tree d ∧ Leads tree [] (names p) d := by
  have hsound : ∀ d, (joinrealpath tree steps [] (names p) []).1 = .resolved d →
      Leads tree [] (names p) d ∧ Canonical tree d :=
    (joinrealpath_leads steps [] (names p) [] .nil (fun n hn => no_sep_of_mem_names hn) nofun).2
  unfold realpath at h
  cases hw : (joinrealpath tree steps [] (names p) []).1 with
  | resolved d =>
    rw [hw] at h
    obtain ⟨hlead, hd⟩ := hsound d hw
    exact ⟨d, (Option.some.inj h).symm, hd, hlead⟩
  | unresolved u => exact absurd hw (hlinks u)
  | invalid =>
    rw [hw] at h
    exact absurd h (by simp)

end Treeweft.PathResolution
