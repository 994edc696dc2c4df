import Mathlib.Data.List.Chain
import Mathlib.Data.Set.Basic
import Treeweft.PathResolution

/-!
File paths of a benchmark, made relative to the repository they are in.

The labelled files are named by their place in the container, the retrieved ones by their place
on disk. A path below the root of the repository is made relative to it; any other path is cut
after the last directory that is called like the repository.
-/

namespace Treeweft.RepoPrefix

open PathResolution (Text Name names isabs Plain no_sep_of_mem_names names_append_sep)

/-! ### The paths of the standard library -/

/-- `os.sep.join`. -/
def joinNames (ns : List Name) : Text := ['/'].intercalate ns

/-- A normalised path taken apart: the slashes it begins with, and its names. -/
structure Norm where
  slashes : ℕ
  names : List Name
  deriving DecidableEq

/-- Two slashes at the beginning stay, three count as one. -/
def initialSlashes : Text → ℕ
  | '/' :: '/' :: '/' :: _ => 1
  | '/' :: '/' :: _ => 2
  | '/' :: _ => 1
  | _ => 0

/-- A round of the loop of `os.path.normpath`. -/
def normStep (rooted : Bool) (ns : List Name) (n : Name) : List Name :=
  if n = [] ∨ n = ['.'] then ns
  else if n ≠ ['.', '.'] ∨ (rooted = false ∧ ns = []) ∨ ns.getLast? = some ['.', '.'] then ns ++ [n]
  else ns.dropLast

def normpath (p : Text) : Norm :=
  ⟨initialSlashes p, (names p).foldl (normStep (isabs p)) []⟩

def Norm.str (q : Norm) : Text :=
  if q.slashes = 0 ∧ q.names = [] then ['.']
  else List.replicate q.slashes '/' ++ joinNames q.names

/-- `os.path.basename`. -/
def basename (p : Text) : Name := (names p).getLastD []

def commonPrefix : List Name → List Name → List Name
  | n :: ns, m :: ms => if n = m then n :: commonPrefix ns ms else []
  | _, _ => []

/-- `os.path.commonpath` of two normalised paths, of which it raises if only one is absolute. -/
def commonpath (a b : Norm) : Option Text :=
  if (a.slashes = 0) ≠ (b.slashes = 0) then none
  else some ((if a.slashes = 0 then [] else ['/']) ++ joinNames (commonPrefix a.names b.names))

/-- The names of `os.path.abspath` of a normalised path, from the working directory `cwd`. -/
def absNames (cwd : List Name) (q : Norm) : List Name :=
  if q.slashes = 0 then q.names.foldl (normStep true) cwd else q.names

def relpath (cwd : List Name) (path start : Norm) : Text :=
  let startList := absNames cwd start
  let pathList := absNames cwd path
  let i := (commonPrefix startList pathList).length
  let relList := List.replicate (startList.length - i) ['.', '.'] ++ pathList.drop i
  if relList = [] then ['.'] else joinNames relList

/-! ### The code -/

/-- What follows the last name that is `rootName` and not the end. -/
def lastTail (rootName : Name) : List Name → Option (List Name)
  | [] => none
  | n :: rest =>
    match lastTail rootName rest with
    | some tail => some tail
    | none => if n = rootName ∧ rest ≠ [] then some rest else none

/-- `root_name` of `_rel`. -/
def rootName (repoRoot : Text) : Name :=
  if repoRoot ≠ [] then basename (normpath repoRoot).str else []

/-- `os.path.commonpath([root_norm, norm]) == root_norm`. -/
def Under (repoRoot : Text) (norm : Norm) : Prop :=
  commonpath (normpath repoRoot) norm = some (normpath repoRoot).str

instance (repoRoot : Text) (norm : Norm) : Decidable (Under repoRoot norm) :=
  inferInstanceAs (Decidable (_ = _))

def stripRepoPrefix (cwd : List Name) (path repoRoot : Text) (rootName : Name) : Text :=
  let norm := normpath path
  if repoRoot ≠ [] ∧ Under repoRoot norm then relpath cwd norm (normpath repoRoot)
  else
    match if rootName ≠ [] then lastTail rootName (names norm.str) else none with
    | some tail => joinNames tail
    | none => if isabs norm.str then norm.str.dropWhile (· = '/') else norm.str

/-! ### What is asked of it -/

/-- A path below another: `above/p`. -/
def below (above : Text) (p : List Name) : Text := above ++ '/' :: joinNames p

section Asked
variable (cwd : List Name) (root container : Text)

/-- The key of a path. -/
def key (path : Text) : Text := stripRepoPrefix cwd path root (rootName root)

/-- Where the repository is in the container. -/
def mounted : Text := container ++ '/' :: rootName root

/-- The files of a repository have the same key on both sides, their path in it, and no two files
have one key. -/
structure Sound (files : Set (List Name)) : Prop where
  inContainer : ∀ p ∈ files, key cwd root (below (mounted root container) p) = joinNames p
  onDisk : ∀ p ∈ files, key cwd root (below root p) = joinNames p
  injective : ∀ p ∈ files, ∀ q ∈ files, p ≠ q →
    key cwd root (below (mounted root container) p) ≠
        key cwd root (below (mounted root container) q) ∧
      key cwd root (below root p) ≠ key cwd root (below root q)

/-- `above/p` lies under the root only if `above` is the root, and if it does not, no directory of
`p` is called like the repository. -/
def Safe (above : Text) (p : List Name) : Prop :=
  if Under root (normpath (below above p)) then (normpath above).names = (normpath root).names
  else rootName root ∉ p.dropLast

instance (above : Text) (p : List Name) : Decidable (Safe root above p) :=
  inferInstanceAs (Decidable (if Under root (normpath (below above p)) then
    (normpath above).names = (normpath root).names else rootName root ∉ p.dropLast))

end Asked

/-! ### Names and strings -/

/-- A path in a repository. -/
structure Relative (p : List Name) : Prop where
  ne_nil : p ≠ []
  plain : ∀ n ∈ p, Plain n

lemma Relative.no_sep {p : List Name} (h : Relative p) : ∀ n ∈ p, '/' ∉ n :=
  fun n hn => (h.plain n hn).no_sep

lemma names_joinNames {ns : List Name} (hne : ns ≠ []) (h : ∀ n ∈ ns, '/' ∉ n) :
    names (joinNames ns) = ns := List.splitOn_intercalate '/' h hne

lemma joinNames_inj {ns ms : List Name} (hns : ns ≠ []) (hms : ms ≠ []) (h : ∀ n ∈ ns, '/' ∉ n)
    (h' : ∀ n ∈ ms, '/' ∉ n) (heq : joinNames ns = joinNames ms) : ns = ms := by
  rw [← names_joinNames hns h, heq, names_joinNames hms h']

lemma names_below (above : Text) {p : List Name} (hp : Relative p) :
    names (below above p) = names above ++ p := by
  rw [below, names_append_sep, names_joinNames hp.ne_nil hp.no_sep]

lemma names_slashes (k : ℕ) (t : Text) :
    names (List.replicate k '/' ++ t) = List.replicate k [] ++ names t := by
  induction k with
  | zero => rfl
  | succ k ih =>
    have hsep := names_append_sep [] (List.replicate k '/' ++ t)
    rw [List.replicate_succ, List.replicate_succ, List.cons_append, List.cons_append, ← ih]
    exact hsep

lemma names_str {q : Norm} (hne : q.names ≠ []) (h : ∀ n ∈ q.names, '/' ∉ n) :
    names q.str = List.replicate q.slashes [] ++ q.names := by
  have hnot : ¬(q.slashes = 0 ∧ q.names = []) := fun hboth => hne hboth.2
  rw [Norm.str, if_neg hnot, names_slashes, names_joinNames hne h]

/-! ### Normalised names -/

lemma foldl_plain (rooted : Bool) (ns : List Name) {p : List Name} (h : ∀ n ∈ p, Plain n) :
    p.foldl (normStep rooted) ns = ns ++ p := by
  induction p generalizing ns with
  | nil => exact (List.append_nil ns).symm
  | cons n p ih =>
    obtain ⟨hn, hp⟩ := List.forall_mem_cons.mp h
    have hstep : normStep rooted ns n = ns ++ [n] := by
      have hkept : ¬(n = [] ∨ n = ['.']) := fun hor => hor.elim hn.ne_nil hn.ne_dot
      rw [normStep, if_neg hkept, if_pos (.inl hn.ne_dots)]
    rw [List.foldl_cons, hstep, ih (ns ++ [n]) hp, List.append_assoc, List.singleton_append]

/-- What the loop of `normpath` keeps: names that are entries, and dots only at the beginning. -/
structure Normal (ns : List Name) : Prop where
  entry : ∀ n ∈ ns, n ≠ [] ∧ n ≠ ['.'] ∧ '/' ∉ n
  dots : ns.IsChain fun n m => m = ['.', '.'] → n = ['.', '.']

lemma Normal.step {ns : List Name} (h : Normal ns) {n : Name} (hn : '/' ∉ n) (rooted : Bool) :
    Normal (normStep rooted ns n) := by
  unfold normStep
  split
  · exact h
  · rename_i hentry
    rw [not_or] at hentry
    split
    · rename_i hkept
      refine ⟨fun m hm => ?_, ?_⟩
      · rcases List.mem_append.mp hm with hm | hm
        · exact h.entry m hm
        · rw [List.mem_singleton.mp hm]
          exact ⟨hentry.1, hentry.2, hn⟩
      · refine List.isChain_append.mpr ⟨h.dots, List.isChain_singleton n, ?_⟩
        intro a ha b hb hdots
        have hbn : n = b := Option.some.inj hb
        rcases hkept with hne | ⟨-, hnil⟩ | hlast
        · exact absurd (hbn.trans hdots) hne
        · rw [hnil] at ha
          cases ha
        · exact Option.some.inj (ha.symm.trans hlast)
    · exact ⟨fun m hm => h.entry m (List.mem_of_mem_dropLast hm),
        h.dots.prefix (List.dropLast_prefix ns)⟩

lemma normal_normpath (p : Text) : Normal (normpath p).names := by
  have hloop : ∀ (ns : List Name) (acc : List Name), (∀ n ∈ ns, '/' ∉ n) → Normal acc →
      Normal (ns.foldl (normStep (isabs p)) acc) := by
    intro ns
    induction ns with
    | nil => exact fun acc _ h => h
    | cons n ns ih =>
      intro acc hns h
      obtain ⟨hn, hns⟩ := List.forall_mem_cons.mp hns
      exact ih _ hns (h.step hn (isabs p))
  exact hloop (names p) [] (fun n hn => no_sep_of_mem_names hn) ⟨nofun, List.IsChain.nil⟩

/-- Below a name that is not dots there are none. -/
lemma Normal.plain_of_append {ns rest : List Name} (h : Normal (ns ++ rest)) {n : Name}
    (hn : ns.getLast? = some n) (hdots : n ≠ ['.', '.']) : ∀ m ∈ rest, Plain m := by
  induction rest generalizing ns n with
  | nil => exact nofun
  | cons m rest ih =>
    obtain ⟨hne, hdot, hsep⟩ := h.entry m (by simp)
    have hm : m ≠ ['.', '.'] := fun heq =>
      hdots ((List.isChain_append.mp h.dots).2.2 n hn m rfl heq)
    intro x hx
    rcases List.mem_cons.mp hx with rfl | hx
    · exact ⟨hne, hdot, hm, hsep⟩
    · have hassoc : Normal ((ns ++ [m]) ++ rest) := by
        rw [List.append_assoc]
        exact h
      exact ih hassoc List.getLast?_concat hm x hx

lemma isabs_below {above : Text} (h : above ≠ []) (p : List Name) :
    isabs (below above p) = isabs above := by
  cases above with
  | nil => exact absurd rfl h
  | cons c above => rfl

/-- Going down a path appends its names. -/
lemma normpath_below {above : Text} (h : above ≠ []) {p : List Name} (hp : Relative p) :
    (normpath (below above p)).names = (normpath above).names ++ p := by
  rw [normpath, normpath, names_below above hp, isabs_below h, List.foldl_append,
    foldl_plain _ _ hp.plain]

/-! ### Paths under the root -/

lemma commonPrefix_prefix (ns ms : List Name) :
    commonPrefix ns ms <+: ns ∧ commonPrefix ns ms <+: ms := by
  induction ns generalizing ms with
  | nil => exact ⟨List.nil_prefix, List.nil_prefix⟩
  | cons n ns ih =>
    cases ms with
    | nil => exact ⟨List.nil_prefix, List.nil_prefix⟩
    | cons m ms =>
      unfold commonPrefix
      by_cases hnm : n = m
      · subst hnm
        obtain ⟨h, h'⟩ := ih ms
        rw [if_pos rfl]
        exact ⟨List.prefix_cons_inj n |>.mpr h, List.prefix_cons_inj n |>.mpr h'⟩
      · rw [if_neg hnm]
        exact ⟨List.nil_prefix, List.nil_prefix⟩

lemma commonPrefix_append (ns rest : List Name) : commonPrefix ns (ns ++ rest) = ns := by
  induction ns with
  | nil => cases rest <;> rfl
  | cons n ns ih => rw [List.cons_append, commonPrefix, if_pos rfl, ih]

/-- The names of a path string that are not empty. -/
def entries (t : Text) : List Name := (names t).filter (· ≠ [])

lemma entries_joined (k : ℕ) {ns : List Name} (h : ∀ n ∈ ns, n ≠ [] ∧ '/' ∉ n) :
    entries (List.replicate k '/' ++ joinNames ns) = ns := by
  have hslashes : (List.replicate k ([] : Name)).filter (· ≠ []) = [] := by simp
  rw [entries, names_slashes, List.filter_append, hslashes, List.nil_append]
  rcases eq_or_ne ns [] with rfl | hne
  · rfl
  · rw [names_joinNames hne fun n hn => (h n hn).2]
    exact List.filter_eq_self.mpr fun n hn => decide_eq_true (h n hn).1

/-- A path under the root is of its kind, and has the names of the root first. -/
lemma Under.prefix {root : Text} {norm : Norm} (h : Under root norm)
    (hne : (normpath root).names ≠ []) :
    ((normpath root).slashes = 0 ↔ norm.slashes = 0) ∧ (normpath root).names <+: norm.names := by
  unfold Under commonpath at h
  by_cases hkind : ((normpath root).slashes = 0) ≠ (norm.slashes = 0)
  · rw [if_pos hkind] at h
    cases h
  · rw [if_neg hkind] at h
    refine ⟨iff_of_eq (Classical.not_not.mp hkind), ?_⟩
    have hentry := (normal_normpath root).entry
    obtain ⟨hroot, hnorm⟩ := commonPrefix_prefix (normpath root).names norm.names
    have hslash : (if (normpath root).slashes = 0 then [] else ['/'] : Text) =
        List.replicate (if (normpath root).slashes = 0 then 0 else 1) '/' := by
      split <;> rfl
    have hnot : ¬((normpath root).slashes = 0 ∧ (normpath root).names = []) := fun hboth =>
      hne hboth.2
    have hentries := congrArg entries (Option.some.inj h)
    rw [hslash, Norm.str, if_neg hnot,
      entries_joined _ fun n hn =>
        ⟨(hentry n (hroot.subset hn)).1, (hentry n (hroot.subset hn)).2.2⟩,
      entries_joined _ fun n hn => ⟨(hentry n hn).1, (hentry n hn).2.2⟩] at hentries
    rw [← hentries]
    exact hnorm

/-- Relative to the root, a path under it is what follows. -/
lemma relpath_eq (cwd : List Name) {start path : Norm}
    (hkind : start.slashes = 0 ↔ path.slashes = 0) {rest : List Name}
    (hnames : path.names = start.names ++ rest) (hrest : ∀ n ∈ rest, Plain n) :
    relpath cwd path start = if rest = [] then ['.'] else joinNames rest := by
  have habs : absNames cwd path = absNames cwd start ++ rest := by
    unfold absNames
    by_cases hrel : start.slashes = 0
    · rw [if_pos hrel, if_pos (hkind.mp hrel), hnames, List.foldl_append, foldl_plain _ _ hrest]
    · rw [if_neg hrel, if_neg fun h => hrel (hkind.mpr h), hnames]
  unfold relpath
  simp only
  rw [habs, commonPrefix_append, Nat.sub_self, List.replicate_zero, List.nil_append,
    List.drop_left]

/-! ### The cut after the last name -/

lemma lastTail_some {name : Name} {ns tail : List Name} (h : lastTail name ns = some tail) :
    tail ≠ [] ∧ ∃ before, ns = before ++ name :: tail := by
  induction ns generalizing tail with
  | nil => cases h
  | cons n ns ih =>
    unfold lastTail at h
    cases hrest : lastTail name ns with
    | some t =>
      rw [hrest] at h
      obtain rfl := Option.some.inj h
      obtain ⟨hne, before, hns⟩ := ih hrest
      exact ⟨hne, n :: before, congrArg (n :: ·) hns⟩
    | none =>
      rw [hrest] at h
      simp only at h
      split at h
      · rename_i hn
        obtain rfl := Option.some.inj h
        exact ⟨hn.2, [], by rw [hn.1, List.nil_append]⟩
      · cases h

/-- There is nothing to cut after when only the last name is the one. -/
lemma lastTail_eq_none {name : Name} {ns : List Name} :
    lastTail name ns = none ↔ name ∉ ns.dropLast := by
  induction ns with
  | nil => exact iff_of_true rfl List.not_mem_nil
  | cons n ns ih =>
    unfold lastTail
    rcases eq_or_ne ns [] with rfl | hne
    · simp [lastTail]
    · rw [List.dropLast_cons_of_ne_nil hne, List.mem_cons, not_or, ← ih]
      cases lastTail name ns with
      | some t => simp
      | none =>
        by_cases hn : n = name
        · simp [hn, hne]
        · simp [hn, Ne.symm hn]

lemma lastTail_append (name : Name) (ns : List Name) {p : List Name} (hp : p ≠ []) :
    lastTail name (ns ++ name :: p) = some ((lastTail name p).getD p) := by
  induction ns with
  | nil =>
    rw [List.nil_append, lastTail]
    cases lastTail name p with
    | some t => rfl
    | none => exact if_pos ⟨rfl, hp⟩
  | cons n ns ih => rw [List.cons_append, lastTail, ih]

/-- The cut is at the end of the first part if it is not in the second. -/
lemma lastTail_eq_iff (name : Name) (ns : List Name) {p : List Name} (hp : p ≠ []) :
    lastTail name (ns ++ name :: p) = some p ↔ name ∉ p.dropLast := by
  rw [lastTail_append name ns hp, ← lastTail_eq_none]
  cases h : lastTail name p with
  | none => exact iff_of_true rfl rfl
  | some t =>
    refine iff_of_false (fun heq => ?_) (Option.some_ne_none t)
    obtain ⟨-, before, hp'⟩ := lastTail_some h
    have hlength := congrArg List.length hp'
    rw [show t = p from Option.some.inj heq, List.length_append, List.length_cons] at hlength
    omega

/-! ### Keys -/

section Keys
variable {root : Text}

/-- The root ends in its name. -/
lemma root_names (hN : Plain (rootName root)) :
    root ≠ [] ∧ (normpath root).names.getLast? = some (rootName root) := by
  have hroot : root ≠ [] := by
    rintro rfl
    exact hN.ne_nil rfl
  have hname : rootName root = basename (normpath root).str := if_pos hroot
  refine ⟨hroot, ?_⟩
  rcases eq_or_ne (normpath root).names [] with hnil | hne
  · -- only dots or slashes
    rw [hname, Norm.str, hnil] at hN
    by_cases hslashes : (normpath root).slashes = 0
    · rw [if_pos ⟨hslashes, rfl⟩] at hN
      exact absurd rfl hN.ne_dot
    · have hbase : basename (List.replicate (normpath root).slashes '/' ++ joinNames []) = [] := by
        have hjoin : names (joinNames []) = [[]] := rfl
        rw [basename, names_slashes, hjoin, List.getLastD_concat]
      rw [if_neg fun hboth => hslashes hboth.1, hbase] at hN
      exact absurd rfl hN.ne_nil
  · have hsep : ∀ n ∈ (normpath root).names, '/' ∉ n := fun n hn =>
      ((normal_normpath root).entry n hn).2.2
    rw [hname, basename, names_str hne hsep, List.getLastD_eq_getLast?, List.getLast?_append,
      List.getLast?_eq_some_getLast hne]
    rfl

variable (cwd : List Name) (hN : Plain (rootName root)) {above : Text} {p : List Name}
include hN

/-- A path under the root keeps its path in the repository if what it is below is the root. -/
lemma key_under_iff (habove : above ≠ []) (hp : Relative p)
    (hunder : Under root (normpath (below above p))) :
    key cwd root (below above p) = joinNames p ↔
      (normpath above).names = (normpath root).names := by
  obtain ⟨hroot, hlast⟩ := root_names hN
  have hne : (normpath root).names ≠ [] := fun hnil => by
    rw [hnil] at hlast
    cases hlast
  obtain ⟨hkind, rest, hrest⟩ := hunder.prefix hne
  have hnormal := normal_normpath (below above p)
  rw [← hrest] at hnormal
  have hplain := hnormal.plain_of_append hlast hN.ne_dots
  have hrel := relpath_eq cwd hkind hrest.symm hplain
  have hkey : key cwd root (below above p) = if rest = [] then ['.'] else joinNames rest := by
    rw [← hrel]
    exact if_pos ⟨hroot, hunder⟩
  have hsame : rest = p ↔ (normpath above).names = (normpath root).names := by
    rw [normpath_below habove hp] at hrest
    constructor
    · rintro rfl
      exact (List.append_cancel_right hrest).symm
    · intro heq
      rw [heq] at hrest
      exact List.append_cancel_left hrest
  rw [hkey, ← hsame]
  by_cases hnil : rest = []
  · rw [if_pos hnil]
    refine iff_of_false (fun heq => ?_) fun heq => hp.ne_nil (heq.symm.trans hnil)
    have hdot : p = [['.']] := by
      rw [← names_joinNames hp.ne_nil hp.no_sep, ← heq]
      rfl
    exact (hp.plain ['.'] (hdot ▸ List.mem_singleton_self _)).ne_dot rfl
  · rw [if_neg hnil]
    refine ⟨fun heq => ?_, fun heq => congrArg joinNames heq⟩
    exact joinNames_inj hnil hp.ne_nil (fun n hn => (hplain n hn).no_sep) hp.no_sep heq

/-- A path elsewhere is cut where the repository begins if no directory in it has its name. -/
lemma key_outside_iff (habove : above ≠ []) (hp : Relative p) {before : List Name}
    (hnames : (normpath above).names = before ++ [rootName root])
    (hunder : ¬Under root (normpath (below above p))) :
    key cwd root (below above p) = joinNames p ↔ rootName root ∉ p.dropLast := by
  have hbelow : (normpath (below above p)).names = before ++ rootName root :: p := by
    rw [normpath_below habove hp, hnames, List.append_assoc, List.singleton_append]
  have hsep : ∀ n ∈ (normpath (below above p)).names, '/' ∉ n := fun n hn =>
    ((normal_normpath _).entry n hn).2.2
  have hne : (normpath (below above p)).names ≠ [] := by
    rw [hbelow]
    exact List.append_ne_nil_of_right_ne_nil _ (List.cons_ne_nil _ _)
  have hparts : names (normpath (below above p)).str =
      (List.replicate (normpath (below above p)).slashes [] ++ before) ++ rootName root :: p := by
    rw [names_str hne hsep, hbelow, List.append_assoc]
  obtain ⟨tail, htail⟩ : ∃ tail, lastTail (rootName root)
      (names (normpath (below above p)).str) = some tail := by
    rw [hparts, lastTail_append _ _ hp.ne_nil]
    exact ⟨_, rfl⟩
  have hkey : key cwd root (below above p) = joinNames tail := by
    have hname : (if rootName root ≠ [] then
        lastTail (rootName root) (names (normpath (below above p)).str) else none) = some tail := by
      rw [if_pos hN.ne_nil, htail]
    rw [key, stripRepoPrefix, if_neg fun hboth => hunder hboth.2, hname]
  have hcut := lastTail_eq_iff (rootName root)
    (List.replicate (normpath (below above p)).slashes [] ++ before) hp.ne_nil
  rw [← hparts, htail, Option.some.injEq] at hcut
  rw [hkey, ← hcut]
  refine ⟨fun heq => ?_, fun heq => congrArg joinNames heq⟩
  obtain ⟨htne, begun, hbegun⟩ := lastTail_some htail
  refine joinNames_inj htne hp.ne_nil (fun n hn => ?_) hp.no_sep heq
  exact no_sep_of_mem_names (hbegun ▸ List.mem_append_right _ (List.mem_cons_of_mem _ hn))

lemma key_iff (habove : above ≠ []) (hp : Relative p) {before : List Name}
    (hnames : (normpath above).names = before ++ [rootName root]) :
    key cwd root (below above p) = joinNames p ↔ Safe root above p := by
  unfold Safe
  by_cases hunder : Under root (normpath (below above p))
  · rw [if_pos hunder]
    exact key_under_iff cwd hN habove hp hunder
  · rw [if_neg hunder]
    exact key_outside_iff cwd hN habove hp hnames hunder

end Keys

/-! ### Soundness -/

/-- Normalisation is sound for some files exactly if each of them is safe on both sides. -/
theorem sound_iff (cwd : List Name) {root : Text} (container : Text)
    (hN : Plain (rootName root)) {files : Set (List Name)} (hfiles : ∀ p ∈ files, Relative p) :
    Sound cwd root container files ↔
      ∀ p ∈ files, Safe root (mounted root container) p ∧ Safe root root p := by
  obtain ⟨hroot, hlast⟩ := root_names hN
  obtain ⟨before, hbefore⟩ := List.getLast?_eq_some_iff.mp hlast
  have hmounted : mounted root container ≠ [] :=
    List.append_ne_nil_of_right_ne_nil _ (List.cons_ne_nil _ _)
  have hdisk : ∀ p ∈ files, key cwd root (below root p) = joinNames p ↔ Safe root root p :=
    fun p hp => key_iff cwd hN hroot (hfiles p hp) hbefore
  have hcontainer : ∀ p ∈ files, key cwd root (below (mounted root container) p) = joinNames p ↔
      Safe root (mounted root container) p := by
    have hnames : names (mounted root container) = names container ++ [rootName root] := by
      have hjoin : joinNames [rootName root] = rootName root := by simp [joinNames]
      have hone := names_joinNames (List.cons_ne_nil (rootName root) [])
        (List.forall_mem_singleton.mpr hN.no_sep)
      rw [hjoin] at hone
      rw [mounted, names_append_sep, hone]
    have hnormed : (normpath (mounted root container)).names =
        (names container).foldl (normStep (isabs (mounted root container))) [] ++
          [rootName root] := by
      rw [normpath, hnames, List.foldl_append, foldl_plain _ _ (List.forall_mem_singleton.mpr hN)]
    exact fun p hp => key_iff cwd hN hmounted (hfiles p hp) hnormed
  constructor
  · exact fun h p hp => ⟨(hcontainer p hp).mp (h.inContainer p hp), (hdisk p hp).mp (h.onDisk p hp)⟩
  · intro h
    have hinContainer := fun p hp => (hcontainer p hp).mpr (h p hp).1
    have honDisk := fun p hp => (hdisk p hp).mpr (h p hp).2
    refine ⟨hinContainer, honDisk, fun p hp q hq hpq => ?_⟩
    have hdistinct : joinNames p ≠ joinNames q := fun heq =>
      hpq (joinNames_inj (hfiles p hp).ne_nil (hfiles q hq).ne_nil (hfiles p hp).no_sep
        (hfiles q hq).no_sep heq)
    rw [hinContainer p hp, hinContainer q hq, honDisk p hp, honDisk q hq]
    exact ⟨hdistinct, hdistinct⟩

def repos : Text := "/data/repos".toList

lemma plain_guava : Plain "guava".toList := ⟨by decide, by decide, by decide, by decide⟩

lemma plain_a : Plain "a".toList := ⟨by decide, by decide, by decide, by decide⟩

theorem sound_of_file : Sound [] "/src/guava".toList repos {p | p = ["a".toList]} := by
  refine (sound_iff [] repos (by exact plain_guava) ?_).mpr ?_
  · rintro _ rfl
    exact ⟨by decide, List.forall_mem_singleton.mpr plain_a⟩
  · rintro _ rfl
    exact ⟨by decide +kernel, by decide +kernel⟩

/-- A directory called like the repository: `guava/a` and `a` have the same key. -/
theorem directories_merge : ¬∀ (cwd : List Name) (root container : Text), Plain (rootName root) →
    ∀ files : Set (List Name), (∀ p ∈ files, Relative p) → Sound cwd root container files := by
  intro hclaim
  have hsound := hclaim [] "/src/guava".toList repos plain_guava {p | Relative p} fun _ hp => hp
  have hfile : Relative ["a".toList] := ⟨by decide, List.forall_mem_singleton.mpr plain_a⟩
  have hnested : Relative ["guava".toList, "a".toList] :=
    ⟨by decide, List.forall_mem_cons.mpr ⟨plain_guava, List.forall_mem_singleton.mpr plain_a⟩⟩
  have hdistinct := (hsound.injective _ hnested _ hfile (by decide)).1
  revert hdistinct
  decide +kernel

end Treeweft.RepoPrefix
