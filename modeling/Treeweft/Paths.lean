import Mathlib.Data.List.Induction

/-!
File paths and file names, as the Python standard library splits them.

A path string is kept split at its slashes. Nothing is normalised on the way in, so a path a
webhook sends is the list of its segments, dots and empty ones included, and two strings are
equal exactly when their paths are.
-/

namespace Treeweft.Paths

/-- A path string split at `/`; a leading slash makes it absolute, the empty string has no
segment. -/
inductive FilePath
  | abs (parts : List String)
  | rel (parts : List String)
  deriving DecidableEq, Repr

namespace FilePath

def parts : FilePath → List String
  | abs ps => ps
  | rel ps => ps

def isAbs : FilePath → Bool
  | abs _ => true
  | rel _ => false

def str : FilePath → String
  | abs ps => "/" ++ "/".intercalate ps
  | rel ps => "/".intercalate ps

/-- The last segment. -/
def name (p : FilePath) : String := p.parts.getLastD ""

end FilePath

/-- A segment that names an entry of its directory. -/
def Plain (s : String) : Prop := s ≠ "" ∧ s ≠ "." ∧ s ≠ ".."

instance (s : String) : Decidable (Plain s) := inferInstanceAs (Decidable (_ ∧ _))

/-- `os.path.realpath` of an absolute path, in a tree without symbolic links. -/
def realpath (ps : List String) : List String :=
  ps.foldl (fun acc s =>
    if s = "" ∨ s = "." then acc else if s = ".." then acc.dropLast else acc ++ [s]) []

lemma realpath_snoc (ps : List String) {s : String} (hs : Plain s) :
    realpath (ps ++ [s]) = realpath ps ++ [s] := by
  obtain ⟨h1, h2, h3⟩ := hs
  simp [realpath, List.foldl_append, h1, h2, h3]

lemma realpath_append_plain (ps : List String) {qs : List String} (h : ∀ s ∈ qs, Plain s) :
    realpath (ps ++ qs) = realpath ps ++ qs := by
  induction qs using List.reverseRecOn with
  | nil => simp
  | append_singleton qs s ih =>
    rw [← List.append_assoc, realpath_snoc _ (h s (by simp)),
      ih fun t ht => h t (by simp [ht]), List.append_assoc]

lemma realpath_plain {qs : List String} (h : ∀ s ∈ qs, Plain s) : realpath qs = qs := by
  simpa [realpath] using realpath_append_plain [] h

/-- Join a path from a change list onto the clone directory, or `none` if it escapes. -/
def resolveInsideClone (repoPath : List String) (relPath : FilePath) : Option (List String) :=
  match relPath with
  | .abs _ => none
  | .rel [] => none
  | .rel ps =>
    let root := realpath repoPath
    let candidate := realpath (root ++ ps)
    if root <+: candidate then some candidate else none

/-- A path of the repository resolves to the file it names in the clone. -/
lemma resolveInsideClone_plain {root ps : List String} (hroot : ∀ s ∈ root, Plain s)
    (hne : ps ≠ []) (h : ∀ s ∈ ps, Plain s) :
    resolveInsideClone root (.rel ps) = some (root ++ ps) := by
  cases ps with
  | nil => exact absurd rfl hne
  | cons a r =>
    have hr : realpath root = root := realpath_plain hroot
    have hc : realpath (root ++ a :: r) = root ++ a :: r := by
      rw [realpath_append_plain _ h, hr]
    simp [resolveInsideClone, hr, hc]

/-- What resolves stays under the clone directory. -/
lemma resolveInsideClone_prefix {root full : List String} {p : FilePath}
    (h : resolveInsideClone root p = some full) : realpath root <+: full := by
  unfold resolveInsideClone at h
  split at h
  · cases h
  · cases h
  · dsimp only at h
    split at h
    · cases h; assumption
    · cases h

/-! ### Suffixes -/

/-- The characters before and after the last dot. -/
def splitLastDot (s : String) : Option (List Char × List Char) :=
  match s.toList.reverse.span (· ≠ '.') with
  | (_, []) => none
  | (r, _ :: b) => some (b.reverse, r.reverse)

/-- `pathlib.PurePath.suffix` of a file name. -/
def suffix (name : String) : String :=
  match splitLastDot name with
  | none => ""
  | some (b, a) => if b ≠ [] ∧ a ≠ [] then String.ofList ('.' :: a) else ""

/-- `os.path.splitext(name)[1]`: the dots a name starts with do not begin an extension. -/
def splitext (name : String) : String :=
  match splitLastDot name with
  | none => ""
  | some (b, a) => if b.any (· ≠ '.') then String.ofList ('.' :: a) else ""

example : suffix "a.tar.gz" = ".gz" ∧ splitext ".bashrc" = "" ∧ suffix "x." = "" := by decide

end Treeweft.Paths
