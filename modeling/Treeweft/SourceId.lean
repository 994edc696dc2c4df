import Treeweft.Indexer
import Mathlib.Algebra.Group.Nat.Defs

/-!
The identity of a source: a digest of its canonical path, or of its URL, and of its branch.

`hashlib.sha1` works on blocks of sixty-four bytes, each of which is mixed into five words of
thirty-two bits by eighty rounds. The window of a round holds the sixteen schedule words that
the rounds to come still need.
-/

namespace Treeweft.SourceId

/-! ### The digest -/

def rotl (x n : ℕ) : ℕ := (x <<< n ||| x >>> (32 - n)) % 2 ^ 32

structure Words where
  a : ℕ
  b : ℕ
  c : ℕ
  d : ℕ
  e : ℕ

def initial : Words := ⟨0x67452301, 0xEFCDAB89, 0x98BADCFE, 0x10325476, 0xC3D2E1F0⟩

def mix (t : ℕ) (s : Words) : ℕ :=
  if t < 20 then (s.b &&& s.c ||| (2 ^ 32 - 1 - s.b) &&& s.d) + 0x5A827999
  else if t < 40 then (s.b ^^^ s.c ^^^ s.d) + 0x6ED9EBA1
  else if t < 60 then (s.b &&& s.c ||| s.b &&& s.d ||| s.c &&& s.d) + 0x8F1BBCDC
  else (s.b ^^^ s.c ^^^ s.d) + 0xCA62C1D6

/-- `n` rounds, from round `t` on. -/
def rounds : ℕ → ℕ → List ℕ → Words → Words
  | 0, _, _, s => s
  | n + 1, t, window, s =>
    let word (i : ℕ) := window.getD i 0
    let next := rotl (word 13 ^^^ word 8 ^^^ word 2 ^^^ word 0) 1
    rounds n (t + 1) (window.tail ++ [next])
      ⟨(rotl s.a 5 + mix t s + s.e + word 0) % 2 ^ 32, s.a, rotl s.b 30, s.c, s.d⟩

def bigEndian (n : ℕ) (bytes : List ℕ) : List ℕ :=
  (bytes.toChunks n).map fun bs => bs.foldl (fun acc b => acc * 256 + b) 0

def addBlock (s : Words) (block : List ℕ) : Words :=
  let r := rounds 80 0 (bigEndian 4 block) s
  ⟨(s.a + r.a) % 2 ^ 32, (s.b + r.b) % 2 ^ 32, (s.c + r.c) % 2 ^ 32, (s.d + r.d) % 2 ^ 32,
    (s.e + r.e) % 2 ^ 32⟩

/-- The last `n` digits of `x` in base `b`, the first one highest. -/
def digits (b : ℕ) : ℕ → ℕ → List ℕ
  | 0, _ => []
  | n + 1, x => digits b n (x / b) ++ [x % b]

/-- A one bit, zeros, and the length in bits, to a multiple of sixty-four bytes. -/
def pad (msg : List ℕ) : List ℕ :=
  msg ++ 0x80 :: List.replicate ((119 - msg.length % 64) % 64) 0 ++
    digits 256 8 (8 * msg.length)

def sha1 (msg : List ℕ) : List ℕ :=
  let s := ((pad msg).toChunks 64).foldl addBlock initial
  [s.a, s.b, s.c, s.d, s.e].flatMap (digits 16 8)

def hexDigit (n : ℕ) : Char := "0123456789abcdef".toList.getD n '0'

def utf8 (s : String) : List ℕ := s.toUTF8.toList.map UInt8.toNat

/-- `hashlib.sha1(s.encode("utf-8")).hexdigest()`. -/
def hexdigest (s : String) : String := String.ofList ((sha1 (utf8 s)).map hexDigit)

/-! ### The key -/

/-- What the program asks of the machine it runs on; `purePath` is the string of a `Path`. Nothing
is at the empty path, and a home directory is a path that needs no expanding. -/
structure FileSystem where
  expanduser : String → String
  realpath : String → String
  purePath : String → String
  isFile : String → Bool
  isDir : String → Bool
  isFile_empty : isFile "" = false
  isDir_empty : isDir "" = false
  expanduser_idem : ∀ p, expanduser (expanduser p) = expanduser p

namespace FileSystem

variable (fs : FileSystem)

def pathExists (path : String) : Bool := fs.isFile path || fs.isDir path

variable {fs}

lemma ne_empty_of_isDir {p : String} (h : fs.isDir p = true) : p ≠ "" := by
  rintro rfl
  rw [fs.isDir_empty] at h
  cases h

lemma ne_empty_of_pathExists {p : String} (h : fs.pathExists p = true) : p ≠ "" := by
  rintro rfl
  rw [pathExists, fs.isFile_empty, fs.isDir_empty] at h
  cases h

end FileSystem

open Treeweft.Indexer (isSpace rstrip)

/-- `str.strip`. -/
def strip (s : String) : String := String.ofList (rstrip (s.toList.dropWhile isSpace))

def stripSlashes (s : String) : String :=
  String.ofList ((s.toList.reverse.dropWhile fun c => c = '/').reverse)

def escapeChar (c : Char) : List Char :=
  if c = '\\' then ['\\', '\\'] else if c = '|' then ['\\', '|'] else [c]

def escapeKeyPart (part : String) : String := String.ofList (part.toList.flatMap escapeChar)

/-- The parts of a key; an empty string stands for an argument that is not given. -/
def keyParts (fs : FileSystem) (path url branch : String) : List String :=
  (if url ≠ "" then [stripSlashes (strip url)]
    else if path ≠ "" then [fs.realpath (fs.expanduser path)] else []) ++
  if branch ≠ "" then [strip branch] else []

def sourceKey (fs : FileSystem) (path url branch : String) : String :=
  let key := "|".intercalate ((keyParts fs path url branch).map escapeKeyPart)
  if key = "" then "anonymous" else key

@[irreducible] def makeSourceId (fs : FileSystem) (path url branch : String) : String :=
  String.ofList ((hexdigest (sourceKey fs path url branch)).toList.take 16)

lemma length_digits (b n x : ℕ) : (digits b n x).length = n := by
  induction n generalizing x with
  | zero => rfl
  | succ n ih => rw [digits, List.length_append, ih, List.length_singleton]

lemma length_sha1 (msg : List ℕ) : (sha1 msg).length = 40 := by
  simp [sha1, length_digits]

/-- An identity has sixteen hexadecimal digits. -/
lemma length_makeSourceId (fs : FileSystem) (path url branch : String) :
    (makeSourceId fs path url branch).length = 16 := by
  simp [makeSourceId, hexdigest, length_sha1]

lemma makeSourceId_ne_empty (fs : FileSystem) (path url branch : String) :
    makeSourceId fs path url branch ≠ "" := by
  intro h
  have := length_makeSourceId fs path url branch
  rw [h] at this
  cases this

end Treeweft.SourceId
