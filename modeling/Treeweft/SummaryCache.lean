import Treeweft.SourceId
import Treeweft.SummaryVersion

/-!
The cache of summaries, and the key under which the summary of a chunk is stored and looked up.

The key is a digest of the text at hand: of the chunk while it is indexed, of its row when it is
refreshed or found. A chunk is cut by bytes before its key is made, its row by characters after.
-/

namespace Treeweft.SummaryCache

open Treeweft.Indexer (Chunk)
open Treeweft.VectorStore (Row rowOf maxTextLen)
open Treeweft.FileIndex (cutBytes maxChunkBytes truncateChunk utf8Length)

/-! ### The Cache -/

/-- A digest in hexadecimal, of bytes. -/
abbrev Digest := ByteArray → String

/-- `hashlib.sha1`. -/
def hexdigest : Digest := fun bytes =>
  String.ofList ((SourceId.sha1 (bytes.toList.map UInt8.toNat)).map SourceId.hexDigit)

/-- The rows of the configured model, by digest and prompt version. -/
abbrev Cache := String → ℕ → Option String

def rejectedSummary : String := ""

/-- `if summary`. -/
def accepted : Option String → Option String := Option.filter (· ≠ "")

def chunkCacheKey (sha1 : Digest) (chunkText : String) : String := sha1 chunkText.toUTF8

/-- `none` where there is no pool. -/
def cacheGetMany (pool : Option Cache) (sha1s : List String) (promptVersion : ℕ)
    (includeRejected : Bool) : Option (String → Option String) :=
  if sha1s = [] then some fun _ => none
  else pool.map fun cache sha1 =>
    if sha1 ∈ sha1s then
      (cache sha1 promptVersion).filter fun s => includeRejected || s != rejectedSummary
    else none

def cachePut (cache : Cache) (sha1 summary : String) (promptVersion : ℕ) : Cache :=
  fun k v => if k = sha1 ∧ v = promptVersion then some summary else cache k v

/-- What is asked for is answered as the cache has it. -/
lemma cacheGetMany_some (cache : Cache) (sha1s : List String) (v : ℕ) (r : Bool) :
    cacheGetMany (some cache) sha1s v r = some fun sha1 =>
      if sha1 ∈ sha1s then (cache sha1 v).filter fun s => r || s != rejectedSummary else none := by
  rw [cacheGetMany]
  split_ifs with h
  · simp [h]
  · rfl

/-- With the rejections. -/
lemma cacheGetMany_true (cache : Cache) (sha1s : List String) (v : ℕ) :
    cacheGetMany (some cache) sha1s v true =
      some fun sha1 => if sha1 ∈ sha1s then cache sha1 v else none := by
  rw [cacheGetMany_some]
  refine congrArg some (funext fun sha1 => ?_)
  cases cache sha1 v <;> simp [Option.filter]

/-- Without them. -/
lemma cacheGetMany_false (cache : Cache) (sha1s : List String) (v : ℕ) :
    cacheGetMany (some cache) sha1s v false =
      some fun sha1 => if sha1 ∈ sha1s then accepted (cache sha1 v) else none := by
  rw [cacheGetMany_some]
  refine congrArg some (funext fun sha1 => ?_)
  cases cache sha1 v with
  | none => rfl
  | some s => by_cases hs : s = "" <;> simp [accepted, Option.filter, rejectedSummary, hs]

@[simp] lemma cachePut_self (cache : Cache) (sha1 summary : String) (v : ℕ) :
    cachePut cache sha1 summary v sha1 v = some summary := if_pos ⟨rfl, rfl⟩

/-! ### The Keys of a Chunk -/

inductive Backend
  | milvus | lancedb | chromadb
  deriving DecidableEq, Repr

/-- ChromaDB has no second vector, so a refresh ends before it reads a row. -/
def Backend.summaryVectorsSupported : Backend → Bool
  | .chromadb => false
  | _ => true

/-- `insert_chunks`; ChromaDB keeps the text as it is. -/
def Backend.rowOf (b : Backend) (sourceId : String) (c : Chunk) : Row :=
  match b with
  | .chromadb => ⟨c.text, c.filePath, c.language, c.startLine, c.endLine, sourceId⟩
  | _ => VectorStore.rowOf sourceId c

section Keys
variable (sha1 : Digest)

/-- `_process_file`, which has cut the chunk. -/
def indexKey (c : Chunk) : String := chunkCacheKey sha1 (truncateChunk c).text

/-- `_run_resummarize_job`. No store has a `text` column. -/
def refreshKey (row : Row) : String :=
  chunkCacheKey sha1 (if row.chunkText ≠ "" then row.chunkText else "")

/-- A hit of the tail: a run that was merged has no text of its own, and an empty one is not looked
up. -/
def searchKey (raw : Option String) : Option String :=
  (raw.filter (· ≠ "")).map (chunkCacheKey sha1)

/-- The row `_process_file` writes of a chunk. -/
def written (b : Backend) (sourceId : String) (c : Chunk) : Row :=
  b.rowOf sourceId (truncateChunk c)

/-- The row of a chunk is refreshed and found under the key of the chunk, and the summary that was
stored under it is read back. -/
structure KeysAgree (b : Backend) (sourceId : String) (c : Chunk) : Prop where
  refresh : b.summaryVectorsSupported = true →
    refreshKey sha1 (written b sourceId c) = indexKey sha1 c
  search : searchKey sha1 (some (written b sourceId c).chunkText) = some (indexKey sha1 c)
  found : ∀ cache summary version, summary ≠ rejectedSummary → ∃ key rows,
    searchKey sha1 (some (written b sourceId c).chunkText) = some key ∧
      cacheGetMany (some (cachePut cache (indexKey sha1 c) summary version)) [key] version false =
        some rows ∧ rows key = some summary

end Keys

/-! ### The Cuts -/

lemma cutBytes_zero (cs : List Char) : cutBytes 0 cs = [] := by
  cases cs with
  | nil => rfl
  | cons c cs => rw [cutBytes, if_neg (by have := c.utf8Size_pos; omega), if_pos rfl]

/-- A cut by bytes leaves at most `m` characters where the first `m` already fill the bytes. -/
lemma length_cutBytes_le {n : ℕ} {cs : List Char} (h : n < utf8Length cs) (m : ℕ) :
    (cutBytes n cs).length ≤ m ↔ n ≤ utf8Length (cs.take m) := by
  induction cs generalizing n m with
  | nil => simp [utf8Length] at h
  | cons c cs ih =>
    have hc := c.utf8Size_pos
    have hlen : ∀ m, utf8Length ((c :: cs).take (m + 1)) = c.utf8Size + utf8Length (cs.take m) :=
      fun m => by simp [utf8Length]
    have hall : utf8Length (c :: cs) = c.utf8Size + utf8Length cs := by simp [utf8Length]
    rw [cutBytes]
    split_ifs with hfit hzero
    · cases m with
      | zero => simp [utf8Length]; omega
      | succ m =>
        rw [List.length_cons, Nat.add_le_add_iff_right, ih (by omega) m, hlen]
        omega
    · simp [hzero]
    · cases m with
      | zero => simp [utf8Length, hzero]
      | succ m =>
        rw [hlen]
        simp only [List.length_cons, List.length_nil]
        omega

/-- The row keeps all of the text: the store never cuts, or the text is short enough, or the cut by
bytes makes it so. -/
def KeepsAll (b : Backend) (text : String) : Prop :=
  b = .chromadb ∨ text.toList.length ≤ maxTextLen ∨
    maxChunkBytes ≤ utf8Length (text.toList.take maxTextLen)

section Theorem
variable {sha1 : Digest} {b : Backend} {sourceId : String} {c : Chunk}

lemma truncateChunk_text (c : Chunk) : (truncateChunk c).text =
    if utf8Length c.text.toList > maxChunkBytes then
      String.ofList (cutBytes maxChunkBytes c.text.toList) else c.text := by
  unfold truncateChunk
  split_ifs <;> rfl

lemma rowOf_text (hb : b ≠ .chromadb) : (b.rowOf sourceId c).chunkText =
    String.ofList (c.text.toList.take maxTextLen) := by
  cases b with
  | chromadb => exact absurd rfl hb
  | milvus => rfl
  | lancedb => rfl

/-- A text of that many characters is longer than that many bytes. -/
lemma length_le_utf8Length (cs : List Char) : cs.length ≤ utf8Length cs := by
  induction cs with
  | nil => exact le_rfl
  | cons c cs ih =>
    have := c.utf8Size_pos
    simp only [utf8Length, List.map_cons, List.sum_cons, List.length_cons] at ih ⊢
    omega

lemma length_truncateChunk_le (c : Chunk) :
    (truncateChunk c).text.toList.length ≤ maxTextLen ↔ c.text.toList.length ≤ maxTextLen ∨
      maxChunkBytes ≤ utf8Length (c.text.toList.take maxTextLen) := by
  rw [truncateChunk_text]
  split_ifs with h
  · rw [String.toList_ofList, length_cutBytes_le h, iff_or_self]
    intro hlen
    rw [List.take_of_length_le hlen]
    exact h.le
  · refine ⟨.inl, fun hk => hk.elim id fun hfull => ?_⟩
    have hsplit : utf8Length c.text.toList =
        utf8Length (c.text.toList.take maxTextLen) + utf8Length (c.text.toList.drop maxTextLen) := by
      rw [utf8Length, utf8Length, utf8Length, ← List.sum_append, ← List.map_append,
        List.take_append_drop]
    have hrest := length_le_utf8Length (c.text.toList.drop maxTextLen)
    rw [List.length_drop] at hrest
    omega

lemma written_text :
    (written b sourceId c).chunkText = (truncateChunk c).text ↔ KeepsAll b c.text := by
  rw [written]
  by_cases hb : b = .chromadb
  · subst hb
    exact iff_of_true rfl (.inl rfl)
  · rw [rowOf_text hb, KeepsAll, or_iff_right hb, ← length_truncateChunk_le, ← String.toList_inj,
      String.toList_ofList, List.take_eq_self_iff]

/-- Only an empty text is cut to nothing. -/
lemma truncateChunk_text_eq_empty (c : Chunk) : (truncateChunk c).text = "" ↔ c.text = "" := by
  rw [truncateChunk_text]
  split_ifs with h
  · have hc : c.text.toList ≠ [] := fun he => by simp [he, utf8Length] at h
    have hcut := (length_cutBytes_le h 0).not.2 (by simp [utf8Length, maxChunkBytes])
    refine iff_of_false (fun he => hcut ?_) fun he => hc (by rw [he]; rfl)
    rw [← String.toList_ofList (l := cutBytes _ _), he]
    exact le_rfl
  · rfl

lemma refreshKey_eq (row : Row) : refreshKey sha1 row = chunkCacheKey sha1 row.chunkText := by
  rw [refreshKey]
  split_ifs with h
  · rfl
  · rw [not_not.1 h]

lemma searchKey_eq_some {raw key : String} :
    searchKey sha1 (some raw) = some key ↔ raw ≠ "" ∧ chunkCacheKey sha1 raw = key := by
  by_cases h : raw = "" <;> simp [searchKey, h]

/-- **The keys of a chunk agree** exactly where the row keeps all of a text that is not empty, if
the digest tells the text of the row from that of the chunk. -/
theorem keysAgree_iff (sha1 : Digest) (b : Backend) (sourceId : String) (c : Chunk)
    (hsha1 : chunkCacheKey sha1 (written b sourceId c).chunkText = indexKey sha1 c →
      (written b sourceId c).chunkText = (truncateChunk c).text) :
    KeysAgree sha1 b sourceId c ↔ c.text ≠ "" ∧ KeepsAll b c.text := by
  constructor
  · intro h
    obtain ⟨hne, hkey⟩ := searchKey_eq_some.1 h.search
    have htext := hsha1 hkey
    exact ⟨fun he => hne (htext.trans ((truncateChunk_text_eq_empty c).2 he)),
      written_text.1 htext⟩
  · rintro ⟨hne, hkeeps⟩
    have htext : (written b sourceId c).chunkText = (truncateChunk c).text :=
      written_text.2 hkeeps
    have hsearch : searchKey sha1 (some (written b sourceId c).chunkText) =
        some (indexKey sha1 c) := by
      rw [htext, searchKey_eq_some]
      exact ⟨(truncateChunk_text_eq_empty c).not.2 hne, rfl⟩
    refine ⟨fun _ => by rw [refreshKey_eq, htext, indexKey], hsearch,
      fun cache summary version hs => ⟨_, _, hsearch, cacheGetMany_some .., ?_⟩⟩
    rw [if_pos (List.mem_singleton_self _), cachePut_self]
    simp [hs]

def chunkOf (text : String) : Chunk := ⟨text, .rel ["a.js"], "javascript", 1, 1⟩

theorem keysAgree_short : (chunkCacheKey hexdigest (written .milvus "s" (chunkOf "ü")).chunkText =
      indexKey hexdigest (chunkOf "ü") →
    (written .milvus "s" (chunkOf "ü")).chunkText = (truncateChunk (chunkOf "ü")).text) ∧
      KeysAgree hexdigest .milvus "s" (chunkOf "ü") := by
  have h : (written .milvus "s" (chunkOf "ü")).chunkText = (truncateChunk (chunkOf "ü")).text := by
    decide +kernel
  exact ⟨fun _ => h, (keysAgree_iff hexdigest .milvus "s" (chunkOf "ü") fun _ => h).2
    ⟨by decide, .inr (.inl (by decide))⟩⟩

end Theorem

/-- A digest that tells texts of different size apart. -/
def sized : Digest := fun bytes => String.ofList (List.replicate bytes.size 'a')

lemma size_toUTF8 (cs : List Char) : (String.ofList cs).toUTF8.size = utf8Length cs := by
  rw [String.toUTF8_eq_toByteArray, String.toByteArray_ofList]
  induction cs with
  | nil => rfl
  | cons c cs ih =>
    rw [List.utf8Encode_cons, ByteArray.size_append, ih, List.utf8Encode_singleton]
    simp [utf8Length]

lemma utf8Length_replicate (n : ℕ) : utf8Length (List.replicate n 'a') = n := by
  rw [utf8Length, List.map_replicate, List.sum_replicate_nat, show 'a'.utf8Size = 1 by decide,
    Nat.mul_one]

/-- Long for the row, and not too long for the cut by bytes. -/
lemma not_keysAgree_of_long {n : ℕ} (hn : maxTextLen < n) (hle : n ≤ maxChunkBytes) :
    ¬ KeysAgree sized .milvus "s" (chunkOf (String.ofList (List.replicate n 'a'))) := by
  intro h
  obtain ⟨-, hkey⟩ := searchKey_eq_some.1 h.search
  have hindex : (truncateChunk (chunkOf (String.ofList (List.replicate n 'a')))).text =
      String.ofList (List.replicate n 'a') := by
    rw [truncateChunk_text, chunkOf, String.toList_ofList, utf8Length_replicate,
      if_neg (Nat.not_lt.2 hle)]
  have hrow : (written .milvus "s" (chunkOf (String.ofList (List.replicate n 'a')))).chunkText =
      String.ofList (List.replicate maxTextLen 'a') := by
    rw [written, rowOf_text (by decide), hindex, String.toList_ofList, List.take_replicate,
      Nat.min_eq_left hn.le]
  rw [hrow, indexKey, hindex, chunkCacheKey, chunkCacheKey, sized, sized, size_toUTF8,
    size_toUTF8, utf8Length_replicate, utf8Length_replicate, ← String.toList_inj,
    String.toList_ofList, String.toList_ofList] at hkey
  have hlen := congrArg List.length hkey
  rw [List.length_replicate, List.length_replicate] at hlen
  exact hn.ne hlen

/-- A line of 50,001 characters, as a minified file has it: its summary is stored under a key that
no reader asks for. -/
theorem long_line_unread : ¬ KeysAgree sized .milvus "s"
    (chunkOf (String.ofList (List.replicate 50001 'a'))) :=
  not_keysAgree_of_long (by decide) (by decide)

end Treeweft.SummaryCache
