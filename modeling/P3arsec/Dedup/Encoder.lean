import P3arsec.Lib.Run
import P3arsec.Dedup.HashTable

/-!
# Deduplication, compression and output of chunks

The workers of the encoder call `sub_Deduplicate` and then, for an original, `sub_Compress`
on every fine chunk, in any interleaving; the writer calls `write_chunk_to_file` on the
chunks in input order and waits while the data of an original is not compressed yet. Which
chunk of a key becomes the original is decided by the race of the workers; which record of
the key carries the data is decided by the writer through the state of the original.

`Encoder.Inv` is what every interleaving keeps. From it the file has one record per chunk
(`Written`), and a reader that looks fingerprints up among the keys already decoded gets the
input back (`decode_written`).
-/

namespace P3arsec.Dedup

open P3arsec.Lib

/-- A buffer or a piece of a file. -/
abbrev Bytes := List UInt8

/-- `chunk_state_t`. -/
inductive ChunkState where
  /-- Only uncompressed data available. -/
  | uncompressed
  /-- Compressed data available, but nothing else. -/
  | compressed
  /-- No data available because the chunk has already been flushed. -/
  | flushed
  deriving DecidableEq, Repr

/-- The fields of `chunk_t` that deduplication, compression and output use. A null pointer of
a buffer is none, and a chunk is referred to by its position in the input. -/
structure Chunk where
  /-- Whether this is a duplicate of another chunk. -/
  isDuplicate : Bool
  /-- Which type of data the chunk contains. -/
  state : ChunkState
  /-- The SHA1 sum of the uncompressed data. -/
  sha1 : Bytes
  /-- The uncompressed data. -/
  uncompressedData : Option Bytes
  /-- The compressed data, only if not a duplicate. -/
  compressedData : Option Bytes
  /-- The original chunk, only if a duplicate. -/
  compressedDataRef : Option Nat
  deriving DecidableEq, Repr

/-- A chunk as `FragmentRefine` hands it on. -/
def Chunk.refined (data : Bytes) : Chunk := ⟨false, .uncompressed, [], some data, none, none⟩

/-- `conf->compress_type`. -/
inductive CompressType where
  /-- `COMPRESS_GZIP`. -/
  | gzip
  /-- `COMPRESS_BZIP2`. -/
  | bzip2
  /-- `COMPRESS_NONE`. -/
  | none
  deriving DecidableEq, Repr

/-- The functions of the SHA1, zlib and bzip2 libraries. -/
structure Library where
  /-- `SHA1_Digest`. -/
  sha1Digest : Bytes → Bytes
  /-- `compress`. -/
  compress : Bytes → Bytes
  /-- `uncompress`. -/
  uncompress : Bytes → Bytes
  /-- `BZ2_bzBuffToBuffCompress`. -/
  bzCompress : Bytes → Bytes
  /-- `BZ2_bzBuffToBuffDecompress`. -/
  bzDecompress : Bytes → Bytes

/-- What `sub_Compress` makes of the data of a chunk. -/
def Library.encode (lib : Library) : CompressType → Bytes → Bytes
  | .gzip => lib.compress
  | .bzip2 => lib.bzCompress
  | .none => id

/-- What a reader makes of the data of a record. -/
def Library.decode (lib : Library) : CompressType → Bytes → Bytes
  | .gzip => lib.uncompress
  | .bzip2 => lib.bzDecompress
  | .none => id

/-- Decompression undoes the compression of the configured kind. -/
def Library.RoundTrip (lib : Library) (kind : CompressType) : Prop :=
  ∀ data, lib.decode kind (lib.encode kind data) = data

/-- The type byte of a record. -/
inductive RecordType where
  /-- `TYPE_FINGERPRINT`. -/
  | fingerprint
  /-- `TYPE_COMPRESS`. -/
  | compress
  /-- `TYPE_ORIGINAL`. -/
  | original
  deriving DecidableEq, Repr

/-- What one call of `write_file` appends to the file. -/
structure Record where
  /-- Type byte. -/
  type : RecordType
  /-- Length of the content. -/
  len : Nat
  /-- Content. -/
  content : Bytes
  deriving DecidableEq, Repr

/-- Length of a SHA1 sum. -/
def sha1Len : Nat := 20

/-- Where a chunk is on its way to the writer. -/
inductive Stage where
  /-- Before `sub_Deduplicate`. -/
  | refined
  /-- Between `sub_Deduplicate` and the compression stage. -/
  | deduplicated
  /-- Handed to the writer. -/
  | sent
  deriving DecidableEq, Repr

/-- The state that the workers and the writer share. -/
structure Encoder where
  /-- The chunks by their position in the input. -/
  chunks : Nat → Chunk
  /-- Where the chunks are. -/
  stage : Nat → Stage
  /-- The hash table of the originals. -/
  cache : HashTable Bytes Nat
  /-- Number of chunks that the writer is done with. -/
  written : Nat
  /-- The output file after its header. -/
  file : List Record

/-- Why a call does not return: it waits, or it fails an assertion or reads a null pointer. -/
inductive Stop where
  /-- The call waits for another thread. -/
  | waits
  /-- The call fails. -/
  | fails
  deriving DecidableEq, Repr

namespace Encoder

variable (lib : Library) (kind : CompressType)

/-- `sub_Deduplicate`. -/
def subDeduplicate (i : Nat) (enc : Encoder) : Except Stop Encoder :=
  let chunk := enc.chunks i
  match chunk.uncompressedData with
  | none => .error .fails
  | some data =>
    let sha1 := lib.sha1Digest data
    match enc.cache.search sha1 with
    | none => .ok { enc with
        chunks := Function.update enc.chunks i { chunk with sha1 := sha1, isDuplicate := false }
        cache := enc.cache.insert sha1 i }
    | some entry => .ok { enc with
        chunks := Function.update enc.chunks i
          { chunk with
            sha1 := sha1, isDuplicate := true
            compressedDataRef := some entry, uncompressedData := none } }

/-- `sub_Compress`. -/
def subCompress (i : Nat) (enc : Encoder) : Except Stop Encoder :=
  let chunk := enc.chunks i
  if chunk.state ≠ .uncompressed then .error .fails
  else match chunk.uncompressedData with
    | none => .error .fails
    | some data => .ok { enc with
        chunks := Function.update enc.chunks i
          { chunk with
            compressedData := some (lib.encode kind data), uncompressedData := none
            state := .compressed } }

/-- `write_chunk_to_file`. -/
def writeChunkToFile (i : Nat) (enc : Encoder) : Except Stop Encoder :=
  match (if (enc.chunks i).isDuplicate then (enc.chunks i).compressedDataRef else some i) with
  | none => .error .fails
  | some original =>
    let chunk := enc.chunks original
    match chunk.state with
    | .uncompressed => .error .waits
    | .compressed =>
      match chunk.compressedData with
      | none => .error .fails
      | some data => .ok { enc with
          file := enc.file ++ [⟨.compress, data.length, data⟩]
          chunks := Function.update enc.chunks original
            { chunk with compressedData := none, state := .flushed } }
    | .flushed => .ok { enc with file := enc.file ++ [⟨.fingerprint, sha1Len, chunk.sha1⟩] }

/-- A step of a worker or of the writer. -/
inductive Action where
  /-- A worker deduplicates a chunk. -/
  | deduplicate (i : Nat)
  /-- A worker compresses a chunk or lets a duplicate through. -/
  | compress (i : Nat)
  /-- The writer handles the next chunk. -/
  | write
  deriving DecidableEq, Repr

/-- One step for an input of a number of chunks. A worker takes a chunk that is at its stage,
the writer takes the next chunk once it has come out of the workers. -/
def act (count : Nat) (enc : Encoder) : Action → Except Stop Encoder
  | .deduplicate i =>
    if i < count ∧ enc.stage i = .refined then do
      let enc ← subDeduplicate lib i enc
      .ok { enc with stage := Function.update enc.stage i .deduplicated }
    else .error .waits
  | .compress i =>
    if i < count ∧ enc.stage i = .deduplicated then do
      let enc ← if (enc.chunks i).isDuplicate then .ok enc else subCompress lib kind i enc
      .ok { enc with stage := Function.update enc.stage i .sent }
    else .error .waits
  | .write =>
    if enc.written < count ∧ enc.stage enc.written = .sent then do
      let enc' ← writeChunkToFile enc.written enc
      .ok { enc' with written := enc.written + 1 }
    else .error .waits

/-- The fine chunk at a position of the input. -/
def data (input : List Bytes) (i : Nat) : Bytes := input.getD i []

/-- The encoder before any chunk is deduplicated, with an empty cache of some size. -/
def begin (input : List Bytes) (tablelength : UInt32) (hashfn : Bytes → UInt32) : Encoder :=
  ⟨fun i => .refined (data input i), fun _ => .refined, .create tablelength hashfn, 0, []⟩

/-- The states of all interleavings. -/
def Reached (input : List Bytes) (tablelength : UInt32) (hashfn : Bytes → UInt32) :
    Encoder → Prop :=
  Reachable (· = begin input tablelength hashfn)
    fun enc next => ∃ action, act lib kind input.length enc action = .ok next

/-- The key of a chunk of the input. -/
def key (input : List Bytes) (i : Nat) : Bytes := lib.sha1Digest (data input i)

/-- The key of a chunk occurs before it in the input. -/
def Seen (input : List Bytes) (i : Nat) : Prop := ∃ j < i, key lib input j = key lib input i

/-- The file has one record for each of a number of chunks, in input order. The first record
of a key carries the compressed bytes of a chunk with that key, every later one the key. -/
def Written (input : List Bytes) (count : Nat) (file : List Record) : Prop :=
  file.length = count ∧ ∀ i < count,
    (Seen lib input i → file[i]? = some ⟨.fingerprint, sha1Len, key lib input i⟩) ∧
    (¬Seen lib input i → ∃ e < input.length, key lib input e = key lib input i ∧
      file[i]? = some ⟨.compress, (lib.encode kind (data input e)).length,
        lib.encode kind (data input e)⟩)

variable (input : List Bytes)

/-- No written chunk has the key of a chunk. -/
def Unwritten (written i : Nat) : Prop := ∀ j < written, key lib input j ≠ key lib input i

/-- What is known of a chunk at a stage, for the cache and the position of the writer. -/
inductive ChunkOk (cache : HashTable Bytes Nat) (written i : Nat) : Stage → Chunk → Prop where
  /-- No worker has taken the chunk. -/
  | refined {chunk : Chunk} (fresh : chunk = .refined (data input i)) :
      ChunkOk cache written i .refined chunk
  /-- The chunk refers to the entry of its key. -/
  | duplicate {stage : Stage} {chunk : Chunk} (e : Nat) (moved : stage ≠ .refined)
      (isDuplicate : chunk.isDuplicate = true) (reference : chunk.compressedDataRef = some e)
      (found : cache.search (key lib input i) = some e) : ChunkOk cache written i stage chunk
  /-- The chunk is the entry of its key and waits for compression. -/
  | waiting {chunk : Chunk} (original : chunk.isDuplicate = false)
      (found : cache.search (key lib input i) = some i) (sha1 : chunk.sha1 = key lib input i)
      (state : chunk.state = .uncompressed) (holds : chunk.uncompressedData = some (data input i))
      (unwritten : Unwritten lib input written i) : ChunkOk cache written i .deduplicated chunk
  /-- The chunk is the entry of its key, compressed and not written. -/
  | compressed {chunk : Chunk} (original : chunk.isDuplicate = false)
      (found : cache.search (key lib input i) = some i) (sha1 : chunk.sha1 = key lib input i)
      (state : chunk.state = .compressed)
      (holds : chunk.compressedData = some (lib.encode kind (data input i)))
      (unwritten : Unwritten lib input written i) : ChunkOk cache written i .sent chunk
  /-- The chunk is the entry of its key and has been written. -/
  | flushed {chunk : Chunk} (original : chunk.isDuplicate = false)
      (found : cache.search (key lib input i) = some i) (sha1 : chunk.sha1 = key lib input i)
      (state : chunk.state = .flushed)
      (recorded : ¬Unwritten lib input written i) : ChunkOk cache written i .sent chunk

/-- What every interleaving keeps. -/
structure Inv (enc : Encoder) : Prop where
  /-- Every chunk is right for its stage. -/
  chunks : ∀ i < input.length,
    ChunkOk lib kind input enc.cache enc.written i (enc.stage i) (enc.chunks i)
  /-- An entry of the cache is an original with the key. -/
  cached : ∀ k e, enc.cache.search k = some e → e < input.length ∧ enc.stage e ≠ .refined ∧
    (enc.chunks e).isDuplicate = false ∧ key lib input e = k
  /-- The writer is not beyond the end of the input. -/
  bound : enc.written ≤ input.length
  /-- A written chunk has come out of the workers. -/
  behind : ∀ j < enc.written, enc.stage j = .sent
  /-- The file is right up to the writer's position. -/
  file : Written lib kind input enc.written enc.file

variable {lib kind input} {enc : Encoder}

/-- The start of the encoder has the invariant. -/
theorem inv_begin (tablelength : UInt32) (hashfn : Bytes → UInt32) :
    Inv lib kind input (begin input tablelength hashfn) where
  chunks _ _ := .refined rfl
  cached _ _ found := by simp [begin] at found
  bound := Nat.zero_le _
  behind _ below := absurd below (Nat.not_lt_zero _)
  file := ⟨rfl, fun _ below => absurd below (Nat.not_lt_zero _)⟩

namespace ChunkOk

variable {cache : HashTable Bytes Nat} {written i : Nat} {stage : Stage} {chunk : Chunk}

/-- The key of a chunk that a worker has taken has an entry. -/
theorem found (ok : ChunkOk lib kind input cache written i stage chunk)
    (moved : stage ≠ .refined) : ∃ e, cache.search (key lib input i) = some e := by
  cases ok with
  | refined _ => exact absurd rfl moved
  | duplicate e _ _ _ found => exact ⟨e, found⟩
  | waiting _ found => exact ⟨i, found⟩
  | compressed _ found => exact ⟨i, found⟩
  | flushed _ found => exact ⟨i, found⟩

/-- A new entry for a key without one changes nothing for the chunks. -/
theorem insert (ok : ChunkOk lib kind input cache written i stage chunk) {k : Bytes} {v : Nat}
    (missing : cache.search k = none) :
    ChunkOk lib kind input (cache.insert k v) written i stage chunk := by
  have keeps : ∀ e, cache.search (key lib input i) = some e →
      (cache.insert k v).search (key lib input i) = some e := by
    intro e found
    have other : key lib input i ≠ k := by
      intro same
      rw [same, missing] at found
      cases found
    rw [HashTable.search_insert, if_neg other, found]
  cases ok with
  | refined fresh => exact .refined fresh
  | duplicate e moved isDuplicate reference found =>
    exact .duplicate e moved isDuplicate reference (keeps e found)
  | waiting original found sha1 state holds unwritten =>
    exact .waiting original (keeps i found) sha1 state holds unwritten
  | compressed original found sha1 state holds unwritten =>
    exact .compressed original (keeps i found) sha1 state holds unwritten
  | flushed original found sha1 state recorded =>
    exact .flushed original (keeps i found) sha1 state recorded

/-- The next written chunk changes nothing for the chunks of other keys, and nothing for a
chunk whose key is written already. -/
theorem advance (ok : ChunkOk lib kind input cache written i stage chunk)
    (apart : cache.search (key lib input i) = some i → key lib input written = key lib input i →
      ¬Unwritten lib input written i) :
    ChunkOk lib kind input cache (written + 1) i stage chunk := by
  have later : cache.search (key lib input i) = some i → Unwritten lib input written i →
      Unwritten lib input (written + 1) i := by
    intro found unwritten j below same
    rcases Nat.lt_succ_iff_lt_or_eq.mp below with before | last
    · exact unwritten j before same
    · rw [last] at same
      exact apart found same unwritten
  cases ok with
  | refined fresh => exact .refined fresh
  | duplicate e moved isDuplicate reference found =>
    exact .duplicate e moved isDuplicate reference found
  | waiting original found sha1 state holds unwritten =>
    exact .waiting original found sha1 state holds (later found unwritten)
  | compressed original found sha1 state holds unwritten =>
    exact .compressed original found sha1 state holds (later found unwritten)
  | flushed original found sha1 state recorded =>
    exact .flushed original found sha1 state
      fun unwritten => recorded fun j below => unwritten j (Nat.lt_succ_of_lt below)

end ChunkOk

/-- A key without an entry is the key of no written chunk. -/
theorem Inv.unwritten (inv : Inv lib kind input enc) {i : Nat}
    (missing : enc.cache.search (key lib input i) = none) :
    Unwritten lib input enc.written i := by
  intro j below same
  have moved : enc.stage j ≠ .refined := by
    rw [inv.behind j below]
    decide
  obtain ⟨e, found⟩ := (inv.chunks j (lt_of_lt_of_le below inv.bound)).found moved
  rw [same, missing] at found
  cases found

/-- A chunk that is not written moves to a later stage. The other chunks, the cache up to the
entry of the chunk, the writer's position and the file stay as they are. -/
theorem Inv.move (inv : Inv lib kind input enc) {i : Nat} {cache : HashTable Bytes Nat}
    {chunk : Chunk} {stage : Stage} (unsent : enc.stage i ≠ .sent) (moved : stage ≠ .refined)
    (ok : ChunkOk lib kind input cache enc.written i stage chunk)
    (others : ∀ j < input.length, j ≠ i →
      ChunkOk lib kind input cache enc.written j (enc.stage j) (enc.chunks j))
    (cached : ∀ k e, cache.search k = some e → e ≠ i → enc.cache.search k = some e)
    (own : ∀ k, cache.search k = some i →
      i < input.length ∧ chunk.isDuplicate = false ∧ key lib input i = k) :
    Inv lib kind input { enc with
      chunks := Function.update enc.chunks i chunk
      stage := Function.update enc.stage i stage
      cache := cache } where
  chunks j inside := by
    by_cases here : j = i
    · subst here
      simpa using ok
    · simpa [here] using others j inside here
  cached k e found := by
    by_cases here : e = i
    · subst here
      obtain ⟨inside, original, same⟩ := own k found
      exact ⟨inside, by simpa using moved, by simpa using original, same⟩
    · simpa [here] using inv.cached k e (cached k e found here)
  bound := inv.bound
  behind j below := by
    have here : j ≠ i := by
      intro same
      rw [← same] at unsent
      exact unsent (inv.behind j below)
    simpa [here] using inv.behind j below
  file := inv.file

/-- A worker that takes a chunk to deduplicate it succeeds and keeps the invariant. -/
theorem act_deduplicate (inv : Inv lib kind input enc) {i : Nat} (inside : i < input.length)
    (here : enc.stage i = .refined) :
    ∃ next, act lib kind input.length enc (.deduplicate i) = .ok next ∧
      next.stage = Function.update enc.stage i .deduplicated ∧ next.written = enc.written ∧
      Inv lib kind input next := by
  have fresh : enc.chunks i = .refined (data input i) := by
    have ok := inv.chunks i inside
    rw [here] at ok
    cases ok with
    | refined fresh => exact fresh
    | duplicate _ moved => exact absurd rfl moved
  have unsent : enc.stage i ≠ .sent := by
    rw [here]
    decide
  have noEntry : ∀ k, enc.cache.search k ≠ some i := by
    intro k found
    exact (inv.cached k i found).2.1 here
  have digest : lib.sha1Digest (data input i) = key lib input i := rfl
  simp only [act, subDeduplicate, inside, here, fresh, Chunk.refined, and_self, if_true, digest]
  cases search : enc.cache.search (key lib input i) with
  | none =>
    refine ⟨_, rfl, rfl, rfl, inv.move unsent (by decide) ?_ ?_ ?_ ?_⟩
    · refine .waiting rfl ?_ rfl rfl rfl (inv.unwritten search)
      rw [HashTable.search_insert, if_pos rfl]
    · intro j inside' _
      exact (inv.chunks j inside').insert search
    · intro k e found other
      rw [HashTable.search_insert] at found
      by_cases own : k = key lib input i
      · rw [if_pos own] at found
        exact absurd (Option.some.inj found).symm other
      · rwa [if_neg own] at found
    · intro k found
      rw [HashTable.search_insert] at found
      by_cases own : k = key lib input i
      · exact ⟨inside, rfl, own.symm⟩
      · rw [if_neg own] at found
        exact absurd found (noEntry k)
  | some entry =>
    refine ⟨_, rfl, rfl, rfl, inv.move unsent (by decide) ?_ ?_ ?_ ?_⟩
    · exact .duplicate entry (by decide) rfl rfl search
    · intro j inside' _
      exact inv.chunks j inside'
    · intro k e found _
      exact found
    · intro k found
      exact absurd found (noEntry k)

/-- A worker that takes a deduplicated chunk to compress it succeeds and keeps the invariant. -/
theorem act_compress (inv : Inv lib kind input enc) {i : Nat} (inside : i < input.length)
    (here : enc.stage i = .deduplicated) :
    ∃ next, act lib kind input.length enc (.compress i) = .ok next ∧
      next.stage = Function.update enc.stage i .sent ∧ next.written = enc.written ∧
      Inv lib kind input next := by
  have unsent : enc.stage i ≠ .sent := by
    rw [here]
    decide
  have others : ∀ j < input.length, j ≠ i →
      ChunkOk lib kind input enc.cache enc.written j (enc.stage j) (enc.chunks j) :=
    fun j inside' _ => inv.chunks j inside'
  simp only [act, inside, here, and_self, if_true]
  have ok := inv.chunks i inside
  rw [here] at ok
  cases ok with
  | duplicate e moved isDuplicate reference found =>
    rw [if_pos isDuplicate]
    refine ⟨_, rfl, rfl, rfl, ?_⟩
    have passed : Inv lib kind input { enc with
        chunks := Function.update enc.chunks i (enc.chunks i)
        stage := Function.update enc.stage i .sent } := by
      apply inv.move unsent (by decide) _ others (fun k e found _ => found)
      · intro k entry
        exact ⟨inside, (inv.cached k i entry).2.2⟩
      · exact .duplicate e (by decide) isDuplicate reference found
    simpa using passed
  | waiting original found sha1 state holds unwritten =>
    rw [if_neg (by simp [original])]
    simp only [subCompress, state, holds, ne_eq, not_true_eq_false, if_false]
    refine ⟨_, rfl, rfl, rfl, inv.move unsent (by decide) ?_ others (fun k e found _ => found) ?_⟩
    · exact .compressed original found sha1 rfl rfl unwritten
    · intro k entry
      exact ⟨inside, original, (inv.cached k i entry).2.2.2⟩

/-- The record of the next chunk completes the file up to it. -/
theorem Written.snoc {count : Nat} {file : List Record}
    (written : Written lib kind input count file)
    {record : Record}
    (again : Seen lib input count → record = ⟨.fingerprint, sha1Len, key lib input count⟩)
    (first : ¬Seen lib input count → ∃ e < input.length,
      key lib input e = key lib input count ∧
        record = ⟨.compress, (lib.encode kind (data input e)).length,
          lib.encode kind (data input e)⟩) :
    Written lib kind input (count + 1) (file ++ [record]) := by
  obtain ⟨length, records⟩ := written
  refine ⟨by rw [List.length_append, length]; rfl, fun i below => ?_⟩
  rcases Nat.lt_succ_iff_lt_or_eq.mp below with before | rfl
  · rw [List.getElem?_append_left (by omega)]
    exact records i before
  · have last : (file ++ [record])[i]? = some record := by
      rw [← length]
      exact List.getElem?_concat_length
    rw [last]
    constructor
    · intro seen
      rw [again seen]
    · intro unseen
      obtain ⟨e, inside, same, content⟩ := first unseen
      exact ⟨e, inside, same, by rw [content]⟩

/-- The writer waits only for a chunk that has to be compressed. Otherwise it succeeds and
keeps the invariant. -/
theorem act_write (inv : Inv lib kind input enc) (more : enc.written < input.length)
    (here : enc.stage enc.written = .sent) :
    (∃ next, act lib kind input.length enc .write = .ok next ∧ next.stage = enc.stage ∧
      next.written = enc.written + 1 ∧ Inv lib kind input next) ∨
    act lib kind input.length enc .write = .error .waits ∧
      ∃ e < input.length, enc.stage e = .deduplicated := by
  -- The chunk whose data decides the record is the entry of the key.
  have target : ∃ e, (if (enc.chunks enc.written).isDuplicate then
      (enc.chunks enc.written).compressedDataRef else some enc.written) = some e ∧
      enc.cache.search (key lib input enc.written) = some e := by
    have ok := inv.chunks enc.written more
    rw [here] at ok
    cases ok with
    | duplicate e _ isDuplicate reference found =>
      exact ⟨e, by rw [if_pos isDuplicate, reference], found⟩
    | compressed original found => exact ⟨enc.written, by simp [original], found⟩
    | flushed original found => exact ⟨enc.written, by simp [original], found⟩
  obtain ⟨e, points, entry⟩ := target
  obtain ⟨inside, moved, original, same⟩ := inv.cached _ _ entry
  have unseen : Unwritten lib input enc.written e ↔ ¬Seen lib input enc.written := by
    simp only [Unwritten, Seen, same, ne_eq, not_exists, not_and]
  have onlyEntry : ∀ i, enc.cache.search (key lib input i) = some i →
      key lib input enc.written = key lib input i → i = e := by
    intro i found equal
    rw [← equal, entry] at found
    exact (Option.some.inj found).symm
  have behind : ∀ j < enc.written + 1, enc.stage j = .sent := by
    intro j below
    rcases Nat.lt_succ_iff_lt_or_eq.mp below with before | rfl
    · exact inv.behind j before
    · exact here
  simp only [act, writeChunkToFile, more, here, and_self, if_true, points]
  have ok := inv.chunks e inside
  cases stage : enc.stage e with
  | refined => exact absurd stage moved
  | deduplicated =>
    rw [stage] at ok
    cases ok with
    | duplicate _ _ isDuplicate => simp [original] at isDuplicate
    | waiting _ found sha1 state =>
      refine Or.inr ⟨?_, e, inside, stage⟩
      rw [state]
      rfl
  | sent =>
    rw [stage] at ok
    refine Or.inl ?_
    cases ok with
    | duplicate _ _ isDuplicate => simp [original] at isDuplicate
    | compressed _ found sha1 state holds unwritten =>
      rw [state]
      simp only [holds]
      refine ⟨_, rfl, rfl, rfl, ⟨fun i bound => ?_, fun k i found => ?_, more, behind, ?_⟩⟩
      · by_cases own : i = e
        · subst own
          simp only [Function.update_self, stage]
          exact .flushed original found sha1 rfl
            fun unwritten => unwritten enc.written (Nat.lt_succ_self _) same.symm
        · simp only [Function.update_of_ne own]
          exact (inv.chunks i bound).advance fun found equal =>
            absurd (onlyEntry i found equal) own
      · obtain ⟨bound, later, single, name⟩ := inv.cached k i found
        refine ⟨bound, later, ?_, name⟩
        by_cases own : i = e
        · subst own
          simpa using original
        · simpa [own] using single
      · apply inv.file.snoc
        · intro seen
          exact absurd seen (unseen.mp unwritten)
        · intro _
          exact ⟨e, inside, same, rfl⟩
    | flushed _ found sha1 state recorded =>
      rw [state]
      refine ⟨_, rfl, rfl, rfl, ⟨fun i bound => ?_, inv.cached, more, behind, ?_⟩⟩
      · apply (inv.chunks i bound).advance
        intro found equal
        rw [onlyEntry i found equal]
        exact recorded
      · apply inv.file.snoc
        · intro _
          rw [sha1, same]
        · intro fresh
          exact absurd (unseen.mpr fresh) recorded

/-- Every step of every interleaving keeps the invariant, and none fails. -/
theorem act_inv (inv : Inv lib kind input enc) (action : Action) :
    act lib kind input.length enc action ≠ .error .fails ∧
      ∀ next, act lib kind input.length enc action = .ok next → Inv lib kind input next := by
  cases action with
  | deduplicate i =>
    by_cases ready : i < input.length ∧ enc.stage i = .refined
    · obtain ⟨next, ran, _, _, kept⟩ := act_deduplicate inv ready.1 ready.2
      rw [ran]
      exact ⟨by simp, fun other same => Except.ok.inj same ▸ kept⟩
    · simp [act, ready]
  | compress i =>
    by_cases ready : i < input.length ∧ enc.stage i = .deduplicated
    · obtain ⟨next, ran, _, _, kept⟩ := act_compress inv ready.1 ready.2
      rw [ran]
      exact ⟨by simp, fun other same => Except.ok.inj same ▸ kept⟩
    · simp [act, ready]
  | write =>
    by_cases ready : enc.written < input.length ∧ enc.stage enc.written = .sent
    · rcases act_write inv ready.1 ready.2 with ⟨next, ran, _, _, kept⟩ | ⟨ran, _⟩
      · rw [ran]
        exact ⟨by simp, fun other same => Except.ok.inj same ▸ kept⟩
      · simp [ran]
    · simp [act, ready]

/-- The invariant holds along every interleaving. -/
theorem reached_inv {tablelength : UInt32} {hashfn : Bytes → UInt32}
    (reached : Reached lib kind input tablelength hashfn enc) : Inv lib kind input enc := by
  apply Reachable.invariant _ _ reached
  · intro start begins
    rw [begins]
    exact inv_begin tablelength hashfn
  · intro before after inv ⟨action, ran⟩
    exact (act_inv inv action).2 after ran

/-- While the writer is not at the end, some worker or the writer can go on. -/
theorem Inv.progress (inv : Inv lib kind input enc) (more : enc.written < input.length) :
    ∃ action next, act lib kind input.length enc action = .ok next := by
  by_cases taken : ∀ i < input.length, enc.stage i = .sent
  · rcases act_write inv more (taken _ more) with ⟨next, ran, _⟩ | ⟨_, e, inside, here⟩
    · exact ⟨.write, next, ran⟩
    · rw [taken e inside] at here
      cases here
  · obtain ⟨i, missing⟩ := not_forall.mp taken
    obtain ⟨inside, unsent⟩ := Classical.not_imp.mp missing
    cases stage : enc.stage i with
    | refined =>
      obtain ⟨next, ran, _⟩ := act_deduplicate inv inside stage
      exact ⟨.deduplicate i, next, ran⟩
    | deduplicated =>
      obtain ⟨next, ran, _⟩ := act_compress inv inside stage
      exact ⟨.compress i, next, ran⟩
    | sent => exact absurd stage unsent

/-- The number of steps that are left. -/
def remaining (count : Nat) (enc : Encoder) : Nat :=
  ∑ i ∈ Finset.range count, (match enc.stage i with
    | .refined => 2
    | .deduplicated => 1
    | .sent => 0) + (count - enc.written)

/-- Every step lowers the number of steps that are left. -/
theorem Inv.lowers (inv : Inv lib kind input enc) {action : Action} {next : Encoder}
    (ran : act lib kind input.length enc action = .ok next) :
    remaining input.length next < remaining input.length enc := by
  -- A worker's step lowers the term of its chunk and leaves the others.
  have worker : ∀ (i : Nat) (stage : Stage), i < input.length →
      next.stage = Function.update enc.stage i stage → next.written = enc.written →
      (enc.stage i = .refined ∧ stage = .deduplicated ∨
        enc.stage i = .deduplicated ∧ stage = .sent) →
      remaining input.length next < remaining input.length enc := by
    intro i stage inside stages written moves
    unfold remaining
    rw [stages, written]
    apply Nat.add_lt_add_right
    apply Finset.sum_lt_sum
    · intro j _
      by_cases here : j = i
      · subst here
        rcases moves with ⟨before, after⟩ | ⟨before, after⟩ <;> simp [before, after]
      · simp [here]
    · refine ⟨i, Finset.mem_range.mpr inside, ?_⟩
      rcases moves with ⟨before, after⟩ | ⟨before, after⟩ <;> simp [before, after]
  cases action with
  | deduplicate i =>
    by_cases ready : i < input.length ∧ enc.stage i = .refined
    · obtain ⟨other, ran', stages, written, _⟩ := act_deduplicate inv ready.1 ready.2
      rw [ran] at ran'
      obtain rfl := Except.ok.inj ran'
      exact worker i _ ready.1 stages written (Or.inl ⟨ready.2, rfl⟩)
    · simp [act, ready] at ran
  | compress i =>
    by_cases ready : i < input.length ∧ enc.stage i = .deduplicated
    · obtain ⟨other, ran', stages, written, _⟩ := act_compress inv ready.1 ready.2
      rw [ran] at ran'
      obtain rfl := Except.ok.inj ran'
      exact worker i _ ready.1 stages written (Or.inr ⟨ready.2, rfl⟩)
    · simp [act, ready] at ran
  | write =>
    by_cases ready : enc.written < input.length ∧ enc.stage enc.written = .sent
    · rcases act_write inv ready.1 ready.2 with ⟨other, ran', stages, written, _⟩ | ⟨ran', _⟩
      · rw [ran] at ran'
        obtain rfl := Except.ok.inj ran'
        unfold remaining
        rw [stages, written]
        omega
      · rw [ran] at ran'
        cases ran'
    · simp [act, ready] at ran

end Encoder

section Reader

variable (lib : Library) (kind : CompressType)

/-- What a reader keeps: the data of the keys decoded so far and the output. -/
structure Reader where
  /-- The data of a key. -/
  table : Bytes → Option Bytes
  /-- The bytes decoded so far. -/
  output : Bytes

/-- Decode one record. A fingerprint is looked up among the keys already decoded. -/
def readRecord (reader : Reader) (record : Record) : Option Reader :=
  match record.type with
  | .compress =>
    let data := lib.decode kind record.content
    some ⟨Function.update reader.table (lib.sha1Digest data) (some data), reader.output ++ data⟩
  | .fingerprint => (reader.table record.content).map fun data =>
    ⟨reader.table, reader.output ++ data⟩
  | .original => none

/-- Decode the records of a file in order. -/
def decodeFile (file : List Record) : Option Bytes :=
  (file.foldlM (readRecord lib kind) ⟨fun _ => none, []⟩).map Reader.output

variable {lib kind} {input : List Bytes}

/-- The records of a prefix of the input decode to it and give the reader its keys. -/
theorem decode_prefix (injective : ∀ a ∈ input, ∀ b ∈ input,
      lib.sha1Digest a = lib.sha1Digest b → a = b) (roundTrip : lib.RoundTrip kind)
    {file : List Record} (written : Encoder.Written lib kind input input.length file) (count : Nat)
    (bound : count ≤ input.length) :
    ∃ table, (file.take count).foldlM (readRecord lib kind) ⟨fun _ => none, []⟩ =
        some ⟨table, (input.take count).flatten⟩ ∧
      ∀ j < count, table (Encoder.key lib input j) = some (Encoder.data input j) := by
  induction count with
  | zero => exact ⟨fun _ => none, rfl, fun j below => absurd below (Nat.not_lt_zero j)⟩
  | succ count ih =>
    obtain ⟨table, ran, known⟩ := ih (by omega)
    have inInput : ∀ j < input.length, Encoder.data input j ∈ input := by
      intro j inside
      simp [Encoder.data, inside]
    have content : input[count]? = some (Encoder.data input count) := by
      simp [Encoder.data, show count < input.length by omega]
    obtain ⟨again, first⟩ := written.2 count (by omega)
    rw [List.take_add_one, List.take_add_one, List.foldlM_append, ran, content]
    by_cases seen : Encoder.Seen lib input count
    · obtain ⟨j, below, same⟩ := seen
      have equal : Encoder.data input j = Encoder.data input count :=
        injective _ (inInput j (by omega)) _ (inInput count (by omega)) same
      rw [again ⟨j, below, same⟩]
      refine ⟨table, ?_, fun i later => ?_⟩
      · simp [readRecord, ← same, known j below, equal]
      · rcases Nat.lt_succ_iff_lt_or_eq.mp later with before | rfl
        · exact known i before
        · rw [← same, known j below, equal]
    · obtain ⟨e, inside, same, record⟩ := first seen
      have equal : Encoder.data input e = Encoder.data input count :=
        injective _ (inInput e inside) _ (inInput count (by omega)) same
      rw [record]
      refine ⟨Function.update table (Encoder.key lib input count)
        (some (Encoder.data input count)), ?_, fun i later => ?_⟩
      · simp [readRecord, equal, roundTrip (Encoder.data input count), Encoder.key]
      · rcases Nat.lt_succ_iff_lt_or_eq.mp later with before | rfl
        · have other : Encoder.key lib input i ≠ Encoder.key lib input count :=
            fun repeated => seen ⟨i, before, repeated⟩
          rw [Function.update_of_ne other, known i before]
        · rw [Function.update_self]

/-- The file of a whole input decodes to the input. -/
theorem decode_written (injective : ∀ a ∈ input, ∀ b ∈ input,
      lib.sha1Digest a = lib.sha1Digest b → a = b) (roundTrip : lib.RoundTrip kind)
    {file : List Record} (written : Encoder.Written lib kind input input.length file) :
    decodeFile lib kind file = some input.flatten := by
  obtain ⟨table, ran, _⟩ := decode_prefix injective roundTrip written input.length le_rfl
  rw [← written.1, List.take_length, List.take_of_length_le (by rw [written.1])] at ran
  rw [decodeFile, ran]
  rfl

end Reader

section Results

variable {lib : Library} {kind : CompressType} {input : List Bytes} {tablelength : UInt32}
  {hashfn : Bytes → UInt32} {enc : Encoder}

/-- Every run can be carried on until the writer is at the end. -/
theorem Encoder.carried_on (reached : Encoder.Reached lib kind input tablelength hashfn enc) :
    ∃ last, Encoder.Reached lib kind input tablelength hashfn last ∧
      Relation.ReflTransGen (fun enc next =>
        ∃ action, Encoder.act lib kind input.length enc action = .ok next) enc last ∧
      last.written = input.length := by
  have lowers : ∀ before after, Encoder.Reached lib kind input tablelength hashfn before →
      (∃ action, Encoder.act lib kind input.length before action = .ok after) →
      Encoder.remaining input.length after < Encoder.remaining input.length before := by
    intro before after reached ⟨action, ran⟩
    exact (Encoder.reached_inv reached).lowers ran
  have progress : ∀ state, Encoder.Reached lib kind input tablelength hashfn state →
      state.written = input.length ∨
        ∃ next action, Encoder.act lib kind input.length state action = .ok next := by
    intro state reached
    have here := Encoder.reached_inv reached
    rcases Nat.lt_or_ge state.written input.length with more | done
    · obtain ⟨action, next, ran⟩ := here.progress more
      exact Or.inr ⟨next, action, ran⟩
    · exact Or.inl (le_antisymm here.bound done)
  obtain ⟨last, run, ended⟩ := Reachable.exists_final _ lowers progress reached
  exact ⟨last, reached.trans run, run, ended⟩

/-- The whole file decodes to the input. -/
theorem Encoder.decodes
    (injective : ∀ a ∈ input, ∀ b ∈ input, lib.sha1Digest a = lib.sha1Digest b → a = b)
    (roundTrip : lib.RoundTrip kind)
    (reached : Encoder.Reached lib kind input tablelength hashfn enc)
    (whole : enc.written = input.length) :
    decodeFile lib kind enc.file = some input.flatten := by
  have file := (Encoder.reached_inv reached).file
  rw [whole] at file
  exact decode_written injective roundTrip file

end Results

/-- In every interleaving no call fails, and while the writer is not at the end some step is
possible, so every run can be carried on to the end. Up to the writer's position the file has
one record per chunk in input order, the first of each key with the compressed bytes of a
chunk of that key, every later one with the key. The whole file decodes to the input. -/
theorem encoder_correct {lib : Library} {kind : CompressType} {input : List Bytes}
    {tablelength : UInt32} {hashfn : Bytes → UInt32}
    (injective : ∀ a ∈ input, ∀ b ∈ input, lib.sha1Digest a = lib.sha1Digest b → a = b)
    (roundTrip : lib.RoundTrip kind) {enc : Encoder}
    (reached : Encoder.Reached lib kind input tablelength hashfn enc) :
    Encoder.Written lib kind input enc.written enc.file ∧
      (∀ action, Encoder.act lib kind input.length enc action ≠ .error .fails) ∧
      (enc.written < input.length →
        ∃ action next, Encoder.act lib kind input.length enc action = .ok next) ∧
      (∃ last, Encoder.Reached lib kind input tablelength hashfn last ∧
        Relation.ReflTransGen (fun enc next =>
          ∃ action, Encoder.act lib kind input.length enc action = .ok next) enc last ∧
        last.written = input.length) ∧
      (enc.written = input.length → decodeFile lib kind enc.file = some input.flatten) := by
  have inv := Encoder.reached_inv reached
  exact ⟨inv.file, fun action => (Encoder.act_inv inv action).1, inv.progress,
    Encoder.carried_on reached, Encoder.decodes injective roundTrip reached⟩

section Sample

/-- The SHA1 sums of two one-byte chunks. -/
def sampleLibrary : Library where
  sha1Digest data :=
    if data = [0x61] then
      [0x86, 0xf7, 0xe4, 0x37, 0xfa, 0xa5, 0xa7, 0xfc, 0xe1, 0x5d,
        0x1d, 0xdc, 0xb9, 0xea, 0xea, 0xea, 0x37, 0x76, 0x67, 0xb8]
    else
      [0xe9, 0xd7, 0x1f, 0x5e, 0xe7, 0xc9, 0x2d, 0x6d, 0xc9, 0xe9,
        0x2f, 0xfd, 0xad, 0x17, 0xb8, 0xbd, 0x49, 0x41, 0x8f, 0x98]
  compress := id
  uncompress := id
  bzCompress := id
  bzDecompress := id

/-- `hash_from_key_fn` on a little-endian machine. -/
def hashFromKey (key : Bytes) : UInt32 :=
  (key.take 4).foldr (fun byte word => byte.toUInt32 + (word <<< 8)) 0

/-- A run in which the last of two equal chunks is deduplicated first. -/
def sampleRun : Except Stop Encoder :=
  [Encoder.Action.deduplicate 2, .deduplicate 1, .deduplicate 0, .compress 0, .compress 2,
    .write, .compress 1, .write, .write].foldlM
      (Encoder.act sampleLibrary .none 3)
      (Encoder.begin [[0x61], [0x62], [0x61]] 98317 hashFromKey)

/-- A sequence of actions that runs through reaches its last state. -/
theorem Encoder.reached_run {lib : Library} {kind : CompressType} {input : List Bytes}
    {tablelength : UInt32} {hashfn : Bytes → UInt32} (actions : List Encoder.Action)
    {enc last : Encoder} (reached : Encoder.Reached lib kind input tablelength hashfn enc)
    (ran : actions.foldlM (Encoder.act lib kind input.length) enc = .ok last) :
    Encoder.Reached lib kind input tablelength hashfn last := by
  induction actions generalizing enc with
  | nil =>
    obtain rfl := Except.ok.inj ran
    exact reached
  | cons action actions ih =>
    rw [List.foldlM_cons] at ran
    cases first : Encoder.act lib kind input.length enc action with
    | error stop => simp [first, bind, Except.bind] at ran
    | ok next =>
      rw [first] at ran
      exact ih (reached.step ⟨action, first⟩) ran

/-- Three bytes are encoded and decoded. -/
theorem encoder_correct_sample :
    ∃ enc, sampleRun = .ok enc ∧
      decodeFile sampleLibrary .none enc.file = some [0x61, 0x62, 0x61] := by
  have ends : ∃ enc, sampleRun = .ok enc ∧ enc.written = 3 := ⟨_, rfl, rfl⟩
  obtain ⟨enc, ran, whole⟩ := ends
  have reached : Encoder.Reached sampleLibrary .none [[0x61], [0x62], [0x61]] 98317 hashFromKey
      enc := Encoder.reached_run _ (.start rfl) ran
  have injective : ∀ a ∈ [[0x61], [0x62], [0x61]], ∀ b ∈ [[0x61], [0x62], [0x61]],
      sampleLibrary.sha1Digest a = sampleLibrary.sha1Digest b → a = b := by decide
  exact ⟨enc, ran, (encoder_correct injective (fun _ => rfl) reached).2.2.2.2 whole⟩

end Sample

end P3arsec.Dedup
