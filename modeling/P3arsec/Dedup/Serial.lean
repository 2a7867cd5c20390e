import P3arsec.Dedup.Fragment

/-!
# The serial pipeline against the parallel one

`SerialIntegratedPipeline` cuts the input into chunks in one loop and deduplicates, compresses and
writes each chunk as soon as it is cut. The parallel pipeline cuts coarse chunks first and refines
them, so that the boundaries of its chunks are others. Both files decode to the input: what counts
is that each way of cutting covers every byte once, in order (`Serial.run_eq`, `refine_data`), and
that the records are those of a sequence of chunks (`Encoder.Written`).
-/

namespace P3arsec.Dedup

open P3arsec.Lib

namespace Serial

variable (cfg : FragmentConfig) (sizes : Nat → Nat) (lib : Library) (kind : CompressType)

/-- `write_chunk_to_file` of the serial version. -/
def writeChunkToFile (i : Nat) (enc : Encoder) : Except Stop Encoder :=
  let chunk := enc.chunks i
  if chunk.isDuplicate then
    .ok { enc with file := enc.file ++ [⟨.fingerprint, sha1Len, chunk.sha1⟩] }
  else match chunk.compressedData with
    | none => .error .fails
    | some data => .ok { enc with
        file := enc.file ++ [⟨.compress, data.length, data⟩]
        chunks := Function.update enc.chunks i { chunk with compressedData := none } }

/-- Deduplicate a chunk, compress it if it is unique, and write it. -/
def process (enc : Encoder) (data : Bytes) : Except Stop Encoder := do
  let i := enc.written
  let enc ← Encoder.subDeduplicate lib i
    { enc with chunks := Function.update enc.chunks i (.refined data) }
  let enc ← if (enc.chunks i).isDuplicate then .ok enc else Encoder.subCompress lib kind i enc
  let enc ← writeChunkToFile i enc
  .ok { enc with written := i + 1 }

/-- The loop that partitions a block, with the bytes that are left over. -/
def splitLoop (data : Bytes) (enc : Encoder) : Except Stop (Bytes × Encoder) :=
  let offset := toInt (cfg.rabinseg data)
  -- a split at the very beginning fails an assertion
  if offset = 0 then .error .fails
  -- the size is a `size_t`, and as such a negative offset is greater than every size
  else if 0 ≤ offset ∧ offset < data.length then
    match _ : mbufferSplit data offset.toNat with
    | none => .error .fails
    | some pair => do
      let enc ← process lib kind enc pair.1
      splitLoop pair.2 enc
  else .ok (data, enc)
  termination_by data.length
  decreasing_by exact mbufferSplit_length ‹_›

/-- The outer loop of `SerialIntegratedPipeline`. -/
def run (temp : Option Bytes) (source : Source) (enc : Encoder) : Except Stop Encoder :=
  let block := source.readBlock cfg.maxbuf sizes
  let data := temp.getD [] ++ block.1
  if data.length = 0 then .ok enc
  else if block.1.length = 0 then process lib kind enc data
  else do
    let (temp, enc) ← splitLoop cfg lib kind data enc
    run (some temp) block.2 enc
  termination_by source.remaining.length
  decreasing_by
    rename_i more
    have spec := source.readBlock_spec cfg.maxbuf sizes
    have left : block.1.length ≠ 0 := more
    rw [spec.1, List.length_take] at left
    have positive := cfg.maxbuf_pos
    rw [spec.2, List.length_drop]
    omega

/-- The whole run, with an empty cache of some size. -/
def serialIntegratedPipeline (tablelength : UInt32) (hashfn : Bytes → UInt32) (source : Source) :
    Except Stop Encoder :=
  run cfg sizes lib kind none source
    ⟨fun _ => .refined [], fun _ => .refined, .create tablelength hashfn, 0, []⟩

/-- The serial loop looks for anchors as `Fragment` does, but from the begin of a buffer on. -/
def noJump : FragmentConfig := { cfg with anchorJump := 0, anchorJump_lt := by norm_num }

variable {cfg sizes}

/-- The anchor of a buffer is the offset. -/
theorem anchor_noJump (data : Bytes) :
    Fragment.anchor (noJump cfg) data = toInt (cfg.rabinseg data) := by
  rw [Fragment.anchor]
  exact Int.add_zero _

/-- The partition of a block processes pieces of it, one after the other, where the offsets are not
0. -/
theorem splitLoop_eq (data : Bytes) (nonempty : 0 < data.length)
    (sound : ∀ buffer ∈ Fragment.remainders (noJump cfg) data,
      Fragment.Sound (noJump cfg) buffer) :
    ∃ pieces : List Bytes, pieces.flatten ++ Fragment.leftover (noJump cfg) data = data ∧
      ∀ enc, splitLoop cfg lib kind data enc =
        (pieces.foldlM (process lib kind) enc).map
          fun enc => (Fragment.leftover (noJump cfg) data, enc) := by
  induction size : data.length using Nat.strong_induction_on generalizing data with
  | _ bound ih =>
    have anchor : Fragment.anchor (noJump cfg) data = toInt (cfg.rabinseg data) :=
      anchor_noJump data
    by_cases splits : Fragment.Splits (noJump cfg) data
    · obtain ⟨buffers, last⟩ := Fragment.remainders_of_splits splits
      rw [buffers, List.forall_mem_cons] at sound
      obtain ⟨more, shorter⟩ := splits.length_rest
      obtain ⟨pieces, whole, ran⟩ := ih _ (size ▸ shorter) _ more sound.2 rfl
      have positive := splits.2.1
      have inside := splits.2.2
      rw [anchor] at positive inside
      have back : Fragment.rest (noJump cfg) data =
          data.drop (toInt (cfg.rabinseg data)).toNat := by rw [Fragment.rest, anchor]
      rw [last]
      refine ⟨data.take (toInt (cfg.rabinseg data)).toNat :: pieces, ?_, fun enc => ?_⟩
      · rw [List.flatten_cons, List.append_assoc, whole, back, List.take_append_drop]
      · have parts : mbufferSplit data (toInt (cfg.rabinseg data)).toNat =
            some (data.take (toInt (cfg.rabinseg data)).toNat,
              Fragment.rest (noJump cfg) data) := by
          rw [back]
          exact if_pos (by omega)
        rw [splitLoop, if_neg positive.ne', if_pos ⟨positive.le, inside⟩]
        split
        · rename_i none
          rw [parts] at none
          cases none
        · rename_i pair same
          rw [parts] at same
          obtain rfl := Option.some.inj same
          rw [List.foldlM_cons]
          dsimp only
          cases here : process lib kind enc (data.take (toInt (cfg.rabinseg data)).toNat) with
          | error stop => rfl
          | ok next => exact ran next
    · obtain ⟨buffers, last⟩ := Fragment.remainders_of_not splits
      rw [buffers, List.forall_mem_singleton] at sound
      obtain ⟨-, other, -⟩ := sound nonempty
      rw [anchor] at other
      have outside :
          ¬(0 ≤ toInt (cfg.rabinseg data) ∧ toInt (cfg.rabinseg data) < data.length) := by
        rintro ⟨least, inside⟩
        refine splits ⟨nonempty, ?_⟩
        rw [anchor]
        exact ⟨lt_of_le_of_ne least other.symm, inside⟩
      rw [last]
      refine ⟨[], rfl, fun enc => ?_⟩
      rw [splitLoop, if_neg other, if_neg outside]
      rfl

/-- The outer loop processes pieces that make up the input, one after the other, where the offsets
are not 0. -/
theorem run_eq (temp : Option Bytes) (source : Source)
    (sound : ∀ buffer ∈ Fragment.buffers (noJump cfg) (temp.getD []) source.remaining,
      Fragment.Sound (noJump cfg) buffer) :
    ∃ pieces : List Bytes, pieces.flatten = temp.getD [] ++ source.remaining ∧
      ∀ enc, run cfg sizes lib kind temp source enc = pieces.foldlM (process lib kind) enc := by
  induction size : source.remaining.length using Nat.strong_induction_on
    generalizing temp source with
  | _ bound ih =>
    have spec := source.readBlock_spec cfg.maxbuf sizes
    have positive := cfg.maxbuf_pos
    have split := List.take_append_drop cfg.maxbuf source.remaining
    by_cases none : temp.getD [] ++ source.remaining = []
    · refine ⟨[], none.symm, fun enc => ?_⟩
      rw [List.append_eq_nil_iff] at none
      rw [run]
      dsimp only
      rw [spec.1, none.1, none.2, if_pos (by simp)]
      rfl
    · by_cases ended : source.remaining = []
      · refine ⟨[temp.getD [] ++ source.remaining], by simp, fun enc => ?_⟩
        have some : ¬(temp.getD [] ++ source.remaining.take cfg.maxbuf).length = 0 := by
          rw [ended] at none ⊢
          rw [List.length_eq_zero_iff]
          simpa using none
        rw [run]
        dsimp only
        rw [spec.1, if_neg some, if_pos (by simp [ended]), ended, List.take_nil]
        rw [List.foldlM_cons]
        cases process lib kind enc (temp.getD [] ++ []) with
        | error stop => rfl
        | ok next => rfl
      · have more : 0 < source.remaining.length := List.length_pos_iff.mpr ended
        have busy : 0 < (temp.getD [] ++ source.remaining.take cfg.maxbuf).length := by
          rw [List.length_append, List.length_take]
          omega
        rw [Fragment.buffers_of_ne_nil _ ended, List.forall_mem_append] at sound
        obtain ⟨pieces, whole, ran⟩ := splitLoop_eq lib kind _ busy sound.1
        obtain ⟨rest, whole', ran'⟩ := ih (source.readBlock cfg.maxbuf sizes).2.remaining.length
          (by rw [spec.2, List.length_drop]; omega) (some (Fragment.leftover (noJump cfg)
            (temp.getD [] ++ source.remaining.take cfg.maxbuf))) _
          (by rw [Option.getD_some, spec.2]; exact sound.2) rfl
        refine ⟨pieces ++ rest, ?_, fun enc => ?_⟩
        · rw [List.flatten_append, whole', spec.2, Option.getD_some, ← List.append_assoc, whole,
            List.append_assoc, split]
        · rw [run]
          dsimp only
          rw [spec.1, if_neg (by omega), if_neg (by rw [List.length_take]; omega), ran,
            List.foldlM_append]
          cases pieces.foldlM (process lib kind) enc with
          | error stop => rfl
          | ok next => exact ran' next

/-- What holds after some of the pieces of an input. -/
structure Inv (pieces : List Bytes) (enc : Encoder) : Prop where
  /-- The keys in the cache are those of the pieces so far. -/
  cached : ∀ k, enc.cache.search k = none ↔
    ∀ j < enc.written, Encoder.key lib pieces j ≠ k
  /-- The file has the records of the pieces so far. -/
  file : Encoder.Written lib kind pieces enc.written enc.file

variable {lib kind} {pieces : List Bytes} {enc : Encoder}

/-- A chunk whose key is not in the cache is compressed and written. -/
theorem process_unique {piece : Bytes}
    (missing : enc.cache.search (lib.sha1Digest piece) = none) :
    ∃ next, process lib kind enc piece = .ok next ∧ next.written = enc.written + 1 ∧
      next.cache = enc.cache.insert (lib.sha1Digest piece) enc.written ∧
      next.file = enc.file ++
        [⟨.compress, (lib.encode kind piece).length, lib.encode kind piece⟩] := by
  simp only [process, Encoder.subDeduplicate, Chunk.refined, Function.update_self, missing,
    Encoder.subCompress, writeChunkToFile, bind, Except.bind, Bool.false_eq_true, if_false,
    ne_eq, not_true_eq_false]
  exact ⟨_, rfl, rfl, rfl, rfl⟩

/-- Of a chunk whose key is in the cache the key is written. -/
theorem process_duplicate {piece : Bytes} {entry : Nat}
    (found : enc.cache.search (lib.sha1Digest piece) = some entry) :
    ∃ next, process lib kind enc piece = .ok next ∧ next.written = enc.written + 1 ∧
      next.cache = enc.cache ∧
      next.file = enc.file ++ [⟨.fingerprint, sha1Len, lib.sha1Digest piece⟩] := by
  simp only [process, Encoder.subDeduplicate, Chunk.refined, Function.update_self, found,
    writeChunkToFile, bind, Except.bind, if_true]
  exact ⟨_, rfl, rfl, rfl, rfl⟩

/-- The next piece gets its record. -/
theorem process_spec (inv : Inv lib kind pieces enc) (inside : enc.written < pieces.length) :
    ∃ next, process lib kind enc (Encoder.data pieces enc.written) = .ok next ∧
      next.written = enc.written + 1 ∧ Inv lib kind pieces next := by
  cases found : enc.cache.search (Encoder.key lib pieces enc.written) with
  | none =>
    have unseen : ¬Encoder.Seen lib pieces enc.written := by
      rintro ⟨j, below, same⟩
      exact (inv.cached _).mp found j below same
    obtain ⟨next, ran, moved, cache, file⟩ := process_unique found
    refine ⟨next, ran, moved, fun k => ?_, ?_⟩
    · rw [cache, HashTable.search_insert, moved]
      constructor
      · intro absent j below same
        split at absent
        · cases absent
        · rename_i other
          rcases Nat.lt_succ_iff_lt_or_eq.mp below with earlier | rfl
          · exact (inv.cached k).mp absent j earlier same
          · exact other same.symm
      · intro absent
        rw [if_neg fun same => absent enc.written (Nat.lt_succ_self _) same.symm]
        exact (inv.cached k).mpr fun j below => absent j (Nat.lt_succ_of_lt below)
    · rw [moved, file]
      exact inv.file.snoc (fun seen => absurd seen unseen) fun _ => ⟨_, inside, rfl, rfl⟩
  | some entry =>
    have seen : Encoder.Seen lib pieces enc.written := by
      by_contra unseen
      have absent := (inv.cached (Encoder.key lib pieces enc.written)).mpr
        fun j below same => unseen ⟨j, below, same⟩
      rw [absent] at found
      cases found
    obtain ⟨next, ran, moved, cache, file⟩ := process_duplicate found
    refine ⟨next, ran, moved, fun k => ?_, ?_⟩
    · rw [cache, moved]
      constructor
      · intro absent j below same
        rcases Nat.lt_succ_iff_lt_or_eq.mp below with earlier | rfl
        · exact (inv.cached k).mp absent j earlier same
        · rw [same, absent] at found
          cases found
      · intro absent
        exact (inv.cached k).mpr fun j below => absent j (Nat.lt_succ_of_lt below)
    · rw [moved, file]
      exact inv.file.snoc (fun _ => rfl) fun unseen => absurd seen unseen

/-- All pieces behind the written ones get their records. -/
theorem process_all (inv : Inv lib kind pieces enc) (bound : enc.written ≤ pieces.length) :
    ∃ last, (pieces.drop enc.written).foldlM (process lib kind) enc = .ok last ∧
      last.written = pieces.length ∧ Inv lib kind pieces last := by
  induction left : pieces.length - enc.written generalizing enc with
  | zero =>
    have done : enc.written = pieces.length := by omega
    rw [done, List.drop_length]
    exact ⟨enc, rfl, done, inv⟩
  | succ left ih =>
    have inside : enc.written < pieces.length := by omega
    obtain ⟨next, ran, moved, kept⟩ := process_spec inv inside
    have content : pieces[enc.written] = Encoder.data pieces enc.written := by
      simp [Encoder.data, inside]
    rw [List.drop_eq_getElem_cons inside, List.foldlM_cons, content, ran, ← moved]
    exact ih kept (by omega) (by omega)

/-- Every duplicate record of a file comes behind a compressed record of its key. -/
def Ordered (lib : Library) (kind : CompressType) (file : List Record) : Prop :=
  ∀ (i len : Nat) (k : Bytes), file[i]? = some ⟨.fingerprint, len, k⟩ →
    ∃ j < i, ∃ record, file[j]? = some record ∧ record.type = .compress ∧
      lib.sha1Digest (lib.decode kind record.content) = k

/-- The records of a sequence of chunks are in this order. -/
theorem ordered_of_written (roundTrip : lib.RoundTrip kind) {count : Nat} {file : List Record}
    (written : Encoder.Written lib kind pieces count file) : Ordered lib kind file := by
  intro i
  induction i using Nat.strong_induction_on with
  | _ i ih =>
    intro len k here
    have below : i < count := by
      rw [← written.1]
      exact (List.getElem?_eq_some_iff.mp here).1
    obtain ⟨again, first⟩ := written.2 i below
    by_cases seen : Encoder.Seen lib pieces i
    · rw [again seen] at here
      obtain rfl : Encoder.key lib pieces i = k := congrArg Record.content (Option.some.inj here)
      obtain ⟨j, earlier, same⟩ := seen
      obtain ⟨again', first'⟩ := written.2 j (earlier.trans below)
      by_cases seen' : Encoder.Seen lib pieces j
      · obtain ⟨m, before, rest⟩ := ih j earlier _ _ (again' seen')
        exact ⟨m, before.trans earlier, same ▸ rest⟩
      · obtain ⟨e, _, equal, record⟩ := first' seen'
        refine ⟨j, earlier, _, record, rfl, ?_⟩
        rw [roundTrip]
        exact equal.trans same
    · obtain ⟨_, _, _, record⟩ := first seen
      rw [record] at here
      cases here

end Serial

section Parallel

variable {pipe : PipeConfig}

/-- The pieces of a coarse chunk make it up, and there is one. -/
theorem refineFrom_data (pipe : PipeConfig) (l1num chcount : Nat) (data : Bytes) :
    (refineFrom pipe l1num chcount data).flatMap DataChunk.data = data ∧
      0 < (refineFrom pipe l1num chcount data).length := by
  induction chcount, data using refineFrom.induct pipe with
  | case1 chcount data offset split ih =>
    rw [refineFrom, dif_pos split, List.flatMap_cons, ih.1]
    exact ⟨List.take_append_drop _ _, Nat.succ_pos _⟩
  | case2 chcount data offset whole =>
    rw [refineFrom, dif_neg whole]
    exact ⟨List.flatMap_singleton _ _, Nat.one_pos⟩

/-- The pieces of a coarse chunk are numbered and the last one is marked, as long as the numbers
are 32-bit numbers. -/
theorem refineFrom_numbered (pipe : PipeConfig) (l1num chcount : Nat) (data : Bytes)
    (small : chcount + (refineFrom pipe l1num chcount data).length ≤ 2 ^ 32) :
    (refineFrom pipe l1num chcount data).map DataChunk.toFineChunk =
      (List.range' chcount (refineFrom pipe l1num chcount data).length).map fun l2num =>
        ⟨⟨l1num, l2num⟩, l2num + 1 == chcount + (refineFrom pipe l1num chcount data).length⟩ := by
  induction chcount, data using refineFrom.induct pipe with
  | case1 chcount data offset split ih =>
    rw [refineFrom, dif_pos split] at small ⊢
    simp only [offset] at ih
    have positive := (refineFrom_data pipe l1num ((chcount + 1) % 2 ^ 32)
      (data.drop (pipe.rabinseg data))).2
    rw [List.length_cons] at small
    have next : (chcount + 1) % 2 ^ 32 = chcount + 1 := by
      apply Nat.mod_eq_of_lt
      omega
    rw [next] at ih small positive ⊢
    have more := ih (by omega)
    generalize refineFrom pipe l1num (chcount + 1) (data.drop (pipe.rabinseg data)) = rest
      at small positive more
    have inner : (chcount + 1 == chcount + (rest.length + 1)) = false := by
      rw [beq_eq_false_iff_ne]
      omega
    rw [List.map_cons, List.length_cons, List.range'_succ, List.map_cons, more, inner,
      show chcount + (rest.length + 1) = chcount + 1 + rest.length by omega]
  | case2 chcount data offset whole =>
    rw [refineFrom, dif_neg whole]
    simp

/-- The numbers of fine chunks of some coarse chunks. -/
def anchorsOf (pipe : PipeConfig) (coarse : List DataChunk) : List Nat :=
  coarse.map fun chunk => (refine pipe chunk).length

/-- The fine chunks make up the coarse chunks. -/
theorem refine_data (coarse : List DataChunk) :
    (coarse.flatMap (refine pipe)).flatMap DataChunk.data = coarse.flatMap DataChunk.data := by
  rw [List.flatMap_assoc]
  apply List.flatMap_congr
  intro chunk _
  exact (refineFrom_data pipe chunk.sequence.l1num 0 chunk.data).1

/-- The fine chunks are the complete set for their numbers, as long as these are 32-bit
numbers. -/
theorem refine_complete (coarse : List DataChunk)
    (numbered : coarse.map (fun chunk => chunk.sequence.l1num) = List.range coarse.length)
    (small : ∀ count ∈ anchorsOf pipe coarse, count ≤ 2 ^ 32) :
    (coarse.flatMap (refine pipe)).map DataChunk.toFineChunk =
      complete (anchorsOf pipe coarse) := by
  induction coarse using List.reverseRecOn with
  | nil => rfl
  | append_singleton coarse chunk ih =>
    rw [List.map_append, List.length_append, List.length_singleton, List.range_succ] at numbered
    obtain ⟨before, here⟩ := List.append_inj' numbered rfl
    have number : chunk.sequence.l1num = coarse.length := by simpa using here
    have few : (refine pipe chunk).length ≤ 2 ^ 32 := small _ (by simp [anchorsOf])
    have parts := refineFrom_numbered pipe chunk.sequence.l1num 0 chunk.data
      (by rw [Nat.zero_add]; exact few)
    rw [Nat.zero_add, ← List.range_eq_range', number] at parts
    have earlier := ih before fun count member => small count (by
      rw [anchorsOf, List.map_append]
      exact List.mem_append_left _ member)
    have same : anchorsOf pipe (coarse ++ [chunk]) =
        anchorsOf pipe coarse ++ [(refine pipe chunk).length] := by simp [anchorsOf]
    rw [List.flatMap_append, List.flatMap_singleton, List.map_append, earlier, same,
      complete_concat, refine, number, parts, anchorsOf, List.length_map]

/-- The array has room for arrivals whose numbers are all below its length. -/
theorem Reorder.fits_of_lt {max : Nat} {arrivals : List FineChunk}
    (below : ∀ chunk ∈ arrivals, chunk.sequence.l1num < max) : Reorder.Fits max arrivals := by
  induction arrivals with
  | nil => trivial
  | cons chunk arrivals ih =>
    have here := below chunk List.mem_cons_self
    have same : Reorder.grownMax max chunk.sequence.l1num = max := if_neg (by omega)
    rw [Reorder.Fits, same]
    exact ⟨here, ih fun other member => below other (List.mem_cons_of_mem _ member)⟩

end Parallel

/-- The serial pipeline writes a file that decodes to the input, with every duplicate record behind
a compressed record of its key, where no anchor is further than an `int` says. The parallel pipeline
does so as well, as long as the numbers of its chunks are 32-bit numbers and each chunk that arrives
at `Reorder` finds room in the array: then `Reorder` writes the fine chunks in the order of the
input, and the file of every interleaving of the workers with this writer decodes to the input. The
coarse chunks are so short that the offsets of the refinement are of type `int`. -/
theorem serial_parallel {cfg : FragmentConfig} {pipe : PipeConfig} {lib : Library}
    {kind : CompressType} (anchored : Fragment.Anchored cfg.rabinseg)
    (roundTrip : lib.RoundTrip kind) (sizes : Nat → Nat) (tablelength : UInt32)
    (hashfn : Bytes → UInt32) {input : Bytes} {source : Source}
    (begins : source = .preloaded input 0 ∨ source = .stream input 0)
    (injective : ∀ a b, a <:+: input → b <:+: input →
      lib.sha1Digest a = lib.sha1Digest b → a = b) :
    ((∀ data ∈ Fragment.buffers (Serial.noJump cfg) [] input,
        Fragment.Within (Serial.noJump cfg) data) →
      ∃ last, Serial.serialIntegratedPipeline cfg sizes lib kind tablelength hashfn source =
        .ok last ∧
      decodeFile lib kind last.file = some input ∧ Serial.Ordered lib kind last.file) ∧
    ((∀ data ∈ Fragment.buffers cfg [] input, Fragment.Within cfg data) →
      ∃ coarse, Fragment.chunks cfg sizes source = some coarse ∧
      (∀ chunk ∈ coarse, chunk.data.length < 2 ^ 31) ∧
      ∀ fine, fine = coarse.flatMap (refine pipe) →
        (∀ {Q T : Type} (cache : Cache Q T) (arrivals : List FineChunk) (fuel : Nat),
          coarse.length ≤ 2 ^ 32 → (∀ count ∈ anchorsOf pipe coarse, count < 2 ^ 32) →
          arrivals.Perm (fine.map DataChunk.toFineChunk) → Reorder.Fits 1024 arrivals →
          fine.length < fuel →
          ∃ last, arrivals.foldlM (Reorder.receive cache fuel) (Reorder.start cache) = .ok last ∧
            last.written = fine.map DataChunk.toFineChunk ∧
            ∀ l1num, cache.tree.find l1num last.T = none) ∧
        ∀ enc, Encoder.Reached lib kind (fine.map DataChunk.data) tablelength hashfn enc →
          (∃ last, Encoder.Reached lib kind (fine.map DataChunk.data) tablelength hashfn last ∧
            Relation.ReflTransGen (fun enc next => ∃ action,
              Encoder.act lib kind fine.length enc action = .ok next) enc last ∧
            last.written = fine.length) ∧
          (enc.written = fine.length → decodeFile lib kind enc.file = some input)) := by
  have all : source.remaining = input := by
    rcases begins with rfl | rfl
    · rfl
    · rfl
  -- the pieces of a list that makes up the input are parts of it
  have injectiveOn : ∀ pieces : List Bytes, pieces.flatten = input → ∀ a ∈ pieces, ∀ b ∈ pieces,
      lib.sha1Digest a = lib.sha1Digest b → a = b := by
    intro pieces whole a first b second
    have part : ∀ piece ∈ pieces, piece <:+: input := by
      intro piece member
      rw [← whole]
      exact List.infix_of_mem_flatten member
    exact injective a b (part a first) (part b second)
  constructor
  · intro within
    have sound : ∀ data ∈ Fragment.buffers (Serial.noJump cfg) [] source.remaining,
        Fragment.Sound (Serial.noJump cfg) data :=
      fun data member =>
        (@Fragment.Within.sound (Serial.noJump cfg) anchored _ (within data (all ▸ member))).1
    obtain ⟨pieces, whole, ran⟩ := Serial.run_eq lib kind none source sound
    rw [Option.getD_none, List.nil_append, all] at whole
    have begin : Serial.Inv lib kind pieces
        ⟨fun _ => .refined [], fun _ => .refined, .create tablelength hashfn, 0, []⟩ :=
      ⟨fun _ => by simp, rfl, fun _ below => absurd below (Nat.not_lt_zero _)⟩
    obtain ⟨last, ended, count, kept⟩ := Serial.process_all begin (Nat.zero_le _)
    have file := kept.file
    rw [count] at file
    refine ⟨last, (ran _).trans ended, ?_, Serial.ordered_of_written roundTrip file⟩
    rw [decode_written (injectiveOn pieces whole) roundTrip file, whole]
  · intro within
    have right := fun data member => (within data member).sound anchored
    obtain ⟨coarse, ran, cut, -⟩ :=
      Fragment.chunks_cut sizes begins fun data member => (right data member).1
    have jump := cfg.anchorJump_lt
    have short := Fragment.run_near (Nat.le_sub_one_of_lt jump)
      (.none : Fragment.Left 0 none (0 % 2 ^ 32)) (Nat.zero_le _) source (all.symm ▸ right) ran
    refine ⟨coarse, ran, fun chunk member => by have bound := short chunk member; omega, ?_⟩
    rintro fine rfl
    constructor
    · intro Q T cache arrivals fuel few small arrive fits enough
      have range : coarse.map (fun chunk => chunk.sequence.l1num) = List.range coarse.length := by
        rw [cut.numbered, ← List.range_eq_range']
        refine (List.map_congr_left fun i member => ?_).trans (List.map_id _)
        have below := List.mem_range.mp member
        exact Nat.mod_eq_of_lt (by omega)
      have ordered := refine_complete coarse range fun count member => (small count member).le
      have size : (complete (anchorsOf pipe coarse)).length < fuel := by
        rw [← ordered, List.length_map]
        exact enough
      rw [ordered] at arrive ⊢
      have sizes' : ∀ count ∈ anchorsOf pipe coarse, 0 < count ∧ count < 2 ^ 32 := by
        intro count member
        refine ⟨?_, small count member⟩
        obtain ⟨chunk, _, rfl⟩ := List.mem_map.mp member
        exact (refineFrom_data pipe chunk.sequence.l1num 0 chunk.data).2
      exact Reorder.receive_complete cache sizes' arrive fits size
    · intro enc reached
      have pieces : ((coarse.flatMap (refine pipe)).map DataChunk.data).flatten = input := by
        rw [← List.flatMap_def, refine_data, cut.whole]
      have goesOn := Encoder.carried_on reached
      have decodes := Encoder.decodes (injectiveOn _ pieces) roundTrip reached
      rw [List.length_map] at goesOn decodes
      rw [pieces] at decodes
      exact ⟨goesOn, decodes⟩

section Sample

/-- Coarse chunks that have no anchor inside. -/
def wholeChunks : PipeConfig :=
  ⟨1, 1, 1, List.length, Nat.one_pos, Nat.one_pos, Nat.one_pos,
    fun _ shorter => absurd shorter (lt_irrefl _)⟩

/-- A chunk without an anchor inside is one fine chunk. -/
theorem refine_wholeChunks (chunk : DataChunk) :
    refine wholeChunks chunk = [⟨⟨⟨chunk.sequence.l1num, 0⟩, true⟩, chunk.data⟩] := by
  have whole : ¬wholeChunks.rabinseg chunk.data < chunk.data.length := lt_irrefl _
  rw [refine, refineFrom, dif_neg whole]

/-- The fine chunks of coarse chunks without anchors inside. -/
theorem refine_all_wholeChunks (coarse : List DataChunk) :
    (coarse.flatMap (refine wholeChunks)).map DataChunk.toFineChunk =
      (coarse.map fun chunk => chunk.sequence.l1num).map fun l1num => ⟨⟨l1num, 0⟩, true⟩ := by
  induction coarse with
  | nil => rfl
  | cons chunk coarse ih =>
    rw [List.flatMap_cons, List.map_append, ih, refine_wholeChunks]
    rfl

/-- A library whose keys are the data. -/
def plainLibrary : Library := ⟨id, id, id, id, id⟩

/-- A short input whose fine chunks arrive in order. -/
theorem serial_parallel_sample :
    (∃ last, Serial.serialIntegratedPipeline everywhere (fun _ => 0) plainLibrary .none 98317
        hashFromKey (.stream [7, 7] 0) = .ok last ∧
      decodeFile plainLibrary .none last.file = some [7, 7]) ∧
    ∃ coarse last, Fragment.chunks everywhere (fun _ => 0) (.stream [7, 7] 0) = some coarse ∧
      ((coarse.flatMap (refine wholeChunks)).map DataChunk.toFineChunk).foldlM
        (Reorder.receive listCache 3) (Reorder.start listCache) = .ok last ∧
      last.written = (coarse.flatMap (refine wholeChunks)).map DataChunk.toFineChunk := by
  obtain ⟨serial, parallel⟩ :=
    @serial_parallel everywhere wholeChunks plainLibrary .none anchored_everywhere (fun _ => rfl)
      (fun _ => 0) 98317 hashFromKey [7, 7] (.stream [7, 7] 0) (.inr rfl) fun _ _ _ _ same => same
  obtain ⟨last, ran, decodes, -⟩ := serial fun _ _ _ => by
    show 1 + 0 < 2 ^ 31
    norm_num
  obtain ⟨coarse, cut, -, parallel⟩ := parallel fun _ _ _ => by
    show 1 + 2 * 1024 * 1024 < 2 ^ 31
    norm_num
  refine ⟨⟨last, ran, decodes⟩, coarse, ?_⟩
  obtain ⟨chunks, ran', parts, -⟩ := @Fragment.chunks_cut everywhere (fun _ => 0) [7, 7]
    (.stream [7, 7] 0) (.inr rfl) fun data _ => Fragment.sound_everywhere data
  obtain rfl := Option.some.inj (ran'.symm.trans cut)
  have few : chunks.length ≤ 2 := parts.length_le
  have fine : (chunks.flatMap (refine wholeChunks)).length = chunks.length := by
    rw [← List.length_map, refine_all_wholeChunks, List.length_map, List.length_map]
  obtain ⟨last, ran, written, -⟩ := (parallel _ rfl).1 listCache
    ((chunks.flatMap (refine wholeChunks)).map DataChunk.toFineChunk) 3 (by omega)
    (fun count member => by
      obtain ⟨chunk, _, rfl⟩ := List.mem_map.mp member
      rw [refine_wholeChunks]
      norm_num) (List.Perm.refl _)
    (Reorder.fits_of_lt fun chunk member => by
      rw [refine_all_wholeChunks, parts.numbered, ← List.range_eq_range'] at member
      obtain ⟨l1num, inside, rfl⟩ := List.mem_map.mp member
      obtain ⟨i, below, rfl⟩ := List.mem_map.mp inside
      have small := List.mem_range.mp below
      have least := Nat.mod_le i (2 ^ 32)
      dsimp only
      omega) (by omega)
  exact ⟨last, cut, ran, written⟩

/-- An input of 2049 coarse chunks: when the last one is refined first, its fine chunk arrives
first, and `Reorder` stores behind the end of its array. -/
theorem parallel_out_of_bounds : ∃ (input : Bytes) (coarse : List DataChunk),
    Fragment.chunks everywhere (fun _ => 0) (.preloaded input 0) = some coarse ∧
    ∃ arrivals : List FineChunk,
      arrivals.Perm ((coarse.flatMap (refine wholeChunks)).map DataChunk.toFineChunk) ∧
      ∀ fuel, arrivals.foldlM (Reorder.receive listCache fuel) (Reorder.start listCache) =
        .error .outOfBounds := by
  obtain ⟨coarse, cut, many, numbered⟩ := Fragment.chunks_many 2048
    (List.replicate (2048 * (everywhere.anchorJump + 1) + 1) 0)
    (by rw [List.length_replicate]; exact Nat.lt_succ_self _)
  have member : (⟨⟨2048, 0⟩, true⟩ : FineChunk) ∈
      (coarse.flatMap (refine wholeChunks)).map DataChunk.toFineChunk := by
    rw [refine_all_wholeChunks, numbered]
    refine List.mem_map.mpr ⟨2048, List.mem_map.mpr ⟨2048, List.mem_range.mpr many, ?_⟩, rfl⟩
    norm_num
  refine ⟨_, coarse, cut, _, (List.perm_cons_erase member).symm, fun fuel => ?_⟩
  have stops : Reorder.receive listCache fuel (Reorder.start listCache) ⟨⟨2048, 0⟩, true⟩ =
      .error .outOfBounds := rfl
  rw [List.foldlM_cons, stops]
  rfl

end Sample

end P3arsec.Dedup
